import Lifeguard.Cache
import Lifeguard.SafetyResolver
import Mathlib.Logic.Relation

/-!
# Property candidates

The reduce's pass over the recorded attribute accesses (`cache/reduce.rs`): where the
merged facts show that the receiver's attribute is a property whose getter is not safe, an
error is added to the recording module.

- `resolveReturnClass`: the class a call to the receiver returns, through at most
  `maxReexportHops` re-export aliases;
- `resolvePropertyCandidates`: the pass;
- `Denotes`: what a receiver stands for, through any number of aliases;
- `property_candidates_settled`: no error is added for anything a receiver does not denote,
  and the receivers the bounded walk follows are not dropped.
-/

namespace Lifeguard

open Lib Relation

/-! ## The pass -/

namespace CachedExports

variable (exports : CachedExports)

/-- `return_classes`. -/
def returnClasses : Table ModuleName ModuleName :=
  Table.ofList (exports.returnTypes.map fun rt => (rt.function, rt.returnClass))

/-- `reexport_targets`. -/
def reexportTargets : Table (ModuleName × Str) (ModuleName × Str) :=
  Table.ofList (exports.reExports.map fun re =>
    ((re.exportedModule, re.exportedAttr), (re.importedModule, re.importedAttr)))

/-- `MAX_REEXPORT_HOPS`. -/
def maxReexportHops : Nat := 8

/-- The name one re-export leads to; the name is split at its last dot. -/
def nextAlias (name : ModuleName) : Option ModuleName :=
  (splitAttr name).bind fun p =>
    (exports.reexportTargets.get? p).map fun target => appendStr target.1 target.2

/-- The loop of `resolve_return_class`, with so many rounds left. -/
def returnClassWithin : Nat → ModuleName → Option ModuleName
  | 0, _ => none
  | rounds + 1, name =>
    match exports.returnClasses.get? name with
    | some cls => some cls
    | none =>
      match exports.nextAlias name with
      | none => none
      | some next => if next = name then none else returnClassWithin rounds next

/-- `resolve_return_class`. -/
def resolveReturnClass (receiver : ModuleName) : Option ModuleName :=
  exports.returnClassWithin maxReexportHops receiver

end CachedExports

/-- Class FQN to its property names, as `merge_class_properties` folds them. -/
abbrev ClassProperties := Table ModuleName (Finset Str)

/-- What `resolve_property_candidates` reads besides the modules. -/
structure PropertyFacts where
  exports : CachedExports
  classProperties : ClassProperties
  resolver : SafetyResolver

namespace PropertyFacts

variable (facts : PropertyFacts)

/-- The final verdict of the getter's own entry. -/
def getterVerdict (cls : ModuleName) (attr : Str) : Option FunctionSafety :=
  (facts.resolver.splitAtModule (appendStr cls attr)).bind fun p =>
    facts.resolver.ownVerdict p.1 p.2

/-- The class has such a property, and its getter is not safe. -/
def unsafeProperty (cls : ModuleName) (attr : Str) : Bool :=
  ((facts.classProperties.get? cls).any fun properties => decide (attr ∈ properties)) &&
    (facts.getterVerdict cls attr).any fun verdict => !verdict.isSafe

/-- The error a confirmed candidate is reported as. -/
def propertyError (cls : ModuleName) (attr : Str) (range : TextRange) : SafetyError where
  kind := .unsafeMethodCall
  metadata := appendStr cls attr
  range := range

/-- What one candidate adds. -/
def candidateError (candidate : PropertyCandidate) : Option SafetyError :=
  (splitAttr candidate.attributeName).bind fun p =>
    let cls := (facts.exports.resolveReturnClass p.1).getD p.1
    if facts.unsafeProperty cls p.2 then some (propertyError cls p.2 candidate.range) else none

/-- What the pass does to one module. The candidates of a module whose analysis failed are
dropped. -/
def resolveModule (cached : CachedModule) : CachedModule :=
  match cached.safety with
  | .ok safety =>
    { cached with
      propertyCandidates := []
      safety := .ok
        { safety with
          errors := safety.errors ++ cached.propertyCandidates.filterMap facts.candidateError } }
  | .analysisError _ => { cached with propertyCandidates := [] }

/-- `resolve_property_candidates`. -/
def resolvePropertyCandidates (modules : List CachedModule) : List CachedModule :=
  if facts.classProperties.entries.isEmpty then modules else modules.map facts.resolveModule

end PropertyFacts

/-! ## What a receiver stands for -/

namespace CachedExports

variable {exports : CachedExports} {name next R K D : ModuleName}

/-- The name re-exports the other. -/
def ReExportedTo (exports : CachedExports) (name next : ModuleName) : Prop :=
  ∃ re ∈ exports.reExports, splitAttr name = some (re.exportedModule, re.exportedAttr) ∧
    next = appendStr re.importedModule re.importedAttr

/-- The function has a recorded return type. -/
def Returns (exports : CachedExports) (function K : ModuleName) : Prop :=
  { function := function, returnClass := K } ∈ exports.returnTypes

/-- The receiver stands for a class, or for a function whose recorded return type stands
for it, through any number of re-exports. -/
def Denotes (exports : CachedExports) (R D : ModuleName) : Prop :=
  ReflTransGen exports.ReExportedTo R D ∨
    ∃ f K, ReflTransGen exports.ReExportedTo R f ∧ exports.Returns f K ∧
      ReflTransGen exports.ReExportedTo K D

/-- The first name with a recorded return type is so many re-exports away. -/
def FirstReturn (exports : CachedExports) : Nat → ModuleName → ModuleName → Prop
  | 0, R, K => exports.Returns R K
  | n + 1, R, K => (∀ K', ¬exports.Returns R K') ∧
      ∃ next, exports.ReExportedTo R next ∧ exports.FirstReturn n next K

/-- The class that the bounded walk follows the receiver to: the first recorded return type
within the bound, or else the receiver as it is written. -/
def Follows (exports : CachedExports) (R D : ModuleName) : Prop :=
  (∃ n < maxReexportHops, exports.FirstReturn n R D) ∨
    (R = D ∧ ∀ n < maxReexportHops, ∀ K, ¬exports.FirstReturn n R K)

theorem get?_returnClasses (h : exports.Deduped) :
    exports.returnClasses.get? name = some K ↔ exports.Returns name K := by
  rw [returnClasses, Table.get?_ofList]
  · rw [List.mem_map]
    constructor
    · rintro ⟨rt, hrt, heq⟩
      cases heq
      exact hrt
    · intro hrt
      exact ⟨_, hrt, rfl⟩
  · rw [List.map_map]
    exact h.returnTypes

theorem nextAlias_eq_some (h : exports.Deduped) :
    exports.nextAlias name = some next ↔ exports.ReExportedTo name next := by
  have hget : ∀ p target, exports.reexportTargets.get? p = some target ↔
      ∃ re ∈ exports.reExports, (re.exportedModule, re.exportedAttr) = p ∧
        (re.importedModule, re.importedAttr) = target := by
    intro p target
    rw [reexportTargets, Table.get?_ofList]
    · rw [List.mem_map]
      simp only [Prod.mk.injEq]
    · rw [List.map_map]
      exact h.reExports
  rw [nextAlias, Option.bind_eq_some_iff]
  constructor
  · rintro ⟨p, hsplit, htarget⟩
    obtain ⟨target, hp, rfl⟩ := Option.map_eq_some_iff.mp htarget
    obtain ⟨re, hre, rfl, rfl⟩ := (hget p target).mp hp
    exact ⟨re, hre, hsplit, rfl⟩
  · rintro ⟨re, hre, hsplit, rfl⟩
    exact ⟨_, hsplit, Option.map_eq_some_iff.mpr ⟨_, (hget _ _).mpr ⟨re, hre, rfl, rfl⟩, rfl⟩⟩

/-- What the walk finds is the return type of a function the name stands for. -/
theorem returnClassWithin_sound (h : exports.Deduped) {rounds : Nat}
    (hfound : exports.returnClassWithin rounds name = some K) :
    ∃ f, ReflTransGen exports.ReExportedTo name f ∧ exports.Returns f K := by
  induction rounds generalizing name with
  | zero => cases hfound
  | succ rounds ih =>
    rw [returnClassWithin] at hfound
    cases hclass : exports.returnClasses.get? name with
    | some cls =>
      rw [hclass] at hfound
      cases hfound
      exact ⟨name, ReflTransGen.refl, (get?_returnClasses h).mp hclass⟩
    | none =>
      rw [hclass] at hfound
      cases hnext : exports.nextAlias name with
      | none =>
        rw [hnext] at hfound
        cases hfound
      | some next =>
        rw [hnext] at hfound
        dsimp only at hfound
        split at hfound
        · cases hfound
        · obtain ⟨f, hpath, hreturns⟩ := ih hfound
          exact ⟨f, ReflTransGen.head ((nextAlias_eq_some h).mp hnext) hpath, hreturns⟩

/-- The walk finds the first return type that lies within its rounds. -/
theorem returnClassWithin_of_firstReturn (h : exports.Deduped) {n rounds : Nat}
    (hfirst : exports.FirstReturn n name K) (hn : n < rounds) :
    exports.returnClassWithin rounds name = some K := by
  induction n generalizing name rounds with
  | zero =>
    obtain ⟨rounds, rfl⟩ := Nat.exists_eq_add_one_of_ne_zero (Nat.ne_of_gt hn)
    rw [returnClassWithin, (get?_returnClasses h).mpr hfirst]
  | succ n ih =>
    obtain ⟨hnone, next, hnext, hrest⟩ := hfirst
    have hclass : exports.returnClasses.get? name = none := by
      by_contra hne
      obtain ⟨K', hK'⟩ := Option.ne_none_iff_exists'.mp hne
      exact hnone K' ((get?_returnClasses h).mp hK')
    have hstep : ∀ r, exports.returnClassWithin (r + 1) name =
        if next = name then none else exports.returnClassWithin r next := by
      intro r
      rw [returnClassWithin, hclass, (nextAlias_eq_some h).mpr hnext]
    -- a name that re-exports itself has nothing behind it
    have hne : next ≠ name := by
      intro heq
      have hloop := ih hrest (Nat.lt_succ_self n)
      rw [heq, hstep, if_pos heq] at hloop
      cases hloop
    obtain ⟨rounds, rfl⟩ := Nat.exists_eq_add_one_of_ne_zero (Nat.ne_of_gt (Nat.zero_lt_of_lt hn))
    rw [hstep, if_neg hne]
    exact ih hrest (Nat.lt_of_succ_lt_succ hn)

/-- What the walk finds lies within its rounds. -/
theorem firstReturn_of_returnClassWithin (h : exports.Deduped) {rounds : Nat}
    (hfound : exports.returnClassWithin rounds name = some K) :
    ∃ n < rounds, exports.FirstReturn n name K := by
  induction rounds generalizing name with
  | zero => cases hfound
  | succ rounds ih =>
    rw [returnClassWithin] at hfound
    cases hclass : exports.returnClasses.get? name with
    | some cls =>
      rw [hclass] at hfound
      cases hfound
      exact ⟨0, Nat.succ_pos rounds, (get?_returnClasses h).mp hclass⟩
    | none =>
      rw [hclass] at hfound
      cases hnext : exports.nextAlias name with
      | none =>
        rw [hnext] at hfound
        cases hfound
      | some next =>
        rw [hnext] at hfound
        dsimp only at hfound
        split at hfound
        · cases hfound
        · obtain ⟨n, hn, hfirst⟩ := ih hfound
          refine ⟨n + 1, Nat.succ_lt_succ hn, fun K' hK' => ?_, next,
            (nextAlias_eq_some h).mp hnext, hfirst⟩
          rw [(get?_returnClasses h).mpr hK'] at hclass
          cases hclass

/-- The class the pass looks at is the one the bounded walk follows the receiver to. -/
theorem resolved_iff_follows (h : exports.Deduped) :
    (exports.resolveReturnClass R).getD R = D ↔ exports.Follows R D := by
  rw [resolveReturnClass]
  constructor
  · intro hD
    cases hfound : exports.returnClassWithin maxReexportHops R with
    | some K =>
      rw [hfound] at hD
      cases hD
      exact Or.inl (firstReturn_of_returnClassWithin h hfound)
    | none =>
      rw [hfound] at hD
      refine Or.inr ⟨hD, fun n hn K hfirst => ?_⟩
      rw [returnClassWithin_of_firstReturn h hfirst hn] at hfound
      cases hfound
  · rintro (⟨n, hn, hfirst⟩ | ⟨rfl, hno⟩)
    · rw [returnClassWithin_of_firstReturn h hfirst hn]
      rfl
    · cases hfound : exports.returnClassWithin maxReexportHops R with
      | some K =>
        obtain ⟨n, hn, hfirst⟩ := firstReturn_of_returnClassWithin h hfound
        exact absurd hfirst (hno n hn K)
      | none => rfl

/-- The bounded walk leads to a class the receiver stands for. -/
theorem denotes_of_resolved (h : exports.Deduped)
    (hD : (exports.resolveReturnClass R).getD R = D) : exports.Denotes R D := by
  cases hfound : exports.resolveReturnClass R with
  | none =>
    rw [hfound] at hD
    cases hD
    exact Or.inl ReflTransGen.refl
  | some K =>
    rw [hfound] at hD
    cases hD
    obtain ⟨f, hpath, hreturns⟩ := returnClassWithin_sound h hfound
    exact Or.inr ⟨f, _, hpath, hreturns, ReflTransGen.refl⟩

end CachedExports

/-! ## What the pass adds -/

namespace PropertyFacts

variable {facts : PropertyFacts} {candidate : PropertyCandidate} {e : SafetyError}

theorem candidateError_eq_some :
    facts.candidateError candidate = some e ↔
      ∃ R attr, splitAttr candidate.attributeName = some (R, attr) ∧
        facts.unsafeProperty ((facts.exports.resolveReturnClass R).getD R) attr = true ∧
        e = propertyError ((facts.exports.resolveReturnClass R).getD R) attr candidate.range := by
  rw [candidateError, Option.bind_eq_some_iff]
  constructor
  · rintro ⟨⟨R, attr⟩, hsplit, herr⟩
    dsimp only at herr
    split at herr
    · next hprop =>
      cases herr
      exact ⟨R, attr, hsplit, hprop, rfl⟩
    · cases herr
  · rintro ⟨R, attr, hsplit, hprop, rfl⟩
    exact ⟨(R, attr), hsplit, if_pos hprop⟩

/-- Without a property in the merged facts, no getter is looked at. -/
theorem candidateError_of_isEmpty (h : facts.classProperties.entries.isEmpty = true) :
    facts.candidateError candidate = none := by
  by_contra hne
  obtain ⟨e, he⟩ := Option.ne_none_iff_exists'.mp hne
  obtain ⟨R, attr, -, hprop, -⟩ := candidateError_eq_some.mp he
  rw [List.isEmpty_iff] at h
  rw [unsafeProperty, Table.get?, h] at hprop
  cases hprop

/-- A module whose analysis succeeded keeps its errors and gets those of its candidates. -/
theorem errors_resolvePropertyCandidates (facts : PropertyFacts) {modules : List CachedModule}
    {i : Nat} {cached : CachedModule} {safety : CachedModuleSafety} (hget : modules[i]? = some cached)
    (hok : cached.safety = .ok safety) :
    ∃ after safety', (facts.resolvePropertyCandidates modules)[i]? = some after ∧
      after.safety = .ok safety' ∧
      safety'.errors = safety.errors ++ cached.propertyCandidates.filterMap facts.candidateError := by
  rw [resolvePropertyCandidates]
  split
  · next hempty =>
    refine ⟨cached, safety, hget, hok, ?_⟩
    rw [List.filterMap_eq_nil_iff.mpr fun _ _ => candidateError_of_isEmpty hempty,
      List.append_nil]
  · refine ⟨facts.resolveModule cached,
      { safety with
        errors := safety.errors ++ cached.propertyCandidates.filterMap facts.candidateError },
      by rw [List.getElem?_map, hget]; rfl, ?_, rfl⟩
    rw [resolveModule, hok]

/-- Every error the pass adds is that of an unsafe getter on a class the receiver denotes,
and none is missing whose class the bounded walk follows the receiver to. -/
theorem property_candidates_settled (h : facts.exports.Deduped) {modules : List CachedModule}
    {i : Nat} {cached : CachedModule} {safety : CachedModuleSafety}
    (hget : modules[i]? = some cached) (hok : cached.safety = .ok safety) :
    ∃ after safety', (facts.resolvePropertyCandidates modules)[i]? = some after ∧
      after.safety = .ok safety' ∧
      (∀ e ∈ safety.errors, e ∈ safety'.errors) ∧
      (∀ e ∈ safety'.errors, e ∈ safety.errors ∨
        ∃ candidate ∈ cached.propertyCandidates, ∃ R attr D,
          splitAttr candidate.attributeName = some (R, attr) ∧ facts.exports.Denotes R D ∧
            facts.unsafeProperty D attr = true ∧ e = propertyError D attr candidate.range) ∧
      ∀ candidate ∈ cached.propertyCandidates, ∀ R attr D,
        splitAttr candidate.attributeName = some (R, attr) → facts.exports.Follows R D →
          facts.unsafeProperty D attr = true →
            propertyError D attr candidate.range ∈ safety'.errors := by
  obtain ⟨after, safety', hafter, hsafety, herrors⟩ :=
    facts.errors_resolvePropertyCandidates hget hok
  refine ⟨after, safety', hafter, hsafety, fun e he => ?_, fun e he => ?_,
    fun candidate hmem R attr D hsplit hfollows hprop => ?_⟩
  · rw [herrors]
    exact List.mem_append_left _ he
  · rw [herrors] at he
    refine (List.mem_append.mp he).imp_right fun hnew => ?_
    obtain ⟨candidate, hmem, herr⟩ := List.mem_filterMap.mp hnew
    obtain ⟨R, attr, hsplit, hprop, rfl⟩ := candidateError_eq_some.mp herr
    exact ⟨candidate, hmem, R, attr, _, hsplit, CachedExports.denotes_of_resolved h rfl, hprop,
      rfl⟩
  · rw [herrors]
    obtain rfl := (CachedExports.resolved_iff_follows h).mpr hfollows
    exact List.mem_append_right _ (List.mem_filterMap.mpr
      ⟨candidate, hmem, candidateError_eq_some.mpr ⟨R, attr, hsplit, hprop, rfl⟩⟩)

/-! ## A chain of facades -/

/-- The name `f` in the module of this number. -/
def facadeName (i : Nat) : ModuleName := appendStr ('m' :: List.replicate i '_') "f".toList

/-- Modules `m`, `m_`, … that re-export `f` from the next, so many times, to the function
that returns `k.K`. -/
def facades (hops : Nat) : CachedExports where
  reExports := (List.range hops).map fun i =>
    { exportedModule := 'm' :: List.replicate i '_'
      exportedAttr := "f".toList
      importedModule := 'm' :: List.replicate (i + 1) '_'
      importedAttr := "f".toList }
  returnTypes := [{ function := facadeName hops, returnClass := fromStr "k.K" }]

/-- Behind these facades, `k.K` has a property whose getter is unsafe. -/
def facadeFacts (hops : Nat) : PropertyFacts where
  exports := facades hops
  classProperties := Table.ofList [(fromStr "k.K", {"p".toList})]
  resolver :=
    { modules := {fromStr "k", fromStr "app"}
      byModule := Table.ofList
        [(fromStr "k", Table.ofList [(fromStr "K.p", .new {.hardUnsafe})])] }

/-- The module that reads `f().p`. -/
def facadeUser : CachedModule where
  name := fromStr "app"
  propertyCandidates := [{ attributeName := appendStr (facadeName 0) "p".toList }]

theorem property_candidates_settled_facade :
    ∃ after safety', ((facadeFacts 1).resolvePropertyCandidates [facadeUser])[0]? = some after ∧
      after.safety = .ok safety' ∧
      (∀ e ∈ ({} : CachedModuleSafety).errors, e ∈ safety'.errors) ∧
      (∀ e ∈ safety'.errors, e ∈ ({} : CachedModuleSafety).errors ∨
        ∃ candidate ∈ facadeUser.propertyCandidates, ∃ R attr D,
          splitAttr candidate.attributeName = some (R, attr) ∧
            (facadeFacts 1).exports.Denotes R D ∧
            (facadeFacts 1).unsafeProperty D attr = true ∧
            e = propertyError D attr candidate.range) ∧
      ∀ candidate ∈ facadeUser.propertyCandidates, ∀ R attr D,
        splitAttr candidate.attributeName = some (R, attr) →
          (facadeFacts 1).exports.Follows R D → (facadeFacts 1).unsafeProperty D attr = true →
            propertyError D attr candidate.range ∈ safety'.errors :=
  property_candidates_settled ⟨by decide +kernel, by decide +kernel⟩ rfl rfl

/-- Eight re-exports away, the return type is out of reach: the receiver denotes the class
with the unsafe getter, and no error is added. -/
theorem eighth_facade_not_followed :
    splitAttr (appendStr (facadeName 0) "p".toList) = some (facadeName 0, "p".toList) ∧
      (facadeFacts 8).exports.Deduped ∧
      (facadeFacts 8).exports.Denotes (facadeName 0) (fromStr "k.K") ∧
      (facadeFacts 8).unsafeProperty (fromStr "k.K") "p".toList = true ∧
      ((facadeFacts 8).resolvePropertyCandidates [facadeUser]).map CachedModule.safety =
        [.ok {}] := by
  have hdeduped : (facadeFacts 8).exports.Deduped := ⟨by decide +kernel, by decide +kernel⟩
  have hhop : ∀ i < 8, (facadeFacts 8).exports.ReExportedTo (facadeName i) (facadeName (i + 1)) :=
    fun i hi => (CachedExports.nextAlias_eq_some hdeduped).mp (by
      revert i
      decide +kernel)
  have hpath : ∀ i ≤ 8, ReflTransGen (facadeFacts 8).exports.ReExportedTo (facadeName 0)
      (facadeName i) := by
    intro i hi
    induction i with
    | zero => exact ReflTransGen.refl
    | succ i ih => exact (ih (Nat.le_of_succ_le hi)).tail (hhop i hi)
  refine ⟨by decide +kernel, hdeduped, Or.inr ⟨facadeName 8, fromStr "k.K", hpath 8 le_rfl, ?_,
    ReflTransGen.refl⟩, by decide +kernel, by decide +kernel⟩
  exact List.mem_singleton.mpr rfl

end PropertyFacts

end Lifeguard
