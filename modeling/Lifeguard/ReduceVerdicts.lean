import Lifeguard.PromotionRun
import Lifeguard.ReduceErrors

/-!
# The verdicts a reduce settles

What becomes of a verdict from the record of a library to the resolved cache: it travels along
the re-exports, then mutation candidates are confirmed and discharged, and functions that only
waited for a dependency are promoted.

- `SettledEntry`: what `resolve_program` may do to one entry, and `settledEntry_resolveProgram`;
- `verdicts_resolve`: which functions end unsafe, and what the other verdicts may become;
- `Upholds`: a resolver that clears whatever another one clears (`Upholds.clears`);
- `cleared_on_settled_verdicts`: no later phase revokes what the first clearing relies on.
-/

namespace Lifeguard

open Lib

/-! ## One entry through the resolution -/

/-- What the resolution may leave of an entry whose confirmed candidates have these callees. -/
structure SettledEntry (confirmed : Finset ModuleName) (info info' : FunctionSafetyInfo) :
    Prop where
  hard : .hardUnsafe ∈ info'.verdict ↔ .hardUnsafe ∈ info.verdict ∨ confirmed ≠ ∅
  imported : .unsafeIfImported ∈ info.verdict → .unsafeIfImported ∈ info'.verdict
  missing : .unsafeMissingDep ∈ info'.verdict → .unsafeMissingDep ∈ info.verdict
  /-- A verdict that blocks nothing stays, unless a candidate is confirmed. -/
  clear : NonBlocking info.verdict → confirmed = ∅ → info'.verdict = info.verdict
  mutatedParams : info'.mutatedParams = info.mutatedParams

theorem settledEntry_confirmAll (cs : Finset ModuleName) (info : FunctionSafetyInfo) :
    SettledEntry cs info (confirmAll cs info) := by
  by_cases hcs : cs = ∅
  · subst hcs
    rw [confirmAll_empty]
    exact ⟨by simp, id, id, fun _ _ => rfl, rfl⟩
  · rw [confirmAll_of_nonempty hcs]
    refine ⟨iff_of_true ?_ (Or.inr hcs), ?_, ?_, fun _ h => absurd h hcs, rfl⟩
    · dsimp only
      split <;> simp
    · intro h
      dsimp only
      split <;> simp [h]
    · intro h
      dsimp only at h
      split at h <;> simp_all

theorem SettledEntry.discharge {confirmed cs : Finset ModuleName}
    {info info' : FunctionSafetyInfo} (h : SettledEntry confirmed info info') :
    SettledEntry confirmed info (dischargeAll cs info') := by
  have hsame : ∀ c, c ≠ .unsafeMissingDep →
      (c ∈ (dischargeAll cs info').verdict ↔ c ∈ info'.verdict) := by
    intro c hc
    by_cases hcs : cs = ∅
    · rw [hcs, dischargeAll_empty]
    · rw [dischargeAll_of_nonempty hcs]
      dsimp only
      split
      · exact Finset.mem_erase.trans (and_iff_right hc)
      · exact Iff.rfl
  have hsubset := dischargeAll_verdict_subset cs info'
  refine ⟨(hsame _ (by decide)).trans h.hard, fun hi => (hsame _ (by decide)).mpr (h.imported hi),
    fun hm => h.missing (hsubset hm), fun hclear hnone => ?_, ?_⟩
  · have hverdict := h.clear hclear hnone
    refine (Finset.Subset.antisymm hsubset fun c hc => ?_).trans hverdict
    refine (hsame c ?_).mpr hc
    rintro rfl
    exact (hverdict ▸ hclear).not_mem_missingDep hc
  · refine Eq.trans ?_ h.mutatedParams
    by_cases hcs : cs = ∅
    · rw [hcs, dischargeAll_empty]
    · rw [dischargeAll_of_nonempty hcs]

/-- What the candidates and the promotion leave of the entries: an entry stays one, and a new
one does not appear. -/
theorem settledEntry_resolveProgram (names : Finset ModuleName) (fs : FunctionSafetyMap)
    (candidates : List (ModuleName × List MutationCandidate)) (needed : Finset Str)
    (search : NameSearch) (m : ModuleName) (n : Str) :
    (getFunctionSafety fs m n = none →
      getFunctionSafety (resolveProgram names fs candidates needed search).functionSafety m n =
        none) ∧
    ∀ info, getFunctionSafety fs m n = some info → ∃ info',
      getFunctionSafety (resolveProgram names fs candidates needed search).functionSafety m n =
        some info' ∧
      SettledEntry (confirmedAt (candidatePairs candidates) names fs m n) info info' := by
  let applied := applyMutationCandidates candidates names fs
  let P := promotionInput names applied needed search
  have hinv := promoteFixpoint_inv P
  have happlied := getFunctionSafety_applyMutationCandidates candidates names fs m n
  rw [getFunctionSafety_confirmCandidates] at happlied
  show (_ → getFunctionSafety (promoteFixpoint P).functionSafety m n = none) ∧
    ∀ info, _ → ∃ info', getFunctionSafety (promoteFixpoint P).functionSafety m n = _ ∧ _
  constructor
  · intro hnone
    rw [hnone] at happlied
    by_cases hpromoted : (m, n) ∈ (promoteFixpoint P).promoted
    · obtain ⟨info, v, hentry⟩ := hinv.promotedEntry m n hpromoted
      have hinitial := hentry.initial
      rw [show getFunctionSafety P.functionSafety m n = none from happlied] at hinitial
      cases hinitial
    · rw [hinv.unpromoted m n hpromoted]
      exact happlied
  · intro info hinfo
    rw [hinfo] at happlied
    let edited := dischargeAll (dischargedAt (candidatePairs candidates) names fs
      (confirmCandidates (candidatePairs candidates) names fs).functionSafety m n)
      (confirmAll (confirmedAt (candidatePairs candidates) names fs m n) info)
    have hedited : SettledEntry (confirmedAt (candidatePairs candidates) names fs m n) info
        edited := (settledEntry_confirmAll _ info).discharge
    have hinput : getFunctionSafety P.functionSafety m n = some edited := happlied
    by_cases hpromoted : (m, n) ∈ (promoteFixpoint P).promoted
    · obtain ⟨info₀, v, hentry⟩ := hinv.promotedEntry m n hpromoted
      have heq : info₀ = edited := Option.some.inj (hentry.initial.symm.trans hinput)
      subst heq
      refine ⟨_, hentry.now, ?_⟩
      have hnotHard : Concern.hardUnsafe ∉ edited.verdict := hentry.promotable.notHard
      refine ⟨?_, fun hi => ?_, fun hm => ?_, fun hclear hnone => ?_, hedited.mutatedParams⟩
      · refine iff_of_false (fun hv => ?_) (hedited.hard.not.mp hnotHard)
        have := hentry.nonBlocking hv
        simp at this
      · exact hentry.keeps (Finset.mem_erase.mpr ⟨by decide, hedited.imported hi⟩)
      · exact absurd hm hentry.nonBlocking.not_mem_missingDep
      · -- what is promoted waited for a dependency
        have hverdict := hedited.clear hclear hnone
        exact absurd (hverdict ▸ hentry.promotable.missingDep) hclear.not_mem_missingDep
    · refine ⟨edited, ?_, hedited⟩
      rw [hinv.unpromoted m n hpromoted]
      exact hinput

/-! ## From the records to the resolved cache -/

namespace ReduceWorkspace

variable {w : ReduceWorkspace} {mainModule : Option ModuleName}

theorem functionSafety_shared (w : ReduceWorkspace) (mainModule : Option ModuleName) :
    (w.shared mainModule).facts.functionSafety =
      (w.entered mainModule).propagateReExportSafety.functionSafety := by
  rw [facts_shared]
  rfl

/-- Which entries are edited by a candidate of their own: the callees of those that mutate. -/
def confirmed (w : ReduceWorkspace) (mainModule : Option ModuleName) (x : Attribute) :
    Finset ModuleName :=
  confirmedAt (candidatePairs (w.candidates mainModule)) (w.shared mainModule).facts.moduleNames
    (w.shared mainModule).facts.functionSafety x.1 x.2

theorem settledEntry_outcome (w : ReduceWorkspace) (mainModule : Option ModuleName)
    (x : Attribute) :
    ((w.entered mainModule).propagateReExportSafety.entry x = none →
      getFunctionSafety (w.shared mainModule).outcome.functionSafety x.1 x.2 = none) ∧
    ∀ info, (w.entered mainModule).propagateReExportSafety.entry x = some info →
      ∃ info', getFunctionSafety (w.shared mainModule).outcome.functionSafety x.1 x.2 =
        some info' ∧ SettledEntry (w.confirmed mainModule x) info info' := by
  have hsettled := settledEntry_resolveProgram (w.shared mainModule).facts.moduleNames
    (w.shared mainModule).facts.functionSafety (w.candidates mainModule)
    (w.neededUnqualified mainModule) .probeStr x.1 x.2
  rw [← w.outcome_shared mainModule] at hsettled
  rw [LibraryCache.entry, ← functionSafety_shared]
  exact hsettled

theorem functionSafety_settle (shared : SharedFacts) (m : CachedModule) :
    (shared.settle m).functionSafety =
      (shared.outcome.functionSafety.get? m.name).getD Table.empty := by
  have hname := shared.name_settle m
  have hkept : ∀ m', (shared.addProperties m').functionSafety = m'.functionSafety ∧
      (shared.register m').functionSafety = m'.functionSafety := by
    intro m'
    rw [SharedFacts.addProperties, SharedFacts.register, PropertyFacts.resolveModule]
    constructor
    · split
      · rfl
      · split <;> rfl
    · split <;> rfl
  obtain ⟨imports, missingImports, heq⟩ := shared.facts.resolveImports_snd m
  have hempty : ((shared.facts.resolveImports m).2).functionSafety = Table.empty := by rw [heq]
  show ((shared.outcome.functionSafety.get? (shared.addProperties _).name).getD _) = _
  rw [show (shared.addProperties _).name = m.name from hname, (hkept _).1]
  refine congrArg _ ?_
  exact (hkept _).2.trans hempty

/-- The verdicts of the resolved cache are those of the outcome. -/
theorem entry_resolve (w : ReduceWorkspace) (mainModule : Option ModuleName) (x : Attribute) :
    (w.resolve mainModule).cache.entry x =
      getFunctionSafety (w.shared mainModule).outcome.functionSafety x.1 x.2 := by
  have hfinal : (w.resolve mainModule).cache.Merged := (w.resolve mainModule).names_nodup
  rw [LibraryCache.entry, getFunctionSafety]
  cases hget : (w.resolve mainModule).cache.functionSafety.get? x.1 with
  | some fns =>
    obtain ⟨final, hmem, hname, rfl⟩ := (LibraryCache.get?_functionSafety hfinal).mp hget
    obtain ⟨m, hm, rfl⟩ := mem_modules_resolve.mp hmem
    rw [SharedFacts.name_settle] at hname
    rw [Option.bind_some, functionSafety_settle, hname, getFunctionSafety]
    cases (w.shared mainModule).outcome.functionSafety.get? x.1 <;> rfl
  | none =>
    -- a module that is not merged has no entry, neither before nor after
    have hnot : x.1 ∉ (w.entered mainModule).modules.map CachedModule.name := by
      intro hmem
      have hsome := (LibraryCache.isSome_functionSafety hfinal (m := x.1)).mpr ?_
      · rw [hget] at hsome
        cases hsome
      · obtain ⟨m, hm, hname⟩ := List.mem_map.mp hmem
        exact List.mem_map.mpr ⟨_, mem_modules_resolve.mpr ⟨m, hm, rfl⟩,
          (SharedFacts.name_settle _ m).trans hname⟩
    have hentered : (w.entered mainModule).Merged := w.names_entered mainModule
    refine ((w.settledEntry_outcome mainModule x).1 ?_).symm
    rw [LibraryCache.entry_propagateReExportSafety hentered, getFunctionSafety]
    have hok : PropagationOk (w.entered mainModule).exports.reExports
        (w.entered mainModule).functionSafety
        (propagation (w.entered mainModule).exports.reExports
          (w.entered mainModule).functionSafety).value := propagation_ok
    have hmodules := hok.modules x.1
    cases hprop : (propagation (w.entered mainModule).exports.reExports
        (w.entered mainModule).functionSafety).value.get? x.1 with
    | none => rfl
    | some fns =>
      rw [hprop] at hmodules
      exact absurd ((LibraryCache.isSome_functionSafety hentered).mp hmodules.symm) hnot

/-- A candidate of the function mutates what it is handed. -/
def CandidateConfirmed (w : ReduceWorkspace) (mainModule : Option ModuleName) (x : Attribute) :
    Prop :=
  ∃ m ∈ (w.entered mainModule).modules, m.name = x.1 ∧ ∃ candidate ∈ m.mutationCandidates,
    candidate.site = .function x.2 ∧ candidateMutates candidate
      ⟨(w.shared mainModule).facts.moduleNames, (w.shared mainModule).facts.functionSafety⟩ = true

theorem confirmed_ne_empty {x : Attribute} :
    w.confirmed mainModule x ≠ ∅ ↔ w.CandidateConfirmed mainModule x := by
  rw [← Finset.nonempty_iff_ne_empty]
  constructor
  · rintro ⟨callee, hcallee⟩
    obtain ⟨candidate, hpair, hsite, -, hmutates⟩ := mem_confirmedAt.mp hcallee
    obtain ⟨candidates, hin, hcandidate⟩ := mem_candidatePairs.mp hpair
    obtain ⟨m, hm, heq⟩ := List.mem_map.mp hin
    obtain ⟨hname, rfl⟩ := Prod.mk.inj heq
    exact ⟨m, hm, hname, candidate, hcandidate, hsite, hmutates⟩
  · rintro ⟨m, hm, hname, candidate, hcandidate, hsite, hmutates⟩
    refine ⟨candidate.callee, mem_confirmedAt.mpr ⟨candidate, ?_, hsite, rfl, hmutates⟩⟩
    exact mem_candidatePairs.mpr ⟨m.mutationCandidates,
      List.mem_map.mpr ⟨m, hm, Prod.ext hname rfl⟩, hcandidate⟩

/-- A name of the resolved cache has a verdict when it, or a name it re-exports through any
number of modules, has one in a record. It is unsafe exactly when one of these records says so
or a candidate of the function itself mutates what it is handed; it keeps what these records
say of calls from other modules; and it waits for a dependency only if one of them does. -/
theorem verdicts_resolve (w : ReduceWorkspace) (mainModule : Option ModuleName)
    (x : Attribute) :
    (((w.resolve mainModule).cache.entry x).isSome ↔
      ((w.entered mainModule).reachableEntries x).Nonempty) ∧
    ∀ info, (w.resolve mainModule).cache.entry x = some info →
      (.hardUnsafe ∈ info.verdict ↔
        (∃ e ∈ (w.entered mainModule).reachableEntries x, .hardUnsafe ∈ e.verdict) ∨
          w.CandidateConfirmed mainModule x) ∧
      ((∃ e ∈ (w.entered mainModule).reachableEntries x, .unsafeIfImported ∈ e.verdict) →
        .unsafeIfImported ∈ info.verdict) ∧
      (.unsafeMissingDep ∈ info.verdict →
        ∃ e ∈ (w.entered mainModule).reachableEntries x, .unsafeMissingDep ∈ e.verdict) := by
  have hentered : (w.entered mainModule).Merged := w.names_entered mainModule
  obtain ⟨hnone, hsome⟩ := w.settledEntry_outcome mainModule x
  have hfacts : ∀ f, f ∈ (((w.entered mainModule).propagateReExportSafety.entry x).map
      FunctionSafetyInfo.factSet).getD ∅ ↔
        ∃ e ∈ (w.entered mainModule).reachableEntries x, f ∈ e.factSet :=
    fun _ => LibraryCache.mem_facts_propagateReExportSafety hentered
  rw [entry_resolve]
  cases hentry : (w.entered mainModule).propagateReExportSafety.entry x with
  | none =>
    rw [hnone hentry]
    refine ⟨iff_of_false (by simp) ?_, fun _ h => absurd h (by simp)⟩
    rintro ⟨e, he⟩
    have hpresent := (hfacts .present).mpr ⟨e, he, FunctionSafetyInfo.mem_factSet.mpr trivial⟩
    rw [hentry] at hpresent
    exact absurd hpresent (Finset.notMem_empty _)
  | some propagated =>
    obtain ⟨info', hinfo', hsettled⟩ := hsome propagated hentry
    rw [hentry] at hfacts
    have hconcern : ∀ c, c ∈ propagated.verdict ↔
        ∃ e ∈ (w.entered mainModule).reachableEntries x, c ∈ e.verdict := by
      intro c
      have hc := hfacts (.concern c)
      simp only [Option.map_some, Option.getD_some, FunctionSafetyInfo.mem_factSet] at hc
      exact hc
    rw [hinfo']
    refine ⟨iff_of_true rfl ?_, fun info h => ?_⟩
    · obtain ⟨e, he, -⟩ := (hfacts .present).mp (FunctionSafetyInfo.mem_factSet.mpr trivial)
      exact ⟨e, he⟩
    · cases h
      refine ⟨?_, fun h => hsettled.imported ((hconcern _).mpr h),
        fun h => (hconcern _).mp (hsettled.missing h)⟩
      rw [hsettled.hard, hconcern, confirmed_ne_empty]

end ReduceWorkspace

/-! ## Verdicts that are kept -/

/-- A verdict that blocks nothing is still there, and there is one where there was one. -/
structure VerdictKept (o o' : Option FunctionSafety) : Prop where
  isSome : o'.isSome = o.isSome
  clear : ∀ v, o = some v → NonBlocking v → o' = some v

theorem VerdictKept.refl (o : Option FunctionSafety) : VerdictKept o o :=
  ⟨rfl, fun _ h _ => h⟩

theorem VerdictKept.eq_none {o o' : Option FunctionSafety} (h : VerdictKept o o')
    (hnone : o = none) : o' = none := by
  have hsome := h.isSome
  rwa [hnone, Option.isSome_none, Option.isSome_eq_false_iff, Option.isNone_iff_eq_none] at hsome

theorem VerdictKept.any_isSafe {o o' : Option FunctionSafety} (h : VerdictKept o o')
    (hsafe : (o.any fun v => FunctionSafety.isSafe v) = true) :
    (o'.any fun v => FunctionSafety.isSafe v) = true := by
  cases ho : o with
  | none =>
    rw [ho] at hsafe
    cases hsafe
  | some v =>
    rw [ho] at hsafe
    have hempty : v = ∅ := FunctionSafety.isSafe_iff.mp hsafe
    rw [h.clear v ho (hempty ▸ nonBlocking_empty)]
    exact hsafe

/-- A callee without a verdict counts as unsafe, so one that clears has a verdict. -/
theorem VerdictKept.getD_eq {o o' : Option FunctionSafety} (h : VerdictKept o o')
    (hclear : NonBlocking (o.getD {.hardUnsafe})) :
    o'.getD {.hardUnsafe} = o.getD {.hardUnsafe} := by
  cases ho : o with
  | none =>
    rw [ho] at hclear
    exact absurd hclear (by decide)
  | some v =>
    rw [ho] at hclear
    rw [h.clear v ho hclear]

/-- Of several places, the same one is the first to have a verdict. -/
theorem VerdictKept.findSome {α : Type} {l : List α} {f f' : α → Option FunctionSafety}
    (h : ∀ a, VerdictKept (f a) (f' a)) : VerdictKept (l.findSome? f) (l.findSome? f') := by
  induction l with
  | nil => exact VerdictKept.refl _
  | cons a l ih =>
    rw [List.findSome?_cons, List.findSome?_cons]
    have ha := h a
    cases hf : f a with
    | none =>
      rw [ha.eq_none hf]
      exact ih
    | some v =>
      cases hf' : f' a with
      | none =>
        have := ha.isSome
        rw [hf, hf'] at this
        cases this
      | some v' => exact ⟨rfl, fun u hu hclear => by rw [← hf', ha.clear u (hf.trans hu) hclear]⟩

/-- Wherever a name is found, its verdict is kept. -/
theorem VerdictKept.bind {α : Type} (p : Option α) {f f' : α → Option FunctionSafety}
    (h : ∀ a, VerdictKept (f a) (f' a)) : VerdictKept (p.bind f) (p.bind f') := by
  cases p with
  | none => exact VerdictKept.refl _
  | some a => exact h a

/-- The entries of the second map are those of the first, and verdicts that block nothing are
kept. -/
def KeepsVerdicts (fs fs' : FunctionSafetyMap) : Prop :=
  ∀ m n, VerdictKept ((getFunctionSafety fs m n).map fun info => info.verdict)
    ((getFunctionSafety fs' m n).map fun info => info.verdict)

/-- Two resolvers that scan the same modules, of which the second has kept the verdicts of the
first. -/
structure Upholds (R R' : SafetyResolver) : Prop where
  modules : R'.modules = R.modules
  scans : R.globallySafe = none ∧ R'.globallySafe = none
  classBases : R'.classBases = R.classBases
  constructorCallees : R'.constructorCallees = R.constructorCallees
  mroModules : R'.mroModules = R.mroModules
  verdicts : KeepsVerdicts R.byModule R'.byModule

namespace Upholds

variable {R R' : SafetyResolver} (h : Upholds R R')

include h

theorem splitAtModule (name : Str) : R'.splitAtModule name = R.splitAtModule name := by
  rw [SafetyResolver.splitAtModule, SafetyResolver.splitAtModule, h.modules]

theorem ownVerdict (m : ModuleName) (localName : Str) :
    VerdictKept (R.ownVerdict m localName) (R'.ownVerdict m localName) := h.verdicts m localName

theorem mroMethodVerdict (m : ModuleName) (localName : Str) :
    VerdictKept (R.mroMethodVerdict m localName) (R'.mroMethodVerdict m localName) := by
  unfold SafetyResolver.mroMethodVerdict
  rw [h.classBases, h.mroModules, h.modules]
  refine VerdictKept.bind _ fun classBases => VerdictKept.bind _ fun p => ?_
  refine VerdictKept.findSome fun ancestor => VerdictKept.bind _ fun q => ?_
  exact h.ownVerdict q.1 q.2

theorem qualifiedSafe {m : ModuleName} {localName : Str}
    (hsafe : R.qualifiedSafe m localName = true) : R'.qualifiedSafe m localName = true := by
  unfold SafetyResolver.qualifiedSafe at *
  have hown := h.ownVerdict m localName
  cases hR : R.ownVerdict m localName with
  | some v =>
    rw [hR] at hsafe
    have hempty := FunctionSafety.isSafe_iff.mp hsafe
    rw [hown.clear v hR (hempty ▸ nonBlocking_empty)]
    exact hsafe
  | none =>
    rw [hR] at hsafe
    rw [hown.eq_none hR]
    exact (h.mroMethodVerdict m localName).any_isSafe hsafe

theorem safe_entry (m : ModuleName) (localName : Str)
    (hsafe : ((getFunctionSafety R.byModule m localName).any
      fun info => FunctionSafety.isSafe info.verdict) = true) :
    ((getFunctionSafety R'.byModule m localName).any
      fun info => FunctionSafety.isSafe info.verdict) = true := by
  have hkept := (h.verdicts m localName).any_isSafe
  rw [Option.any_map, Option.any_map] at hkept
  exact hkept hsafe

theorem unqualifiedSafe {name : Str} (hsafe : R.unqualifiedSafe name = true) :
    R'.unqualifiedSafe name = true := by
  unfold SafetyResolver.unqualifiedSafe at *
  rw [h.scans.1] at hsafe
  rw [h.scans.2, h.modules]
  obtain ⟨m, hm, hentry⟩ := of_decide_eq_true hsafe
  exact decide_eq_true ⟨m, hm, h.safe_entry m name hentry⟩

theorem isCallVerifiedSafe {name : Str} (hsafe : R.isCallVerifiedSafe name = true) :
    R'.isCallVerifiedSafe name = true := by
  unfold SafetyResolver.isCallVerifiedSafe at *
  rw [h.splitAtModule]
  cases hsplit : R.splitAtModule name with
  | some p =>
    rw [hsplit] at hsafe
    exact h.qualifiedSafe hsafe
  | none =>
    rw [hsplit] at hsafe
    exact h.unqualifiedSafe hsafe

theorem isCallVerifiedSafeNoUnqualified {name : Str}
    (hsafe : R.isCallVerifiedSafeNoUnqualified name = true) :
    R'.isCallVerifiedSafeNoUnqualified name = true := by
  unfold SafetyResolver.isCallVerifiedSafeNoUnqualified at *
  rw [h.splitAtModule]
  cases hsplit : R.splitAtModule name with
  | some p =>
    rw [hsplit] at hsafe
    exact h.qualifiedSafe hsafe
  | none =>
    rw [hsplit] at hsafe
    cases hsafe

/-- A decorator factory stays safe, with the functions nested in it. -/
theorem decoratorSafeIn {m : ModuleName} {localName : Str}
    (hsafe : R.decoratorSafeIn m localName = true) : R'.decoratorSafeIn m localName = true := by
  unfold SafetyResolver.decoratorSafeIn at *
  cases hR : R.byModule.get? m with
  | none =>
    rw [hR] at hsafe
    cases hsafe
  | some fns =>
    rw [hR, Option.any_some] at hsafe
    have hsafe' : lookupInSafetyMap localName fns = true := by
      unfold lookupDecoratorInSafetyMap at hsafe
      cases hlookup : lookupInSafetyMap localName fns with
      | true => rfl
      | false => simp [hlookup] at hsafe
    have hentry := h.safe_entry m localName (by
      rw [getFunctionSafety, hR]
      exact hsafe')
    cases hR' : R'.byModule.get? m with
    | none =>
      rw [getFunctionSafety, hR'] at hentry
      cases hentry
    | some fns' =>
      -- the module's entries in the two maps, name by name
      have hkept : ∀ n, VerdictKept ((fns.get? n).map fun info => info.verdict)
          ((fns'.get? n).map fun info => info.verdict) := by
        intro n
        have := h.verdicts m n
        rwa [getFunctionSafety, getFunctionSafety, hR, hR'] at this
      have hkeys : ∀ n, (fns'.get? n).isSome = (fns.get? n).isSome := by
        intro n
        have := (hkept n).isSome
        rwa [Option.isSome_map, Option.isSome_map] at this
      rw [getFunctionSafety, hR'] at hentry
      rw [Option.any_some]
      unfold lookupDecoratorInSafetyMap at *
      rw [show lookupInSafetyMap localName fns' = true from hentry]
      rw [hsafe'] at hsafe
      have hclass : isClassLikeEntry localName fns' = isClassLikeEntry localName fns := by
        unfold isClassLikeEntry
        simp only [hkeys]
      rw [hclass]
      simp only [Bool.not_true, Bool.false_eq_true, if_false] at hsafe ⊢
      split
      · rfl
      · next hnot =>
        rw [if_neg hnot, List.all_eq_true] at hsafe
        rw [List.all_eq_true]
        rintro ⟨n, info'⟩ hmem
        have hget := Table.mem_entries.mp hmem
        obtain ⟨info, hinfo⟩ := Option.isSome_iff_exists.mp
          ((hkeys n).symm.trans (by rw [hget]; rfl))
        have hchild := hsafe (n, info) (Table.mem_entries.mpr hinfo)
        rcases Bool.or_eq_true_iff.mp hchild with hfar | hchildSafe
        · exact Bool.or_eq_true_iff.mpr (Or.inl hfar)
        · refine Bool.or_eq_true_iff.mpr (Or.inr ?_)
          have := (hkept n).any_isSafe (by rw [hinfo]; exact hchildSafe)
          rwa [hget] at this

theorem isDecoratorCallVerifiedSafeNoUnqualified {name : Str}
    (hsafe : R.isDecoratorCallVerifiedSafeNoUnqualified name = true) :
    R'.isDecoratorCallVerifiedSafeNoUnqualified name = true := by
  unfold SafetyResolver.isDecoratorCallVerifiedSafeNoUnqualified at *
  rw [h.splitAtModule]
  cases hsplit : R.splitAtModule name with
  | some p =>
    rw [hsplit] at hsafe
    exact h.decoratorSafeIn hsafe
  | none =>
    rw [hsplit] at hsafe
    cases hsafe

theorem isDecoratorCallVerifiedSafe {name : Str}
    (hsafe : R.isDecoratorCallVerifiedSafe name = true) :
    R'.isDecoratorCallVerifiedSafe name = true := by
  unfold SafetyResolver.isDecoratorCallVerifiedSafe at *
  rw [h.splitAtModule]
  cases hsplit : R.splitAtModule name with
  | some p =>
    rw [hsplit] at hsafe
    exact h.decoratorSafeIn hsafe
  | none =>
    rw [hsplit] at hsafe
    obtain ⟨m, hm, hentry⟩ := of_decide_eq_true
      (show decide (∃ m ∈ R.modules, R.decoratorSafeIn m name = true) = true from hsafe)
    show decide (∃ m ∈ R'.modules, R'.decoratorSafeIn m name = true) = true
    rw [h.modules]
    exact decide_eq_true ⟨m, hm, h.decoratorSafeIn hentry⟩

theorem isErrorVerifiedSafe {error : SafetyError} (hsafe : R.isErrorVerifiedSafe error = true) :
    R'.isErrorVerifiedSafe error = true := by
  unfold SafetyResolver.isErrorVerifiedSafe at *
  dsimp only at *
  split at hsafe
  · exact h.isDecoratorCallVerifiedSafeNoUnqualified hsafe
  · exact h.isDecoratorCallVerifiedSafe hsafe
  all_goals first
    | exact h.isCallVerifiedSafeNoUnqualified hsafe
    | exact h.isCallVerifiedSafe hsafe

/-- A verdict that clears a constructor call blocks nothing, so it is kept. -/
theorem calleeVerdictClears {v v' : FunctionSafety} {caller owner : ModuleName}
    (hkept : NonBlocking v → v' = v) (hclear : R.calleeVerdictClears v caller owner = true) :
    R'.calleeVerdictClears v' caller owner = true := by
  have hnb : NonBlocking v := by
    unfold SafetyResolver.calleeVerdictClears at hclear
    split at hclear
    · next hempty => exact hempty ▸ nonBlocking_empty
    · exact (of_decide_eq_true (Bool.and_eq_true_iff.mp hclear).1) ▸ nonBlocking_singleton
  rw [hkept hnb]
  unfold SafetyResolver.calleeVerdictClears at *
  rwa [h.splitAtModule]

theorem recordedVerdicts {classFqn caller : ModuleName} {recorded : ConstructorCallees}
    (hall : (R.recordedVerdicts classFqn recorded).all
      (fun p => R.calleeVerdictClears p.2 caller p.1) = true) :
    (R'.recordedVerdicts classFqn recorded).all
      (fun p => R'.calleeVerdictClears p.2 caller p.1) = true := by
  have hkept : ∀ name (f : Str → Str), NonBlocking (((R.splitAtModule name).bind fun p =>
      R.ownVerdict p.1 (f p.2)).getD {.hardUnsafe}) →
        ((R'.splitAtModule name).bind fun p => R'.ownVerdict p.1 (f p.2)).getD {.hardUnsafe} =
          ((R.splitAtModule name).bind fun p => R.ownVerdict p.1 (f p.2)).getD {.hardUnsafe} := by
    intro name f
    rw [h.splitAtModule]
    have hbind : VerdictKept
        ((R.splitAtModule name).bind fun p => R.ownVerdict p.1 (f p.2))
        ((R.splitAtModule name).bind fun p => R'.ownVerdict p.1 (f p.2)) :=
      VerdictKept.bind _ fun p => h.ownVerdict p.1 (f p.2)
    exact hbind.getD_eq
  rw [SafetyResolver.recordedVerdicts, List.all_append, List.all_map, List.all_map,
    Bool.and_eq_true, List.all_eq_true, List.all_eq_true] at hall ⊢
  refine ⟨fun p hp => ?_, fun callee hcallee => ?_⟩
  · exact h.calleeVerdictClears (hkept p.1 fun localName => appendStr localName p.2)
      (hall.1 p hp)
  · exact h.calleeVerdictClears (hkept callee id) (hall.2 callee hcallee)

/-- The second resolver clears what the first clears. -/
theorem clears {caller : ModuleName} {error : SafetyError}
    (hclear : R.clears caller error = true) : R'.clears caller error = true := by
  have hrecorded : (R'.recordedConstructorClears caller error).isSome =
      (R.recordedConstructorClears caller error).isSome ∧
      (R.recordedConstructorClears caller error = some true →
        R'.recordedConstructorClears caller error = some true) := by
    have hall : ∀ classFqn, (R'.recordedConstructorClearsAll classFqn caller).isSome =
        (R.recordedConstructorClearsAll classFqn caller).isSome ∧
        (R.recordedConstructorClearsAll classFqn caller = some true →
          R'.recordedConstructorClearsAll classFqn caller = some true) := by
      intro classFqn
      unfold SafetyResolver.recordedConstructorClearsAll
      rw [h.constructorCallees]
      cases R.constructorCallees.bind fun table => table.get? classFqn with
      | none => exact ⟨rfl, id⟩
      | some recorded =>
        rw [Option.bind_some, Option.bind_some]
        split
        · exact ⟨rfl, id⟩
        · exact ⟨rfl, fun heq => congrArg some (h.recordedVerdicts (Option.some.inj heq))⟩
    unfold SafetyResolver.recordedConstructorClears
    cases error.kind <;> first | exact hall _ | exact ⟨rfl, id⟩
  unfold SafetyResolver.clears at *
  cases hR : R.recordedConstructorClears caller error with
  | some cleared =>
    rw [hR] at hclear
    rw [hrecorded.2 (hR.trans (congrArg some hclear))]
  | none =>
    rw [hR] at hclear hrecorded
    rw [Option.isNone_iff_eq_none.mp (Option.isSome_eq_false_iff.mp hrecorded.1)]
    exact h.isErrorVerifiedSafe hclear

end Upholds

/-! ## What the first clearing relies on -/

/-- Over the settled verdicts, a module's resolver upholds what it answered before. -/
theorem SharedFacts.upholds (shared : SharedFacts)
    (h : KeepsVerdicts shared.facts.functionSafety shared.settled.functionSafety)
    (resolved : Finset ModuleName) :
    Upholds (shared.facts.importResolver resolved) (shared.settled.importResolver resolved) :=
  ⟨rfl, ⟨rfl, rfl⟩, rfl, rfl, rfl, h⟩

namespace ReduceWorkspace

variable {w : ReduceWorkspace} {mainModule : Option ModuleName}

/-- A function with a mutation candidate waits for a dependency or is unsafe, as the analysis of
a library records it. -/
def CandidatesWait (w : ReduceWorkspace) (mainModule : Option ModuleName) : Prop :=
  ∀ m ∈ (w.entered mainModule).modules, ∀ candidate ∈ m.mutationCandidates, ∀ n,
    candidate.site = .function n → ∀ info,
      (w.entered mainModule).propagateReExportSafety.entry (m.name, n) = some info →
        .unsafeMissingDep ∈ info.verdict ∨ .hardUnsafe ∈ info.verdict

theorem keepsVerdicts_settled (hwait : w.CandidatesWait mainModule) :
    KeepsVerdicts (w.shared mainModule).facts.functionSafety
      (w.shared mainModule).settled.functionSafety := by
  intro m n
  obtain ⟨hnone, hsome⟩ := w.settledEntry_outcome mainModule (m, n)
  rw [LibraryCache.entry, ← functionSafety_shared] at hnone hsome
  show VerdictKept ((getFunctionSafety (w.shared mainModule).facts.functionSafety m n).map _)
    ((getFunctionSafety (w.shared mainModule).outcome.functionSafety m n).map _)
  cases hentry : getFunctionSafety (w.shared mainModule).facts.functionSafety m n with
  | none =>
    rw [hnone hentry]
    exact VerdictKept.refl _
  | some info =>
    obtain ⟨info', hinfo', hsettled⟩ := hsome info hentry
    rw [hinfo']
    refine ⟨rfl, fun v hv hclear => ?_⟩
    obtain rfl : info.verdict = v := Option.some.inj hv
    have hconfirmed : w.confirmed mainModule (m, n) = ∅ := by
      by_contra hne
      obtain ⟨m', hm', hname, candidate, hcandidate, hsite, -⟩ := confirmed_ne_empty.mp hne
      have hblocking := hwait m' hm' candidate hcandidate n hsite info (by
        rw [hname, LibraryCache.entry, ← functionSafety_shared]
        exact hentry)
      rcases hblocking with hmissing | hhard
      · exact hclear.not_mem_missingDep hmissing
      · have := hclear hhard
        simp at this
    exact congrArg some (hsettled.clear hclear hconfirmed)

/-- What the first clearing takes would also be taken on the settled verdicts. -/
theorem clearsEarly_settled (hwait : w.CandidatesWait mainModule) {m : CachedModule}
    {e : SafetyError} (h : (w.shared mainModule).facts.clearsEarly m e = true) :
    ∃ resolved, (w.shared mainModule).facts.newlyResolved m = some resolved ∧
      (∀ n, n ∈ resolved ↔ NewlyResolved (w.shared mainModule).facts.moduleNames m n) ∧
      ((w.shared mainModule).settled.importResolver resolved).clears m.name e = true := by
  rw [MergedFacts.clearsEarly] at h
  cases hresolved : (w.shared mainModule).facts.newlyResolved m with
  | none =>
    rw [hresolved] at h
    cases h
  | some resolved =>
    rw [hresolved] at h
    refine ⟨resolved, rfl, (MergedFacts.resolved_resolveImports _ m).2 resolved hresolved, ?_⟩
    exact ((w.shared mainModule).upholds (keepsVerdicts_settled hwait) resolved).clears h

/-- An error that is gone from a module was taken on verdicts that hold in the end: those of
what the module's imports newly resolved to, or those the second clearing reads. No later phase
revokes what the first clearing relied on. -/
theorem cleared_on_settled_verdicts (hwait : w.CandidatesWait mainModule) {m : CachedModule}
    (hm : m ∈ (w.entered mainModule).modules) {safety : CachedModuleSafety}
    (hok : m.safety = .ok safety) {final : CachedModule}
    (hfinal : final ∈ (w.resolve mainModule).cache.modules) (hname : final.name = m.name)
    {settled : CachedModuleSafety} (hsettled : final.safety = .ok settled) {e : SafetyError}
    (he : e ∈ safety.errors) (hgone : e ∉ settled.errors) :
    e.kind.couldBeCausedByMissingImport = true ∧
      ((∃ resolved, (w.shared mainModule).facts.newlyResolved m = some resolved ∧
        (∀ n, n ∈ resolved ↔ NewlyResolved (w.shared mainModule).facts.moduleNames m n) ∧
        ((w.shared mainModule).settled.importResolver resolved).clears m.name e = true) ∨
      (w.shared mainModule).settled.clears (w.shared mainModule).outcome
        ((w.shared mainModule).facts.newlyResolved m) m.name e = true) := by
  obtain ⟨m', hm', rfl⟩ := mem_modules_resolve.mp hfinal
  have hsame : m' = m := List.inj_on_of_nodup_map (w.names_entered mainModule) hm' hm
    ((SharedFacts.name_settle _ m').symm.trans hname)
  subst hsame
  have hsafety : (w.shared mainModule).settleSafety m' safety = settled :=
    CachedSafety.ok.inj ((SharedFacts.safety_settle hok).symm.trans hsettled)
  have hgone' : e ∉ (w.shared mainModule).settledErrors m' safety.errors := by
    rw [← hsafety] at hgone
    exact hgone
  by_contra hnot
  refine hgone' (mem_settledErrors.mpr (Or.inl ⟨he, fun hcleared => hnot ?_⟩))
  exact ⟨hcleared.1, hcleared.2.imp_left (clearsEarly_settled hwait)⟩

/-- A function of the module that calls passes it what is imported, and waits for the callee. -/
def waitingModule : CachedModule :=
  { callerModule with
    functionSafety := Table.ofList
      [(fromStr "run", FunctionSafetyInfo.unsafeMissingDep (fromStr "lib.f"))]
    mutationCandidates :=
      [{ callee := fromStr "lib.f", site := .function (fromStr "run"), argOffset := 0
         importedArgs := { unsafeArgIndices := 1 } }] }

/-- It is cached with the module of the callee, which mutates nothing. -/
def waitingCache : LibraryCache := { modules := [waitingModule, calleeModule] }

theorem built_waitingCache : waitingCache.Built := ⟨by decide, ⟨by decide, by decide⟩⟩

/-- The names of no stub are no names. -/
theorem nodup_noStubs : (([] : List (ModuleName × GraphEdgeSets)).map Prod.fst).Nodup :=
  List.nodup_nil

/-- The cache alone, without a bundled stub. -/
def waitingWorkspace : ReduceWorkspace := single waitingCache built_waitingCache ⟨[], nodup_noStubs⟩

/-- The call that is cleared is cleared on settled verdicts, with one of them waiting at first. -/
theorem cleared_on_settled_verdicts_caller :
    (waitingWorkspace.shared none).facts.clearsEarly waitingModule unresolvedCall = true ∧
    ((∃ resolved, (waitingWorkspace.shared none).facts.newlyResolved waitingModule =
        some resolved ∧
      (∀ n, n ∈ resolved ↔
        NewlyResolved (waitingWorkspace.shared none).facts.moduleNames waitingModule n) ∧
      ((waitingWorkspace.shared none).settled.importResolver resolved).clears (fromStr "app")
        unresolvedCall = true) ∨
    (waitingWorkspace.shared none).settled.clears (waitingWorkspace.shared none).outcome
      ((waitingWorkspace.shared none).facts.newlyResolved waitingModule) (fromStr "app")
      unresolvedCall = true) := by
  have hwait : waitingWorkspace.CandidatesWait none := by
    intro m hm candidate hcandidate n hsite info hinfo
    rcases List.mem_pair.mp hm with rfl | rfl
    · -- the one candidate is that of the function that waits
      obtain rfl := List.mem_singleton.mp hcandidate
      cases hsite
      have hentry : (waitingWorkspace.entered none).propagateReExportSafety.entry
          (fromStr "app", fromStr "run") =
            some (FunctionSafetyInfo.unsafeMissingDep (fromStr "lib.f")) := by
        decide +kernel
      obtain rfl := Option.some.inj (hentry.symm.trans hinfo)
      exact Or.inl (by decide)
    · exact absurd hcandidate List.not_mem_nil
  have hgone : unresolvedCall ∉ (waitingWorkspace.shared none).settledErrors waitingModule
      [unresolvedCall, finalizer] := by decide +kernel
  exact ⟨by decide +kernel, (cleared_on_settled_verdicts hwait (m := waitingModule)
    List.mem_cons_self rfl (mem_modules_resolve.mpr ⟨waitingModule, List.mem_cons_self, rfl⟩)
    (SharedFacts.name_settle _ _) (SharedFacts.safety_settle rfl) (e := unresolvedCall)
    List.mem_cons_self hgone).2⟩

end ReduceWorkspace

end Lifeguard
