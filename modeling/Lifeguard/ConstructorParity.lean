import Lifeguard.CallGraphTheory

/-!
# The two constructor dispatch paths

A constructor call is dispatched twice: by the methods `checkConstructorCall` names on the
class and its metaclass, and by the record a cache carries (`resolveConstructorCallees`).

- `consultedCallees`: the functions whose verdict the direct path takes into account;
- `recordedCallees`: the callees the record names;
- `constructor_parity_iff`: the two agree exactly when every constructor method is a
  function under its own name (`ConstructorsOwned`).
-/

namespace Lifeguard

open Lib

/-! ## The mask -/

/-- The mask of three methods whose bits start at `baseBit`. -/
def maskOf (baseBit : Nat) (b₀ b₁ b₂ : Bool) : BitVec 8 :=
  (if b₀ then (1 : BitVec 8) <<< (baseBit + 0) else 0) |||
    (if b₁ then (1 : BitVec 8) <<< (baseBit + 1) else 0) |||
    (if b₂ then (1 : BitVec 8) <<< (baseBit + 2) else 0)

theorem constructorMaskBits_eq (owner : ModuleName) (baseBit : Nat) (x y z : Str)
    (resolves : ModuleName → Bool) :
    constructorMaskBits owner baseBit [x, y, z] resolves =
      maskOf baseBit (resolves (appendStr owner x)) (resolves (appendStr owner y))
        (resolves (appendStr owner z)) := by
  unfold constructorMaskBits maskOf
  cases hx : resolves (appendStr owner x) <;> cases hy : resolves (appendStr owner y) <;>
    cases hz : resolves (appendStr owner z) <;>
      simp [List.zipIdx, hx, hy, hz]

/-- The bits of the metaclass's methods and of the class's own do not overlap. -/
theorem getLsbD_maskOf (p₀ p₁ p₂ q₀ q₁ q₂ : Bool) :
    let mask := maskOf 0 p₀ p₁ p₂ ||| maskOf 3 q₀ q₁ q₂
    mask.getLsbD 0 = p₀ ∧ mask.getLsbD 1 = p₁ ∧ mask.getLsbD 2 = p₂ ∧
      mask.getLsbD 3 = q₀ ∧ mask.getLsbD 4 = q₁ ∧ mask.getLsbD 5 = q₂ := by
  revert p₀ p₁ p₂ q₀ q₁ q₂
  decide

theorem maskOf_zero_iff (p₀ p₁ p₂ : Bool) :
    maskOf 0 p₀ p₁ p₂ = 0 ↔ p₀ = false ∧ p₁ = false ∧ p₂ = false := by
  revert p₀ p₁ p₂
  decide

theorem mem_selected {mask : BitVec 8} {baseBit : Nat} {x y z method : Str} :
    method ∈ ConstructorCallees.selected mask baseBit [x, y, z] ↔
      (method = x ∧ mask.getLsbD (baseBit + 0) = true) ∨
      (method = y ∧ mask.getLsbD (baseBit + 1) = true) ∨
      (method = z ∧ mask.getLsbD (baseBit + 2) = true) := by
  unfold ConstructorCallees.selected
  simp only [List.zipIdx, List.mem_map, List.mem_filter, List.mem_cons, List.not_mem_nil,
    or_false, Prod.exists]
  constructor
  · rintro ⟨m, i, ⟨h | h | h, hbit⟩, rfl⟩
    · cases h
      exact Or.inl ⟨rfl, hbit⟩
    · cases h
      exact Or.inr (Or.inl ⟨rfl, hbit⟩)
    · cases h
      exact Or.inr (Or.inr ⟨rfl, hbit⟩)
  · rintro (⟨rfl, hbit⟩ | ⟨rfl, hbit⟩ | ⟨rfl, hbit⟩)
    · exact ⟨_, 0, ⟨Or.inl rfl, hbit⟩, rfl⟩
    · exact ⟨_, 1, ⟨Or.inr (Or.inl rfl), hbit⟩, rfl⟩
    · exact ⟨_, 2, ⟨Or.inr (Or.inr rfl), hbit⟩, rfl⟩

namespace ProjectInfo

variable {info : ProjectInfo} {cls : ModuleName}

/-! ## What the record names -/

/-- The callees the record of a class names. -/
def recordedCallees (info : ProjectInfo) (cls : ModuleName) : List ModuleName :=
  ((info.resolveConstructorCallees cls).iter cls).map (fun p => appendStr p.1 p.2) ++
    (info.resolveConstructorCallees cls).extra

/-- The mask of a record names exactly the candidates the project can name. -/
theorem mem_iter_resolveConstructorCallees {owner : ModuleName} {method : Str} :
    (owner, method) ∈ (info.resolveConstructorCallees cls).iter cls ↔
      (owner = cls ∨ declaredMetaclass info.classes cls = some owner) ∧
        method ∈ constructorMethods ∧ info.containsCallable (appendStr owner method) = true := by
  obtain ⟨x, y, z, hmethods⟩ : ∃ x y z, constructorMethods = [x, y, z] := ⟨_, _, _, rfl⟩
  have hmem : ∀ name : ModuleName,
      (method ∈ constructorMethods ∧ info.containsCallable (appendStr name method) = true) ↔
      (method = x ∧ info.containsCallable (appendStr name x) = true) ∨
      (method = y ∧ info.containsCallable (appendStr name y) = true) ∨
      (method = z ∧ info.containsCallable (appendStr name z) = true) := by
    intro name
    rw [hmethods]
    simp only [List.mem_cons, List.not_mem_nil, or_false]
    constructor
    · rintro ⟨rfl | rfl | rfl, h⟩
      · exact Or.inl ⟨rfl, h⟩
      · exact Or.inr (Or.inl ⟨rfl, h⟩)
      · exact Or.inr (Or.inr ⟨rfl, h⟩)
    · rintro (⟨rfl, h⟩ | ⟨rfl, h⟩ | ⟨rfl, h⟩)
      · exact ⟨Or.inl rfl, h⟩
      · exact ⟨Or.inr (Or.inl rfl), h⟩
      · exact ⟨Or.inr (Or.inr rfl), h⟩
  -- the bits of the class's own methods, whatever the metaclass bits are
  have hown : ∀ p₀ p₁ p₂, method ∈ ConstructorCallees.selected
      (maskOf 0 p₀ p₁ p₂ ||| constructorMaskBits cls constructorMethods.length
        constructorMethods info.containsCallable)
      constructorMethods.length constructorMethods ↔
      method ∈ constructorMethods ∧ info.containsCallable (appendStr cls method) = true := by
    intro p₀ p₁ p₂
    obtain ⟨-, -, -, h3, h4, h5⟩ := getLsbD_maskOf p₀ p₁ p₂
      (info.containsCallable (appendStr cls x)) (info.containsCallable (appendStr cls y))
      (info.containsCallable (appendStr cls z))
    rw [hmem cls, hmethods, constructorMaskBits_eq, mem_selected]
    exact or_congr (and_congr_right fun _ => Bool.coe_iff_coe.mpr h3)
      (or_congr (and_congr_right fun _ => Bool.coe_iff_coe.mpr h4)
        (and_congr_right fun _ => Bool.coe_iff_coe.mpr h5))
  unfold ConstructorCallees.iter resolveConstructorCallees
  cases hmeta : declaredMetaclass info.classes cls with
  | none =>
    have hzero : (0 : BitVec 8) = maskOf 0 false false false := rfl
    dsimp only
    rw [hzero, if_neg (by simp), Option.toList_none, List.flatMap_nil, List.nil_append,
      List.mem_map]
    constructor
    · rintro ⟨m, hm, heq⟩
      cases heq
      exact ⟨Or.inl rfl, (hown _ _ _).mp hm⟩
    · rintro ⟨rfl | hnone, hm⟩
      · exact ⟨method, (hown _ _ _).mpr hm, rfl⟩
      · cases hnone
  | some mcls =>
    dsimp only
    have hmask : constructorMaskBits mcls 0 constructorMethods info.containsCallable =
        maskOf 0 (info.containsCallable (appendStr mcls x))
          (info.containsCallable (appendStr mcls y))
          (info.containsCallable (appendStr mcls z)) := by
      rw [hmethods, constructorMaskBits_eq]
    obtain ⟨h0, h1, h2, -⟩ := getLsbD_maskOf (info.containsCallable (appendStr mcls x))
      (info.containsCallable (appendStr mcls y)) (info.containsCallable (appendStr mcls z))
      (info.containsCallable (appendStr cls x)) (info.containsCallable (appendStr cls y))
      (info.containsCallable (appendStr cls z))
    -- with no bit set the metaclass is not recorded, and none of its methods is callable
    have hmetaclass : ∀ m, m ∈ ConstructorCallees.selected
        (constructorMaskBits mcls 0 constructorMethods info.containsCallable |||
          constructorMaskBits cls constructorMethods.length constructorMethods
            info.containsCallable) 0 constructorMethods ↔
        (m = x ∧ info.containsCallable (appendStr mcls x) = true) ∨
        (m = y ∧ info.containsCallable (appendStr mcls y) = true) ∨
        (m = z ∧ info.containsCallable (appendStr mcls z) = true) := by
      intro m
      rw [hmask, hmethods, constructorMaskBits_eq, mem_selected]
      exact or_congr (and_congr_right fun _ => Bool.coe_iff_coe.mpr h0)
        (or_congr (and_congr_right fun _ => Bool.coe_iff_coe.mpr h1)
          (and_congr_right fun _ => Bool.coe_iff_coe.mpr h2))
    rw [List.mem_append, List.mem_flatMap, List.mem_map]
    constructor
    · rintro (⟨o, ho, hm⟩ | ⟨m, hm, heq⟩)
      · obtain ⟨m, hm, heq⟩ := List.mem_map.mp hm
        cases heq
        split at ho
        · cases Option.mem_toList.mp ho
          exact ⟨Or.inr rfl, (hmem owner).mpr ((hmetaclass method).mp hm)⟩
        · cases Option.mem_toList.mp ho
      · cases heq
        rw [hmask] at hm
        exact ⟨Or.inl rfl, (hown _ _ _).mp hm⟩
    · rintro ⟨rfl | howner, hm⟩
      · refine Or.inr ⟨method, ?_, rfl⟩
        rw [hmask]
        exact (hown _ _ _).mpr hm
      · cases howner
        have hm' := (hmem owner).mp hm
        refine Or.inl ⟨owner, ?_, List.mem_map.mpr ⟨method, (hmetaclass method).mpr hm', rfl⟩⟩
        rw [if_pos]
        · exact Option.mem_toList.mpr rfl
        · rw [hmask, Ne, maskOf_zero_iff]
          rintro ⟨hx, hy, hz⟩
          rw [hx, hy, hz] at hm'
          simp at hm'

theorem mem_constructorMethodsOf {n : ModuleName} :
    n ∈ info.constructorMethodsOf cls ↔
      ∃ owner, (owner = cls ∨ declaredMetaclass info.classes cls = some owner) ∧
        ∃ method ∈ constructorMethods, appendStr owner method = n := by
  unfold constructorMethodsOf constructorMethodNames
  rw [List.mem_append, List.mem_flatMap]
  constructor
  · rintro (⟨owner, howner, hmem⟩ | hmem)
    · exact ⟨owner, Or.inr (Option.mem_toList.mp howner), List.mem_map.mp hmem⟩
    · exact ⟨cls, Or.inl rfl, List.mem_map.mp hmem⟩
  · rintro ⟨owner, rfl | howner, hmem⟩
    · exact Or.inr (List.mem_map.mpr hmem)
    · exact Or.inl ⟨owner, Option.mem_toList.mpr howner, List.mem_map.mpr hmem⟩

theorem mem_recordedCallees {n : ModuleName} :
    n ∈ info.recordedCallees cls ↔
      (n ∈ info.constructorMethodsOf cls ∧ info.containsCallable n = true) ∨
        n ∈ info.inheritedConstructorCallees cls := by
  unfold recordedCallees
  rw [List.mem_append]
  refine or_congr ?_ Iff.rfl
  rw [List.mem_map, mem_constructorMethodsOf]
  constructor
  · rintro ⟨⟨owner, method⟩, hmem, rfl⟩
    obtain ⟨howner, hmethod, hcall⟩ := mem_iter_resolveConstructorCallees.mp hmem
    exact ⟨⟨owner, howner, method, hmethod, rfl⟩, hcall⟩
  · rintro ⟨⟨owner, howner, method, hmethod, rfl⟩, hcall⟩
    exact ⟨(owner, method), mem_iter_resolveConstructorCallees.mpr ⟨howner, hmethod, hcall⟩, rfl⟩

/-! ## What the direct path takes into account -/

/-- What a constructor method answers from its recorded verdict; a name without a body
answers `true`. -/
def recordedAnswer (info : ProjectInfo) (call : Call) (st : AnalysisState)
    (method : ModuleName) : Bool :=
  match info.functions.get? method, st.safety method with
  | some callModule, some fi => verdictAnswer fi.verdict (crosses call callModule)
  | _, _ => true

/-- The functions whose verdict a constructor call looks up. -/
def consultedCallees (info : ProjectInfo) (call : Call) (st : AnalysisState) :
    List ModuleName :=
  (info.checkConstructorCall (info.checkCallBody info.bodyFuel) call
    { st with reads := [] }).2.reads

/-- Where every method's verdict is recorded, a constructor call reads those of the
functions among them and answers their conjunction. -/
theorem checkConstructorCall_recorded (call : Call) (fuel : Nat) (methods : List ModuleName)
    (st : AnalysisState)
    (hst : ∀ n ∈ methods, hasKey info.functions n = true → (st.safety n).isSome) :
    ∃ s, checkAll (fun method => info.checkCallBody (fuel + 1) { call with func := method })
        methods st = (.ok (methods.all (info.recordedAnswer call st)), s) ∧
      (∀ n, n ∈ s.reads ↔ n ∈ st.reads ∨ (n ∈ methods ∧ hasKey info.functions n = true)) ∧
      (∀ n, s.safety n = st.safety n) := by
  induction methods generalizing st with
  | nil => exact ⟨st, rfl, by simp, fun _ => rfl⟩
  | cons m methods ih =>
    -- one method: its entry answers for it, and the state keeps all verdicts
    have hone : ∃ s, info.checkCallBody (fuel + 1) { call with func := m } st =
          (.ok (info.recordedAnswer call st m), s) ∧
        (∀ n, n ∈ s.reads ↔ n ∈ st.reads ∨ (n = m ∧ hasKey info.functions n = true)) ∧
        (∀ n, s.safety n = st.safety n) := by
      cases hfunc : info.functions.get? m with
      | none =>
        refine ⟨st, ?_, ?_, fun _ => rfl⟩
        · rw [checkCallBody_of_no_function hfunc, recordedAnswer, hfunc]
        · intro n
          refine (or_iff_left ?_).symm
          rintro ⟨rfl, hkey⟩
          rw [hasKey, hfunc] at hkey
          cases hkey
      | some callModule =>
        obtain ⟨fi, hfi⟩ := Option.isSome_iff_exists.mp
          (hst m List.mem_cons_self (hasKey_of_get? hfunc))
        refine ⟨info.enterBody { call with func := m } st, ?_, ?_,
          fun n => safety_enterBody _ st n⟩
        · rw [recordedAnswer, hfunc, hfi]
          exact checkCallBody_of_recorded hfunc hfi
        · intro n
          rw [reads_enterBody, List.mem_cons, or_comm]
          refine or_congr_right ⟨?_, fun h => h.1⟩
          rintro rfl
          exact ⟨rfl, hasKey_of_get? hfunc⟩
    obtain ⟨s, hrun, hreads, hsafety⟩ := hone
    have hst' : ∀ n ∈ methods, hasKey info.functions n = true → (s.safety n).isSome := by
      intro n hn hkey
      rw [hsafety n]
      exact hst n (List.mem_cons_of_mem m hn) hkey
    obtain ⟨t, hrun', hreads', hsafety'⟩ := ih s hst'
    have hanswer : methods.all (info.recordedAnswer call s) =
        methods.all (info.recordedAnswer call st) := by
      congr 1
      funext n
      rw [recordedAnswer, recordedAnswer, hsafety n]
    refine ⟨t, ?_, ?_, fun n => (hsafety' n).trans (hsafety n)⟩
    · rw [checkAll, hrun]
      dsimp only
      rw [hrun', hanswer]
      rfl
    · intro n
      rw [hreads' n, hreads n, List.mem_cons]
      tauto

/-- The state of a finished run has a verdict for every function. -/
theorem isSome_safety_function {order : List (List Nat)} (h : info.Schedule order)
    {n : ModuleName} (hn : hasKey info.functions n = true) :
    ((info.precompute order).safety n).isSome :=
  isSome_safety_precompute h (isNode_of_function hn)

/-- After a run, the direct path consults the constructor methods that are functions. -/
theorem mem_consultedCallees {order : List (List Nat)} (h : info.Schedule order)
    {call : Call} {n : ModuleName} :
    n ∈ info.consultedCallees call (info.precompute order) ↔
      n ∈ info.constructorMethodsOf call.func ∧ hasKey info.functions n = true := by
  obtain ⟨s, hrun, hreads, -⟩ := checkConstructorCall_recorded call (info.effectNames.length + 1)
    (info.constructorMethodsOf call.func) { info.precompute order with reads := [] }
    (fun n _ hn => isSome_safety_function h hn)
  have hconsulted : info.consultedCallees call (info.precompute order) = s.reads :=
    congrArg (fun out : Outcome => out.2.reads) hrun
  rw [hconsulted, hreads n]
  exact or_iff_right List.not_mem_nil

theorem checkConstructorCall_precompute {order : List (List Nat)} (h : info.Schedule order)
    (call : Call) :
    (info.checkConstructorCall (info.checkCallBody info.bodyFuel) call
        (info.precompute order)).1 =
      .ok ((info.constructorMethodsOf call.func).all
        (info.recordedAnswer call (info.precompute order))) := by
  obtain ⟨s, hrun, -⟩ := checkConstructorCall_recorded call (info.effectNames.length + 1)
    (info.constructorMethodsOf call.func) (info.precompute order)
    (fun n _ hn => isSome_safety_function h hn)
  exact congrArg Prod.fst hrun

/-! ## Parity -/

/-- The two paths take the same callees into account, and the direct path answers what
the recorded callees answer. -/
structure ConstructorParity (info : ProjectInfo) (call : Call) (st : AnalysisState) :
    Prop where
  callees : ∀ f, f ∈ info.consultedCallees call st ↔ f ∈ info.recordedCallees call.func
  answer : (info.checkConstructorCall (info.checkCallBody info.bodyFuel) call st).1 =
    .ok ((info.recordedCallees call.func).all (info.recordedAnswer call st))

/-- Every constructor method the project can name, on the class or its metaclass, is a
function under its own name, and the class gets none from elsewhere. -/
structure ConstructorsOwned (info : ProjectInfo) (cls : ModuleName) : Prop where
  named : ∀ n ∈ info.constructorMethodsOf cls, info.containsCallable n = true →
    hasKey info.functions n = true
  inherited : ∀ method ∈ constructorMethods, ∀ r,
    info.resolveCallable (appendStr cls method) = some r → r ≠ appendStr cls method →
      r ∈ info.constructorMethodsOf cls ∧ hasKey info.functions r = true

theorem mem_inheritedConstructorCallees {r : ModuleName} :
    r ∈ info.inheritedConstructorCallees cls ↔
      ∃ method ∈ constructorMethods,
        info.resolveCallable (appendStr cls method) = some r ∧ r ≠ appendStr cls method := by
  unfold inheritedConstructorCallees
  rw [List.mem_filterMap]
  refine exists_congr fun method => and_congr_right fun _ => ?_
  rw [Option.bind_eq_some_iff]
  constructor
  · rintro ⟨resolved, hres, hne⟩
    split at hne
    · next hneq =>
      cases hne
      exact ⟨hres, hneq⟩
    · cases hne
  · rintro ⟨hres, hne⟩
    exact ⟨r, hres, if_pos hne⟩

/-- After every run and for every constructor call, the direct and the recorded dispatch
agree exactly when the class owns its constructors. -/
theorem constructor_parity_iff {order : List (List Nat)} (h : info.Schedule order)
    (call : Call) :
    info.ConstructorParity call (info.precompute order) ↔
      info.ConstructorsOwned call.func := by
  constructor
  · rintro ⟨hcallees, -⟩
    have hrecorded : ∀ n ∈ info.recordedCallees call.func,
        n ∈ info.constructorMethodsOf call.func ∧ hasKey info.functions n = true :=
      fun n hn => (mem_consultedCallees h).mp ((hcallees n).mpr hn)
    refine ⟨fun n hn hcall => ?_, fun method hmethod r hres hne => ?_⟩
    · exact (hrecorded n (mem_recordedCallees.mpr (Or.inl ⟨hn, hcall⟩))).2
    · exact hrecorded r (mem_recordedCallees.mpr (Or.inr
        (mem_inheritedConstructorCallees.mpr ⟨method, hmethod, hres, hne⟩)))
  · intro howned
    have hcallees : ∀ f, f ∈ info.recordedCallees call.func ↔
        f ∈ info.constructorMethodsOf call.func ∧ hasKey info.functions f = true := by
      intro f
      rw [mem_recordedCallees]
      constructor
      · rintro (⟨hmem, hcall⟩ | hmem)
        · exact ⟨hmem, howned.named f hmem hcall⟩
        · obtain ⟨method, hmethod, hres, hne⟩ := mem_inheritedConstructorCallees.mp hmem
          exact howned.inherited method hmethod f hres hne
      · rintro ⟨hmem, hkey⟩
        exact Or.inl ⟨hmem, containsCallable_of_isNode (isNode_of_function hkey)⟩
    refine ⟨fun f => ?_, ?_⟩
    · rw [mem_consultedCallees h, hcallees f]
    · rw [checkConstructorCall_precompute h]
      congr 1
      -- a method that is no function answers `true` on either side
      rw [Bool.eq_iff_iff, List.all_eq_true, List.all_eq_true]
      constructor
      · intro hall f hf
        exact hall f ((hcallees f).mp hf).1
      · intro hall f hf
        cases hfunc : info.functions.get? f with
        | none => rw [recordedAnswer, hfunc]
        | some callModule => exact hall f ((hcallees f).mpr ⟨hf, hasKey_of_get? hfunc⟩)

/-! ## An inherited constructor -/

/-- Module `m` with a base class whose `__init__` raises, and a class under it that
defines no constructor, or its own when `own` is set. -/
def inheritingProject (own : Bool) : ProjectInfo where
  effectTable := Table.ofList
    [(fromStr "m.B.__init__", [{ kind := .raise, name := fromStr "raise" }])]
  classes := Table.ofList
    [(fromStr "m.B", {}), (fromStr "m.C", { bases := [fromStr "m.B"] })]
  classBases := Table.ofList [(fromStr "m.C", [fromStr "m.B"])]
  functions := Table.ofList
    ((fromStr "m.B.__init__", fromStr "m") ::
      if own then
        [(fromStr "m.C.__new__", fromStr "m"), (fromStr "m.C.__init__", fromStr "m"),
          (fromStr "m.C.__post_init__", fromStr "m")]
      else [])

/-- The call `C()` made in module `m`. -/
def constructorCallOfC : Call where
  callerModule := fromStr "m"
  effect := { kind := .functionCall, name := fromStr "m.C" }
  func := fromStr "m.C"

theorem constructor_parity_iff_own :
    (inheritingProject true).ConstructorParity constructorCallOfC
        ((inheritingProject true).precompute (inheritingProject true).levels) ↔
      (inheritingProject true).ConstructorsOwned (fromStr "m.C") :=
  constructor_parity_iff (List.forall₂_same.mpr fun _ _ => List.Perm.refl _)
    constructorCallOfC

/-- The direct path finds `C()` safe, while the record names the unsafe inherited
`__init__`. -/
theorem inherited_init_not_consulted :
    (inheritingProject false).recordedCallees (fromStr "m.C") = [fromStr "m.B.__init__"] ∧
      ((inheritingProject false).precompute (inheritingProject false).levels).safety
        (fromStr "m.B.__init__") = some (.new {.hardUnsafe}) ∧
      ((inheritingProject false).checkConstructorCall
        ((inheritingProject false).checkCallBody (inheritingProject false).bodyFuel)
        constructorCallOfC
        ((inheritingProject false).precompute (inheritingProject false).levels)).1 =
          .ok true ∧
      ¬(inheritingProject false).ConstructorParity constructorCallOfC
        ((inheritingProject false).precompute (inheritingProject false).levels) := by
  have hs : (inheritingProject false).Schedule (inheritingProject false).levels :=
    List.forall₂_same.mpr fun _ _ => List.Perm.refl _
  refine ⟨by decide +kernel, by decide +kernel, ?_, fun h => ?_⟩
  · rw [checkConstructorCall_precompute hs]
    rfl
  · have hmem := (h.callees (fromStr "m.B.__init__")).mpr (by decide +kernel)
    exact absurd ((mem_consultedCallees hs).mp hmem).1 (by decide)

end ProjectInfo

end Lifeguard
