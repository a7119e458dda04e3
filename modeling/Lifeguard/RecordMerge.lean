import Lifeguard.ModuleSafety
import Mathlib.Data.Finset.Order
import Mathlib.Data.Fintype.EquivFin
import Mathlib.Data.List.Infix
import Mathlib.Data.Set.Finite.Basic

/-!
# Merging two records of one function

`mergeRef` unions the concerns and the blocking callees of two records, and appends the
mutated parameters whose *name* is new. A parameter keeps two facts, its name and how it
matches a call's arguments, so the append may lose the second one:

- `mem_extendMutatedParams`: which parameters the merged record keeps;
- `hitBy_merge_of_position`: a call that hits a dropped parameter hits a kept one, if the
  kept ones match the same position;
- `merge_conservative_iff`: when the merged record is hit by every call that hits one of
  the two.
-/

namespace Lifeguard

/-- An imported argument of the call reaches a mutated parameter of the record. -/
def FunctionSafetyInfo.hitBy (info : FunctionSafetyInfo) (args : ImportedArgs)
    (argOffset : Nat) : Bool :=
  args.hitsAnyParam (info.mutatedParams.map fun p => (p.name, p.position)) argOffset

theorem FunctionSafetyInfo.hitBy_iff {info : FunctionSafetyInfo} {args : ImportedArgs}
    {argOffset : Nat} :
    info.hitBy args argOffset = true ↔
      ∃ p ∈ info.mutatedParams, args.hitsParam p.name p.position argOffset = true := by
  rw [hitBy, ImportedArgs.hitsAnyParam, List.any_map, List.any_eq_true]
  rfl

/-! ## The parameters that are kept -/

namespace FunctionSafetyInfo

/-- The append keeps what was there, and of the new parameters the first of each name
that was not there. -/
theorem mem_extendMutatedParams {target params : List MutatedParam} {p : MutatedParam} :
    p ∈ extendMutatedParams target params ↔
      p ∈ target ∨ (params.find? (fun q => decide (q.name = p.name)) = some p ∧
        ∀ q ∈ target, q.name ≠ p.name) := by
  induction params generalizing target with
  | nil => simp [extendMutatedParams]
  | cons param params ih =>
    have hstep : extendMutatedParams target (param :: params) =
        extendMutatedParams
          (if target.any (fun existing => decide (existing.name = param.name)) then target
            else target ++ [param]) params := rfl
    rw [hstep, ih]
    by_cases hname : param.name = p.name
    · rw [List.find?_cons_of_pos (by simpa using hname)]
      split
      · next hany =>
        -- a parameter of that name is there already
        obtain ⟨q, hq, hqname⟩ := List.any_eq_true.mp hany
        have hnot : ¬∀ q ∈ target, q.name ≠ p.name :=
          fun h => h q hq ((of_decide_eq_true hqname).trans hname)
        simp [hnot]
      · next hany =>
        have hfresh : ∀ q ∈ target, q.name ≠ p.name := by
          intro q hq hqname
          refine hany (List.any_eq_true.mpr ⟨q, hq, decide_eq_true ?_⟩)
          rw [hqname, hname]
        have hnot : ¬∀ q ∈ target ++ [param], q.name ≠ p.name :=
          fun h => h param (List.mem_append_right _ (List.mem_singleton_self _)) hname
        rw [and_iff_left hfresh, List.mem_append, List.mem_singleton, or_assoc,
          Option.some.injEq, eq_comm (a := param)]
        exact or_congr_right (or_iff_left fun h => hnot h.2)
    · rw [List.find?_cons_of_neg (by simpa using hname)]
      split
      · exact Iff.rfl
      · have hne : p ≠ param := fun h => hname (congrArg MutatedParam.name h.symm)
        have hall : (∀ q ∈ target ++ [param], q.name ≠ p.name) ↔
            ∀ q ∈ target, q.name ≠ p.name := by
          rw [List.forall_mem_append]
          simp [hname]
        rw [hall, List.mem_append, List.mem_singleton, or_iff_left hne]

/-- Every name of the two lists is kept by some parameter. -/
theorem exists_name_extendMutatedParams (target : List MutatedParam) {params : List MutatedParam}
    {p : MutatedParam} (hp : p ∈ params) :
    ∃ q ∈ extendMutatedParams target params, q.name = p.name := by
  by_cases hfresh : ∀ q ∈ target, q.name ≠ p.name
  · have hsome : (params.find? fun q => decide (q.name = p.name)).isSome :=
      List.find?_isSome.mpr ⟨p, hp, decide_eq_true rfl⟩
    obtain ⟨q, hq⟩ := Option.isSome_iff_exists.mp hsome
    have hname : q.name = p.name := by simpa using List.find?_some hq
    refine ⟨q, mem_extendMutatedParams.mpr (Or.inr ⟨?_, ?_⟩), hname⟩
    · rw [hname]
      exact hq
    · rw [hname]
      exact hfresh
  · push Not at hfresh
    obtain ⟨q, hq, hname⟩ := hfresh
    exact ⟨q, mem_extendMutatedParams.mpr (Or.inl hq), hname⟩

end FunctionSafetyInfo

/-! ## What makes a call hit a parameter -/

namespace ImportedArgs

variable {args : ImportedArgs} {name name' : Str} {position : ParamPosition} {argOffset : Nat}

/-- A keyword of the parameter's name reaches it wherever it stands. -/
theorem hitsParam_of_hasUnsafeKeyword (h : args.hasUnsafeKeyword name = true) :
    args.hitsParam name position argOffset = true := by
  unfold hitsParam
  split
  · -- an unresolved parameter is hit by any tracked argument
    unfold hasUnsafeKeyword at h
    unfold hasAnyTrackedArgs
    cases hnames : args.unsafeKeywordNames with
    | nil =>
      rw [hnames] at h
      simp at h
      simp [h]
    | cons kw names => simp
  · split
    · rfl
    · rfl

/-- Without a keyword of its name, only the position of a parameter matters. -/
theorem hitsParam_of_position (hkw : args.hasUnsafeKeyword name ≠ true)
    (h : args.hitsParam name position argOffset = true) :
    args.hitsParam name' position argOffset = true := by
  unfold hitsParam at h ⊢
  split
  · next hpos =>
    rw [if_pos hpos] at h
    exact h
  · next hpos =>
    rw [if_neg hpos] at h
    split
    · rfl
    · next hidx =>
      rw [if_neg hidx, if_neg hkw] at h
      split
      · rfl
      · exact h

/-- A call without a tracked argument hits every parameter whose position is resolved. -/
theorem hitsParam_of_untracked (hargs : args.hasAnyTrackedArgs ≠ true)
    (hpos : position ≠ .unresolved) : args.hitsParam name position argOffset = true := by
  have hempty : args.unsafeKeywordNames.isEmpty = true ∧
      args.hasUnsafeKwargsExpansion = false := by
    rw [ne_eq, Bool.not_eq_true] at hargs
    unfold hasAnyTrackedArgs at hargs
    simp only [Bool.or_eq_false_iff, Bool.not_eq_false'] at hargs
    exact ⟨hargs.1.1.2, hargs.1.2⟩
  have hkeywords : args.hasUnsafeKeywords = false := by
    rw [hasUnsafeKeywords, hempty.1, hempty.2]
    rfl
  unfold hitsParam
  rw [if_neg hpos]
  split
  · rfl
  · split
    · rfl
    · rw [hkeywords, Bool.eq_false_iff.mpr hargs]
      simp

end ImportedArgs

/-! ## The calls that tell two positions apart -/

/-- A call whose only imported argument is the keyword `name`. -/
def keywordArgs (name : Str) : ImportedArgs where
  unsafeKeywordNames := [name]

/-- A call whose only imported argument is the first positional one. -/
def firstArgs : ImportedArgs where
  unsafeArgIndices := 1

/-- A call whose only imported argument is a `*args` expansion from slot `lo` on. -/
def starArgs (lo : Nat) : ImportedArgs where
  unsafeArgsExpansionMin := some lo

open ImportedArgs

theorem hits_keywordArgs {kw name : Str} {position : ParamPosition} {argOffset : Nat}
    (hname : kw ≠ name) :
    (keywordArgs kw).hitsParam name position argOffset = decide (position = .unresolved) := by
  unfold hitsParam
  split
  · next hpos => simp [hpos, keywordArgs, hasAnyTrackedArgs]
  · next hpos =>
    have hidx : (resolvedIdx position argOffset).any (keywordArgs kw).hasUnsafeArgIndex =
        false := by
      cases resolvedIdx position argOffset with
      | none => rfl
      | some i => simp [hasUnsafeArgIndex, keywordArgs]
    rw [hidx]
    simp [keywordArgs, hasUnsafeKeyword, hasUnsafeKeywords, hasPreciseKeywordTracking,
      hasPreciseArgTracking, hname, hpos]

/-- The argument in slot `i` past the receiver reaches position `i` alone. -/
theorem hits_firstArgs {i : Nat} {name : Str} {position : ParamPosition} :
    firstArgs.hitsParam name position i =
      (decide (position = .unresolved) || decide (position = .positional i)) := by
  unfold hitsParam
  cases position with
  | unresolved => rfl
  | keywordOnly => rfl
  | positional j =>
    rw [if_neg (by simp)]
    have hbit : ∀ k : Nat, firstArgs.hasUnsafeArgIndex k = decide (k = 0) := by
      intro k
      have hone : BitVec.getLsbD (1 : BitVec 64) k = decide (k = 0) := by
        cases k with
        | zero => rfl
        | succ k =>
          rw [show (1 : BitVec 64) = 1#64 from rfl, BitVec.getLsbD_one]
          simp
      show (decide (k < maxArgs) && BitVec.getLsbD (1 : BitVec 64) k) = _
      rw [hone]
      by_cases hk : k = 0
      · simp [hk, maxArgs]
      · simp [hk]
    have hrest : (firstArgs.hasUnsafeKeyword name) = false := rfl
    have htracked : firstArgs.hasAnyTrackedArgs = true := rfl
    have hprecise : firstArgs.hasPreciseArgTracking = true := rfl
    have hkeywords : firstArgs.hasUnsafeKeywords = false := rfl
    rw [hrest, htracked, hprecise, hkeywords]
    have hidx : resolvedIdx (.positional j) i = if i ≤ j then some (j - i) else none := rfl
    rw [hidx]
    by_cases hle : i ≤ j
    · rw [if_pos hle, Option.any_some, hbit]
      by_cases hij : j = i
      · simp [hij]
      · have hsub : j - i ≠ 0 := by omega
        simp [hij, hsub]
    · have hij : j ≠ i := by omega
      rw [if_neg hle]
      simp [hij]

/-- A `*args` expansion past a positional slot reaches the parameters without one. -/
theorem hits_starArgs {lo : Nat} {name : Str} {position : ParamPosition}
    (hlo : ∀ j, position = .positional j → j < lo) :
    (starArgs lo).hitsParam name position 0 =
      (decide (position = .unresolved) || decide (position = .keywordOnly)) := by
  unfold hitsParam
  cases position with
  | unresolved => simp [starArgs, hasAnyTrackedArgs]
  | keywordOnly =>
    simp [starArgs, resolvedIdx, hasUnsafeKeyword, hasUnsafeKeywords, hasPreciseArgTracking]
  | positional j =>
    have hj : ¬lo ≤ j := Nat.not_le.mpr (hlo j rfl)
    simp [starArgs, resolvedIdx, hasUnsafeArgIndex, hasUnsafeKeyword, hasUnsafeKeywords,
      hasAnyTrackedArgs, hj]

/-! ## When a merge is conservative -/

/-- The parameter of one of two records that the merge keeps: one of the first record, or
the first of its name in the second one when the first has none of that name. -/
def KeptParam (a b : FunctionSafetyInfo) (p : MutatedParam) : Prop :=
  p ∈ a.mutatedParams ∨
    (b.mutatedParams.find? (fun q => decide (q.name = p.name)) = some p ∧
      ∀ q ∈ a.mutatedParams, q.name ≠ p.name)

/-- Kept parameters match every argument that the position does: one has the same
position, or one is unresolved and, for a resolved position, another is resolved. -/
def PositionKept (a b : FunctionSafetyInfo) (position : ParamPosition) : Prop :=
  (∃ q, KeptParam a b q ∧ q.position = position) ∨
    (position ≠ .unresolved ∧ (∃ q, KeptParam a b q ∧ q.position = .unresolved) ∧
      ∃ q, KeptParam a b q ∧ q.position ≠ .unresolved)

/-- Merging the second record into the first loses nothing of either. -/
structure MergeConservative (a b : FunctionSafetyInfo) : Prop where
  hit : ∀ args argOffset, a.hitBy args argOffset = true ∨ b.hitBy args argOffset = true →
    (a.mergeRef b).hitBy args argOffset = true
  verdict : a.verdict ∪ b.verdict ⊆ (a.mergeRef b).verdict
  callees : a.missingDepCallees ∪ b.missingDepCallees ⊆ (a.mergeRef b).missingDepCallees

section Merge

variable {a b : FunctionSafetyInfo} {args : ImportedArgs} {argOffset : Nat} {p : MutatedParam}

theorem mem_mergeRef_params :
    p ∈ (a.mergeRef b).mutatedParams ↔ KeptParam a b p :=
  FunctionSafetyInfo.mem_extendMutatedParams

/-- A call that hits a parameter of the second record hits a kept one, if the position is
kept. -/
theorem hitBy_merge_of_position (hp : p ∈ b.mutatedParams)
    (hkept : PositionKept a b p.position)
    (h : args.hitsParam p.name p.position argOffset = true) :
    (a.mergeRef b).hitBy args argOffset = true := by
  rw [FunctionSafetyInfo.hitBy_iff]
  by_cases hkw : args.hasUnsafeKeyword p.name = true
  · obtain ⟨q, hq, hname⟩ :=
      FunctionSafetyInfo.exists_name_extendMutatedParams a.mutatedParams hp
    refine ⟨q, hq, hitsParam_of_hasUnsafeKeyword ?_⟩
    rw [hname]
    exact hkw
  rcases hkept with ⟨q, hq, hpos⟩ | ⟨hres, ⟨q, hq, hunres⟩, r, hr, hresolved⟩
  · refine ⟨q, mem_mergeRef_params.mpr hq, ?_⟩
    rw [hpos]
    exact hitsParam_of_position hkw h
  · by_cases htracked : args.hasAnyTrackedArgs = true
    · refine ⟨q, mem_mergeRef_params.mpr hq, ?_⟩
      rw [hunres, hitsParam, if_pos rfl]
      exact htracked
    · exact ⟨r, mem_mergeRef_params.mpr hr, hitsParam_of_untracked htracked hresolved⟩

/-- The slot after a position, the first where there is none. -/
def slotAfter : ParamPosition → Nat
  | .positional j => j + 1
  | _ => 0

/-- A position that is not kept is reached by a call that reaches no kept parameter. -/
theorem exists_missed_of_not_kept (hnot : ¬PositionKept a b p.position) :
    ∃ (args : ImportedArgs) (argOffset : Nat),
      args.hitsParam p.name p.position argOffset = true ∧
      ∀ q, KeptParam a b q → args.hitsParam q.name q.position argOffset = false := by
  have hsame : ∀ q, KeptParam a b q → q.position ≠ p.position :=
    fun q hq hpos => hnot (Or.inl ⟨q, hq, hpos⟩)
  by_cases hunres : p.position = .unresolved
  · -- a keyword no kept parameter is named after
    obtain ⟨kw, hkw⟩ := Infinite.exists_notMem_finset
      ((a.mergeRef b).mutatedParams.map MutatedParam.name).toFinset
    have hne : ∀ q, KeptParam a b q → kw ≠ q.name := by
      rintro q hq rfl
      refine hkw (List.mem_toFinset.mpr (List.mem_map_of_mem ?_))
      exact mem_mergeRef_params.mpr hq
    refine ⟨keywordArgs kw, 0, ?_, ?_⟩
    · rw [hunres]
      simp [hitsParam, keywordArgs, hasAnyTrackedArgs]
    · intro q hq
      have hq' := hsame q hq
      rw [hunres] at hq'
      rw [hits_keywordArgs (hne q hq), decide_eq_false hq']
  by_cases hkeptUnres : ∃ q, KeptParam a b q ∧ q.position = .unresolved
  · -- every kept parameter is unresolved: a call without a tracked argument
    have hall : ∀ q, KeptParam a b q → q.position = .unresolved := by
      intro q hq
      by_contra hres
      exact hnot (Or.inr ⟨hunres, hkeptUnres, q, hq, hres⟩)
    refine ⟨{}, 0, ?_, ?_⟩
    · exact hitsParam_of_untracked (by decide) hunres
    · intro q hq
      rw [hall q hq]
      rfl
  · have hres : ∀ q, KeptParam a b q → q.position ≠ .unresolved :=
      fun q hq hpos => hkeptUnres ⟨q, hq, hpos⟩
    cases hpos : p.position with
    | unresolved => exact absurd hpos hunres
    | positional i =>
      refine ⟨firstArgs, i, ?_, ?_⟩
      · rw [hits_firstArgs]
        simp
      · intro q hq
        have hq' := hsame q hq
        rw [hpos] at hq'
        rw [hits_firstArgs, decide_eq_false (hres q hq), decide_eq_false hq']
        rfl
    | keywordOnly =>
      -- an expansion past every kept slot
      obtain ⟨lo, hbound⟩ := Finset.exists_le
        ((a.mergeRef b).mutatedParams.map fun q => slotAfter q.position).toFinset
      have hlo : ∀ q, KeptParam a b q → ∀ j, q.position = .positional j → j < lo := by
        intro q hq j hj
        have hle : slotAfter q.position ≤ lo := hbound _ (List.mem_toFinset.mpr
          (List.mem_map.mpr ⟨q, mem_mergeRef_params.mpr hq, rfl⟩))
        rw [hj, slotAfter] at hle
        omega
      refine ⟨starArgs lo, 0, ?_, ?_⟩
      · rw [hits_starArgs (by simp)]
        rfl
      · intro q hq
        have hq' := hsame q hq
        rw [hpos] at hq'
        rw [hits_starArgs (hlo q hq), decide_eq_false (hres q hq), decide_eq_false hq']
        rfl

/-- A merge is conservative exactly when every position at which the second record
mutates a parameter is kept. -/
theorem merge_conservative_iff (a b : FunctionSafetyInfo) :
    MergeConservative a b ↔ ∀ p ∈ b.mutatedParams, PositionKept a b p.position := by
  constructor
  · intro h p hp
    by_contra hnot
    obtain ⟨args, argOffset, hhit, hmiss⟩ := exists_missed_of_not_kept hnot
    have hb : b.hitBy args argOffset = true :=
      FunctionSafetyInfo.hitBy_iff.mpr ⟨p, hp, hhit⟩
    obtain ⟨q, hq, hqhit⟩ :=
      FunctionSafetyInfo.hitBy_iff.mp (h.hit args argOffset (Or.inr hb))
    rw [hmiss q (mem_mergeRef_params.mp hq)] at hqhit
    cases hqhit
  · intro h
    refine ⟨?_, Finset.Subset.refl _, Finset.Subset.refl _⟩
    rintro args argOffset (ha | hb)
    · obtain ⟨p, hp, hhit⟩ := FunctionSafetyInfo.hitBy_iff.mp ha
      exact FunctionSafetyInfo.hitBy_iff.mpr
        ⟨p, mem_mergeRef_params.mpr (Or.inl hp), hhit⟩
    · obtain ⟨p, hp, hhit⟩ := FunctionSafetyInfo.hitBy_iff.mp hb
      exact hitBy_merge_of_position hp (h p hp) hhit

end Merge

/-- A record that mutates its parameter `x`, at `position`. -/
def mutatesX (position : ParamPosition) : FunctionSafetyInfo where
  verdict := ∅
  mutatedParams := [⟨fromStr "x", position⟩]

/-- Two definitions of one function that mutate `x` in different slots: a call that
passes an imported object into the second slot hits the second record alone, and misses
the merged one. -/
theorem merge_drops_position :
    ¬MergeConservative (mutatesX (.positional 0)) (mutatesX (.positional 1)) := by
  intro h
  have hhit := h.hit { unsafeArgIndices := 2 } 0 (Or.inr (by decide))
  have hmiss : ((mutatesX (.positional 0)).mergeRef (mutatesX (.positional 1))).hitBy
      { unsafeArgIndices := 2 } 0 = false := by decide
  rw [hmiss] at hhit
  cases hhit

end Lifeguard
