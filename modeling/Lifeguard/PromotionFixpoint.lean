import Lifeguard.PromotionRun

/-!
# The promoted functions are a least fixed point

What one run of `promoteFixpoint` promotes, said without its rounds:

- `promotes`: the operator on sets of functions, whose least fixed point is the set of
  promoted functions (`promoted_eq_lfp`);
- `round_same`: two runs over the same entries, met in another order, stay in step, so
  the order of the hash maps decides nothing (`promoteFixpoint_reordered`).

`promotion_least_fixpoint` puts the pieces together.
-/

namespace Lifeguard

open Lib

/-! ## The operator -/

/-- The functions that clear once those of `S` are promoted: they wait only for callees
that do not block from the start, or that are in `S`. -/
def promotes (P : PromotionInput) : Set (ModuleName × Str) →o Set (ModuleName × Str) where
  toFun S := { k | ∃ info, WaitsOn P (clearSet P.functionSafety ∪ S) k info }
  monotone' := by
    rintro S T hST k ⟨info, h⟩
    exact ⟨info, h.merged, h.entry, h.promotable, fun d hd =>
      (h.callees d hd).mono (Set.union_subset_union_right _ hST)⟩

section Promoted

variable {P : PromotionInput}

/-- A promotable function is not clear before the run. -/
theorem WaitsOn.not_mem_clearSet {X : Set (ModuleName × Str)} {k : ModuleName × Str}
    {info : FunctionSafetyInfo} (h : WaitsOn P X k info) :
    k ∉ clearSet P.functionSafety := by
  rintro ⟨info', hget, hnb⟩
  rw [h.entry] at hget
  cases hget
  exact hnb.not_mem_missingDep h.promotable.missingDep

/-- What ends clear was clear before the run or was promoted. -/
theorem clearSet_eq_union :
    clearSet (promoteFixpoint P).functionSafety =
      clearSet P.functionSafety ∪ { k | k ∈ (promoteFixpoint P).promoted } := by
  have hinv := promoteFixpoint_inv P
  refine Set.Subset.antisymm ?_ ?_
  · rintro ⟨m, n⟩ ⟨info, hget, hnb⟩
    by_cases hp : (m, n) ∈ (promoteFixpoint P).promoted
    · exact Or.inr hp
    · rw [hinv.unpromoted m n hp] at hget
      exact Or.inl ⟨info, hget, hnb⟩
  · rintro ⟨m, n⟩ (⟨info, hget, hnb⟩ | hp)
    · exact ⟨info, keepsClear_promoteFixpoint P m n info hget hnb, hnb⟩
    · obtain ⟨info, v, h⟩ := hinv.promotedEntry m n hp
      exact ⟨_, h.now, h.nonBlocking⟩

/-- The promoted functions are the least set closed under `promotes`. -/
theorem promoted_eq_lfp (P : PromotionInput) :
    { k | k ∈ (promoteFixpoint P).promoted } = (promotes P).lfp := by
  have hclear : clearSet P.functionSafety ∪ { k | k ∈ (promoteFixpoint P).promoted } =
      (clears P).lfp := by
    rw [← clearSet_eq_union, clearSet_promoteFixpoint]
  refine Set.Subset.antisymm ?_ ?_
  · -- what the operator's fixed point leaves out is left out of the clear entries too
    have hle : (clears P).lfp ⊆ clearSet P.functionSafety ∪ (promotes P).lfp := by
      refine (clears P).lfp_le ?_
      rintro k (hk | hk)
      · exact Or.inl hk
      · refine Or.inr ?_
        rw [← OrderHom.map_lfp]
        exact hk
    rintro ⟨m, n⟩ hp
    have hmem : (m, n) ∈ clearSet P.functionSafety ∪ (promotes P).lfp := by
      refine hle ?_
      rw [← hclear]
      exact Or.inr hp
    obtain ⟨info, v, h⟩ := (promoteFixpoint_inv P).promotedEntry m n hp
    refine hmem.resolve_left ?_
    rintro ⟨info', hget, hnb⟩
    rw [h.initial] at hget
    cases hget
    exact hnb.not_mem_missingDep h.promotable.missingDep
  · refine (promotes P).lfp_le ?_
    rintro k ⟨info, h⟩
    have hmem : k ∈ (clears P).lfp := by
      rw [← OrderHom.map_lfp, ← hclear]
      exact Or.inr ⟨info, h⟩
    rw [← hclear] at hmem
    exact hmem.resolve_left h.not_mem_clearSet

end Promoted

/-! ## One round, entry by entry -/

/-- The apply phase gives a promoted entry the verdict of its promotion. -/
theorem get_foldl_commit {P : PromotionInput}
    (ps : List (PromotionCandidate × FunctionSafety)) {st : PromotionState}
    (hinv : PromotionInv P st) (hok : ∀ p ∈ ps, CommitOk P st p.1 p.2)
    (hnodup : (ps.map fun p => p.1.key).Nodup) {p : PromotionCandidate × FunctionSafety}
    (hp : p ∈ ps) {m : ModuleName} {n : Str} (hkey : p.1.key = (m, n)) :
    getFunctionSafety (ps.foldl (PromotionState.commit P.needed) st).functionSafety m n =
      (getFunctionSafety P.functionSafety m n).map
        fun info => { info with verdict := p.2 } := by
  induction ps generalizing st with
  | nil => cases hp
  | cons q ps ih =>
    rw [List.map_cons, List.nodup_cons] at hnodup
    have hq : CommitOk P st q.1 q.2 := hok q List.mem_cons_self
    have hrest : ∀ r ∈ ps, CommitOk P (st.commit P.needed q) r.1 r.2 := by
      intro r hr
      refine hq.after_commit hinv (hok r (List.mem_cons_of_mem _ hr)) ?_
      intro hqr
      exact hnodup.1 (List.mem_map.mpr ⟨r, hr, hqr⟩)
    rw [List.foldl_cons]
    rcases List.mem_cons.mp hp with rfl | hp
    · -- committed now, and clear from here on
      have hnow := hq.get_commit hinv P.needed m n
      rw [if_pos hkey.symm] at hnow
      obtain ⟨info, -, hinit, -⟩ := hq.entry hinv
      have hmn : p.1.moduleName = m ∧ p.1.name = n := Prod.mk.injEq .. |>.mp hkey
      rw [hmn.1, hmn.2] at hinit
      rw [hinit] at hnow ⊢
      exact (foldl_commit_inv ps (commit_inv hinv hq) hrest hnodup.2).2.1 m n _ hnow
        hq.nonBlocking
    · exact ih (commit_inv hinv hq) hrest hnodup.2 hp

/-- An entry after a round: promoted to its target, or as it was. -/
theorem get_round {P : PromotionInput} {st st' : PromotionState} (h : RoundInv P st)
    (hr : st.round P.needed = some st') {c : PromotionCandidate} {v : FunctionSafety}
    (hc : c ∈ st.remaining) (hv : st.target c = some v) {m : ModuleName} {n : Str}
    (hkey : c.key = (m, n)) :
    getFunctionSafety st'.functionSafety m n =
      (getFunctionSafety P.functionSafety m n).map
        fun info => { info with verdict := v } := by
  obtain ⟨-, rfl⟩ := round_eq_some hr
  exact get_foldl_commit st.toPromote h.applying h.commitOk h.nodup_toPromote
    (p := (c, v)) (mem_toPromote.mpr ⟨hc, hv⟩) hkey

/-- What is promoted already keeps its verdict. -/
theorem get_round_of_promoted {P : PromotionInput} {st st' : PromotionState}
    (h : RoundInv P st) (hr : st.round P.needed = some st') {m : ModuleName} {n : Str}
    (hp : (m, n) ∈ st.promoted) :
    getFunctionSafety st'.functionSafety m n = getFunctionSafety st.functionSafety m n := by
  obtain ⟨info, v, hentry⟩ := h.inv.promotedEntry m n hp
  rw [hentry.now]
  exact (round_inv h hr).2.1 m n _ hentry.now hentry.nonBlocking

/-! ## Two orders of the same entries -/

/-- `P'` has the entries of `P`, its maps walked in another order, whatever the way its
callees are split. -/
structure PromotionInput.Reordered (P P' : PromotionInput) : Prop where
  moduleNames : P'.moduleNames = P.moduleNames
  neededUnqualified : P'.neededUnqualified = P.neededUnqualified
  entries : ∀ m n,
    getFunctionSafety P'.functionSafety m n = getFunctionSafety P.functionSafety m n

section Reordered

variable {P P' : PromotionInput} (hre : P.Reordered P')

include hre

theorem mem_candidates_reordered {c : PromotionCandidate} :
    c ∈ P'.candidates ↔ c ∈ P.candidates := by
  have hsplit : splitCallee P'.moduleNames P'.search = splitCallee P.moduleNames P.search := by
    funext name
    rw [splitCallee_eq, splitCallee_eq, hre.moduleNames]
  rw [PromotionInput.mem_candidates, PromotionInput.mem_candidates, hsplit,
    hre.moduleNames, hre.entries]

theorem needed_reordered : P'.needed = P.needed := by
  ext d
  unfold PromotionInput.needed
  rw [PromotionInput.mem_neededNames, PromotionInput.mem_neededNames, hre.neededUnqualified]
  refine or_congr Iff.rfl (exists_congr fun c => ?_)
  rw [mem_candidates_reordered hre]

/-- Two states in step: the same entries, and the same functions promoted. -/
structure InStep (P P' : PromotionInput) (st st' : PromotionState) : Prop where
  left : RoundInv P st
  right : RoundInv P' st'
  entries : ∀ m n,
    getFunctionSafety st'.functionSafety m n = getFunctionSafety st.functionSafety m n
  promoted : ∀ k, k ∈ st'.promoted ↔ k ∈ st.promoted

variable {st st' : PromotionState}

theorem InStep.mem_remaining (h : InStep P P' st st') {c : PromotionCandidate} :
    c ∈ st'.remaining ↔ c ∈ st.remaining := by
  rw [h.left.remaining, h.right.remaining, mem_candidates_reordered hre, h.promoted]

theorem InStep.index_eq (h : InStep P P' st st') :
    st'.globallySafe = st.globallySafe ∧ st'.globallyIfImported = st.globallyIfImported := by
  refine ⟨?_, ?_⟩
  · ext d
    rw [h.left.inv.safeIndex, h.right.inv.safeIndex, needed_reordered hre, hre.moduleNames]
    simp only [h.entries]
  · ext d
    rw [h.left.inv.importedIndex, h.right.inv.importedIndex, needed_reordered hre,
      hre.moduleNames]
    simp only [h.entries]

theorem InStep.resolve_eq (h : InStep P P' st st') (callee : ResolvedCallee) :
    st'.resolve callee = st.resolve callee := by
  obtain ⟨hsafe, himported⟩ := InStep.index_eq hre h
  unfold PromotionState.resolve resolveCalleeVerdict
  cases callee with
  | qualified m l =>
    dsimp only
    rw [h.entries]
  | unqualified name =>
    dsimp only
    rw [hsafe, himported]

theorem InStep.target_eq (h : InStep P P' st st') (c : PromotionCandidate) :
    st'.target c = st.target c := by
  unfold PromotionState.target
  simp only [InStep.resolve_eq hre h]

theorem InStep.mem_toPromote (h : InStep P P' st st')
    {p : PromotionCandidate × FunctionSafety} :
    p ∈ st'.toPromote ↔ p ∈ st.toPromote := by
  rw [Lifeguard.mem_toPromote, Lifeguard.mem_toPromote, InStep.mem_remaining hre h,
    InStep.target_eq hre h]

theorem inStep_start : InStep P P' P.start P'.start where
  left := roundInv_start P
  right := roundInv_start P'
  entries := hre.entries
  promoted _ := Iff.rfl

/-- Two states in step come to rest together. -/
theorem round_none_iff (h : InStep P P' st st') :
    st.round P.needed = none ↔ st'.round P'.needed = none := by
  have hnil : st.toPromote = [] ↔ st'.toPromote = [] := by
    rw [List.eq_nil_iff_forall_not_mem, List.eq_nil_iff_forall_not_mem]
    exact forall_congr' fun p => not_congr (InStep.mem_toPromote hre h).symm
  unfold PromotionState.round
  by_cases hempty : st.toPromote = []
  · rw [if_pos hempty, if_pos (hnil.mp hempty)]
  · rw [if_neg hempty, if_neg fun h' => hempty (hnil.mpr h')]
    simp

/-- A round of each leaves two states in step. -/
theorem round_same {s s' : PromotionState} (h : InStep P P' st st')
    (hr : st.round P.needed = some s) (hr' : st'.round P'.needed = some s') :
    InStep P P' s s' := by
  obtain ⟨hinv, -, hprom⟩ := round_inv h.left hr
  obtain ⟨hinv', -, hprom'⟩ := round_inv h.right hr'
  have hpromoted : ∀ k, k ∈ s'.promoted ↔ k ∈ s.promoted := by
    intro k
    rw [hprom, hprom', h.promoted]
    refine or_congr Iff.rfl (exists_congr fun c => ?_)
    rw [InStep.mem_remaining hre h, InStep.target_eq hre h]
  refine ⟨hinv, hinv', ?_, hpromoted⟩
  intro m n
  by_cases hnow : (m, n) ∈ s.promoted
  · rcases (hprom (m, n)).mp hnow with hold | ⟨c, hc, hkey, hsome⟩
    · rw [get_round_of_promoted h.left hr hold,
        get_round_of_promoted h.right hr' ((h.promoted _).mpr hold), h.entries]
    · obtain ⟨v, hv⟩ := Option.isSome_iff_exists.mp hsome
      have hc' := (InStep.mem_remaining hre h).mpr hc
      have hv' := (InStep.target_eq hre h c).trans hv
      rw [get_round h.left hr hc hv hkey, get_round h.right hr' hc' hv' hkey, hre.entries]
  · rw [hinv.inv.unpromoted m n hnow,
      hinv'.inv.unpromoted m n fun h' => hnow ((hpromoted _).mp h'), hre.entries]

/-- Two candidate lists over the same entries have the same length. -/
theorem length_candidates_reordered : P'.candidates.length = P.candidates.length := by
  have hperm : P'.candidates.Perm P.candidates := by
    refine (List.perm_ext_iff_of_nodup ?_ ?_).mpr fun c => mem_candidates_reordered hre
    · exact List.Nodup.of_map _ (nodup_collectPromotionCandidates ..)
    · exact List.Nodup.of_map _ (nodup_collectPromotionCandidates ..)
  exact hperm.length_eq

theorem promoteFixpoint_reordered : InStep P P' (promoteFixpoint P) (promoteFixpoint P') := by
  unfold promoteFixpoint PromotionInput.stateAfter
  rw [length_candidates_reordered hre]
  exact runRounds_rel (R := InStep P P') (fun _ _ h => round_none_iff hre h)
    (fun _ _ _ _ h hr hr' => round_same hre h hr hr') _ (inStep_start hre)

end Reordered

/-! ## The whole run -/

/-- What promotion does to one function: its new verdict is non-blocking and contains its
remaining concerns and the final verdicts of its qualified callees; nothing else of the
entry changes. -/
structure PromotedTo (P : PromotionInput) (m : ModuleName) (n : Str)
    (info : FunctionSafetyInfo) (v : FunctionSafety) : Prop where
  initial : getFunctionSafety P.functionSafety m n = some info
  now : getFunctionSafety (promoteFixpoint P).functionSafety m n =
    some { info with verdict := v }
  nonBlocking : v = ∅ ∨ v = {.unsafeIfImported}
  remaining : info.verdict.erase .unsafeMissingDep ⊆ v
  callees : ∀ d ∈ info.missingDepCallees, ∀ m' l,
    (enclosingModule d fun m => decide (m ∈ P.moduleNames)) = some (m', l) →
    ∃ callee, getFunctionSafety (promoteFixpoint P).functionSafety m' l = some callee ∧
      callee.verdict ⊆ v

/-- The run comes to rest within one round for each candidate; it promotes the least set
of functions closed under `promotes`, each to a verdict that covers what it waited for,
and changes no other entry; and the order of the maps does not matter. -/
theorem promotion_least_fixpoint (P : PromotionInput) :
    (P.stateAfter P.candidates.length).round P.needed = none ∧
    promoteFixpoint P = P.stateAfter P.candidates.length ∧
    { k | k ∈ (promoteFixpoint P).promoted } = (promotes P).lfp ∧
    (∀ m n, (m, n) ∈ (promoteFixpoint P).promoted → ∃ info v, PromotedTo P m n info v) ∧
    (∀ m n, (m, n) ∉ (promoteFixpoint P).promoted →
      getFunctionSafety (promoteFixpoint P).functionSafety m n =
        getFunctionSafety P.functionSafety m n) ∧
    ∀ P', P.Reordered P' →
      (∀ m n, getFunctionSafety (promoteFixpoint P').functionSafety m n =
        getFunctionSafety (promoteFixpoint P).functionSafety m n) ∧
      (∀ k, k ∈ (promoteFixpoint P').promoted ↔ k ∈ (promoteFixpoint P).promoted) ∧
      (promoteFixpoint P').globallySafe = (promoteFixpoint P).globallySafe := by
  refine ⟨round_promoteFixpoint P, rfl, promoted_eq_lfp P, ?_,
    (promoteFixpoint_inv P).unpromoted, ?_⟩
  · intro m n hp
    obtain ⟨info, v, h⟩ := (promoteFixpoint_inv P).promotedEntry m n hp
    refine ⟨info, v, h.initial, h.now, nonBlocking_iff.mp h.nonBlocking, h.keeps, ?_⟩
    intro d hd m' l hsplit
    have hclears := h.callees d hd
    rw [splitCallee_eq, hsplit] at hclears
    obtain ⟨callee, hget, -, hle⟩ := hclears
    exact ⟨callee, hget, hle⟩
  · intro P' hre
    have h := promoteFixpoint_reordered hre
    exact ⟨h.entries, h.promoted, (InStep.index_eq hre h).1⟩

end Lifeguard
