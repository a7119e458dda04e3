import Lifeguard.PromotionTheory

/-!
# Runs of the promotion loop

One invariant (`PromotionInv`) holds of every state the loop of `promoteFixpoint`
passes: an entry is the initial one, or it was promoted, and then its verdict is
non-blocking, keeps the initial concerns, and bounds the verdict of every callee the
entry waited for (`PromotedEntry`). The two global indices are exactly the demanded
names that some merged module defines with that verdict.

The step is one commit (`commit_inv`); a round and a run follow from it. What an entry
ends with is then read off the final state (`clearSet_promoteFixpoint`).
-/

namespace Lifeguard

open Lib

/-! ## Callees that clear -/

/-- A callee that clears in `fs`, with a verdict within `v`. -/
def CalleeClears (moduleNames : Finset ModuleName) (fs : FunctionSafetyMap)
    (v : FunctionSafety) : ResolvedCallee → Prop
  | .qualified m l =>
    ∃ info, getFunctionSafety fs m l = some info ∧ NonBlocking info.verdict ∧
      info.verdict ⊆ v
  | .unqualified d =>
    ∃ m ∈ moduleNames, ∃ info, getFunctionSafety fs m d = some info ∧
      NonBlocking info.verdict ∧ info.verdict ⊆ v

/-- A callee that clears in `fs` and has the concern `x`. -/
def CalleeCarries (moduleNames : Finset ModuleName) (fs : FunctionSafetyMap)
    (x : Concern) : ResolvedCallee → Prop
  | .qualified m l =>
    ∃ info, getFunctionSafety fs m l = some info ∧ NonBlocking info.verdict ∧
      x ∈ info.verdict
  | .unqualified d =>
    ∃ m ∈ moduleNames, ∃ info, getFunctionSafety fs m d = some info ∧
      NonBlocking info.verdict ∧ x ∈ info.verdict

/-- `fs'` keeps every non-blocking entry of `fs`. -/
def KeepsClear (fs fs' : FunctionSafetyMap) : Prop :=
  ∀ m n info, getFunctionSafety fs m n = some info → NonBlocking info.verdict →
    getFunctionSafety fs' m n = some info

theorem KeepsClear.refl (fs : FunctionSafetyMap) : KeepsClear fs fs :=
  fun _ _ _ h _ => h

theorem KeepsClear.trans {fs₁ fs₂ fs₃ : FunctionSafetyMap} (h : KeepsClear fs₁ fs₂)
    (h' : KeepsClear fs₂ fs₃) : KeepsClear fs₁ fs₃ :=
  fun m n info hget hnb => h' m n info (h m n info hget hnb) hnb

theorem CalleeClears.keeps {moduleNames : Finset ModuleName} {fs fs' : FunctionSafetyMap}
    {v : FunctionSafety} {callee : ResolvedCallee} (hk : KeepsClear fs fs')
    (h : CalleeClears moduleNames fs v callee) : CalleeClears moduleNames fs' v callee := by
  cases callee with
  | qualified m l =>
    obtain ⟨info, hget, hnb, hle⟩ := h
    exact ⟨info, hk m l info hget hnb, hnb, hle⟩
  | unqualified d =>
    obtain ⟨m, hm, info, hget, hnb, hle⟩ := h
    exact ⟨m, hm, info, hk m d info hget hnb, hnb, hle⟩

theorem CalleeCarries.keeps {moduleNames : Finset ModuleName}
    {fs fs' : FunctionSafetyMap} {x : Concern} {callee : ResolvedCallee}
    (hk : KeepsClear fs fs') (h : CalleeCarries moduleNames fs x callee) :
    CalleeCarries moduleNames fs' x callee := by
  cases callee with
  | qualified m l =>
    obtain ⟨info, hget, hnb, hx⟩ := h
    exact ⟨info, hk m l info hget hnb, hnb, hx⟩
  | unqualified d =>
    obtain ⟨m, hm, info, hget, hnb, hx⟩ := h
    exact ⟨m, hm, info, hk m d info hget hnb, hnb, hx⟩

theorem CalleeClears.mono {moduleNames : Finset ModuleName} {fs : FunctionSafetyMap}
    {v w : FunctionSafety} {callee : ResolvedCallee} (hvw : v ⊆ w)
    (h : CalleeClears moduleNames fs v callee) : CalleeClears moduleNames fs w callee := by
  cases callee with
  | qualified m l =>
    obtain ⟨info, hget, hnb, hle⟩ := h
    exact ⟨info, hget, hnb, hle.trans hvw⟩
  | unqualified d =>
    obtain ⟨m, hm, info, hget, hnb, hle⟩ := h
    exact ⟨m, hm, info, hget, hnb, hle.trans hvw⟩

/-! ## The invariant -/

/-- What promotion leaves of an entry: a non-blocking verdict that has the initial
concerns and those of the callees, and no other, with every callee clearing below
it. -/
structure PromotedEntry (P : PromotionInput) (fs : FunctionSafetyMap) (m : ModuleName)
    (n : Str) (info : FunctionSafetyInfo) (v : FunctionSafety) : Prop where
  merged : m ∈ P.moduleNames
  initial : getFunctionSafety P.functionSafety m n = some info
  promotable : Promotable info
  now : getFunctionSafety fs m n = some { info with verdict := v }
  nonBlocking : NonBlocking v
  keeps : info.verdict.erase .unsafeMissingDep ⊆ v
  callees : ∀ d ∈ info.missingDepCallees,
    CalleeClears P.moduleNames fs v (splitCallee P.moduleNames P.search d)
  exact : ∀ x ∈ v, x ∈ info.verdict ∨ ∃ d ∈ info.missingDepCallees,
    CalleeCarries P.moduleNames fs x (splitCallee P.moduleNames P.search d)

/-- What holds of the verdicts and the indices in every state of the loop. -/
structure PromotionInv (P : PromotionInput) (st : PromotionState) : Prop where
  unpromoted : ∀ m n, (m, n) ∉ st.promoted →
    getFunctionSafety st.functionSafety m n = getFunctionSafety P.functionSafety m n
  promotedEntry : ∀ m n, (m, n) ∈ st.promoted →
    ∃ info v, PromotedEntry P st.functionSafety m n info v
  safeIndex : ∀ d, d ∈ st.globallySafe ↔ d ∈ P.needed ∧ ∃ m ∈ P.moduleNames, ∃ info,
    getFunctionSafety st.functionSafety m d = some info ∧ info.verdict = ∅
  importedIndex : ∀ d, d ∈ st.globallyIfImported ↔ d ∈ P.needed ∧
    ∃ m ∈ P.moduleNames, ∃ info,
      getFunctionSafety st.functionSafety m d = some info ∧
        info.verdict = {.unsafeIfImported}

theorem promotionInv_start (P : PromotionInput) : PromotionInv P P.start where
  unpromoted _ _ _ := rfl
  promotedEntry m n h := by
    rw [PromotionInput.start] at h
    cases h
  safeIndex _ := mem_globalIndex
  importedIndex _ := mem_globalIndex

/-- A promotion that the state justifies. -/
structure CommitOk (P : PromotionInput) (st : PromotionState) (c : PromotionCandidate)
    (v : FunctionSafety) : Prop where
  candidate : c ∈ P.candidates
  fresh : c.key ∉ st.promoted
  nonBlocking : NonBlocking v
  keeps : c.baseVerdict ⊆ v
  callees : ∀ callee ∈ c.callees, CalleeClears P.moduleNames st.functionSafety v callee
  exact : ∀ x ∈ v, x ∈ c.baseVerdict ∨ ∃ callee ∈ c.callees,
    CalleeCarries P.moduleNames st.functionSafety x callee

/-! ## What a callee resolves to -/

namespace PromotionInv

variable {P : PromotionInput} {st : PromotionState}

/-- A resolved callee clears, and its verdict is that of an entry. -/
theorem resolve_spec (hinv : PromotionInv P st) {callee : ResolvedCallee}
    {r : FunctionSafety} (h : st.resolve callee = some r) :
    NonBlocking r ∧ CalleeClears P.moduleNames st.functionSafety r callee ∧
      ∀ x ∈ r, CalleeCarries P.moduleNames st.functionSafety x callee := by
  unfold PromotionState.resolve resolveCalleeVerdict at h
  cases callee with
  | qualified m l =>
    obtain ⟨info, hget, hv⟩ := Option.bind_eq_some_iff.mp h
    obtain ⟨hnb, rfl⟩ := maybeNonBlockingVerdict_eq_some.mp hv
    exact ⟨hnb, ⟨info, hget, hnb, Finset.Subset.refl _⟩,
      fun x hx => ⟨info, hget, hnb, hx⟩⟩
  | unqualified d =>
    dsimp only at h
    split at h
    · next hs =>
      cases h
      obtain ⟨-, m, hm, info, hget, hv⟩ := (hinv.safeIndex d).mp hs
      have hnb : NonBlocking info.verdict := hv ▸ nonBlocking_empty
      refine ⟨nonBlocking_empty, ⟨m, hm, info, hget, hnb, hv.subset⟩, ?_⟩
      intro x hx
      simp at hx
    · next hs =>
      split at h
      · next hi =>
        cases h
        obtain ⟨-, m, hm, info, hget, hv⟩ := (hinv.importedIndex d).mp hi
        have hnb : NonBlocking info.verdict := hv ▸ nonBlocking_singleton
        exact ⟨nonBlocking_singleton, ⟨m, hm, info, hget, hnb, hv.subset⟩,
          fun x hx => ⟨m, hm, info, hget, hnb, hv ▸ hx⟩⟩
      · cases h

/-- A callee that clears resolves, when its name is demanded. -/
theorem resolve_isSome (hinv : PromotionInv P st) {callee : ResolvedCallee}
    {v : FunctionSafety} (h : CalleeClears P.moduleNames st.functionSafety v callee)
    (hneeded : ∀ d, callee = .unqualified d → d ∈ P.needed) :
    (st.resolve callee).isSome := by
  unfold PromotionState.resolve resolveCalleeVerdict
  cases callee with
  | qualified m l =>
    obtain ⟨info, hget, hnb, -⟩ := h
    have hv := maybeNonBlockingVerdict_eq_some.mpr ⟨hnb, rfl⟩
    simp [hget, hv]
  | unqualified d =>
    obtain ⟨m, hm, info, hget, hnb, -⟩ := h
    have hd := hneeded d rfl
    dsimp only
    rcases nonBlocking_iff.mp hnb with hv | hv
    · rw [if_pos ((hinv.safeIndex d).mpr ⟨hd, m, hm, info, hget, hv⟩)]
      rfl
    · split
      · rfl
      · rw [if_pos ((hinv.importedIndex d).mpr ⟨hd, m, hm, info, hget, hv⟩)]
        rfl

/-- The verdict a round promotes a candidate to is justified by the state it reads. -/
theorem commitOk_of_target (hinv : PromotionInv P st) {c : PromotionCandidate}
    {v : FunctionSafety} (hc : c ∈ P.candidates) (hfresh : c.key ∉ st.promoted)
    (h : st.target c = some v) : CommitOk P st c v := by
  unfold PromotionState.target at h
  split at h
  case isFalse => cases h
  case isTrue hall =>
  cases h
  -- each callee resolves, to concerns the joined verdict has
  have hres : ∀ callee ∈ c.callees, ∃ r, st.resolve callee = some r ∧
      r ⊆ c.callees.biUnion fun callee => (st.resolve callee).getD ∅ := by
    intro callee hmem
    obtain ⟨r, hr⟩ := Option.isSome_iff_exists.mp (hall callee hmem)
    refine ⟨r, hr, ?_⟩
    have hsub := Finset.subset_biUnion_of_mem (fun callee => (st.resolve callee).getD ∅) hmem
    simpa only [hr, Option.getD_some] using hsub
  obtain ⟨-, info, -, hcand⟩ := PromotionInput.mem_candidates.mp hc
  obtain ⟨hp, hceq⟩ := promotionCandidate_eq_some.mp hcand
  have hbase : NonBlocking c.baseVerdict := by
    rw [hceq]
    exact nonBlocking_of_not_mem (Finset.notMem_erase _ _)
      fun hu => hp.notHard (Finset.mem_of_mem_erase hu)
  refine ⟨hc, hfresh, hbase.union ?_, Finset.subset_union_left, ?_, ?_⟩
  · intro x hx
    obtain ⟨callee, hmem, hx⟩ := Finset.mem_biUnion.mp hx
    obtain ⟨r, hr, -⟩ := hres callee hmem
    rw [hr] at hx
    exact (hinv.resolve_spec hr).1 hx
  · intro callee hmem
    obtain ⟨r, hr, hle⟩ := hres callee hmem
    exact (hinv.resolve_spec hr).2.1.mono (hle.trans Finset.subset_union_right)
  · intro x hx
    rcases Finset.mem_union.mp hx with hx | hx
    · exact Or.inl hx
    · obtain ⟨callee, hmem, hx⟩ := Finset.mem_biUnion.mp hx
      obtain ⟨r, hr, -⟩ := hres callee hmem
      rw [hr] at hx
      exact Or.inr ⟨callee, hmem, (hinv.resolve_spec hr).2.2 x hx⟩

end PromotionInv

/-! ## One commit -/

namespace CommitOk

variable {P : PromotionInput} {st : PromotionState} {c : PromotionCandidate}
  {v : FunctionSafety}

/-- The entry a promotion is about is still the initial one. -/
theorem entry (hinv : PromotionInv P st) (h : CommitOk P st c v) :
    ∃ info, c.moduleName ∈ P.moduleNames ∧
      getFunctionSafety P.functionSafety c.moduleName c.name = some info ∧
      getFunctionSafety st.functionSafety c.moduleName c.name = some info ∧
      Promotable info ∧
      c.baseVerdict = info.verdict.erase .unsafeMissingDep ∧
      c.callees = info.missingDepCallees.image (splitCallee P.moduleNames P.search) := by
  obtain ⟨hm, info, hget, hcand⟩ := PromotionInput.mem_candidates.mp h.candidate
  obtain ⟨hp, hceq⟩ := promotionCandidate_eq_some.mp hcand
  refine ⟨info, hm, hget, ?_, hp, ?_, ?_⟩
  · rw [hinv.unpromoted _ _ h.fresh]
    exact hget
  · rw [hceq]
  · rw [hceq]

theorem commit_eq (hinv : PromotionInv P st) (h : CommitOk P st c v) (needed : Finset Str) :
    st.commit needed (c, v) =
      { st with
        functionSafety :=
          modifyFunctionSafety st.functionSafety c.moduleName c.name
            fun info => { info with verdict := v }
        globallySafe :=
          if c.name ∈ needed ∧ v = ∅ then insert c.name st.globallySafe
          else st.globallySafe
        globallyIfImported :=
          if c.name ∈ needed ∧ v = {.unsafeIfImported} then
            insert c.name st.globallyIfImported
          else st.globallyIfImported
        promoted := st.promoted ++ [c.key] } := by
  obtain ⟨info, -, -, hnow, -⟩ := h.entry hinv
  unfold PromotionState.commit
  rw [hnow]
  rfl

/-- The entry committed, and every other entry as it was. -/
theorem get_commit (hinv : PromotionInv P st) (h : CommitOk P st c v)
    (needed : Finset Str) (m : ModuleName) (n : Str) :
    getFunctionSafety (st.commit needed (c, v)).functionSafety m n =
      if (m, n) = c.key then
        (getFunctionSafety P.functionSafety m n).map fun info => { info with verdict := v }
      else getFunctionSafety st.functionSafety m n := by
  rw [h.commit_eq hinv]
  show getFunctionSafety (modifyFunctionSafety _ _ _ _) m n = _
  rw [getFunctionSafety_modify]
  by_cases hk : (m, n) = c.key
  · have hmn : m = c.moduleName ∧ n = c.name := Prod.mk.injEq .. |>.mp hk
    rw [if_pos hmn, if_pos hk, hinv.unpromoted m n (hk ▸ h.fresh)]
  · have hmn : ¬(m = c.moduleName ∧ n = c.name) := fun hmn => hk (Prod.ext hmn.1 hmn.2)
    rw [if_neg hmn, if_neg hk]

theorem get_commit_self (hinv : PromotionInv P st) (h : CommitOk P st c v)
    (needed : Finset Str) {info : FunctionSafetyInfo}
    (hinit : getFunctionSafety P.functionSafety c.moduleName c.name = some info) :
    getFunctionSafety (st.commit needed (c, v)).functionSafety c.moduleName c.name =
      some { info with verdict := v } := by
  have hkey : (c.moduleName, c.name) = c.key := rfl
  rw [h.get_commit hinv, if_pos hkey, hinit]
  rfl

theorem promoted_commit (hinv : PromotionInv P st) (h : CommitOk P st c v)
    (needed : Finset Str) :
    (st.commit needed (c, v)).promoted = st.promoted ++ [c.key] := by
  rw [h.commit_eq hinv]

theorem remaining_commit (hinv : PromotionInv P st) (h : CommitOk P st c v)
    (needed : Finset Str) : (st.commit needed (c, v)).remaining = st.remaining := by
  rw [h.commit_eq hinv]

/-- A commit changes no entry that is already clear: its own was not. -/
theorem keepsClear (hinv : PromotionInv P st) (h : CommitOk P st c v)
    (needed : Finset Str) :
    KeepsClear st.functionSafety (st.commit needed (c, v)).functionSafety := by
  intro m n info hget hnb
  rw [h.get_commit hinv]
  obtain ⟨info', -, -, hnow, hp, -⟩ := h.entry hinv
  by_cases hk : (m, n) = c.key
  · obtain ⟨rfl, rfl⟩ : m = c.moduleName ∧ n = c.name := Prod.mk.injEq .. |>.mp hk
    rw [hnow] at hget
    cases hget
    exact absurd hp.missingDep hnb.not_mem_missingDep
  · rw [if_neg hk]
    exact hget

/-- One demanded-name index after a commit, for either verdict. -/
theorem index_commit (hinv : PromotionInv P st) (h : CommitOk P st c v)
    {index : Finset Str} {w : FunctionSafety} (hw : NonBlocking w)
    (hindex : ∀ d, d ∈ index ↔ d ∈ P.needed ∧ ∃ m ∈ P.moduleNames, ∃ info,
      getFunctionSafety st.functionSafety m d = some info ∧ info.verdict = w) (d : Str) :
    d ∈ (if c.name ∈ P.needed ∧ v = w then insert c.name index else index) ↔
      d ∈ P.needed ∧ ∃ m ∈ P.moduleNames, ∃ info,
        getFunctionSafety (st.commit P.needed (c, v)).functionSafety m d = some info ∧
          info.verdict = w := by
  obtain ⟨info₀, hm₀, hinit, -⟩ := h.entry hinv
  have hown : getFunctionSafety (st.commit P.needed (c, v)).functionSafety
      c.moduleName c.name = some { info₀ with verdict := v } :=
    h.get_commit_self hinv _ hinit
  have hold : d ∈ index → d ∈ P.needed ∧ ∃ m ∈ P.moduleNames, ∃ info,
      getFunctionSafety (st.commit P.needed (c, v)).functionSafety m d = some info ∧
        info.verdict = w := by
    intro hd
    obtain ⟨hn, m, hm, info, hget, hv⟩ := (hindex d).mp hd
    exact ⟨hn, m, hm, info, h.keepsClear hinv _ m d info hget (hv ▸ hw), hv⟩
  -- a verdict that is new is that of the candidate that was committed
  have hnew : (d ∈ P.needed ∧ ∃ m ∈ P.moduleNames, ∃ info,
      getFunctionSafety (st.commit P.needed (c, v)).functionSafety m d = some info ∧
        info.verdict = w) → d ∈ index ∨ (d = c.name ∧ v = w) := by
    rintro ⟨hn, m, hm, info, hget, hv⟩
    rw [h.get_commit hinv] at hget
    by_cases hk : (m, d) = c.key
    · obtain ⟨rfl, rfl⟩ : m = c.moduleName ∧ d = c.name := Prod.mk.injEq .. |>.mp hk
      rw [if_pos hk, hinit] at hget
      cases hget
      exact Or.inr ⟨rfl, hv⟩
    · rw [if_neg hk] at hget
      exact Or.inl ((hindex d).mpr ⟨hn, m, hm, info, hget, hv⟩)
  split
  · next hc =>
    rw [Finset.mem_insert]
    constructor
    · rintro (rfl | hd)
      · exact ⟨hc.1, c.moduleName, hm₀, _, hown, hc.2⟩
      · exact hold hd
    · intro hd
      rcases hnew hd with hd | ⟨rfl, -⟩
      · exact Or.inr hd
      · exact Or.inl rfl
  · next hc =>
    refine ⟨hold, fun hd => ?_⟩
    rcases hnew hd with hd' | ⟨rfl, hv⟩
    · exact hd'
    · exact absurd ⟨hd.1, hv⟩ hc

end CommitOk

theorem PromotedEntry.keepsClear {P : PromotionInput} {fs fs' : FunctionSafetyMap}
    {m : ModuleName} {n : Str} {info : FunctionSafetyInfo} {v : FunctionSafety}
    (hk : KeepsClear fs fs') (h : PromotedEntry P fs m n info v) :
    PromotedEntry P fs' m n info v where
  merged := h.merged
  initial := h.initial
  promotable := h.promotable
  now := hk m n _ h.now h.nonBlocking
  nonBlocking := h.nonBlocking
  keeps := h.keeps
  callees d hd := (h.callees d hd).keeps hk
  exact x hx := (h.exact x hx).imp_right fun ⟨d, hd, hcar⟩ => ⟨d, hd, hcar.keeps hk⟩

/-- One commit preserves the invariant. -/
theorem commit_inv {P : PromotionInput} {st : PromotionState} {c : PromotionCandidate}
    {v : FunctionSafety} (hinv : PromotionInv P st) (h : CommitOk P st c v) :
    PromotionInv P (st.commit P.needed (c, v)) := by
  have hkeep := h.keepsClear hinv P.needed
  obtain ⟨info, hm, hinit, hnow, hp, hbase, hcallees⟩ := h.entry hinv
  refine ⟨?_, ?_, ?_, ?_⟩
  · intro m n hmn
    rw [h.promoted_commit hinv, List.mem_append, List.mem_singleton, not_or] at hmn
    rw [h.get_commit hinv, if_neg hmn.2]
    exact hinv.unpromoted m n hmn.1
  · intro m n hmn
    rw [h.promoted_commit hinv, List.mem_append, List.mem_singleton] at hmn
    rcases hmn with hmn | hmn
    · -- what was promoted before stays justified, as clear entries are kept
      obtain ⟨info', v', hentry⟩ := hinv.promotedEntry m n hmn
      exact ⟨info', v', hentry.keepsClear hkeep⟩
    · -- the new one is justified by the state it was read in
      obtain ⟨rfl, rfl⟩ : m = c.moduleName ∧ n = c.name := Prod.mk.injEq .. |>.mp hmn
      refine ⟨info, v, hm, hinit, hp, h.get_commit_self hinv _ hinit, h.nonBlocking,
        hbase ▸ h.keeps, ?_, ?_⟩
      · intro d hd
        refine (h.callees _ ?_).keeps hkeep
        rw [hcallees]
        exact Finset.mem_image_of_mem _ hd
      · intro x hx
        rcases h.exact x hx with hx | ⟨callee, hmem, hcar⟩
        · rw [hbase] at hx
          exact Or.inl (Finset.mem_of_mem_erase hx)
        · rw [hcallees] at hmem
          obtain ⟨d, hd, rfl⟩ := Finset.mem_image.mp hmem
          exact Or.inr ⟨d, hd, hcar.keeps hkeep⟩
  · intro d
    rw [← h.index_commit hinv nonBlocking_empty hinv.safeIndex d, h.commit_eq hinv]
  · intro d
    rw [← h.index_commit hinv nonBlocking_singleton hinv.importedIndex d, h.commit_eq hinv]

/-- A commit leaves the other promotions of its round justified. -/
theorem CommitOk.after_commit {P : PromotionInput} {st : PromotionState}
    {c c' : PromotionCandidate} {v v' : FunctionSafety} (hinv : PromotionInv P st)
    (h : CommitOk P st c v) (h' : CommitOk P st c' v') (hne : c'.key ≠ c.key) :
    CommitOk P (st.commit P.needed (c, v)) c' v' where
  candidate := h'.candidate
  fresh := by
    rw [h.promoted_commit hinv, List.mem_append, List.mem_singleton, not_or]
    exact ⟨h'.fresh, hne⟩
  nonBlocking := h'.nonBlocking
  keeps := h'.keeps
  callees callee hmem := (h'.callees callee hmem).keeps (h.keepsClear hinv _)
  exact x hx := (h'.exact x hx).imp_right
    fun ⟨callee, hmem, hcar⟩ => ⟨callee, hmem, hcar.keeps (h.keepsClear hinv _)⟩

/-! ## One round -/

/-- The apply phase: what a list of justified promotions leaves. -/
theorem foldl_commit_inv {P : PromotionInput}
    (ps : List (PromotionCandidate × FunctionSafety)) {st : PromotionState}
    (hinv : PromotionInv P st) (hok : ∀ p ∈ ps, CommitOk P st p.1 p.2)
    (hnodup : (ps.map fun p => p.1.key).Nodup) :
    PromotionInv P (ps.foldl (PromotionState.commit P.needed) st) ∧
      KeepsClear st.functionSafety
        (ps.foldl (PromotionState.commit P.needed) st).functionSafety ∧
      (ps.foldl (PromotionState.commit P.needed) st).promoted =
        st.promoted ++ ps.map (fun p => p.1.key) ∧
      (ps.foldl (PromotionState.commit P.needed) st).remaining = st.remaining := by
  induction ps generalizing st with
  | nil => exact ⟨hinv, KeepsClear.refl _, by simp, rfl⟩
  | cons p ps ih =>
    rw [List.map_cons, List.nodup_cons] at hnodup
    have hp : CommitOk P st p.1 p.2 := hok p List.mem_cons_self
    have hrest : ∀ q ∈ ps, CommitOk P (st.commit P.needed p) q.1 q.2 := by
      intro q hq
      refine hp.after_commit hinv (hok q (List.mem_cons_of_mem _ hq)) ?_
      intro hkey
      exact hnodup.1 (List.mem_map.mpr ⟨q, hq, hkey⟩)
    obtain ⟨h1, h2, h3, h4⟩ := ih (commit_inv hinv hp) hrest hnodup.2
    refine ⟨h1, (hp.keepsClear hinv _).trans h2, ?_, ?_⟩
    · rw [List.foldl_cons, h3, hp.promoted_commit hinv, List.map_cons, List.append_assoc]
      rfl
    · rw [List.foldl_cons, h4]
      exact hp.remaining_commit hinv _

/-- What holds between two rounds: the invariant, and `remaining` is what was not
promoted yet. -/
structure RoundInv (P : PromotionInput) (st : PromotionState) : Prop where
  inv : PromotionInv P st
  remaining : ∀ c, c ∈ st.remaining ↔ c ∈ P.candidates ∧ c.key ∉ st.promoted
  nodup : (st.remaining.map PromotionCandidate.key).Nodup

theorem roundInv_start (P : PromotionInput) : RoundInv P P.start where
  inv := promotionInv_start P
  remaining c := by simp [PromotionInput.start]
  nodup := nodup_collectPromotionCandidates _ _ _

theorem mem_toPromote {st : PromotionState} {p : PromotionCandidate × FunctionSafety} :
    p ∈ st.toPromote ↔ p.1 ∈ st.remaining ∧ st.target p.1 = some p.2 := by
  simp only [PromotionState.toPromote, List.mem_filterMap, Option.map_eq_some_iff]
  constructor
  · rintro ⟨c, hc, v, hv, rfl⟩
    exact ⟨hc, hv⟩
  · rintro ⟨hc, hv⟩
    exact ⟨p.1, hc, p.2, hv, rfl⟩

theorem map_fst_toPromote (st : PromotionState) :
    st.toPromote.map Prod.fst = st.remaining.filter fun c => (st.target c).isSome := by
  unfold PromotionState.toPromote
  induction st.remaining with
  | nil => rfl
  | cons c cs ih =>
    cases h : st.target c with
    | none =>
      rw [List.filterMap_cons_none (by simp [h]), List.filter_cons_of_neg (by simp [h])]
      exact ih
    | some v =>
      rw [List.filterMap_cons_some (b := (c, v)) (by simp [h]), List.filter_cons_of_pos (by simp [h]),
        List.map_cons, ih]

/-- The state the apply phase of a round starts from. -/
def PromotionState.applying (st : PromotionState) : PromotionState :=
  { st with remaining := st.remaining.filter fun c => (st.target c).isNone }

theorem round_eq_some {needed : Finset Str} {st st' : PromotionState}
    (hr : st.round needed = some st') :
    st.toPromote ≠ [] ∧
      st' = st.toPromote.foldl (PromotionState.commit needed) st.applying := by
  unfold PromotionState.round at hr
  split at hr
  · cases hr
  · next hne =>
    cases hr
    exact ⟨hne, rfl⟩

namespace RoundInv

variable {P : PromotionInput} {st : PromotionState}

theorem applying (h : RoundInv P st) : PromotionInv P st.applying :=
  ⟨h.inv.unpromoted, h.inv.promotedEntry, h.inv.safeIndex, h.inv.importedIndex⟩

/-- Every promotion a round commits is justified when the apply phase starts. -/
theorem commitOk (h : RoundInv P st) :
    ∀ p ∈ st.toPromote, CommitOk P st.applying p.1 p.2 := by
  intro p hp
  obtain ⟨hmem, htarget⟩ := mem_toPromote.mp hp
  obtain ⟨hc, hfresh⟩ := (h.remaining p.1).mp hmem
  have hcom := h.inv.commitOk_of_target hc hfresh htarget
  exact ⟨hcom.candidate, hcom.fresh, hcom.nonBlocking, hcom.keeps, hcom.callees, hcom.exact⟩

theorem keys_toPromote (st : PromotionState) :
    st.toPromote.map (fun p => p.1.key) =
      (st.remaining.filter fun c => (st.target c).isSome).map PromotionCandidate.key := by
  rw [← map_fst_toPromote, List.map_map]
  rfl

/-- A round promotes no entry twice. -/
theorem nodup_toPromote (h : RoundInv P st) :
    (st.toPromote.map fun p => p.1.key).Nodup := by
  rw [keys_toPromote]
  exact h.nodup.sublist (List.filter_sublist.map _)

end RoundInv

/-- One round preserves the invariant, keeps what is clear, and promotes exactly the
candidates whose callees all resolve in the state it read. -/
theorem round_inv {P : PromotionInput} {st st' : PromotionState} (h : RoundInv P st)
    (hr : st.round P.needed = some st') :
    RoundInv P st' ∧ KeepsClear st.functionSafety st'.functionSafety ∧
      ∀ k, k ∈ st'.promoted ↔ k ∈ st.promoted ∨
        ∃ c ∈ st.remaining, c.key = k ∧ (st.target c).isSome := by
  obtain ⟨-, rfl⟩ := round_eq_some hr
  obtain ⟨h1, h2, h3, h4⟩ :=
    foldl_commit_inv st.toPromote h.applying h.commitOk h.nodup_toPromote
  -- the commits of a round promote its targets, and nothing else
  have hpromoted : ∀ k,
      k ∈ (st.toPromote.foldl (PromotionState.commit P.needed) st.applying).promoted ↔
        k ∈ st.promoted ∨ ∃ c ∈ st.remaining, c.key = k ∧ (st.target c).isSome := by
    intro k
    rw [h3, List.mem_append, RoundInv.keys_toPromote, List.mem_map]
    refine or_congr Iff.rfl ⟨?_, ?_⟩
    · rintro ⟨c, hc, rfl⟩
      obtain ⟨hc, hsome⟩ := List.mem_filter.mp hc
      exact ⟨c, hc, rfl, hsome⟩
    · rintro ⟨c, hc, rfl, hsome⟩
      exact ⟨c, List.mem_filter.mpr ⟨hc, hsome⟩, rfl⟩
  refine ⟨⟨h1, ?_, ?_⟩, h2, hpromoted⟩
  · intro c
    rw [h4, hpromoted, PromotionState.applying]
    simp only [List.mem_filter, not_or, not_exists, not_and, h.remaining]
    constructor
    · rintro ⟨⟨hc, hfresh⟩, hnone⟩
      refine ⟨hc, hfresh, fun c' hc' hkey hsome => ?_⟩
      rw [PromotionInput.candidate_ext hc'.1 hc hkey] at hsome
      rw [Option.isNone_iff_eq_none.mp hnone] at hsome
      cases hsome
    · rintro ⟨hc, hfresh, hnot⟩
      refine ⟨⟨hc, hfresh⟩, ?_⟩
      cases ht : st.target c with
      | none => rfl
      | some v => exact absurd (by rw [ht]; rfl) (hnot c ⟨hc, hfresh⟩ rfl)
  · rw [h4, PromotionState.applying]
    exact h.nodup.sublist (List.filter_sublist.map _)

/-! ## The run -/

/-- Every round promotes something, so it leaves fewer candidates. -/
theorem remaining_lt_of_round {needed : Finset Str} {st st' : PromotionState}
    (hr : st.round needed = some st') : st'.remaining.length < st.remaining.length := by
  have hcommit : ∀ (ps : List (PromotionCandidate × FunctionSafety)) (s : PromotionState),
      (ps.foldl (PromotionState.commit needed) s).remaining = s.remaining := by
    intro ps
    induction ps with
    | nil =>
      intro s
      rfl
    | cons p ps ih =>
      intro s
      rw [List.foldl_cons, ih]
      unfold PromotionState.commit
      split <;> rfl
  unfold PromotionState.round at hr
  split at hr
  case isTrue => cases hr
  case isFalse hne =>
  cases hr
  rw [hcommit]
  obtain ⟨p, hp⟩ := List.exists_mem_of_ne_nil _ hne
  obtain ⟨hmem, htarget⟩ := mem_toPromote.mp hp
  refine List.length_filter_lt_length_iff_exists.mpr ⟨p.1, hmem, ?_⟩
  rw [htarget]
  simp

theorem stateAfter_roundInv (P : PromotionInput) (fuel : Nat) :
    RoundInv P (P.stateAfter fuel) :=
  runRounds_inv (fun _ _ h hr => (round_inv h hr).1) fuel (roundInv_start P)

/-- The invariant holds after every number of rounds. -/
theorem stateAfter_inv (P : PromotionInput) (fuel : Nat) :
    PromotionInv P (P.stateAfter fuel) :=
  (stateAfter_roundInv P fuel).inv

theorem promoteFixpoint_inv (P : PromotionInput) : PromotionInv P (promoteFixpoint P) :=
  stateAfter_inv P _

/-- The loop comes to rest: no further round would promote anything. -/
theorem round_promoteFixpoint (P : PromotionInput) :
    (promoteFixpoint P).round P.needed = none :=
  runRounds_stable (fun st => st.remaining.length) (fun _ _ => remaining_lt_of_round)
    (Nat.le_refl _)

/-- What is clear after some rounds stays so to the end of any longer run. -/
theorem keepsClear_runRounds {P : PromotionInput} {st : PromotionState}
    (h : RoundInv P st) (fuel : Nat) :
    KeepsClear st.functionSafety
      (runRounds (PromotionState.round P.needed) fuel st).functionSafety := by
  have hrun : RoundInv P (runRounds (PromotionState.round P.needed) fuel st) ∧
      KeepsClear st.functionSafety
        (runRounds (PromotionState.round P.needed) fuel st).functionSafety := by
    refine runRounds_inv
      (P := fun s => RoundInv P s ∧ KeepsClear st.functionSafety s.functionSafety)
      ?_ fuel ⟨h, KeepsClear.refl _⟩
    rintro s s' ⟨hs, hk⟩ hr
    obtain ⟨h1, h2, -⟩ := round_inv hs hr
    exact ⟨h1, hk.trans h2⟩
  exact hrun.2

/-- An entry that starts with a non-blocking verdict keeps it. -/
theorem keepsClear_promoteFixpoint (P : PromotionInput) :
    KeepsClear P.functionSafety (promoteFixpoint P).functionSafety :=
  keepsClear_runRounds (roundInv_start P) _

/-! ## The least fixed point -/

/-- The entries with a non-blocking verdict. -/
def clearSet (fs : FunctionSafetyMap) : Set (ModuleName × Str) :=
  { k | ∃ info, getFunctionSafety fs k.1 k.2 = some info ∧ NonBlocking info.verdict }

/-- The callee `d` stands for an entry of `X`: the one its longest merged prefix
names, or, without one, any merged module's entry of exactly that name. -/
def CalleeIn (moduleNames : Finset ModuleName) (X : Set (ModuleName × Str)) (d : Str) :
    Prop :=
  match enclosingModule d fun m => decide (m ∈ moduleNames) with
  | some k => k ∈ X
  | none => ∃ m ∈ moduleNames, (m, d) ∈ X

theorem CalleeIn.mono {moduleNames : Finset ModuleName} {X Y : Set (ModuleName × Str)}
    (hXY : X ⊆ Y) {d : Str} (h : CalleeIn moduleNames X d) : CalleeIn moduleNames Y d := by
  unfold CalleeIn at *
  cases hd : enclosingModule d fun m => decide (m ∈ moduleNames) with
  | some k =>
    rw [hd] at h
    exact hXY h
  | none =>
    rw [hd] at h
    obtain ⟨m, hm, hmem⟩ := h
    exact ⟨m, hm, hXY hmem⟩

/-- An entry that clears as soon as the callees it waits for are in `X`. -/
structure WaitsOn (P : PromotionInput) (X : Set (ModuleName × Str))
    (k : ModuleName × Str) (info : FunctionSafetyInfo) : Prop where
  merged : k.1 ∈ P.moduleNames
  entry : getFunctionSafety P.functionSafety k.1 k.2 = some info
  promotable : Promotable info
  callees : ∀ d ∈ info.missingDepCallees, CalleeIn P.moduleNames X d

/-- One round of clearing, on the input alone: what starts clear, and what waits only
for entries of the set. -/
def clears (P : PromotionInput) : Set (ModuleName × Str) →o Set (ModuleName × Str) where
  toFun X := clearSet P.functionSafety ∪ { k | ∃ info, WaitsOn P X k info }
  monotone' := by
    rintro X Y hXY k (hk | ⟨info, h⟩)
    · exact Or.inl hk
    · exact Or.inr ⟨info, h.merged, h.entry, h.promotable,
        fun d hd => (h.callees d hd).mono hXY⟩

theorem calleeClears_iff {moduleNames : Finset ModuleName} {fs : FunctionSafetyMap}
    (search : NameSearch) {d : Str} :
    CalleeClears moduleNames fs {.unsafeIfImported} (splitCallee moduleNames search d) ↔
      CalleeIn moduleNames (clearSet fs) d := by
  rw [splitCallee_eq]
  unfold CalleeIn
  cases enclosingModule d fun m => decide (m ∈ moduleNames) with
  | some k =>
    obtain ⟨m, l⟩ := k
    constructor
    · rintro ⟨info, hget, hnb, -⟩
      exact ⟨info, hget, hnb⟩
    · rintro ⟨info, hget, hnb⟩
      exact ⟨info, hget, hnb, hnb⟩
  | none =>
    constructor
    · rintro ⟨m, hm, info, hget, hnb, -⟩
      exact ⟨m, hm, info, hget, hnb⟩
    · rintro ⟨m, hm, info, hget, hnb⟩
      exact ⟨m, hm, info, hget, hnb, hnb⟩

/-- In every state of the loop a callee resolves, if some candidate demands it, exactly
when it stands for a clear entry. -/
theorem resolve_isSome_iff {P : PromotionInput} {st : PromotionState}
    (hinv : PromotionInv P st) {c : PromotionCandidate} (hc : c ∈ P.candidates) {d : Str}
    (hd : splitCallee P.moduleNames P.search d ∈ c.callees) :
    (st.resolve (splitCallee P.moduleNames P.search d)).isSome ↔
      CalleeIn P.moduleNames (clearSet st.functionSafety) d := by
  rw [← calleeClears_iff P.search]
  constructor
  · intro h
    obtain ⟨r, hr⟩ := Option.isSome_iff_exists.mp h
    obtain ⟨hnb, hclears, -⟩ := hinv.resolve_spec hr
    exact hclears.mono hnb
  · intro h
    refine hinv.resolve_isSome h ?_
    intro name hname
    rw [hname] at hd
    exact PromotionInput.unqualified_mem_needed hc hd

/-- An entry clear after some rounds is one the operator yields from itself. -/
theorem clearSet_subset_clears {P : PromotionInput} {st : PromotionState}
    (hinv : PromotionInv P st) :
    clearSet st.functionSafety ⊆ clears P (clearSet st.functionSafety) := by
  rintro ⟨m, n⟩ ⟨info, hget, hnb⟩
  by_cases hp : (m, n) ∈ st.promoted
  · obtain ⟨info₀, v, h⟩ := hinv.promotedEntry m n hp
    refine Or.inr ⟨info₀, h.merged, h.initial, h.promotable, ?_⟩
    intro d hd
    exact (calleeClears_iff _).mp ((h.callees d hd).mono h.nonBlocking)
  · rw [hinv.unpromoted m n hp] at hget
    exact Or.inl ⟨info, hget, hnb⟩

/-- At rest, whatever waits only for clear entries is clear. -/
theorem clears_subset_clearSet {P : PromotionInput} {st : PromotionState}
    (h : RoundInv P st) (hrest : st.round P.needed = none)
    (hkeep : KeepsClear P.functionSafety st.functionSafety) :
    clears P (clearSet st.functionSafety) ⊆ clearSet st.functionSafety := by
  rintro ⟨m, n⟩ (⟨info, hget, hnb⟩ | ⟨info, hw⟩)
  · exact ⟨info, hkeep m n info hget hnb, hnb⟩
  by_cases hp : (m, n) ∈ st.promoted
  · obtain ⟨info₀, v, hentry⟩ := h.inv.promotedEntry m n hp
    exact ⟨_, hentry.now, hentry.nonBlocking⟩
  · obtain ⟨c, hcand⟩ : ∃ c, promotionCandidate (splitCallee P.moduleNames P.search) m n info
        = some c := ⟨_, promotionCandidate_eq_some.mpr ⟨hw.promotable, rfl⟩⟩
    have hceq := (promotionCandidate_eq_some.mp hcand).2
    have hkey : c.moduleName = m ∧ c.name = n := by
      rw [hceq]
      exact ⟨rfl, rfl⟩
    have hc : c ∈ P.candidates := by
      refine PromotionInput.mem_candidates.mpr ?_
      rw [hkey.1, hkey.2]
      exact ⟨hw.merged, info, hw.entry, hcand⟩
    have hmem : c ∈ st.remaining := by
      refine (h.remaining c).mpr ⟨hc, ?_⟩
      rw [PromotionCandidate.key, hkey.1, hkey.2]
      exact hp
    -- unpromoted though all its callees resolve: there would be another round
    have htarget : (st.target c).isSome := by
      unfold PromotionState.target
      rw [if_pos]
      · rfl
      · intro callee hcallee
        have hcallee' := hcallee
        rw [hceq] at hcallee'
        obtain ⟨d, hd, rfl⟩ := Finset.mem_image.mp hcallee'
        exact (resolve_isSome_iff h.inv hc hcallee).mpr (hw.callees d hd)
    obtain ⟨v, hv⟩ := Option.isSome_iff_exists.mp htarget
    have hp' : (c, v) ∈ st.toPromote := mem_toPromote.mpr ⟨hmem, hv⟩
    unfold PromotionState.round at hrest
    split at hrest
    · next hnil =>
      rw [hnil] at hp'
      cases hp'
    · cases hrest

/-- A round makes clear only what waits for clear entries. -/
theorem clearSet_round_subset {P : PromotionInput} {st st' : PromotionState}
    (h : RoundInv P st) (hr : st.round P.needed = some st') :
    clearSet st'.functionSafety ⊆ clears P (clearSet st.functionSafety) := by
  rintro ⟨m, n⟩ ⟨info, hget, hnb⟩
  obtain ⟨h1, h2, h3⟩ := round_inv h hr
  by_cases hp : (m, n) ∈ st.promoted
  · obtain ⟨info₀, v, hentry⟩ := h.inv.promotedEntry m n hp
    exact clearSet_subset_clears h.inv ⟨_, hentry.now, hentry.nonBlocking⟩
  by_cases hp' : (m, n) ∈ st'.promoted
  · -- promoted in this round: its callees resolved in the state the round read
    obtain ⟨info₀, v, hentry⟩ := h1.inv.promotedEntry m n hp'
    obtain ⟨c, hc, hkey, hsome⟩ := ((h3 (m, n)).mp hp').resolve_left hp
    have hcand := ((h.remaining c).mp hc).1
    refine Or.inr ⟨info₀, hentry.merged, hentry.initial, hentry.promotable, ?_⟩
    intro d hd
    obtain ⟨-, info', hget', hc'⟩ := PromotionInput.mem_candidates.mp hcand
    have hmn : c.moduleName = m ∧ c.name = n := Prod.mk.injEq .. |>.mp hkey
    rw [hmn.1, hmn.2, hentry.initial] at hget'
    cases hget'
    have hcallees : splitCallee P.moduleNames P.search d ∈ c.callees := by
      rw [(promotionCandidate_eq_some.mp hc').2]
      exact Finset.mem_image_of_mem _ hd
    refine (resolve_isSome_iff h.inv hcand hcallees).mp ?_
    unfold PromotionState.target at hsome
    split at hsome
    · next hall => exact hall _ hcallees
    · cases hsome
  · rw [h1.inv.unpromoted m n hp'] at hget
    exact Or.inl ⟨info, hget, hnb⟩

theorem clearSet_subset_lfp (P : PromotionInput) :
    clearSet P.functionSafety ⊆ (clears P).lfp := by
  intro k hk
  rw [← OrderHom.map_lfp]
  exact Or.inl hk

/-- After any number of rounds only entries of the least fixed point are clear. -/
theorem clearSet_stateAfter_subset (P : PromotionInput) (fuel : Nat) :
    clearSet (P.stateAfter fuel).functionSafety ⊆ (clears P).lfp :=
  (runRounds_subset_lfp (clears P) (V := fun st => clearSet st.functionSafety)
    (P := RoundInv P) (fun _ _ h hr => (round_inv h hr).1)
    (fun _ _ => clearSet_round_subset) (roundInv_start P) (clearSet_subset_lfp P) fuel).2

/-- The entries that end clear are the least fixed point of `clears`. -/
theorem clearSet_promoteFixpoint (P : PromotionInput) :
    clearSet (promoteFixpoint P).functionSafety = (clears P).lfp := by
  refine runRounds_lfp (clears P) (V := fun st => clearSet st.functionSafety)
    (P := fun st => RoundInv P st ∧ KeepsClear P.functionSafety st.functionSafety)
    ?_ ?_ ?_ ⟨roundInv_start P, KeepsClear.refl _⟩ (clearSet_subset_lfp P)
    (round_promoteFixpoint P)
  · rintro st st' ⟨h, hk⟩ hr
    obtain ⟨h1, h2, -⟩ := round_inv h hr
    exact ⟨h1, hk.trans h2⟩
  · rintro st st' ⟨h, -⟩ hr
    exact clearSet_round_subset h hr
  · rintro st ⟨h, hk⟩ hrest
    exact clears_subset_clearSet h hrest hk

end Lifeguard
