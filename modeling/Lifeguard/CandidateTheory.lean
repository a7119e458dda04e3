import Lifeguard.Resolution

/-!
# What the mutation candidates do to an entry

Both phases of `applyMutationCandidates` edit entries one candidate at a time. Seen
from one entry, only the *set* of callees of the candidates that apply to it matters:

- `confirmAll`, `dischargeAll`: the joint edit of a set of candidates' callees;
- `getFunctionSafety_confirmCandidates`, `getFunctionSafety_dischargeCandidates`: each
  phase applies the joint edit of `confirmedAt` (`dischargedAt`) to every entry.

Everything later about the candidates is read off these two lemmas.
-/

namespace Lifeguard

open Lib

/-! ## Lookups -/

theorem splitFrom_eq (view : ModuleView) (name : Str) (pos : Nat) :
    view.splitFrom name pos =
      (enclosingStrFrom name (fun m => decide (m ∈ view.moduleNames)) pos).map
        fun p => ⟨view.functionSafety.get? p.1, p.2⟩ := by
  induction pos with
  | zero => rfl
  | succ pos ih =>
    rw [ModuleView.splitFrom, enclosingStrFrom]
    split
    · by_cases hm : name.take pos ∈ view.moduleNames
      · simp [ModuleView.get, hm]
      · simp [ModuleView.get, hm, ih]
    · exact ih

/-- A view splits a name where `enclosingModule` does. -/
theorem split_eq (view : ModuleView) (name : Str) :
    view.split name =
      (enclosingModule name fun m => decide (m ∈ view.moduleNames)).map
        fun p => ⟨view.functionSafety.get? p.1, p.2⟩ := by
  rw [ModuleView.split, splitFrom_eq]
  show (enclosingModuleStr name _).map _ = _
  rw [enclosingModuleStr_eq]

theorem lookupCallee_eq (view : ModuleView) (name : Str) :
    view.lookupCallee name =
      (enclosingModule name fun m => decide (m ∈ view.moduleNames)).bind
        fun p => getFunctionSafety view.functionSafety p.1 p.2 := by
  rw [ModuleView.lookupCallee, split_eq]
  cases enclosingModule name fun m => decide (m ∈ view.moduleNames) with
  | none => rfl
  | some p => rfl

/-- Both searches split a callee the same way. -/
theorem splitCallee_eq (moduleNames : Finset ModuleName) (search : NameSearch)
    (name : Str) :
    splitCallee moduleNames search name =
      resolveCallee name (enclosingModule name fun m => decide (m ∈ moduleNames)) := by
  cases search with
  | intern => rfl
  | probeStr => rw [splitCallee, enclosingModuleStr_eq]

/-! ## Joint edits -/

/-- The edits of all confirmed candidates whose callees are `callees`. -/
def confirmAll (callees : Finset ModuleName) (info : FunctionSafetyInfo) :
    FunctionSafetyInfo :=
  let missing := info.missingDepCallees \ callees
  let verdict := insert .hardUnsafe info.verdict
  if callees = ∅ then info
  else
    { info with
      verdict := if missing = ∅ then verdict.erase .unsafeMissingDep else verdict
      missingDepCallees := missing }

/-- The edits of all discharged candidates whose callees are `callees`. -/
def dischargeAll (callees : Finset ModuleName) (info : FunctionSafetyInfo) :
    FunctionSafetyInfo :=
  let missing := info.missingDepCallees \ callees
  if callees = ∅ then info
  else
    { info with
      verdict := if missing = ∅ then info.verdict.erase .unsafeMissingDep else info.verdict
      missingDepCallees := missing }

@[simp] theorem confirmAll_empty (info : FunctionSafetyInfo) : confirmAll ∅ info = info := by
  rw [confirmAll, if_pos rfl]

@[simp] theorem dischargeAll_empty (info : FunctionSafetyInfo) :
    dischargeAll ∅ info = info := by
  rw [dischargeAll, if_pos rfl]

theorem confirmAll_of_nonempty {callees : Finset ModuleName} (h : callees ≠ ∅)
    (info : FunctionSafetyInfo) :
    confirmAll callees info =
      { info with
        verdict :=
          if info.missingDepCallees \ callees = ∅ then
            (insert .hardUnsafe info.verdict).erase .unsafeMissingDep
          else insert .hardUnsafe info.verdict
        missingDepCallees := info.missingDepCallees \ callees } := by
  rw [confirmAll, if_neg h]

theorem dischargeAll_of_nonempty {callees : Finset ModuleName} (h : callees ≠ ∅)
    (info : FunctionSafetyInfo) :
    dischargeAll callees info =
      { info with
        verdict :=
          if info.missingDepCallees \ callees = ∅ then
            info.verdict.erase .unsafeMissingDep
          else info.verdict
        missingDepCallees := info.missingDepCallees \ callees } := by
  rw [dischargeAll, if_neg h]

/-- A set of callees that leaves `∅` still leaves `∅` with one more callee removed. -/
theorem erase_sdiff_eq (s cs : Finset ModuleName) (c : ModuleName) :
    (s.erase c) \ cs = s \ insert c cs := by
  ext x
  simp only [Finset.mem_sdiff, Finset.mem_erase, Finset.mem_insert]
  tauto

theorem confirmAll_confirmInfo (c : ModuleName) (cs : Finset ModuleName)
    (info : FunctionSafetyInfo) :
    confirmAll cs (confirmInfo c info) = confirmAll (insert c cs) info := by
  rw [confirmAll_of_nonempty (Finset.insert_ne_empty c cs)]
  by_cases hcs : cs = ∅
  · subst hcs
    simp [confirmInfo, Finset.sdiff_singleton_eq_erase]
  · rw [confirmAll_of_nonempty hcs]
    simp only [confirmInfo, erase_sdiff_eq]
    congr 1
    by_cases hc : info.missingDepCallees.erase c = ∅
    · have hrest : info.missingDepCallees \ insert c cs = ∅ := by
        rw [← erase_sdiff_eq, hc, Finset.empty_sdiff]
      rw [if_pos hc, if_pos hrest, if_pos hrest]
      ext x
      cases x <;> simp
    · rw [if_neg hc, Finset.insert_idem]

theorem dischargeAll_dischargeInfo (c : ModuleName) (cs : Finset ModuleName)
    (info : FunctionSafetyInfo) :
    dischargeAll cs (dischargeInfo c info) = dischargeAll (insert c cs) info := by
  have hverdict : (dischargeInfo c info).verdict =
      if info.missingDepCallees.erase c = ∅ then info.verdict.erase .unsafeMissingDep
      else info.verdict := by
    show (if _ then _ else _) = _
    by_cases hv : Concern.unsafeMissingDep ∈ info.verdict
    · by_cases hc : info.missingDepCallees.erase c = ∅
      · rw [if_pos hc, if_neg (by simp [hv, hc])]
      · rw [if_neg hc, if_pos (Or.inr hc)]
    · rw [if_pos (Or.inl hv), Finset.erase_eq_of_notMem hv, ite_self]
  rw [dischargeAll_of_nonempty (Finset.insert_ne_empty c cs)]
  by_cases hcs : cs = ∅
  · subst hcs
    rw [dischargeAll_empty, insert_empty_eq, Finset.sdiff_singleton_eq_erase, ← hverdict]
    rfl
  · rw [dischargeAll_of_nonempty hcs, hverdict]
    simp only [dischargeInfo, erase_sdiff_eq]
    congr 1
    by_cases hc : info.missingDepCallees.erase c = ∅
    · have hrest : info.missingDepCallees \ insert c cs = ∅ := by
        rw [← erase_sdiff_eq, hc, Finset.empty_sdiff]
      rw [if_pos hc, if_pos hrest, if_pos hrest, Finset.erase_idem]
    · rw [if_neg hc]

/-! ## One phase, seen from one entry -/

/-- The callees of the candidates of `pairs` at the function `(m, n)`. -/
def calleesAt (pairs : List (ModuleName × MutationCandidate)) (m : ModuleName)
    (n : Str) : Finset ModuleName :=
  ((pairs.filter fun p => decide (p.1 = m ∧ p.2.site = .function n)).map
    fun p => p.2.callee).toFinset

theorem mem_calleesAt {pairs : List (ModuleName × MutationCandidate)} {m : ModuleName}
    {n : Str} {c : ModuleName} :
    c ∈ calleesAt pairs m n ↔
      ∃ cand, (m, cand) ∈ pairs ∧ cand.site = .function n ∧ cand.callee = c := by
  simp only [calleesAt, List.mem_toFinset, List.mem_map, List.mem_filter,
    decide_eq_true_eq, Prod.exists]
  constructor
  · rintro ⟨m', cand, ⟨hmem, rfl, hsite⟩, hc⟩
    exact ⟨cand, hmem, hsite, hc⟩
  · rintro ⟨cand, hmem, hsite, hc⟩
    exact ⟨m, cand, ⟨hmem, rfl, hsite⟩, hc⟩

theorem calleesAt_cons_of_pos {p : ModuleName × MutationCandidate}
    {pairs : List (ModuleName × MutationCandidate)} {m : ModuleName} {n : Str}
    (h : p.1 = m ∧ p.2.site = .function n) :
    calleesAt (p :: pairs) m n = insert p.2.callee (calleesAt pairs m n) := by
  rw [calleesAt, List.filter_cons_of_pos (by simpa using h), List.map_cons,
    List.toFinset_cons]
  rfl

theorem calleesAt_cons_of_neg {p : ModuleName × MutationCandidate}
    {pairs : List (ModuleName × MutationCandidate)} {m : ModuleName} {n : Str}
    (h : ¬(p.1 = m ∧ p.2.site = .function n)) :
    calleesAt (p :: pairs) m n = calleesAt pairs m n := by
  rw [calleesAt, List.filter_cons_of_neg (by simpa using h)]
  rfl

theorem getFunctionSafety_applyConfirmed (m₀ : ModuleName) (cand : MutationCandidate)
    (st : CandidateState) (m : ModuleName) (n : Str) :
    getFunctionSafety (applyConfirmedCandidate m₀ cand st).functionSafety m n =
      if m₀ = m ∧ cand.site = .function n then
        (getFunctionSafety st.functionSafety m n).map (confirmInfo cand.callee)
      else getFunctionSafety st.functionSafety m n := by
  unfold applyConfirmedCandidate
  cases hs : cand.site with
  | moduleScope call => simp
  | function name =>
    show getFunctionSafety (modifyFunctionSafety _ _ _ _) m n = _
    rw [getFunctionSafety_modify]
    refine if_congr ?_ rfl rfl
    simp only [MutationCandidateSite.function.injEq]
    exact ⟨fun h => ⟨h.1.symm, h.2.symm⟩, fun h => ⟨h.1.symm, h.2.symm⟩⟩

theorem getFunctionSafety_discharge (m₀ : ModuleName) (cand : MutationCandidate)
    (fs : FunctionSafetyMap) (m : ModuleName) (n : Str) :
    getFunctionSafety (dischargeCandidate m₀ cand fs) m n =
      if m₀ = m ∧ cand.site = .function n then
        (getFunctionSafety fs m n).map (dischargeInfo cand.callee)
      else getFunctionSafety fs m n := by
  unfold dischargeCandidate
  cases hs : cand.site with
  | moduleScope call => simp
  | function name =>
    show getFunctionSafety (modifyFunctionSafety _ _ _ _) m n = _
    rw [getFunctionSafety_modify]
    refine if_congr ?_ rfl rfl
    simp only [MutationCandidateSite.function.injEq]
    exact ⟨fun h => ⟨h.1.symm, h.2.symm⟩, fun h => ⟨h.1.symm, h.2.symm⟩⟩

/-- Applying a list of confirmed candidates is one joint edit of every entry. -/
theorem getFunctionSafety_foldl_confirm (pairs : List (ModuleName × MutationCandidate))
    (st : CandidateState) (m : ModuleName) (n : Str) :
    getFunctionSafety
        (pairs.foldl (fun st p => applyConfirmedCandidate p.1 p.2 st) st).functionSafety m n =
      (getFunctionSafety st.functionSafety m n).map (confirmAll (calleesAt pairs m n)) := by
  induction pairs generalizing st with
  | nil =>
    have : calleesAt [] m n = ∅ := rfl
    cases h : getFunctionSafety st.functionSafety m n <;> simp [this, h]
  | cons p pairs ih =>
    rw [List.foldl_cons, ih, getFunctionSafety_applyConfirmed]
    by_cases hp : p.1 = m ∧ p.2.site = .function n
    · rw [if_pos hp, calleesAt_cons_of_pos hp, Option.map_map]
      congr 1
      funext info
      exact confirmAll_confirmInfo _ _ info
    · rw [if_neg hp, calleesAt_cons_of_neg hp]

/-- Discharging a list of candidates is one joint edit of every entry. -/
theorem getFunctionSafety_foldl_discharge (pairs : List (ModuleName × MutationCandidate))
    (fs : FunctionSafetyMap) (m : ModuleName) (n : Str) :
    getFunctionSafety (pairs.foldl (fun fs p => dischargeCandidate p.1 p.2 fs) fs) m n =
      (getFunctionSafety fs m n).map (dischargeAll (calleesAt pairs m n)) := by
  induction pairs generalizing fs with
  | nil =>
    have : calleesAt [] m n = ∅ := rfl
    cases h : getFunctionSafety fs m n <;> simp [this, h]
  | cons p pairs ih =>
    rw [List.foldl_cons, ih, getFunctionSafety_discharge]
    by_cases hp : p.1 = m ∧ p.2.site = .function n
    · rw [if_pos hp, calleesAt_cons_of_pos hp, Option.map_map]
      congr 1
      funext info
      exact dischargeAll_dischargeInfo _ _ info
    · rw [if_neg hp, calleesAt_cons_of_neg hp]

/-! ## The two phases -/

/-- The callees of the candidates at `(m, n)` that the first phase confirms. -/
def confirmedAt (pairs : List (ModuleName × MutationCandidate))
    (moduleNames : Finset ModuleName) (fs : FunctionSafetyMap) (m : ModuleName)
    (n : Str) : Finset ModuleName :=
  calleesAt (pairs.filter fun p => candidateMutates p.2 ⟨moduleNames, fs⟩) m n

/-- The callees of the candidates at `(m, n)` that the second phase discharges. -/
def dischargedAt (pairs : List (ModuleName × MutationCandidate))
    (moduleNames : Finset ModuleName) (before fs : FunctionSafetyMap) (m : ModuleName)
    (n : Str) : Finset ModuleName :=
  calleesAt (pairs.filter fun p =>
    !candidateMutates p.2 ⟨moduleNames, before⟩ && p.2.inFunction &&
      !calleeResolvesUnsafe p.2.callee ⟨moduleNames, fs⟩) m n

theorem getFunctionSafety_confirmCandidates
    (pairs : List (ModuleName × MutationCandidate)) (moduleNames : Finset ModuleName)
    (fs : FunctionSafetyMap) (m : ModuleName) (n : Str) :
    getFunctionSafety (confirmCandidates pairs moduleNames fs).functionSafety m n =
      (getFunctionSafety fs m n).map
        (confirmAll (confirmedAt pairs moduleNames fs m n)) :=
  getFunctionSafety_foldl_confirm _ _ m n

theorem getFunctionSafety_dischargeCandidates
    (pairs : List (ModuleName × MutationCandidate)) (moduleNames : Finset ModuleName)
    (before fs : FunctionSafetyMap) (m : ModuleName) (n : Str) :
    getFunctionSafety (dischargeCandidates pairs moduleNames before fs) m n =
      (getFunctionSafety fs m n).map
        (dischargeAll (dischargedAt pairs moduleNames before fs m n)) :=
  getFunctionSafety_foldl_discharge _ _ m n

theorem mem_confirmedAt {pairs : List (ModuleName × MutationCandidate)}
    {moduleNames : Finset ModuleName} {fs : FunctionSafetyMap} {m : ModuleName} {n : Str}
    {c : ModuleName} :
    c ∈ confirmedAt pairs moduleNames fs m n ↔
      ∃ cand, (m, cand) ∈ pairs ∧ cand.site = .function n ∧ cand.callee = c ∧
        candidateMutates cand ⟨moduleNames, fs⟩ = true := by
  simp only [confirmedAt, mem_calleesAt, List.mem_filter]
  constructor
  · rintro ⟨cand, ⟨hmem, hmut⟩, hsite, hc⟩
    exact ⟨cand, hmem, hsite, hc, hmut⟩
  · rintro ⟨cand, hmem, hsite, hc, hmut⟩
    exact ⟨cand, ⟨hmem, hmut⟩, hsite, hc⟩

/-- A discharged callee is unresolved, or resolves to a `Safe` entry. -/
theorem mem_dischargedAt {pairs : List (ModuleName × MutationCandidate)}
    {moduleNames : Finset ModuleName} {before fs : FunctionSafetyMap} {m : ModuleName}
    {n : Str} {c : ModuleName} :
    c ∈ dischargedAt pairs moduleNames before fs m n ↔
      ∃ cand, (m, cand) ∈ pairs ∧ cand.site = .function n ∧ cand.callee = c ∧
        candidateMutates cand ⟨moduleNames, before⟩ = false ∧
        ∀ info, ModuleView.lookupCallee ⟨moduleNames, fs⟩ c = some info →
          info.verdict = ∅ := by
  have hresolves : calleeResolvesUnsafe c ⟨moduleNames, fs⟩ = false ↔
      ∀ info, ModuleView.lookupCallee ⟨moduleNames, fs⟩ c = some info →
        info.verdict = ∅ := by
    unfold calleeResolvesUnsafe
    cases ModuleView.lookupCallee ⟨moduleNames, fs⟩ c with
    | none => simp
    | some info => simp
  simp only [dischargedAt, mem_calleesAt, List.mem_filter, Bool.and_eq_true,
    Bool.not_eq_true']
  constructor
  · rintro ⟨cand, ⟨hmem, ⟨hmut, -⟩, hres⟩, hsite, rfl⟩
    exact ⟨cand, hmem, hsite, rfl, hmut, hresolves.mp hres⟩
  · rintro ⟨cand, hmem, hsite, rfl, hmut, hres⟩
    refine ⟨cand, ⟨hmem, ⟨hmut, ?_⟩, hresolves.mpr hres⟩, hsite, rfl⟩
    rw [MutationCandidate.inFunction, hsite]

/-! ## Entries through both phases -/

/-- The verdicts once the mutation candidates have been applied, entry by entry. -/
theorem getFunctionSafety_applyMutationCandidates
    (candidates : List (ModuleName × List MutationCandidate))
    (moduleNames : Finset ModuleName) (fs : FunctionSafetyMap) (m : ModuleName) (n : Str) :
    getFunctionSafety (applyMutationCandidates candidates moduleNames fs).functionSafety m n =
      (getFunctionSafety
          (confirmCandidates (candidatePairs candidates) moduleNames fs).functionSafety
          m n).map
        (dischargeAll (dischargedAt (candidatePairs candidates) moduleNames fs
          (confirmCandidates (candidatePairs candidates) moduleNames fs).functionSafety m n)) :=
  getFunctionSafety_dischargeCandidates _ _ _ _ m n

theorem hardUnsafe_mem_confirmAll {cs : Finset ModuleName} (h : cs ≠ ∅)
    (info : FunctionSafetyInfo) : Concern.hardUnsafe ∈ (confirmAll cs info).verdict := by
  rw [confirmAll_of_nonempty h]
  dsimp only
  split
  · simp
  · exact Finset.mem_insert_self _ _

theorem hardUnsafe_mem_dischargeAll {cs : Finset ModuleName} {info : FunctionSafetyInfo} :
    Concern.hardUnsafe ∈ (dischargeAll cs info).verdict ↔
      Concern.hardUnsafe ∈ info.verdict := by
  by_cases hcs : cs = ∅
  · rw [hcs, dischargeAll_empty]
  · rw [dischargeAll_of_nonempty hcs]
    dsimp only
    split <;> simp

/-- A discharge takes no concern but `UnsafeMissingDep`, and adds none. -/
theorem dischargeAll_verdict_subset (cs : Finset ModuleName) (info : FunctionSafetyInfo) :
    (dischargeAll cs info).verdict ⊆ info.verdict := by
  by_cases hcs : cs = ∅
  · rw [hcs, dischargeAll_empty]
  · rw [dischargeAll_of_nonempty hcs]
    dsimp only
    split
    · exact Finset.erase_subset _ _
    · exact Finset.Subset.refl _

theorem dischargeAll_missingDepCallees (cs : Finset ModuleName)
    (info : FunctionSafetyInfo) :
    (dischargeAll cs info).missingDepCallees = info.missingDepCallees \ cs := by
  by_cases hcs : cs = ∅
  · rw [hcs, dischargeAll_empty, Finset.sdiff_empty]
  · rw [dischargeAll_of_nonempty hcs]

/-- As long as one callee is left, a discharge leaves the verdict alone. -/
theorem dischargeAll_verdict_of_mem {cs : Finset ModuleName} {info : FunctionSafetyInfo}
    {d : ModuleName} (hd : d ∈ info.missingDepCallees) (hcs : d ∉ cs) :
    (dischargeAll cs info).verdict = info.verdict := by
  by_cases hempty : cs = ∅
  · rw [hempty, dischargeAll_empty]
  · have hne : info.missingDepCallees \ cs ≠ ∅ :=
      Finset.ne_empty_of_mem (Finset.mem_sdiff.mpr ⟨hd, hcs⟩)
    rw [dischargeAll_of_nonempty hempty]
    dsimp only
    rw [if_neg hne]

end Lifeguard
