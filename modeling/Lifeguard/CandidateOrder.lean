import Lifeguard.CandidateTheory
import Mathlib.Data.List.Perm.Basic

/-!
# The order of the mutation candidates

`applyMutationCandidates` confirms on one frozen view and discharges on a second one, so
the sequence the candidates arrive in decides nothing:

- the edits of one phase commute (`modifyFunctionSafety_comm`), so a permutation of the
  candidates leaves the same map after the first phase (`confirmCandidates_perm`), the
  second phase freezes the same view, and its edits commute again;
- a discharge never takes `Unsafe` away, so a confirmed function ends with it.
-/

namespace Lifeguard

open Lib
open scoped List

/-! ## Edits that commute -/

theorem modifyFunctionSafety_comm {fs : FunctionSafetyMap} {m m' : ModuleName} {n n' : Str}
    {f g : FunctionSafetyInfo → FunctionSafetyInfo} (h : ∀ info, f (g info) = g (f info)) :
    modifyFunctionSafety (modifyFunctionSafety fs m n f) m' n' g =
      modifyFunctionSafety (modifyFunctionSafety fs m' n' g) m n f := by
  refine Table.modify_comm fs fun _ fns => ?_
  exact Table.modify_comm fns fun _ info => (h info).symm

theorem confirmInfo_comm (c d : ModuleName) (info : FunctionSafetyInfo) :
    confirmInfo c (confirmInfo d info) = confirmInfo d (confirmInfo c info) := by
  have hone : ∀ (x : ModuleName) (i : FunctionSafetyInfo),
      confirmInfo x i = confirmAll {x} i := by
    intro x i
    rw [← confirmAll_empty (confirmInfo x i), confirmAll_confirmInfo, insert_empty_eq]
  rw [hone c, confirmAll_confirmInfo, hone d, confirmAll_confirmInfo, Finset.pair_comm]

theorem dischargeInfo_comm (c d : ModuleName) (info : FunctionSafetyInfo) :
    dischargeInfo c (dischargeInfo d info) = dischargeInfo d (dischargeInfo c info) := by
  have hone : ∀ (x : ModuleName) (i : FunctionSafetyInfo),
      dischargeInfo x i = dischargeAll {x} i := by
    intro x i
    rw [← dischargeAll_empty (dischargeInfo x i), dischargeAll_dischargeInfo, insert_empty_eq]
  rw [hone c, dischargeAll_dischargeInfo, hone d, dischargeAll_dischargeInfo,
    Finset.pair_comm]

/-! ## The first phase -/

/-- What a confirmed candidate does to the verdicts. -/
def confirmCandidate (moduleName : ModuleName) (candidate : MutationCandidate)
    (fs : FunctionSafetyMap) : FunctionSafetyMap :=
  match candidate.site with
  | .moduleScope _ => fs
  | .function name =>
    modifyFunctionSafety fs moduleName name (confirmInfo candidate.callee)

/-- The error a confirmed candidate emits, if it sits at module scope. -/
def candidateError (p : ModuleName × MutationCandidate) : Option ModuleScopeError :=
  match p.2.site with
  | .moduleScope call => some ⟨p.1, call, p.2.range⟩
  | .function _ => none

/-- The verdicts and the errors of the first phase are built apart. -/
theorem foldl_applyConfirmed (pairs : List (ModuleName × MutationCandidate))
    (st : CandidateState) :
    pairs.foldl (fun st p => applyConfirmedCandidate p.1 p.2 st) st =
      { functionSafety :=
          pairs.foldl (fun fs p => confirmCandidate p.1 p.2 fs) st.functionSafety
        moduleScopeErrors := st.moduleScopeErrors ++ pairs.filterMap candidateError } := by
  induction pairs generalizing st with
  | nil => simp
  | cons p pairs ih =>
    rw [List.foldl_cons, ih, List.foldl_cons]
    unfold applyConfirmedCandidate confirmCandidate
    cases hs : p.2.site with
    | moduleScope call =>
      have herr : candidateError p = some ⟨p.1, call, p.2.range⟩ := by
        rw [candidateError, hs]
      rw [List.filterMap_cons_some herr]
      simp
    | function name =>
      have herr : candidateError p = none := by rw [candidateError, hs]
      rw [List.filterMap_cons_none herr]

theorem confirmCandidate_comm (p q : ModuleName × MutationCandidate)
    (fs : FunctionSafetyMap) :
    confirmCandidate q.1 q.2 (confirmCandidate p.1 p.2 fs) =
      confirmCandidate p.1 p.2 (confirmCandidate q.1 q.2 fs) := by
  unfold confirmCandidate
  cases p.2.site with
  | moduleScope _ => rfl
  | function name =>
    cases q.2.site with
    | moduleScope _ => rfl
    | function name' =>
      exact modifyFunctionSafety_comm fun info => confirmInfo_comm _ _ info

theorem dischargeCandidate_comm (p q : ModuleName × MutationCandidate)
    (fs : FunctionSafetyMap) :
    dischargeCandidate q.1 q.2 (dischargeCandidate p.1 p.2 fs) =
      dischargeCandidate p.1 p.2 (dischargeCandidate q.1 q.2 fs) := by
  unfold dischargeCandidate
  cases p.2.site with
  | moduleScope _ => rfl
  | function name =>
    cases q.2.site with
    | moduleScope _ => rfl
    | function name' =>
      exact modifyFunctionSafety_comm fun info => dischargeInfo_comm _ _ info

/-- A permutation of the candidates changes neither the verdicts of the first phase nor
the multiset of its errors. -/
theorem confirmCandidates_perm {pairs pairs' : List (ModuleName × MutationCandidate)}
    (h : pairs ~ pairs') (moduleNames : Finset ModuleName) (fs : FunctionSafetyMap) :
    (confirmCandidates pairs moduleNames fs).functionSafety =
        (confirmCandidates pairs' moduleNames fs).functionSafety ∧
      (confirmCandidates pairs moduleNames fs).moduleScopeErrors ~
        (confirmCandidates pairs' moduleNames fs).moduleScopeErrors := by
  unfold confirmCandidates
  have hconfirmed := h.filter fun p => candidateMutates p.2 ⟨moduleNames, fs⟩
  rw [foldl_applyConfirmed, foldl_applyConfirmed]
  refine ⟨?_, ?_⟩
  · exact hconfirmed.foldl_eq' (fun p _ q _ fs => confirmCandidate_comm p q fs) fs
  · exact (hconfirmed.filterMap candidateError).append_left _

/-- A permutation of the candidates discharges the same callees. -/
theorem dischargeCandidates_perm {pairs pairs' : List (ModuleName × MutationCandidate)}
    (h : pairs ~ pairs') (moduleNames : Finset ModuleName)
    (before fs : FunctionSafetyMap) :
    dischargeCandidates pairs moduleNames before fs =
      dischargeCandidates pairs' moduleNames before fs :=
  (h.filter _).foldl_eq' (fun p _ q _ fs => dischargeCandidate_comm p q fs) fs

/-! ## Both phases -/

/-- The verdict and the blocking callees of every entry, and the emitted errors, do not
depend on the order of the candidates; a function with a confirmed candidate ends with
`Unsafe`, whatever is discharged at it. -/
theorem candidates_order_free (modules modules' : List (ModuleName × List MutationCandidate))
    (moduleNames : Finset ModuleName) (fs : FunctionSafetyMap)
    (hperm : candidatePairs modules ~ candidatePairs modules') :
    (applyMutationCandidates modules moduleNames fs).functionSafety =
        (applyMutationCandidates modules' moduleNames fs).functionSafety ∧
      (applyMutationCandidates modules moduleNames fs).moduleScopeErrors ~
        (applyMutationCandidates modules' moduleNames fs).moduleScopeErrors ∧
      ∀ m n candidate info, (m, candidate) ∈ candidatePairs modules →
        candidate.site = .function n → candidateMutates candidate ⟨moduleNames, fs⟩ = true →
        getFunctionSafety fs m n = some info →
        ∃ info', getFunctionSafety
            (applyMutationCandidates modules moduleNames fs).functionSafety m n = some info' ∧
          .hardUnsafe ∈ info'.verdict := by
  obtain ⟨hfs, herrors⟩ := confirmCandidates_perm hperm moduleNames fs
  refine ⟨?_, herrors, ?_⟩
  · show dischargeCandidates _ moduleNames fs _ = dischargeCandidates _ moduleNames fs _
    rw [hfs]
    exact dischargeCandidates_perm hperm moduleNames fs _
  · intro m n candidate info hmem hsite hmut hentry
    have hne : confirmedAt (candidatePairs modules) moduleNames fs m n ≠ ∅ :=
      Finset.ne_empty_of_mem (mem_confirmedAt.mpr ⟨candidate, hmem, hsite, rfl, hmut⟩)
    have hget : getFunctionSafety
        (applyMutationCandidates modules moduleNames fs).functionSafety m n =
          some (dischargeAll (dischargedAt (candidatePairs modules) moduleNames fs
            (confirmCandidates (candidatePairs modules) moduleNames fs).functionSafety m n)
            (confirmAll (confirmedAt (candidatePairs modules) moduleNames fs m n) info)) := by
      rw [getFunctionSafety_applyMutationCandidates, getFunctionSafety_confirmCandidates,
        hentry]
      rfl
    refine ⟨_, hget, ?_⟩
    rw [hardUnsafe_mem_dischargeAll]
    exact hardUnsafe_mem_confirmAll hne info

/-- `app.run` waits for `lib.set`, which mutates its argument, and for `lib.get`. -/
def mutatorProgram : FunctionSafetyMap :=
  Table.ofList
    [(fromStr "app", Table.ofList
        [(fromStr "run",
          { verdict := {.unsafeMissingDep}
            missingDepCallees := {fromStr "lib.set", fromStr "lib.get"} })]),
      (fromStr "lib", Table.ofList
        [(fromStr "set",
          { verdict := ∅, mutatedParams := [⟨fromStr "value", .positional 0⟩] }),
        (fromStr "get", .new ∅)])]

/-- A call of `callee` in `app.run` that passes an imported object first. -/
def runCandidate (callee : String) : MutationCandidate where
  callee := fromStr callee
  site := .function (fromStr "run")
  argOffset := 0
  importedArgs := { unsafeArgIndices := 1 }

theorem candidates_order_free_mutator :
    (applyMutationCandidates
        [(fromStr "app", [runCandidate "lib.set", runCandidate "lib.get"])]
        {fromStr "app", fromStr "lib"} mutatorProgram).functionSafety =
      (applyMutationCandidates
        [(fromStr "app", [runCandidate "lib.get", runCandidate "lib.set"])]
        {fromStr "app", fromStr "lib"} mutatorProgram).functionSafety ∧
    ∃ info, getFunctionSafety
        (applyMutationCandidates
          [(fromStr "app", [runCandidate "lib.set", runCandidate "lib.get"])]
          {fromStr "app", fromStr "lib"} mutatorProgram).functionSafety
        (fromStr "app") (fromStr "run") = some info ∧ .hardUnsafe ∈ info.verdict := by
  have h := candidates_order_free
    [(fromStr "app", [runCandidate "lib.set", runCandidate "lib.get"])]
    [(fromStr "app", [runCandidate "lib.get", runCandidate "lib.set"])]
    {fromStr "app", fromStr "lib"} mutatorProgram (List.Perm.swap _ _ [])
  refine ⟨h.1, h.2.2 (fromStr "app") (fromStr "run") (runCandidate "lib.set") _ ?_ rfl ?_ rfl⟩
  · exact List.mem_cons_self
  · decide

end Lifeguard
