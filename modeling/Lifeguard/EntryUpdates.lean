import Lifeguard.CallGraphTheory

/-!
# What the evaluation puts into an entry

The evaluation of the calls records verdicts and the callees they wait for; the parameters that a
function mutates are none of its business (`project/state.rs`). They are added to the entries
once all is evaluated.

- `noParams_runEffect`, `noParams_checkCallBody`: the step, an effect and a body;
- `noParams_precompute`: the run. No entry of a precompute has mutated parameters.
-/

namespace Lifeguard

open Lib

/-- No entry has mutated parameters. -/
def AnalysisState.NoParams (st : AnalysisState) : Prop :=
  ∀ name fi, st.safety name = some fi → fi.mutatedParams = []

namespace AnalysisState.NoParams

variable {st : AnalysisState} {func callee : ModuleName}

/-- An entry that is written has none. -/
theorem setFunctionSafety (h : st.NoParams) {fi : FunctionSafetyInfo}
    (hfi : fi.mutatedParams = []) : (st.setFunctionSafety func fi).NoParams := by
  intro name fi' hname
  rw [safety_setFunctionSafety] at hname
  split at hname
  · cases hname
    exact hfi
  · exact h name fi' hname

theorem markSafe (h : st.NoParams) : (st.markSafe func).NoParams := h.setFunctionSafety rfl

theorem markUnsafe (h : st.NoParams) : (st.markUnsafe func).NoParams := h.setFunctionSafety rfl

/-- An entry that is edited keeps what it has. -/
theorem markUnsafeMissingDep (h : st.NoParams) :
    (st.markUnsafeMissingDep func callee).NoParams := by
  intro name fi' hname
  rw [safety_markUnsafeMissingDep] at hname
  split at hname
  · cases hown : st.safety func with
    | none =>
      rw [hown] at hname
      cases hname
      rfl
    | some fi =>
      rw [hown] at hname
      cases hname
      exact h func fi hown
  · exact h name fi' hname

theorem markUnsafeIfImported (h : st.NoParams) : (st.markUnsafeIfImported func).NoParams := by
  intro name fi' hname
  rw [safety_markUnsafeIfImported] at hname
  split at hname
  · cases hown : st.safety func with
    | none =>
      rw [hown] at hname
      cases hname
      rfl
    | some fi =>
      rw [hown] at hname
      cases hname
      exact h func fi hown
  · exact h name fi' hname

theorem of_safety {st' : AnalysisState} (h : st.NoParams)
    (hsafety : ∀ name, st'.safety name = st.safety name) : st'.NoParams := fun name fi hname =>
  h name fi (hsafety name ▸ hname)

theorem read (h : st.NoParams) : (st.read callee).NoParams := h

end AnalysisState.NoParams

namespace ProjectInfo

variable {info : ProjectInfo} {st : AnalysisState} {func callee : ModuleName} {eff : Effect}
  {fuel : Nat} {call : Call} {callModule : ModuleName} {crossModule : Bool}

theorem noParams_markCaller (h : st.NoParams) :
    (info.markCallerUnsafeForFailedCallee func callee st).NoParams := by
  unfold markCallerUnsafeForFailedCallee
  dsimp only
  have hread : (st.read callee).NoParams := h.read
  split
  · split
    · exact hread.markUnsafeMissingDep
    · exact hread
  · split
    · exact hread.markUnsafe
    · split
      · exact hread.markUnsafeMissingDep
      · exact hread

theorem noParams_checkArgs (h : st.NoParams) : (info.checkArgs call eff st).2.NoParams := by
  unfold checkArgs
  split
  · exact h.markUnsafe
  · split
    · unfold deferMutations
      generalize info.deferredCallees eff = callees
      induction callees generalizing st with
      | nil => exact h
      | cons callee callees ih => exact ih h.markUnsafeMissingDep
    · exact h

section Body

variable {body : Call → AnalysisState → Outcome}
  (hbody : ∀ call st, st.NoParams → (body call st).2.NoParams)

include hbody

theorem noParams_checkCallSafety (h : st.NoParams) (call : Call) :
    (info.checkCallSafety body false call st).2.NoParams :=
  checkCallSafety_inv (I := AnalysisState.NoParams)
    (fun _ _ _ _ call' _ s hs => hbody call' s hs) h

theorem noParams_runCall (h : st.NoParams) :
    (info.runCall body call callModule crossModule eff st).2.NoParams := by
  have hcall : (info.checkCallSafety body false (childCall call callModule eff) st).2.NoParams :=
    noParams_checkCallSafety hbody h _
  unfold runCall
  rcases hsafe : info.checkCallSafety body false (childCall call callModule eff) st with
    ⟨e | _ | _, t⟩ <;> rw [hsafe] at hcall
  · exact hcall
  · exact noParams_markCaller hcall
  · dsimp only
    split
    · exact hcall.read.markUnsafeIfImported
    · exact hcall.read

/-- One effect of a body. -/
theorem noParams_runEffect (h : st.NoParams) :
    (info.runEffect body call callModule crossModule eff st).2.NoParams := by
  unfold runEffect
  split
  · exact h.markUnsafe
  · split
    · have hargs : (info.checkArgs call eff st).2.NoParams := noParams_checkArgs h
      rcases hcheck : info.checkArgs call eff st with ⟨argsOk, s⟩
      rw [hcheck] at hargs
      dsimp only
      split
      · exact hargs.markUnsafe
      · have hcall : (info.runCall body call callModule crossModule eff s).2.NoParams :=
          noParams_runCall hbody hargs
        rcases hrun : info.runCall body call callModule crossModule eff s with ⟨e | b, t⟩ <;>
          rw [hrun] at hcall
        · exact hcall
        · exact hcall
    · split
      · exact h.markUnsafe
      · exact h.markUnsafeIfImported
      · exact h.markUnsafeIfImported
      · exact h

end Body

/-- A body, with the bodies it runs on the way. -/
theorem noParams_checkCallBody (fuel : Nat) (call : Call) (st : AnalysisState)
    (h : st.NoParams) : (info.checkCallBody fuel call st).2.NoParams := by
  induction fuel generalizing call st with
  | zero => exact h
  | succ fuel ih =>
    have henter : (info.enterBody call st).NoParams := h.of_safety (safety_enterBody call st)
    cases hfunc : info.functions.get? call.func with
    | none =>
      rw [checkCallBody_of_no_function hfunc]
      exact h
    | some callModule =>
      cases hst : st.safety call.func with
      | some fi =>
        rw [checkCallBody_of_recorded hfunc hst]
        exact henter
      | none =>
        rw [checkCallBody_walk hfunc hst]
        have hloop : (checkAll
            (info.runEffect (info.checkCallBody fuel) call callModule (crosses call callModule))
            (info.effectsOf call.func) (info.enterBody call st)).2.NoParams :=
          checkAll_inv (I := AnalysisState.NoParams) (fun eff _ s hs => noParams_runEffect ih hs)
            henter
        generalize checkAll _ _ _ = out at hloop
        rcases out with ⟨e | b, s⟩
        · exact hloop
        · unfold leaveBody
          dsimp only
          split
          · exact hloop.markSafe
          · exact hloop

/-! ## The precompute -/

theorem mutatedParams_combined (cls : ModuleName) (st : AnalysisState) :
    (info.combinedConstructorVerdict cls st).mutatedParams = [] := by
  unfold combinedConstructorVerdict
  refine List.foldlRecOn (motive := fun fi : FunctionSafetyInfo => fi.mutatedParams = []) _ _ rfl
    fun combined h method _ => ?_
  split
  · exact h
  · exact h

theorem noParams_precomputeConstructor (h : st.NoParams) (cls : ModuleName) :
    (info.precomputeConstructorVerdict cls st).NoParams := by
  unfold precomputeConstructorVerdict
  split
  · exact h
  · dsimp only
    have hloop : (info.checkConstructorCall (info.checkCallBody info.bodyFuel)
        { callerModule := cls, effect := { kind := .functionCall, name := cls }, func := cls }
        st).2.NoParams :=
      checkAll_inv (I := AnalysisState.NoParams)
        (fun _ _ s hs => noParams_checkCallBody _ _ s hs) h
    rcases hrun : info.checkConstructorCall (info.checkCallBody info.bodyFuel)
        { callerModule := cls, effect := { kind := .functionCall, name := cls }, func := cls }
        st with
      ⟨e | _ | _, s⟩ <;> rw [hrun] at hloop
    · exact hloop.markUnsafe
    · have hread : ((info.constructorMethodsOf cls).foldl AnalysisState.read s).NoParams :=
        hloop.of_safety (safety_foldl_read _ s)
      dsimp only
      split
      · exact hread.setFunctionSafety (mutatedParams_combined cls _)
      · exact hread.markUnsafe
    · exact hloop.markSafe

theorem noParams_precomputeFunction (h : st.NoParams) (func funcModule : ModuleName) :
    (info.precomputeFunctionVerdict func funcModule st).NoParams := by
  unfold precomputeFunctionVerdict
  split
  · exact h
  · dsimp only
    have hbody : (info.checkCallBody info.bodyFuel
        { callerModule := funcModule
          effect := { kind := .functionCall, name := func }
          func } st).2.NoParams := noParams_checkCallBody _ _ st h
    rcases hrun : info.checkCallBody info.bodyFuel
        { callerModule := funcModule
          effect := { kind := .functionCall, name := func }
          func } st with ⟨e | b, s⟩ <;> rw [hrun] at hbody
    · dsimp only
      split
      · exact hbody.markUnsafe.markSafe
      · exact hbody.markUnsafe
    · dsimp only
      split
      · exact hbody.markSafe
      · exact hbody

theorem noParams_settledState (info : ProjectInfo) : info.settledState.NoParams := by
  intro name fi hname
  rw [safety_settledState] at hname
  split at hname
  · cases hname
    rfl
  · split at hname
    · cases hname
      rfl
    · cases hname

theorem noParams_precomputeName (h : st.NoParams) (name : ModuleName) :
    (info.precomputeName name st).NoParams := by
  unfold precomputeName
  split
  · exact noParams_precomputeConstructor h name
  · split
    · exact noParams_precomputeFunction h name _
    · exact h

/-- The entries of a precompute have no mutated parameters. -/
theorem noParams_precompute (info : ProjectInfo) (order : List (List Nat)) :
    (info.precompute order).NoParams := by
  unfold precompute precomputeNodes
  have hstart := noParams_settledState info
  generalize info.settledState = st at hstart
  induction order.flatten generalizing st with
  | nil => exact hstart
  | cons node nodes ih => exact ih _ (noParams_precomputeName hstart _)

end ProjectInfo

end Lifeguard
