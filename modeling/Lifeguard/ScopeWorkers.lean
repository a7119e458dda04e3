import Lifeguard.CallTheory
import Lifeguard.Lib.Interleaving
import Lifeguard.Lib.LoggedChecks
import Lifeguard.ModuleScope

/-!
# The workers of the module-scope pass

The pass reads the verdicts, and only ever finds complete ones (`Complete`): a body that is met
has a verdict, so none is walked and none is written.

- `bodyAnswer`, …, `moduleUpdates`: what a worker finds, as functions of the verdicts;
- `collectErrorsFromModule_spec`: the worker writes no verdict, and tells the record of its
  module just that;
- `record_eq`: however the workers run (`PassRun`), the record of a module is the one its own
  worker makes (`moduleRecord`).
-/

namespace Lifeguard

open Lib

namespace ProjectInfo

variable (info : ProjectInfo) {input : PassInput} (orders : PassOrders input)

/-! ## What an evaluation finds in complete verdicts -/

section Evaluation

/-- The verdicts by name. -/
abbrev Verdicts := ModuleName → Option FunctionSafetyInfo

variable (safety : Verdicts)

/-- Every function has a verdict. -/
def Complete : Prop := ∀ func, info.IsFunction func → (safety func).isSome

/-- What the body of a call answers. -/
def bodyAnswer (call : Call) : Bool :=
  match info.functions.get? call.func with
  | none => true
  | some callModule =>
    (safety call.func).all fun fi => verdictAnswer fi.verdict (crosses call callModule)

/-- The errors that a body is entered with. -/
def bodyErrors (call : Call) : List SafetyError :=
  if hasKey info.functions call.func && info.callMutatesImportedArg call.effect then
    [SafetyError.newFromEffect .importedVarArgument call.effect]
  else []

/-- What a resolved call answers. -/
def callAnswer (call : Call) : Bool :=
  declaredSafe call.func || (info.spawnedCalls call).all (info.bodyAnswer safety)

/-- The errors of the bodies of a resolved call. -/
def callErrors (call : Call) : List SafetyError :=
  if declaredSafe call.func then [] else (info.spawnedCalls call).flatMap info.bodyErrors

/-- The callee can be resolved. -/
def resolves (func : ModuleName) : Bool := info.containsCallable func || (safety func).isSome

/-- What a callee of an eager call answers. -/
def calleeAnswer (call : Call) : Except Failure Bool :=
  if info.resolves safety call.func then
    if info.callAnswer safety call then .ok true
    else if (SafetyError.fromUnsafeCall call.effect).isSome then .ok false
    else .error .unexpectedCall
  else
    match checkUnknownCall call with
    | .ok _ => .ok false
    | .error e => .error e

/-- The errors a callee of an eager call is reported with. -/
def calleeErrors (nameCallee : Bool) (call : Call) : List SafetyError :=
  if info.resolves safety call.func then
    info.callErrors call ++
      if info.callAnswer safety call then []
      else (SafetyError.fromUnsafeCall call.effect).toList.map fun err =>
        if nameCallee then { err with metadata := call.func } else err
  else
    match checkUnknownCall call with
    | .ok err => [err]
    | .error _ => []

/-- The errors of a call are recorded under the names of its callees. -/
def namesCallee (eff : Effect) : Bool :=
  decide (eff.kind = .classCreation) || hasKey info.reExports eff.name

/-- What an eager call answers. -/
def scopeCallAnswer (modName scope : ModuleName) (eff : Effect) : Except Failure Bool :=
  answerAll
    (fun callee => info.calleeAnswer safety { scopeCall modName scope eff with func := callee })
    (info.dispatchCallees eff)

/-- The errors an eager call is reported with. -/
def scopeCallErrors (modName scope : ModuleName) (eff : Effect) : List SafetyError :=
  (ran (fun callee => info.calleeAnswer safety { scopeCall modName scope eff with func := callee })
    (info.dispatchCallees eff)).flatMap fun callee =>
      info.calleeErrors safety (info.namesCallee eff)
        { scopeCall modName scope eff with func := callee }

/-- An effect of an eager scope is checked as a call. -/
def isChecked (eff : Effect) : Bool :=
  eff.kind.isRunnable || (decide (eff.kind = .importedTypeAttr) && info.isPropertyAccess eff.name)

/-- What an effect of an eager scope answers. -/
def effectAnswer (modName scope : ModuleName) (eff : Effect) : Except Failure Bool :=
  if info.isChecked eff then info.scopeCallAnswer safety modName scope eff else .ok true

/-- What an effect of an eager scope tells the record of the module. -/
def effectUpdates (mode : ExecutionMode) (modName scope : ModuleName) (eff : Effect) :
    List ModuleUpdate :=
  (SafetyError.fromEffect eff).toList.map .addError ++
    (subclassCandidateOf eff).toList.map .addSubclassCandidate ++
    (if info.isChecked eff then
      (info.scopeCallErrors safety modName scope eff).map .addError
    else []) ++
    (if eff.kind = .unconfirmedTypeAttr ∧ mode = .incremental then
      [.addPropertyCandidate
        { attributeName := eff.name, range := eff.range, fromMainGuard := eff.fromMainGuard }]
    else []) ++
    if eff.kind = .importedVarMutation then
      [.addError (SafetyError.newFromEffect .importedModuleAssignment eff)]
    else []

/-- What a scope answers. -/
def scopeAnswer (modName scope : ModuleName) : Except Failure Bool :=
  answerAll (info.effectAnswer safety modName scope) (info.effectsOf scope)

/-- What a scope tells the record of its module. -/
def scopeUpdates (mode : ExecutionMode) (modName scope : ModuleName) : List ModuleUpdate :=
  (ran (info.effectAnswer safety modName scope) (info.effectsOf scope)).flatMap
    (info.effectUpdates safety mode modName scope)

/-- What the worker of a module tells its record. -/
def moduleUpdates (mode : ExecutionMode) (modName : ModuleName) (result : AnalyzedModule) :
    List ModuleUpdate :=
  let scopes := orders.eagerScopes modName
  let answer := info.scopeAnswer safety modName
  (ran answer scopes).flatMap (info.scopeUpdates safety mode modName) ++
    match answerAll answer scopes with
    | .error e => [.setAnalysisError e.message]
    | .ok _ =>
      (eagerOverrides (orders.effects modName) result).map .addForceImportsEagerOverride ++
        [.addImplicitImports (orders.implicitImports modName)]

end Evaluation

/-! ## The worker writes no verdict -/

section Worker

variable {info} {safety : Verdicts}

/-- The verdicts are the given ones. -/
def HasVerdicts (safety : Verdicts) (st : AnalysisState) : Prop := ∀ n, st.safety n = safety n

/-- An evaluation that changes no verdict, in the module-scope pass. -/
abbrev LogsErrors (safety : Verdicts) (modName : ModuleName) (check : AnalysisState → Outcome)
    (ans : Except Failure Bool) (errors : List SafetyError) : Prop :=
  Logs (HasVerdicts safety) AnalysisState.errors check ans
    (errors.map fun err => (modName, err))

/-- Every body has a verdict, so none is walked. -/
theorem logs_checkCallBody (hcomplete : info.Complete safety) {call : Call} (fuel : Nat)
    (hscope : call.isModuleScope = true) :
    LogsErrors safety call.callerModule (info.checkCallBody (fuel + 1) call)
      (.ok (info.bodyAnswer safety call)) (info.bodyErrors call) := by
  cases hfunc : info.functions.get? call.func with
  | none =>
    have hans : info.bodyAnswer safety call = true := by rw [bodyAnswer, hfunc]
    have herr : info.bodyErrors call = [] := by rw [bodyErrors, hasKey, hfunc]; rfl
    rw [hans, herr]
    exact (Logs.pure _).congr fun st _ => checkCallBody_of_no_function hfunc
  | some callModule =>
    obtain ⟨fi, hfi⟩ := Option.isSome_iff_exists.mp (hcomplete call.func (hasKey_of_get? hfunc))
    have hrun : ∀ st, HasVerdicts safety st → info.checkCallBody (fuel + 1) call st =
        (.ok (info.bodyAnswer safety call), info.enterBody call st) := by
      intro st hst
      rw [checkCallBody_of_recorded hfunc ((hst _).trans hfi), bodyAnswer, hfunc, hfi]
      rfl
    refine ⟨fun st hst => by rw [hrun st hst], fun st hst n => ?_, fun st hst => ?_⟩
    · rw [hrun st hst, safety_enterBody]
      exact hst n
    · rw [hrun st hst, enterBody, if_pos hscope, bodyErrors, hasKey_of_get? hfunc, Bool.true_and,
        checkCallParams]
      split
      · rfl
      · exact (List.append_nil _).symm

/-- The bodies of a resolved call. -/
theorem logs_checkCall (hcomplete : info.Complete safety) {call : Call} (fuel : Nat)
    (hscope : call.isModuleScope = true) :
    LogsErrors safety call.callerModule (info.checkCall (info.checkCallBody (fuel + 1)) call)
      (.ok (info.callAnswer safety call)) (info.callErrors call) := by
  refine Logs.congr ?_ fun st _ => checkCall_eq call st
  rw [callAnswer, callErrors]
  split
  · next hdecl =>
    rw [hdecl, Bool.true_or]
    exact Logs.pure _
  · next hdecl =>
    have hloop : Logs (HasVerdicts safety) AnalysisState.errors
        (checkAll (info.checkCallBody (fuel + 1)) (info.spawnedCalls call))
        (answerAll (fun call' => .ok (info.bodyAnswer safety call')) (info.spawnedCalls call))
        ((ran (fun call' => (.ok (info.bodyAnswer safety call') : Except Failure Bool))
          (info.spawnedCalls call)).flatMap fun call' =>
            (info.bodyErrors call').map fun err => (call.callerModule, err)) :=
      Logs.checkAll fun call' hmem => by
        obtain ⟨hspawn, -⟩ := mem_spawnedCalls hmem
        have hbody := logs_checkCallBody hcomplete fuel (hspawn.isModuleScope.trans hscope)
        rwa [hspawn.callerModule] at hbody
    rw [ran_of_ok (by rw [answerAll_ok]; rfl), answerAll_ok] at hloop
    rw [Bool.eq_false_iff.mpr hdecl, Bool.false_or, List.map_flatMap]
    exact hloop

/-- An error is added. -/
theorem logs_addError (modName : ModuleName) (ans : Except Failure Bool) (err : SafetyError) :
    LogsErrors safety modName (fun st => (ans, st.addErrorToModule modName err)) ans [err] where
  answer _ _ := rfl
  keeps _ h := h
  appends _ _ := rfl

/-- What `check_resolved_call` makes of the answer of a call that resolves. -/
def reportUnsafe (nameCallee : Bool) (call : Call) : Except Failure Bool → AnalysisState → Outcome
  | .error e, st => (.error e, st)
  | .ok true, st => (.ok true, st)
  | .ok false, st =>
    match SafetyError.fromUnsafeCall call.effect with
    | none => (.error .unexpectedCall, st)
    | some err =>
      (.ok false, st.addErrorToModule call.callerModule
        (if nameCallee then { err with metadata := call.func } else err))

/-- A published call that resolves is reported when it is not safe. -/
theorem checkResolvedCall_published {body : Call → AnalysisState → Outcome} {call : Call}
    {st : AnalysisState} (nameCallee : Bool) (hres : info.canResolveCall call.func st = true) :
    info.checkResolvedCall body true nameCallee call st =
      reportUnsafe nameCallee call (info.checkCall body call st).1
        (info.checkCall body call st).2 := by
  rw [checkResolvedCall, hres]
  rcases info.checkCall body call st with ⟨e | _ | _, s⟩
  · rfl
  · rw [reportUnsafe]
    rfl
  · rfl

/-- A callee of an eager call. -/
theorem logs_checkResolvedCall (hcomplete : info.Complete safety) {call : Call} (fuel : Nat)
    (nameCallee : Bool) (hscope : call.isModuleScope = true) :
    LogsErrors safety call.callerModule
      (info.checkResolvedCall (info.checkCallBody (fuel + 1)) true nameCallee call)
      (info.calleeAnswer safety call) (info.calleeErrors safety nameCallee call) := by
  have hresolves : ∀ st, HasVerdicts safety st →
      info.canResolveCall call.func st = info.resolves safety call.func := fun st hst => by
    rw [canResolveCall, resolves, hst]
  rw [calleeAnswer, calleeErrors]
  split
  · next hres =>
    refine Logs.congr ?_ fun st hst =>
      checkResolvedCall_published nameCallee ((hresolves st hst).trans hres)
    rw [List.map_append]
    refine (logs_checkCall hcomplete fuel hscope).follow ?_
    cases info.callAnswer safety call with
    | true => exact Logs.pure _
    | false =>
      cases herr : SafetyError.fromUnsafeCall call.effect with
      | none =>
        refine (Logs.pure _).congr fun st _ => ?_
        rw [reportUnsafe, herr]
        rfl
      | some err =>
        refine (logs_addError _ _ _).congr fun st _ => ?_
        rw [reportUnsafe, herr]
        rfl
  · next hres =>
    have hfail : ∀ st, HasVerdicts safety st → info.canResolveCall call.func st = false :=
      fun st hst => (hresolves st hst).trans (Bool.eq_false_iff.mpr hres)
    cases hunknown : checkUnknownCall call with
    | error e =>
      refine (Logs.pure _).congr fun st hst => ?_
      rw [checkResolvedCall, hfail st hst, hunknown]
      rfl
    | ok err =>
      refine (logs_addError _ _ _).congr fun st hst => ?_
      rw [checkResolvedCall, hfail st hst, hunknown]
      rfl

/-- The call of an eager scope. -/
theorem logs_scopeCall (hcomplete : info.Complete safety) (modName scope : ModuleName)
    (eff : Effect) :
    LogsErrors safety modName
      (info.checkCallSafety (info.checkCallBody info.bodyFuel) true (scopeCall modName scope eff))
      (info.scopeCallAnswer safety modName scope eff)
      (info.scopeCallErrors safety modName scope eff) := by
  rw [LogsErrors, scopeCallErrors, List.map_flatMap]
  exact Logs.checkAll fun callee _ => logs_checkResolvedCall hcomplete _ _ rfl

/-! ## The updates of a worker -/

/-- An evaluation of the pass that changes no verdict. -/
abbrev Tells (safety : Verdicts) (modName : ModuleName)
    (check : PassState → Except Failure Bool × PassState) (ans : Except Failure Bool)
    (updates : List ModuleUpdate) : Prop :=
  Logs (fun st : PassState => HasVerdicts safety st.analysis) PassState.updates check ans
    (updates.map fun update => (modName, update))

theorem tells_tell (modName : ModuleName) (ans : Except Failure Bool)
    (updates : List ModuleUpdate) :
    Tells safety modName (fun st => (ans, st.tell modName updates)) ans updates where
  answer _ _ := rfl
  keeps _ h := h
  appends _ _ := rfl

/-- The errors an evaluation adds are told to the record. -/
theorem tells_evaluate {modName : ModuleName} {check : AnalysisState → Outcome}
    {ans : Except Failure Bool} {errors : List SafetyError}
    (h : LogsErrors safety modName check ans errors) :
    Tells safety modName (fun st => st.evaluate check) ans (errors.map .addError) where
  answer st hst := h.answer { st.analysis with errors := [] } hst
  keeps st hst := h.keeps { st.analysis with errors := [] } hst
  appends st hst := by
    have hlog := h.appends { st.analysis with errors := [] } hst
    rw [List.nil_append] at hlog
    rw [PassState.evaluate, hlog, List.map_map, List.map_map]
    rfl


/-- The kinds of effect that are checked otherwise are no errors by themselves. -/
theorem kind_of_errorKindFor {kind : EffectKind} {err : ErrorKind}
    (h : SafetyError.errorKindFor kind = some err) :
    kind.isRunnable = false ∧ kind ≠ .importedTypeAttr ∧ kind ≠ .unconfirmedTypeAttr ∧
      kind ≠ .importedVarMutation := by
  cases kind <;> cases h <;> decide

/-- Neither are the kinds that are no calls. -/
theorem subclassCandidateOf_of_not_runnable {eff : Effect} (h : eff.kind.isRunnable = false) :
    subclassCandidateOf eff = none := by
  rw [subclassCandidateOf, if_neg]
  intro hkind
  rw [hkind] at h
  cases h

theorem tells_scopeCall (hcomplete : info.Complete safety) (modName scope : ModuleName)
    (eff : Effect) :
    Tells safety modName (info.checkScopeCall modName scope eff)
      (info.scopeCallAnswer safety modName scope eff)
      ((info.scopeCallErrors safety modName scope eff).map .addError) :=
  tells_evaluate (logs_scopeCall hcomplete modName scope eff)

/-- Nothing is told. -/
theorem tells_idle (modName : ModuleName) (ans : Except Failure Bool) :
    Tells safety modName (fun st => (ans, st)) ans [] := Logs.pure ans

/-- The record is told something first. -/
theorem tells_after {modName : ModuleName} {check : PassState → Except Failure Bool × PassState}
    {ans : Except Failure Bool} {updates : List ModuleUpdate} (first : List ModuleUpdate)
    (h : Tells safety modName check ans updates) :
    Tells safety modName (fun st => check (st.tell modName first)) ans (first ++ updates) where
  answer st hst := h.answer (st.tell modName first) hst
  keeps st hst := h.keeps (st.tell modName first) hst
  appends st hst := by
    rw [h.appends (st.tell modName first) hst, List.map_append, ← List.append_assoc]
    rfl

/-- One effect of an eager scope. -/
theorem tells_collectErrorsFromEffect (hcomplete : info.Complete safety) (mode : ExecutionMode)
    (modName scope : ModuleName) (eff : Effect) :
    Tells safety modName (info.collectErrorsFromEffect mode modName scope eff)
      (info.effectAnswer safety modName scope eff)
      (info.effectUpdates safety mode modName scope eff) := by
  unfold effectAnswer effectUpdates
  cases herr : SafetyError.fromEffect eff with
  | some err =>
    obtain ⟨kind, hkind, -⟩ := Option.map_eq_some_iff.mp herr
    obtain ⟨hrun, htype, hunconfirmed, hmutation⟩ := kind_of_errorKindFor hkind
    have hchecked : info.isChecked eff = false := by
      rw [isChecked, hrun, decide_eq_false htype]
      rfl
    rw [hchecked, subclassCandidateOf_of_not_runnable hrun, if_neg Bool.false_ne_true,
      if_neg Bool.false_ne_true, if_neg fun h => hunconfirmed h.1, if_neg hmutation]
    refine (tells_tell modName (.ok true) [.addError err]).congr fun st _ => ?_
    rw [collectErrorsFromEffect, herr]
  | none =>
    cases hrun : eff.kind.isRunnable with
    | true =>
      have hchecked : info.isChecked eff = true := by rw [isChecked, hrun, Bool.true_or]
      have hunconfirmed : ¬(eff.kind = .unconfirmedTypeAttr ∧ mode = .incremental) := by
        rintro ⟨hkind, -⟩
        rw [hkind] at hrun
        cases hrun
      have hmutation : eff.kind ≠ .importedVarMutation := by
        intro hkind
        rw [hkind] at hrun
        cases hrun
      rw [hchecked, if_pos rfl, if_pos rfl, if_neg hunconfirmed, if_neg hmutation,
        List.append_nil, List.append_nil]
      -- the candidate is told first, whatever the call answers
      refine (tells_after _ (tells_scopeCall hcomplete modName scope eff)).congr fun st _ => ?_
      rw [collectErrorsFromEffect, herr]
      dsimp only
      rw [if_pos hrun]
      rfl
    | false =>
      rw [subclassCandidateOf_of_not_runnable hrun, isChecked, hrun, Bool.false_or]
      unfold collectErrorsFromEffect
      simp only [herr, hrun, Bool.false_eq_true, if_false, Option.toList_none, List.map_nil,
        List.nil_append]
      cases eff.kind with
      | importedTypeAttr =>
        cases info.isPropertyAccess eff.name with
        | true => simpa using tells_scopeCall hcomplete modName scope eff
        | false => simpa using tells_idle modName (.ok true)
      | unconfirmedTypeAttr =>
        cases mode with
        | incremental => simpa using tells_tell modName (.ok true) _
        | wholeProgram => simpa using tells_idle modName (.ok true)
      | importedVarMutation => simpa using tells_tell modName (.ok true) _
      | _ => simpa using tells_idle modName (.ok true)

/-- An eager scope. -/
theorem tells_collectErrorsFromScope (hcomplete : info.Complete safety) (mode : ExecutionMode)
    (modName scope : ModuleName) :
    Tells safety modName (info.collectErrorsFromScope mode modName scope)
      (info.scopeAnswer safety modName scope) (info.scopeUpdates safety mode modName scope) := by
  have hloop : Tells safety modName
      (checkAll (info.collectErrorsFromEffect mode modName scope) (info.effectsOf scope))
      (info.scopeAnswer safety modName scope)
      (info.scopeUpdates safety mode modName scope) := by
    rw [Tells, scopeUpdates, List.map_flatMap]
    exact Logs.checkAll fun eff _ => tells_collectErrorsFromEffect hcomplete mode modName scope eff
  refine hloop.congr fun st _ => ?_
  rw [collectErrorsFromScope, effectsOf]
  cases info.effectTable.get? scope with
  | none => rfl
  | some effs => rfl

/-- The worker of a module writes no verdict, and what it tells depends on the verdicts only. -/
theorem collectErrorsFromModule_spec (hcomplete : info.Complete safety) {input : PassInput}
    (orders : PassOrders input) (mode : ExecutionMode) (modName : ModuleName)
    (result : AnalyzedModule) {st : PassState} (hst : HasVerdicts safety st.analysis) :
    HasVerdicts safety (info.collectErrorsFromModule orders mode modName result st).analysis ∧
      (info.collectErrorsFromModule orders mode modName result st).updates =
        st.updates ++ (info.moduleUpdates orders safety mode modName result).map
          fun update => (modName, update) := by
  have hloop : Tells safety modName
      (checkAll (info.collectErrorsFromScope mode modName) (orders.eagerScopes modName))
      (answerAll (info.scopeAnswer safety modName) (orders.eagerScopes modName))
      ((ran (info.scopeAnswer safety modName) (orders.eagerScopes modName)).flatMap
        (info.scopeUpdates safety mode modName)) := by
    rw [Tells, List.map_flatMap]
    exact Logs.checkAll fun scope _ => tells_collectErrorsFromScope hcomplete mode modName scope
  have hans := hloop.answer st hst
  have hkeep := hloop.keeps st hst
  have hlog := hloop.appends st hst
  unfold collectErrorsFromModule moduleUpdates
  dsimp only
  rcases hrun : checkAll (info.collectErrorsFromScope mode modName) (orders.eagerScopes modName) st
    with ⟨e | b, s⟩
  · rw [hrun] at hans hkeep hlog
    dsimp only at hans hkeep hlog ⊢
    rw [← hans, List.map_append, ← List.append_assoc, ← hlog]
    exact ⟨hkeep, rfl⟩
  · rw [hrun] at hans hkeep hlog
    dsimp only at hans hkeep hlog ⊢
    rw [← hans, List.map_append, ← List.append_assoc, ← hlog, List.map_append, ← List.append_assoc]
    exact ⟨hkeep, rfl⟩


end Worker

/-! ## The records after a run -/

section Record

variable {info} {safety : Verdicts} {input : PassInput}

/-- What the worker of a module tells the records. -/
def workerLog (info : ProjectInfo) (orders : PassOrders input) (mode : ExecutionMode)
    (st : AnalysisState) (modName : ModuleName) : List (ModuleName × ModuleUpdate) :=
  match input.analysisMap.get? modName with
  | none => []
  | some result =>
    (info.collectErrorsFromModule orders mode modName result { analysis := st }).updates

/-- The updates of a run of the pass, in which the workers of the modules run at once. -/
def PassRun (info : ProjectInfo) (orders : PassOrders input) (mode : ExecutionMode)
    (st : AnalysisState) (log : List (ModuleName × ModuleUpdate)) : Prop :=
  Interleaves (workerLog info orders mode st) log

/-- The workers one after the other, over the shared state. -/
def collectErrorsFromModules (info : ProjectInfo) (orders : PassOrders input)
    (mode : ExecutionMode) (modules : List ModuleName) (st : PassState) : PassState :=
  modules.foldl
    (fun st modName =>
      match input.analysisMap.get? modName with
      | none => st
      | some result => info.collectErrorsFromModule orders mode modName result st)
    st

/-- The safety map a run leaves. -/
def passSafetyMap (input : PassInput) (log : List (ModuleName × ModuleUpdate)) : SafetyMap :=
  applyUpdates (initSafetyMap input.analysisMap) log

variable {orders : PassOrders input} {mode : ExecutionMode} {st : AnalysisState}

theorem workerLog_of_none {modName : ModuleName} (h : input.analysisMap.get? modName = none) :
    workerLog info orders mode st modName = [] := by
  rw [workerLog, h]

theorem workerLog_of_some (hcomplete : info.Complete st.safety) {modName : ModuleName}
    {result : AnalyzedModule} (h : input.analysisMap.get? modName = some result) :
    workerLog info orders mode st modName =
      (info.moduleUpdates orders st.safety mode modName result).map
        fun update => (modName, update) := by
  have hst : HasVerdicts st.safety ({ analysis := st } : PassState).analysis := fun _ => rfl
  rw [workerLog, h]
  exact (collectErrorsFromModule_spec hcomplete orders mode modName result hst).2

/-- A worker tells its own module only. -/
theorem fst_of_mem_workerLog (hcomplete : info.Complete st.safety) {modName : ModuleName}
    {update : ModuleName × ModuleUpdate} (h : update ∈ workerLog info orders mode st modName) :
    update.1 = modName := by
  cases hget : input.analysisMap.get? modName with
  | none =>
    rw [workerLog_of_none hget] at h
    cases h
  | some result =>
    rw [workerLog_of_some hcomplete hget] at h
    obtain ⟨u, -, rfl⟩ := List.mem_map.mp h
    rfl

/-- The workers one after the other, in any order, are a run. -/
theorem passRun_collectErrorsFromModules (hcomplete : info.Complete st.safety)
    {modules : List ModuleName} (hnodup : modules.Nodup)
    (hall : ∀ m result, input.analysisMap.get? m = some result → m ∈ modules) :
    info.PassRun orders mode st
      (info.collectErrorsFromModules orders mode modules { analysis := st }).updates := by
  have hserial : ∀ (modules : List ModuleName) (s : PassState), HasVerdicts st.safety s.analysis →
      (info.collectErrorsFromModules orders mode modules s).updates =
        s.updates ++ modules.flatMap (workerLog info orders mode st) := by
    intro modules
    induction modules with
    | nil => exact fun s _ => (List.append_nil _).symm
    | cons m modules ih =>
      intro s hs
      rw [collectErrorsFromModules, List.foldl_cons, ← collectErrorsFromModules, List.flatMap_cons]
      cases hget : input.analysisMap.get? m with
      | none =>
        rw [workerLog_of_none hget]
        exact ih s hs
      | some result =>
        have hspec := collectErrorsFromModule_spec hcomplete orders mode m result hs
        rw [workerLog_of_some hcomplete hget, ← List.append_assoc, ← hspec.2]
        exact ih _ hspec.1
  rw [hserial modules _ fun _ => rfl, List.nil_append]
  refine Interleaves.flatMap hnodup fun m hm => ?_
  cases hget : input.analysisMap.get? m with
  | none => exact workerLog_of_none hget
  | some result => exact absurd (hall m result hget) hm

/-- The record of a module after the updates that are told to it. -/
def recordAfter (updates : List ModuleUpdate) (entry : Option SafetyResult) :
    Option SafetyResult :=
  updates.foldl (fun entry update => update.apply entry) entry

theorem get?_applyUpdate (safetyMap : SafetyMap) (update : ModuleName × ModuleUpdate) :
    (applyUpdate safetyMap update).get? =
      Function.update safetyMap.get? update.1 (update.2.apply (safetyMap.get? update.1)) := by
  funext m
  obtain ⟨modName, u⟩ := update
  rw [applyUpdate, Function.update_apply]
  cases happly : u.apply (safetyMap.get? modName) with
  | none =>
    dsimp only
    unfold ModuleUpdate.apply at happly
    split at happly <;> cases happly
  | some result =>
    dsimp only
    rw [Table.get?_insert]

/-- The entries of the safety map are cells that the updates of their module go to. -/
theorem get?_applyUpdates (safetyMap : SafetyMap) (log : List (ModuleName × ModuleUpdate)) :
    (applyUpdates safetyMap log).get? =
      runUpdates Prod.fst (fun update => update.2.apply) log safetyMap.get? := by
  induction log generalizing safetyMap with
  | nil => rfl
  | cons update log ih =>
    rw [applyUpdates, List.foldl_cons, ← applyUpdates, ih, get?_applyUpdate]
    rfl

/-- The record that the worker of a module makes. -/
def moduleRecord (info : ProjectInfo) (orders : PassOrders input) (safety : Verdicts)
    (mode : ExecutionMode) (modName : ModuleName) (result : AnalyzedModule) :
    Option SafetyResult :=
  recordAfter (info.moduleUpdates orders safety mode modName result) (some (.ok {}))

/-- However the workers run, the record of a module is that of its own worker. -/
theorem record_eq (hcomplete : info.Complete st.safety)
    {log : List (ModuleName × ModuleUpdate)} (hrun : info.PassRun orders mode st log)
    (modName : ModuleName) :
    (passSafetyMap input log).get? modName =
      (input.analysisMap.get? modName).bind fun result =>
        info.moduleRecord orders st.safety mode modName result := by
  rw [passSafetyMap, get?_applyUpdates,
    Interleaves.cell_eq hrun fun m update hmem => fst_of_mem_workerLog hcomplete hmem,
    initSafetyMap, Table.get?_mapVals]
  cases hget : input.analysisMap.get? modName with
  | none =>
    rw [workerLog_of_none hget]
    rfl
  | some result =>
    rw [workerLog_of_some hcomplete hget, List.foldl_map]
    rfl

end Record

end ProjectInfo

end Lifeguard
