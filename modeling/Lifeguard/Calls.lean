import Lifeguard.Lib.CheckLoop
import Lifeguard.ModuleSafety
import Lifeguard.Project

/-!
# Call evaluation

Whether a call is safe, decided by walking the effects of the body it runs
(`project/calls.rs`), over the verdicts recorded so far (`project/state.rs`):

- `AnalysisState`: the recorded verdicts and errors, with a ghost log of the names whose
  verdict has been looked up;
- `checkCallSafety`: the dispatch of one call to the bodies it runs;
- `checkCallBody`: the walk over one body, which records the verdict it finds.

A state is threaded through every function and survives a failure, as the shared maps of
the source do. The dispatch functions take the recursive call as a parameter, so that
`checkCallBody` is recursive on its fuel alone. The call stack only ever holds effect
names that differ from each other, so `bodyFuel` is enough.
-/

namespace Lifeguard

open Lib

/-! ## The shared state -/

/-- `GlobalAnalysisState`, with the errors in the order they are added. A function's own
entry is logged in `reads` once, when the walk over its body starts. -/
structure AnalysisState where
  functionSafety : Table ModuleName FunctionSafetyInfo := Table.empty
  errors : List (ModuleName × SafetyError) := []
  reads : List ModuleName := []

namespace AnalysisState

variable (st : AnalysisState)

/-- The entry of a name. -/
def safety (name : ModuleName) : Option FunctionSafetyInfo := st.functionSafety.get? name

/-- Log the lookup of a verdict. -/
def read (name : ModuleName) : AnalysisState := { st with reads := name :: st.reads }

/-- `add_error_to_module`. -/
def addErrorToModule (modName : ModuleName) (err : SafetyError) : AnalysisState :=
  { st with errors := st.errors ++ [(modName, err)] }

/-- `set_function_safety`. -/
def setFunctionSafety (func : ModuleName) (fi : FunctionSafetyInfo) : AnalysisState :=
  { st with functionSafety := st.functionSafety.insert func fi }

/-- `mark_safe`. -/
def markSafe (func : ModuleName) : AnalysisState := st.setFunctionSafety func (.new ∅)

/-- `mark_unsafe`. -/
def markUnsafe (func : ModuleName) : AnalysisState :=
  st.setFunctionSafety func (.new {.hardUnsafe})

/-- The record `mark_unsafe_missing_dep` leaves of an existing one. -/
def addMissingDep (callee : ModuleName) (fi : FunctionSafetyInfo) : FunctionSafetyInfo :=
  { fi with
    verdict := insert .unsafeMissingDep fi.verdict
    missingDepCallees := insert callee fi.missingDepCallees }

/-- `mark_unsafe_missing_dep`. -/
def markUnsafeMissingDep (func callee : ModuleName) : AnalysisState :=
  { st with
    functionSafety :=
      st.functionSafety.upsert func (addMissingDep callee) (.unsafeMissingDep callee) }

/-- `is_unsafe`. -/
def isUnsafe (func : ModuleName) : Bool :=
  (st.safety func).any fun fi => decide (.hardUnsafe ∈ fi.verdict)

/-- The record `mark_unsafe_if_imported` leaves of an existing one. -/
def addIfImported (fi : FunctionSafetyInfo) : FunctionSafetyInfo :=
  { fi with verdict := insert .unsafeIfImported fi.verdict }

/-- `mark_unsafe_if_imported`. -/
def markUnsafeIfImported (func : ModuleName) : AnalysisState :=
  { st with
    functionSafety :=
      st.functionSafety.upsert func addIfImported (.new {.unsafeIfImported}) }

/-- The entry may still clear in the reduce: it waits on a dependency and is not
intrinsically unsafe. -/
def recoverable (name : ModuleName) : Bool :=
  (st.safety name).any fun fi =>
    decide (.unsafeMissingDep ∈ fi.verdict) && !decide (.hardUnsafe ∈ fi.verdict)

end AnalysisState

/-- What stops an evaluation. -/
inductive Failure
  /-- An effect that is no call reached the call checks. -/
  | unexpectedCall
  | outOfFuel
  deriving DecidableEq, Repr

/-- What an evaluation answers, and the state it leaves. -/
abbrev Outcome := Except Failure Bool × AnalysisState

/-- `Call`; the stack has its top first. -/
structure Call where
  callerModule : ModuleName
  effect : Effect
  func : ModuleName
  stack : List ModuleName := []
  isModuleScope : Bool := false

/-! ## Mutations of imported objects -/

/-- `Definitions::classify_param`. -/
def classifyParam (defs : Table ModuleName (List Str)) (func : ModuleName) (param : Str) :
    ParamPosition :=
  match defs.get? func with
  | none => .unresolved
  | some names =>
    match names.findIdx? fun name => decide (name = param) with
    | some idx => .positional idx
    | none => .keywordOnly

namespace ProjectInfo

variable (info : ProjectInfo)

/-- `callee_mutates_imported_arg`. -/
def calleeMutatesImportedArg (callData : CallData) (callee : ModuleName)
    (argOffset : Nat) : Bool :=
  match info.mutatedParams.get? callee with
  | none => false
  | some mutated =>
    let defs := info.paramNames.get? ((info.functions.get? callee).getD callee)
    callData.importedArgs.hitsAnyParam
      (mutated.map fun param =>
        (param,
          match defs with
          | some d => classifyParam d callee param
          | none => .unresolved))
      argOffset

/-- `call_mutates_imported_arg`. -/
def callMutatesImportedArg (callEffect : Effect) : Bool :=
  callEffect.callData.any fun callData =>
    callData.hasUnsafeArgs &&
      (iterCallees callEffect info.classes).any fun p =>
        info.calleeMutatesImportedArg callData p.1 p.2

/-- `defers_cross_library_mutation`. -/
def defersCrossLibraryMutation (callEffect : Effect) : Bool :=
  callEffect.callData.any fun data => data.hasUnsafeArgs

/-- The callees whose effect on an imported argument is left for the reduce to settle. -/
def deferredCallees (eff : Effect) : List ModuleName :=
  if defersCrossLibraryMutation eff then
    ((iterCallees eff info.classes).map Prod.fst).filter fun callee =>
      !hasKey info.functions callee && !hasKey info.mutatedParams callee
  else []

/-! ## Dispatch -/

/-- `check_call_params`. -/
def checkCallParams (call : Call) (st : AnalysisState) : AnalysisState :=
  if info.callMutatesImportedArg call.effect then
    st.addErrorToModule call.callerModule
      (SafetyError.newFromEffect .importedVarArgument call.effect)
  else st

/-- `can_resolve_call`. -/
def canResolveCall (func : ModuleName) (st : AnalysisState) : Bool :=
  info.containsCallable func || (st.safety func).isSome

/-- `mark_caller_unsafe_for_failed_callee`. -/
def markCallerUnsafeForFailedCallee (func callee : ModuleName) (st : AnalysisState) :
    AnalysisState :=
  let st := st.read callee
  if st.recoverable callee then
    if !st.isUnsafe func then st.markUnsafeMissingDep func callee else st
  else if info.canResolveCall callee st then st.markUnsafe func
  else if !st.isUnsafe func then st.markUnsafeMissingDep func callee
  else st

/-- `check_unknown_call`. -/
def checkUnknownCall (call : Call) : Except Failure SafetyError :=
  match call.effect.kind with
  | .importedFunctionCall | .functionCall =>
    .ok (SafetyError.newFromEffect .unknownFunctionCall call.effect)
  | .methodCall | .unboundMethodCall | .paramMethodCall =>
    .ok (SafetyError.newFromEffect .unknownMethodCall call.effect)
  | .importedDecoratorCall | .decoratorCall =>
    .ok (SafetyError.newFromEffect .unknownDecoratorCall call.effect)
  | _ => .error .unexpectedCall

section Dispatch

-- the recursive call of `check_call_body`
variable (body : Call → AnalysisState → Outcome)

/-- `check_constructor_call`. Its loop, like the others that say `ret &= …?`, checks every
item whatever the earlier ones answered. -/
def checkConstructorCall (call : Call) (st : AnalysisState) : Outcome :=
  checkAll (fun method => body { call with func := method })
    (info.constructorMethodsOf call.func) st

/-- `check_decorator_nested_functions`: only the factory's immediate children run. The
child is checked as a plain call, so the decorator path is not entered again. -/
def checkDecoratorNestedFunctions (call : Call) (st : AnalysisState) : Outcome :=
  match info.nestedFunctions.get? call.func with
  | none => (.ok true, st)
  | some children =>
    checkAll
      (fun child =>
        body
          { call with
            effect := { kind := .functionCall, name := child, range := call.effect.range }
            func := child })
      children st

/-- `check_call`. -/
def checkCall (call : Call) (st : AnalysisState) : Outcome :=
  if declaredSafe call.func then (.ok true, st)
  else
    let checked :=
      if hasKey info.classes call.func then info.checkConstructorCall body call st
      else body call st
    match checked with
    | (.error e, st) => (.error e, st)
    | (.ok ret, st) =>
      if isParameterizedDecoratorEffect call.effect then
        match info.checkDecoratorNestedFunctions body call st with
        | (.error e, st) => (.error e, st)
        | (.ok b, st) => (.ok (ret && b), st)
      else (.ok ret, st)

/-- `check_resolved_call`. -/
def checkResolvedCall (publish nameCallee : Bool) (call : Call) (st : AnalysisState) :
    Outcome :=
  if !info.canResolveCall call.func st then
    if publish then
      match checkUnknownCall call with
      | .error e => (.error e, st)
      | .ok err => (.ok false, st.addErrorToModule call.callerModule err)
    else (.ok false, st)
  else
    match info.checkCall body call st with
    | (.error e, st) => (.error e, st)
    | (.ok true, st) => (.ok true, st)
    | (.ok false, st) =>
      if publish then
        match SafetyError.fromUnsafeCall call.effect with
        | none => (.error .unexpectedCall, st)
        | some err =>
          (.ok false, st.addErrorToModule call.callerModule
            (if nameCallee then { err with metadata := call.func } else err))
      else (.ok false, st)

/-- The callees `check_call_safety` hands to `check_resolved_call`. No ancestor that
defines the method means that no body runs. -/
def dispatchCallees (eff : Effect) : List ModuleName :=
  match eff.kind with
  | .classCreation =>
    info.metaclassCreationCallees eff.name ++ (info.resolveDispatchAbove eff.name).toList
  | .superMethodCall => (info.resolveDispatchAbove eff.name).toList
  | _ => [(info.resolveCallable eff.name).getD eff.name]

/-- `call.func` once `check_call_safety` has returned: a class creation keeps the name it
is written under. -/
def dispatchedName (eff : Effect) : ModuleName :=
  match eff.kind with
  | .classCreation => eff.name
  | .superMethodCall => (info.resolveDispatchAbove eff.name).getD eff.name
  | _ => (info.resolveCallable eff.name).getD eff.name

/-- `check_call_safety`, for a call whose `func` is the name of its effect. -/
def checkCallSafety (publish : Bool) (call : Call) (st : AnalysisState) : Outcome :=
  let nameCallee := decide (call.effect.kind = .classCreation) ||
    hasKey info.reExports call.effect.name
  checkAll
    (fun callee => info.checkResolvedCall body publish nameCallee { call with func := callee })
    (info.dispatchCallees call.effect) st

/-! ## The walk over a body -/

/-- Record the callees that may mutate an imported argument in another library. -/
def deferMutations (func : ModuleName) (eff : Effect) (st : AnalysisState) : AnalysisState :=
  (info.deferredCallees eff).foldl
    (fun st callee => st.markUnsafeMissingDep func callee) st

/-- The checks of `check_call_body` on the arguments of a runnable effect. -/
def checkArgs (call : Call) (eff : Effect) (st : AnalysisState) : Bool × AnalysisState :=
  if info.callMutatesImportedArg eff then (false, st.markUnsafe call.func)
  else if !call.isModuleScope then
    ((info.deferredCallees eff).isEmpty, info.deferMutations call.func eff st)
  else (true, st)

/-- The call a runnable effect of the body makes. While function verdicts are computed,
the child's caller is the module of the body; in the module pass the entry module is
threaded through. -/
def childCall (call : Call) (callModule : ModuleName) (eff : Effect) : Call where
  callerModule := if !call.isModuleScope then callModule else call.callerModule
  effect := eff
  func := eff.name
  stack := eff.name :: call.stack
  isModuleScope := call.isModuleScope

/-- The branch of `check_call_body` that runs a call of the body. -/
def runCall (call : Call) (callModule : ModuleName) (crossModule : Bool) (eff : Effect)
    (st : AnalysisState) : Outcome :=
  match info.checkCallSafety body false (childCall call callModule eff) st with
  | (.error e, st) => (.error e, st)
  | (.ok false, st) =>
    (.ok false, info.markCallerUnsafeForFailedCallee call.func (info.dispatchedName eff) st)
  | (.ok true, st) =>
    let callee := info.dispatchedName eff
    let st := st.read callee
    if ((st.safety callee).any fun fi => decide (.unsafeIfImported ∈ fi.verdict)) &&
        decide (info.functions.get? callee = some callModule) then
      (.ok (!crossModule), st.markUnsafeIfImported call.func)
    else (.ok true, st)

/-- One effect of the loop of `check_call_body`; the answer is whether `ret` stays. -/
def runEffect (call : Call) (callModule : ModuleName) (crossModule : Bool) (eff : Effect)
    (st : AnalysisState) : Outcome :=
  if (SafetyError.fromEffect eff).isSome then (.ok false, st.markUnsafe call.func)
  else if eff.kind.isRunnable then
    let (argsOk, st) := info.checkArgs call eff st
    if call.stack.contains eff.name then (.ok false, st.markUnsafe call.func)
    else
      match info.runCall body call callModule crossModule eff st with
      | (.error e, st) => (.error e, st)
      | (.ok b, st) => (.ok (argsOk && b), st)
  else
    match eff.kind with
    | .importedVarMutation => (.ok false, st.markUnsafe call.func)
    | .globalVarAssign | .globalVarMutation =>
      let noMissingDepOrUnsafe := (st.safety call.func).all fun fi =>
        !decide (.unsafeMissingDep ∈ fi.verdict) && !decide (.hardUnsafe ∈ fi.verdict)
      (.ok (!(noMissingDepOrUnsafe && crossModule)), st.markUnsafeIfImported call.func)
    | _ => (.ok true, st)

end Dispatch

/-- What a recorded verdict answers for a call. -/
def verdictAnswer (verdict : FunctionSafety) (crossModule : Bool) : Bool :=
  if .hardUnsafe ∈ verdict ∨ .unsafeMissingDep ∈ verdict then false
  else if .unsafeIfImported ∈ verdict then !crossModule
  else true

/-- The effects of a body. -/
def effectsOf (func : ModuleName) : List Effect := (info.effectTable.get? func).getD []

/-- `check_call_body`. -/
def checkCallBody : Nat → Call → AnalysisState → Outcome
  | 0, _, st => (.error .outOfFuel, st)
  | fuel + 1, call, st =>
    match info.functions.get? call.func with
    | none => (.ok true, st)
    | some callModule =>
      let crossModule := decide (call.callerModule ≠ callModule)
      let st := if call.isModuleScope then info.checkCallParams call st else st
      let st := st.read call.func
      match st.safety call.func with
      | some fi => (.ok (verdictAnswer fi.verdict crossModule), st)
      | none =>
        match checkAll (info.runEffect (checkCallBody fuel) call callModule crossModule)
            (info.effectsOf call.func) st with
        | (.error e, st) => (.error e, st)
        | (.ok ret, st) =>
          (.ok ret, if (st.safety call.func).isNone then st.markSafe call.func else st)

/-- The effect names of the project, one for each effect. -/
def effectNames : List ModuleName :=
  (info.effectTable.entries.flatMap Prod.snd).map fun eff => eff.name

/-- The depth a walk may reach: the stack holds each effect name at most once. -/
def bodyFuel : Nat := info.effectNames.length + 2

end ProjectInfo

end Lifeguard
