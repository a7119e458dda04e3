import Lifeguard.Constructors
import Lifeguard.ModuleSafety
import Lifeguard.Mro

/-!
# Answering "is this callee safe?"

The resolver the reduce clears errors with (`safety_resolver.rs`), over one module set
and one map of verdicts. A qualified name is split at its longest module prefix and
answered by its own entry, or by the nearest inherited definition; a bare name is
answered by the safe-name index, or by a scan of the modules; a call of a class with a
constructor record is answered by the recorded callees.

The memo of unqualified decorator lookups is left out: it is keyed to one module set and
one map of verdicts, so it answers what the scan answers.
-/

namespace Lifeguard

open Lib

/-- `split_at_module_in`. -/
def splitAtModuleIn (modules : Finset ModuleName) (funcName : Str) :
    Option (ModuleName × Str) :=
  enclosingModule funcName fun m => decide (m ∈ modules)

/-- `str::rsplit_once('.')`. -/
def rsplitOnce (s : Str) : Option (Str × Str) := splitAttr s

/-- `lookup_in_safety_map`. -/
def lookupInSafetyMap (localName : Str) (fs : ModuleVerdicts) : Bool :=
  (fs.get? localName).any fun info => FunctionSafety.isSafe info.verdict

/-- `is_class_like_entry`: the name has a cached constructor method. -/
def isClassLikeEntry (localName : Str) (fs : ModuleVerdicts) : Bool :=
  constructorMethods.any fun method => (fs.get? (appendStr localName method)).isSome

/-- What `strip_prefix` leaves of `name` past `localName` and a dot. -/
def stripLocal (localName name : Str) : Option Str :=
  if (appendStr localName []).isPrefixOf name then some (name.drop (localName.length + 1))
  else none

/-- `is_immediate_child`: a name exactly one level below `localName`. -/
def isImmediateChild (localName name : Str) : Bool :=
  (stripLocal localName name).any fun child => !child.contains '.'

/-- `lookup_decorator_in_safety_map`: the factory is safe and so is each immediate
nested function, unless the name is a class. -/
def lookupDecoratorInSafetyMap (localName : Str) (fs : ModuleVerdicts) : Bool :=
  if !lookupInSafetyMap localName fs then false
  else if isClassLikeEntry localName fs then true
  else
    fs.entries.all fun e =>
      !isImmediateChild localName e.1 || FunctionSafety.isSafe e.2.verdict

/-- Class FQN to its recorded constructor callees. -/
abbrev ConstructorTable := Table ModuleName ConstructorCallees

/-- `SafetyResolver`. -/
structure SafetyResolver where
  modules : Finset ModuleName
  byModule : FunctionSafetyMap
  /-- The safe-name index; without it an unqualified name scans `modules`. -/
  globallySafe : Option (Finset Str) := none
  classBases : Option ClassBases := none
  constructorCallees : Option ConstructorTable := none
  /-- Every module in the merge, used only to resolve MRO ancestors. -/
  mroModules : Option (Finset ModuleName) := none

namespace SafetyResolver

/-- `split_at_module`. -/
def splitAtModule (self : SafetyResolver) (funcName : Str) : Option (ModuleName × Str) :=
  splitAtModuleIn self.modules funcName

/-- `own_verdict`. -/
def ownVerdict (self : SafetyResolver) (m : ModuleName) (localName : Str) :
    Option FunctionSafety :=
  (getFunctionSafety self.byModule m localName).map fun info => info.verdict

/-- `mro_method_verdict`: the verdict of the nearest ancestor that defines the method;
the class itself is skipped. -/
def mroMethodVerdict (self : SafetyResolver) (m : ModuleName) (localName : Str) :
    Option FunctionSafety :=
  self.classBases.bind fun classBases =>
    (rsplitOnce localName).bind fun (classLocal, method) =>
      let classFqn := appendStr m classLocal
      let ancestorModules := self.mroModules.getD self.modules
      ((c3Linearize classBases classFqn).drop 1).findSome? fun ancestor =>
        (splitAtModuleIn ancestorModules (appendStr ancestor method)).bind
          fun (bmod, blocal) => self.ownVerdict bmod blocal

/-- `unqualified_safe`: the index when present, else a scan of `modules`. -/
def unqualifiedSafe (self : SafetyResolver) (funcName : Str) : Bool :=
  match self.globallySafe with
  | some index => decide (funcName ∈ index)
  | none =>
    decide (∃ m ∈ self.modules,
      (getFunctionSafety self.byModule m funcName).any
        fun info => FunctionSafety.isSafe info.verdict)

/-- `qualified_safe`: the own entry, or else the nearest inherited definition. -/
def qualifiedSafe (self : SafetyResolver) (m : ModuleName) (localName : Str) : Bool :=
  match self.ownVerdict m localName with
  | some verdict => FunctionSafety.isSafe verdict
  | none =>
    (self.mroMethodVerdict m localName).any fun verdict => FunctionSafety.isSafe verdict

/-- `is_call_verified_safe`. -/
def isCallVerifiedSafe (self : SafetyResolver) (funcName : Str) : Bool :=
  match self.splitAtModule funcName with
  | some (m, localName) => self.qualifiedSafe m localName
  | none => self.unqualifiedSafe funcName

/-- `is_call_verified_safe_no_unqualified`. -/
def isCallVerifiedSafeNoUnqualified (self : SafetyResolver) (funcName : Str) : Bool :=
  (self.splitAtModule funcName).any fun (m, localName) => self.qualifiedSafe m localName

/-- `decorator_safe_in`. -/
def decoratorSafeIn (self : SafetyResolver) (m : ModuleName) (localName : Str) : Bool :=
  (self.byModule.get? m).any fun fs => lookupDecoratorInSafetyMap localName fs

/-- `is_decorator_call_verified_safe_no_unqualified`. -/
def isDecoratorCallVerifiedSafeNoUnqualified (self : SafetyResolver) (funcName : Str) :
    Bool :=
  (self.splitAtModule funcName).any fun (m, localName) => self.decoratorSafeIn m localName

/-- `scan_unqualified_decorator_safe`. -/
def scanUnqualifiedDecoratorSafe (self : SafetyResolver) (funcName : Str) : Bool :=
  decide (∃ m ∈ self.modules, self.decoratorSafeIn m funcName)

/-- `is_decorator_call_verified_safe`. -/
def isDecoratorCallVerifiedSafe (self : SafetyResolver) (funcName : Str) : Bool :=
  match self.splitAtModule funcName with
  | some (m, localName) => self.decoratorSafeIn m localName
  | none => self.scanUnqualifiedDecoratorSafe funcName

/-- `callee_verdict`: a recorded callee that no longer resolves counts as `Unsafe`. -/
def calleeVerdict (self : SafetyResolver) (owner : ModuleName) (method : Str) :
    FunctionSafety :=
  ((self.splitAtModule owner).bind fun (m, localName) =>
    self.ownVerdict m (appendStr localName method)).getD {.hardUnsafe}

/-- `recorded_callee_verdict`. -/
def recordedCalleeVerdict (self : SafetyResolver) (callee : ModuleName) : FunctionSafety :=
  ((self.splitAtModule callee).bind fun (m, localName) =>
    self.ownVerdict m localName).getD {.hardUnsafe}

/-- `callee_verdict_clears`: `UnsafeIfImported` clears only for the module that defines
the callee. -/
def calleeVerdictClears (self : SafetyResolver) (verdict : FunctionSafety)
    (callerModule calleeOwner : ModuleName) : Bool :=
  if verdict = ∅ then true
  else
    decide (verdict = {.unsafeIfImported}) &&
      (self.splitAtModule calleeOwner).any fun (defining, _) =>
        decide (defining = callerModule)

/-- The recorded callees of a class, each as its owner and its verdict. -/
def recordedVerdicts (self : SafetyResolver) (classFqn : ModuleName)
    (recorded : ConstructorCallees) : List (ModuleName × FunctionSafety) :=
  ((recorded.iter classFqn).map fun (owner, method) =>
    (owner, self.calleeVerdict owner method)) ++
  recorded.extra.map fun callee => (callee, self.recordedCalleeVerdict callee)

/-- `recorded_constructor_clears_all`: `none` when no record applies, or when one names
no callee. -/
def recordedConstructorClearsAll (self : SafetyResolver)
    (classFqn callerModule : ModuleName) : Option Bool :=
  (self.constructorCallees.bind fun table => table.get? classFqn).bind fun recorded =>
    if recorded.isEmpty then none
    else
      some ((self.recordedVerdicts classFqn recorded).all fun (owner, verdict) =>
        self.calleeVerdictClears verdict callerModule owner)

/-- `recorded_constructor_clears`. -/
def recordedConstructorClears (self : SafetyResolver) (caller : ModuleName)
    (error : SafetyError) : Option Bool :=
  match error.kind with
  | .unsafeFunctionCall | .unknownFunctionCall | .unsafeDecoratorCall
  | .unknownDecoratorCall =>
    self.recordedConstructorClearsAll (trimCalls error.metadata) caller
  | _ => none

/-- `is_error_verified_safe`: the check the error's kind and call form pick. -/
def isErrorVerifiedSafe (self : SafetyResolver) (error : SafetyError) : Bool :=
  let funcName := trimCalls error.metadata
  let parameterizedDecorator := error.parameterizedDecorator && error.isDecoratorCall
  match error.kind, parameterizedDecorator with
  | .unknownDecoratorCall, true => self.isDecoratorCallVerifiedSafeNoUnqualified funcName
  | _, true => self.isDecoratorCallVerifiedSafe funcName
  | .unknownFunctionCall, false | .unknownMethodCall, false
  | .unknownDecoratorCall, false | .unknownObject, false =>
    self.isCallVerifiedSafeNoUnqualified funcName
  | _, false => self.isCallVerifiedSafe funcName

/-- How both clearing passes ask: the recorded constructor callees decide when there is
a record, and the verified-safe check otherwise. -/
def clears (self : SafetyResolver) (caller : ModuleName) (error : SafetyError) : Bool :=
  match self.recordedConstructorClears caller error with
  | some cleared => cleared
  | none => self.isErrorVerifiedSafe error

end SafetyResolver

end Lifeguard
