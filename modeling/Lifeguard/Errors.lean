import Lifeguard.Effects

/-!
# Safety errors

The error a call, an access or an assignment at import time is reported as
(`errors.rs`). An error's identity is the fields a cache carries, so its range is
no part of `SafetyError.key`.
-/

namespace Lifeguard

/-- `ErrorKind`, in declaration order. -/
inductive ErrorKind
  | unsafeDecoratorCall
  | unsafeFunctionCall
  | unsafeMethodCall
  | prohibitedCall
  | unknownDecoratorCall
  | unknownFunctionCall
  | unknownMethodCall
  | unknownObject
  | unhandledException
  | customFinalizer
  | execCall
  | sysModulesAccess
  | subclassesAccess
  | importedModuleAssignment
  | importedVarArgument
  | unknownEffects
  | tooManyArgs
  | builtinsImportOverride
  | namesOnlyInStub
  | subclassRegistration
  deriving DecidableEq, Repr

/-- `could_be_caused_by_missing_import`: the kinds the reduce may clear. -/
def ErrorKind.couldBeCausedByMissingImport : ErrorKind → Bool
  | .unknownFunctionCall | .unknownMethodCall | .unknownDecoratorCall | .unknownObject
  | .unsafeFunctionCall | .unsafeMethodCall | .unsafeDecoratorCall => true
  | _ => false

/-- The `Unknown*` kinds: the callee was bound to nothing. -/
def ErrorKind.isUnknown : ErrorKind → Bool
  | .unknownFunctionCall | .unknownMethodCall | .unknownDecoratorCall
  | .unknownObject => true
  | _ => false

/-- `SafetyError`. -/
structure SafetyError where
  kind : ErrorKind
  metadata : Str
  range : TextRange := {}
  parameterizedDecorator : Bool := false
  fromMainGuard : Bool := false
  deriving DecidableEq, Repr

namespace SafetyError

/-- The fields `SafetyError::cmp` compares. -/
def key (e : SafetyError) : ErrorKind × Str × Bool × Bool :=
  (e.kind, e.metadata, e.parameterizedDecorator, e.fromMainGuard)

/-- `is_decorator_call`. -/
def isDecoratorCall (e : SafetyError) : Bool :=
  decide (e.kind = .unsafeDecoratorCall) || decide (e.kind = .unknownDecoratorCall)

/-- `SafetyError::from_main_guard`. -/
def markMainGuard (e : SafetyError) : SafetyError := { e with fromMainGuard := true }

/-- `error_kind_for`: the error an effect reports as by itself. -/
def errorKindFor : EffectKind → Option ErrorKind
  | .prohibitedFunctionCall => some .prohibitedCall
  | .unknownFunctionCall => some .unknownFunctionCall
  | .raise => some .unhandledException
  | .customFinalizer => some .customFinalizer
  | .execCall => some .execCall
  | .sysModulesAccess => some .sysModulesAccess
  | .subclassesAccess => some .subclassesAccess
  | .builtinsImportOverride => some .builtinsImportOverride
  | .unknownDecoratorCall => some .unknownDecoratorCall
  | .unknownEffects => some .unknownEffects
  | .unknownObject => some .unknownObject
  | .markedUnsafe => some .unsafeFunctionCall
  | .tooManyArgs => some .tooManyArgs
  | _ => none

end SafetyError

/-- `is_parameterized_decorator_effect`: a decorator applied as a call. -/
def isParameterizedDecoratorEffect (eff : Effect) : Bool :=
  (decide (eff.kind = .decoratorCall) || decide (eff.kind = .importedDecoratorCall)) &&
    eff.callData.isSome

namespace SafetyError

/-- `new_from_effect`. -/
def newFromEffect (kind : ErrorKind) (eff : Effect) : SafetyError where
  kind := kind
  metadata := eff.name
  range := eff.range
  parameterizedDecorator := isParameterizedDecoratorEffect eff
  fromMainGuard := eff.fromMainGuard

/-- `from_effect`. -/
def fromEffect (eff : Effect) : Option SafetyError :=
  (errorKindFor eff.kind).map fun kind => newFromEffect kind eff

/-- `from_unsafe_call`; `none` is the source's "unexpected call effect". -/
def fromUnsafeCall (eff : Effect) : Option SafetyError :=
  match eff.kind with
  | .decoratorCall | .importedDecoratorCall =>
    some (newFromEffect .unsafeDecoratorCall eff)
  | .functionCall | .importedFunctionCall | .classCreation =>
    some (newFromEffect .unsafeFunctionCall eff)
  | .methodCall | .unboundMethodCall | .superMethodCall | .importedTypeAttr =>
    some (newFromEffect .unsafeMethodCall eff)
  | _ => none

end SafetyError

/-- A runnable effect is never an error by itself: it is one only if its callee is. -/
theorem fromEffect_of_runnable {eff : Effect} (h : eff.kind.isRunnable = true) :
    SafetyError.fromEffect eff = none := by
  unfold SafetyError.fromEffect
  cases hk : eff.kind <;> simp_all [EffectKind.isRunnable, SafetyError.errorKindFor]

end Lifeguard
