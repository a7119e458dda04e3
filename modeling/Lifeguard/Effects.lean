import Lifeguard.Names
import Mathlib.Data.BitVec

/-!
# Effects

What running a scope may do, one `Effect` for each occurrence, and the data a call
effect carries about its arguments (`effects.rs`). `ImportedArgs.hitsParam` decides
whether an imported argument of a call reaches a parameter of the callee; the
resolution of mutation candidates rests on it.
-/

namespace Lifeguard

/-- `TextRange`: a half-open range of source offsets. -/
structure TextRange where
  start : Nat := 0
  stop : Nat := 0
  deriving DecidableEq, Repr, Inhabited

/-- `EffectKind`. -/
inductive EffectKind
  | globalVarAssign
  | classVarAssign
  | globalVarMutation
  | decoratorCall
  | importedDecoratorCall
  | implicitImport
  | importedVarMutation
  | importedFunctionCall
  | importedTypeAttr
  | unconfirmedTypeAttr
  | methodCall
  | unboundMethodCall
  | superMethodCall
  | paramMethodCall
  | functionCall
  | classCreation
  | prohibitedFunctionCall
  | unknownDecoratorCall
  | unknownFunctionCall
  | unknownMethodCall
  | unknownValueBinaryOp
  | unknownObject
  | raise
  | setAttr
  | setSubscript
  | customFinalizer
  | execCall
  | sysModulesAccess
  | subclassesAccess
  | builtinsImportOverride
  | importedVarArgument
  | importedVarReassignment
  | noEffects
  | unknownEffects
  /-- `EffectKind::Unsafe`, the stub annotation. -/
  | markedUnsafe
  | mutation
  | dunder
  | tooManyArgs
  deriving DecidableEq, Repr

/-- `EffectKind::is_runnable`: a call whose body can be run for its own effects. -/
def EffectKind.isRunnable : EffectKind → Bool
  | .functionCall | .importedFunctionCall | .classCreation | .decoratorCall
  | .importedDecoratorCall | .methodCall | .unboundMethodCall
  | .superMethodCall => true
  | _ => false

/-- `ParamPosition`: how a mutated parameter is matched against a call's arguments. -/
inductive ParamPosition
  | positional (idx : Nat)
  | keywordOnly
  | unresolved
  deriving DecidableEq, Repr

/-- `MAX_ARGS`: positional arguments tracked precisely. -/
def maxArgs : Nat := 64

/-- `ImportedArgs`: the arguments of a call that carry an imported variable. -/
structure ImportedArgs where
  unsafeArgIndices : BitVec 64 := 0
  unsafeKeywordNames : List ModuleName := []
  hasUnsafeKwargsExpansion : Bool := false
  unsafeArgsExpansionMin : Option Nat := none
  deriving DecidableEq, Repr, Inhabited

namespace ImportedArgs

/-- `has_unsafe_arg_index`. -/
def hasUnsafeArgIndex (a : ImportedArgs) (idx : Nat) : Bool :=
  a.unsafeArgsExpansionMin.any (fun lo => decide (lo ≤ idx)) ||
    (decide (idx < maxArgs) && a.unsafeArgIndices.getLsbD idx)

/-- `has_unsafe_keywords`. -/
def hasUnsafeKeywords (a : ImportedArgs) : Bool :=
  !a.unsafeKeywordNames.isEmpty || a.hasUnsafeKwargsExpansion

/-- `has_unsafe_keyword`. -/
def hasUnsafeKeyword (a : ImportedArgs) (name : Str) : Bool :=
  a.hasUnsafeKwargsExpansion || a.unsafeKeywordNames.any (fun kw => decide (kw = name))

/-- `has_precise_keyword_tracking`. -/
def hasPreciseKeywordTracking (a : ImportedArgs) : Bool :=
  !a.hasUnsafeKwargsExpansion

/-- `has_precise_arg_tracking`. -/
def hasPreciseArgTracking (a : ImportedArgs) : Bool :=
  a.unsafeArgsExpansionMin.isNone

/-- `has_any_tracked_args`. -/
def hasAnyTrackedArgs (a : ImportedArgs) : Bool :=
  decide (a.unsafeArgIndices ≠ 0) || !a.unsafeKeywordNames.isEmpty ||
    a.hasUnsafeKwargsExpansion || a.unsafeArgsExpansionMin.isSome

/-- The argument slot a positional parameter takes once the receiver is skipped. -/
def resolvedIdx (position : ParamPosition) (argOffset : Nat) : Option Nat :=
  match position with
  | .positional idx => if argOffset ≤ idx then some (idx - argOffset) else none
  | _ => none

/-- `hits_param`: an imported argument reaches the parameter. -/
def hitsParam (a : ImportedArgs) (paramName : Str) (position : ParamPosition)
    (argOffset : Nat) : Bool :=
  if position = .unresolved then a.hasAnyTrackedArgs
  else if (resolvedIdx position argOffset).any a.hasUnsafeArgIndex then true
  else if a.hasUnsafeKeyword paramName then true
  else if a.hasUnsafeKeywords && a.hasPreciseKeywordTracking && a.hasPreciseArgTracking then
    false
  else
    ((resolvedIdx position argOffset).isNone && !a.hasPreciseArgTracking) ||
      !a.hasAnyTrackedArgs

/-- `hits_any_param`. -/
def hitsAnyParam (a : ImportedArgs) (params : List (Str × ParamPosition))
    (argOffset : Nat) : Bool :=
  params.any fun p => a.hitsParam p.1 p.2 argOffset

end ImportedArgs

/-- `ArgSlot`: the slot a forwarded parameter is passed into. -/
inductive ArgSlot
  | positional (idx : Nat)
  | keyword (name : ModuleName)
  | starExpansion (start : Nat)
  deriving DecidableEq, Repr

/-- `CallData`. -/
structure CallData where
  hasUnsafeArgs : Bool := false
  importedArgs : ImportedArgs := {}
  forwardedParams : List (ArgSlot × ModuleName) := []
  deriving DecidableEq, Repr

/-- `EffectData`. -/
inductive EffectData
  | none
  | call (data : CallData)
  deriving DecidableEq, Repr

/-- `TryHandler`, of `exceptions.rs`. -/
inductive TryHandler
  | bare
  | single (name : ModuleName)
  | multiple (names : List ModuleName)
  deriving DecidableEq, Repr

/-- `Effect`. -/
structure Effect where
  kind : EffectKind
  name : ModuleName
  range : TextRange := {}
  data : EffectData := .none
  /-- The handlers around a runnable effect in the body of a `try`. -/
  tryHandlers : Option (List TryHandler) := none
  fromMainGuard : Bool := false
  deriving DecidableEq, Repr

/-- `Effect::with_try_handlers`. -/
def Effect.withTryHandlers (eff : Effect) (tryHandlers : List TryHandler) : Effect :=
  if tryHandlers.isEmpty then eff else { eff with tryHandlers := some tryHandlers }

/-- `Effect::call_data`. -/
def Effect.callData (eff : Effect) : Option CallData :=
  match eff.data with
  | .call data => some data
  | .none => none

end Lifeguard
