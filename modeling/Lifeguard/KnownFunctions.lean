import Lifeguard.ManualOverride
import Lifeguard.ModuleEffects

/-!
# Functions that are known without their source

What the stubs say about a function (`stubs.rs`, `builtins.rs`, `known_functions.rs`). The
stubs are taken as they are once analyzed; one of them is that of `builtins`.
-/

namespace Lifeguard

open Lib

/-- `EffectKind::is_unsafe_stub_effect`. -/
def EffectKind.isUnsafeStubEffect : EffectKind → Bool
  | .unknownEffects | .markedUnsafe | .mutation => true
  | _ => false

/-- `scope_has_effect`. -/
def ModuleEffects.scopeHasEffect (self : ModuleEffects) (scope : ModuleName)
    (kind : EffectKind) : Bool :=
  (self.effectsIn scope).any fun eff => decide (eff.kind = kind)

/-- `ModuleName::builtins`. -/
def builtinsName : ModuleName := "builtins".toList

/-- `Stubs`: that of `builtins` is among them. -/
structure Stubs where
  modules : Table ModuleName AnalyzedModule
  builtins : AnalyzedModule
  get_builtins : modules.get? builtinsName = some builtins

namespace Stubs

variable (self : Stubs)

/-- `get`. -/
def get (key : ModuleName) : Option AnalyzedModule := self.modules.get? key

/-- `is_method_safe_in_builtins`: some builtin function has the name, and none that has it
mutates. -/
def isMethodSafeInBuiltins (method : Str) : Bool :=
  let scopes := self.builtins.definitions.paramNames.keys.filter fun func =>
    decide ((splitAttr func).map Prod.snd = some method)
  !scopes.isEmpty && scopes.all fun func => !self.builtins.moduleEffects.scopeHasEffect func .mutation

end Stubs

/-! ## Builtins -/

/-- `Builtins`. -/
structure Builtins where
  builtins : AnalyzedModule

/-- `Stubs::builtins`. -/
def Stubs.asBuiltins (self : Stubs) : Builtins := ⟨self.builtins⟩

namespace Builtins

variable (library : ParserLibrary) (self : Builtins)

/-- `contains`. -/
def contains (name : Str) : Bool := (self.builtins.definitions.get builtinsName name).isSome

/-- The `builtins` entry of a name. -/
def entry (name : Str) : ModuleName := library.append builtinsName name

/-- `is_class`. -/
def isClass (name : Str) : Bool := (self.builtins.classes.get? (entry library name)).isSome

/-- `unsafe_stub_effects`, of a scope. -/
def unsafeEffects (qname : ModuleName) : Bool :=
  (self.builtins.moduleEffects.effectsIn qname).any fun eff => eff.kind.isUnsafeStubEffect

/-- `is_prohibited_call`: by its own effects, or those of the methods a constructor call
runs. -/
def isProhibitedCall (name : Str) : Bool :=
  if self.isClass library name then
    self.unsafeEffects (appendStr (entry library name) "__new__".toList) ||
      self.unsafeEffects (appendStr (entry library name) "__init__".toList)
  else self.unsafeEffects (entry library name)

/-- `qualified_name`: the entry a call target names. -/
def qualifiedName : Expr → Option ModuleName
  | .name id _ _ => some (entry library id)
  | .attribute (.name base _ _) attr _ _ _ =>
    if self.isClass library base then some (library.append (entry library base) attr) else none
  | _ => none

/-- `declaring_method`: the method of the class, or else that of `object`. -/
def declaringMethod (qname : ModuleName) : Option ModuleName :=
  (splitAttr qname).bind fun p =>
    if (self.builtins.definitions.get p.1 p.2).isSome then some qname
    else
      let object := appendStr builtinsName "object".toList
      (self.builtins.definitions.get object p.2).map fun _ => library.append object p.2

/-- `call_effect`. -/
def callEffect (func : Expr) : Option Effect :=
  (self.qualifiedName library func).bind fun qname =>
    let prohibited :=
      match func.asVarName with
      | some name => self.isProhibitedCall library name
      | none => (self.declaringMethod library qname).any self.unsafeEffects
    if prohibited then some { kind := .prohibitedFunctionCall, name := qname, range := func.range }
    else none

/-- `is_known_builtin`. -/
def isKnownBuiltin (func : Expr) : Bool :=
  match func.asVarName with
  | some name => self.contains name || self.isProhibitedCall library name
  | none => (self.qualifiedName library func).any fun qname =>
      (self.declaringMethod library qname).isSome

end Builtins

end Lifeguard
