import Lifeguard.Constructors
import Lifeguard.Effects
import Lifeguard.ManualOverride
import Lifeguard.Mro
import Mathlib.Data.List.Dedup

/-!
# Project facts and dispatch

The immutable facts of one analysis pass (`project/info.rs`, `class.rs`) and the
resolution of a call to the functions it runs (`project/dispatch.rs`):

- `resolveCallable`: a written name to a function or class, through the methods table,
  a re-export or the base classes;
- `constructorMethodNames`: the methods a constructor call checks;
- `metaclassCreationCallees`, `resolveDispatchAbove`: what a class statement and a
  `super()` call run;
- `resolveConstructorCallees`: the constructor record a cache carries.

Of `analysis_map` the model keeps the parameter names of each module's definitions, the
only part the modelled functions read.
-/

namespace Lifeguard

open Lib

/-! ## Classes -/

/-- `FieldKind`. -/
inductive FieldKind
  | instanceVar
  | classVar
  | instanceMethod
  | classMethod
  | staticMethod
  | property
  | propertySetter
  deriving DecidableEq, Repr

/-- `Field`. -/
structure Field where
  kind : FieldKind
  name : Str
  deriving DecidableEq, Repr

/-- `Class`. -/
structure Class where
  bases : List ModuleName := []
  metaclass : Option ModuleName := none
  fields : List Field := []
  deriving DecidableEq, Repr

/-- `Class::get_field`. -/
def Class.getField (cls : Class) (name : Str) : Option Field :=
  cls.fields.find? fun f => decide (f.name = name)

/-- `ClassTable`. -/
abbrev ClassTable := Table ModuleName Class

/-- `contains_key`: the table holds an entry for the name. -/
def hasKey {α : Type} (t : Table ModuleName α) (name : ModuleName) : Bool :=
  (t.get? name).isSome

/-! ## Project facts -/

/-- `ProjectInfo`. -/
structure ProjectInfo where
  /-- `analysis_map`: of each module, the parameter names of its functions. -/
  paramNames : Table ModuleName (Table ModuleName (List Str)) := Table.empty
  effectTable : Table ModuleName (List Effect) := Table.empty
  classes : ClassTable := Table.empty
  classBases : ClassBases := Table.empty
  /-- Mappings of functions to the containing module. -/
  functions : Table ModuleName ModuleName := Table.empty
  reExports : Table ModuleName ModuleName := Table.empty
  /-- Mapping of all methods called on imported objects. -/
  methods : Table ModuleName ModuleName := Table.empty
  nestedFunctions : Table ModuleName (List ModuleName) := Table.empty
  mutatedParams : Table ModuleName (List ModuleName) := Table.empty

/-- The metaclass a class declares. -/
def declaredMetaclass (classes : ClassTable) (cls : ModuleName) : Option ModuleName :=
  (classes.get? cls).bind fun c => c.metaclass

/-- `constructor_method_names`: the constructor methods on the metaclass, if the class
has one, then on the class itself. -/
def constructorMethodNames (clsName : ModuleName) (classes : ClassTable) :
    List ModuleName :=
  ((declaredMetaclass classes clsName).toList.flatMap fun mcls =>
    constructorMethods.map fun method => appendStr mcls method) ++
  constructorMethods.map fun method => appendStr clsName method

/-- `method_receiver_offset`: the number of implicit leading parameters. -/
def methodReceiverOffset (method : ModuleName) (classes : ClassTable) (bound : Bool) :
    Option Nat :=
  (splitAttr method).bind fun p =>
    (classes.get? p.1).bind fun c =>
      (c.getField p.2).bind fun field =>
        match field.kind with
        | .staticMethod => some 0
        | .classMethod => some 1
        | .instanceMethod => some (if bound then 1 else 0)
        | _ => none

/-- `iter_callees`: the functions whose parameters a call's arguments bind to, each with
the number of implicit leading parameters. -/
def iterCallees (eff : Effect) (classes : ClassTable) : List (ModuleName × Nat) :=
  let isMethod := decide (eff.kind = .methodCall) || decide (eff.kind = .unboundMethodCall) ||
    decide (eff.kind = .superMethodCall)
  if !isMethod && hasKey classes eff.name then
    (constructorMethodNames eff.name classes).map fun method => (method, 1)
  else
    match eff.kind with
    | .methodCall | .superMethodCall =>
      [(eff.name, (methodReceiverOffset eff.name classes true).getD 1)]
    | .unboundMethodCall =>
      match methodReceiverOffset eff.name classes false with
      | some offset => [(eff.name, offset)]
      | none => [(eff.name, 0), (eff.name, 1)]
    | _ => [(eff.name, 0)]

namespace ProjectInfo

variable (info : ProjectInfo)

/-! ## Resolution -/

/-- The name is that of a function or a class of the project. -/
def isNode (name : ModuleName) : Bool :=
  hasKey info.functions name || hasKey info.classes name

/-- The name a method call on an imported object goes by. -/
def callName (name : ModuleName) : ModuleName := (info.methods.get? name).getD name

/-- `contains_callable`. -/
def containsCallable (name : ModuleName) : Bool :=
  if info.isNode name then true
  else if info.isNode (info.callName name) then true
  else hasKey info.reExports (info.callName name)

/-- `resolve_inherited`: the nearest ancestor's definition, skipping the class's own. -/
def resolveInherited (cls : ModuleName) (method : Str) : Option ModuleName :=
  if !hasKey info.classBases cls then none
  else
    ((c3Linearize info.classBases cls).tail.map fun base => appendStr base method).find?
      info.containsCallable

/-- `resolve_callable`. -/
def resolveCallable (name : ModuleName) : Option ModuleName :=
  if info.isNode name then some name
  else if info.isNode (info.callName name) then some (info.callName name)
  else
    match info.reExports.get? (info.callName name) with
    | some target => some target
    | none =>
      (splitAttr name).bind fun p =>
        if !hasKey info.classes p.1 then none else info.resolveInherited p.1 p.2

/-- `resolve_dispatch_above`: the definition a dispatch above the name's class runs. -/
def resolveDispatchAbove (name : ModuleName) : Option ModuleName :=
  (splitAttr name).bind fun p => info.resolveInherited p.1 p.2

/-! ## Class statements -/

/-- `creation_metaclass`: the first metaclass declared along the MRO. -/
def creationMetaclass (cls : ModuleName) : Option ModuleName :=
  if !hasKey info.classBases cls then declaredMetaclass info.classes cls
  else (c3Linearize info.classBases cls).findSome? (declaredMetaclass info.classes)

/-- `METACLASS_CREATION_METHODS`. -/
def metaclassCreationMethods : List Str := ["__new__".toList, "__init__".toList]

/-- `metaclass_creation_callees`: the metaclass methods a class statement runs. -/
def metaclassCreationCallees (name : ModuleName) : List ModuleName :=
  match splitAttr name with
  | none => []
  | some p =>
    (info.creationMetaclass p.1).toList.flatMap fun metaclass =>
      metaclassCreationMethods.filterMap fun method =>
        info.resolveCallable (appendStr metaclass method)

/-! ## Constructors -/

/-- `constructor_methods`. -/
def constructorMethodsOf (clsName : ModuleName) : List ModuleName :=
  constructorMethodNames clsName info.classes

/-- `inherited_constructor_callees`: the constructor callees the mask cannot name. -/
def inheritedConstructorCallees (clsName : ModuleName) : List ModuleName :=
  constructorMethods.filterMap fun method =>
    (info.resolveCallable (appendStr clsName method)).bind fun resolved =>
      if resolved ≠ appendStr clsName method then some resolved else none

/-- `resolve_constructor_callees`. -/
def resolveConstructorCallees (clsName : ModuleName) : ConstructorCallees :=
  let metaclass := declaredMetaclass info.classes clsName
  let metaclassMask :=
    match metaclass with
    | none => 0
    | some mcls => constructorMaskBits mcls 0 constructorMethods info.containsCallable
  let ownMask :=
    constructorMaskBits clsName constructorMethods.length constructorMethods
      info.containsCallable
  { metaclass := if metaclassMask ≠ 0 then metaclass else none
    mask := metaclassMask ||| ownMask
    extra := info.inheritedConstructorCallees clsName }

/-- `call_graph_target`: the callee a call effect dispatches to. -/
def callGraphTarget (eff : Effect) : Option ModuleName :=
  match eff.kind with
  | .superMethodCall | .classCreation => info.resolveDispatchAbove eff.name
  | _ => if info.isNode eff.name then some eff.name else info.resolveCallable eff.name

/-! ## What resolution answers -/

variable {info}

theorem resolveCallable_of_isNode {name : ModuleName} (h : info.isNode name = true) :
    info.resolveCallable name = some name := by
  rw [resolveCallable, if_pos h]

/-- Whatever the project contains as a callable resolves. -/
theorem resolveCallable_isSome {name : ModuleName} (h : info.containsCallable name = true) :
    (info.resolveCallable name).isSome := by
  unfold containsCallable at h
  unfold resolveCallable
  split at h
  · next hnode =>
    rw [if_pos hnode]
    rfl
  · next hnode =>
    rw [if_neg hnode]
    split at h
    · next hcall =>
      rw [if_pos hcall]
      rfl
    · next hcall =>
      rw [if_neg hcall]
      cases hre : info.reExports.get? (info.callName name) with
      | some target => rfl
      | none =>
        rw [hasKey, hre] at h
        cases h

theorem containsCallable_of_isNode {name : ModuleName} (h : info.isNode name = true) :
    info.containsCallable name = true := by
  rw [containsCallable, if_pos h]

/-- The graph target of a plain call is what the call resolves to. -/
theorem callGraphTarget_of_plain {eff : Effect} (hsuper : eff.kind ≠ .superMethodCall)
    (hcreation : eff.kind ≠ .classCreation) :
    info.callGraphTarget eff = info.resolveCallable eff.name := by
  unfold callGraphTarget
  split
  · next h => exact absurd h hsuper
  · next h => exact absurd h hcreation
  · split
    · next hnode => rw [resolveCallable_of_isNode hnode]
    · rfl

end ProjectInfo

end Lifeguard
