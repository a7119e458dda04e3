import Lifeguard.ModuleInfo
import Lifeguard.StarExports

/-!
# Aliases and bindings

What the names of a scope stand for (`bindings.rs`): an alias of a module, a class or another
name, and the type of the value a name is bound to. Both tables are built by a walk over all
the statements, in their order, and what is known of a name is what the last statement that
says something about it says.

- `resolveAlias`: a chain of aliases to its end;
- `AliasTable.resolveQualifiedGlobalAlias`: a dotted name through the alias of its first part;
- `BindingsTable.make`: the tables of a module.
-/

namespace Lifeguard

open Lib

/-- `Value`: what a name is bound to. -/
inductive Value
  | unknown
  | imported (name : ModuleName)
  | classOf (name : ModuleName)
  | function (name : ModuleName)
  | instanceOf (type : ModuleName)
  | variable (name : ModuleName)
  | unconfirmedInstance (type : ModuleName)
  deriving DecidableEq, Repr

namespace Value

/-- `is_unknown`. -/
def isUnknown (v : Value) : Bool := decide (v = unknown)

/-- `is_none_type`. -/
def isNoneType (v : Value) : Bool := decide (v = instanceOf "builtins.NoneType".toList)

/-- `as_module_name`. -/
def asModuleName : Value → Option ModuleName
  | .imported m | .classOf m | .function m | .instanceOf m | .variable m => some m
  | .unknown | .unconfirmedInstance _ => none

end Value

/-- `Alias`. -/
inductive Alias
  | global (value : Value)
  | localName (scope : ModuleName) (name : Str)
  deriving DecidableEq, Repr

/-- A table for the names of each scope. -/
abbrev ScopedTable (α : Type) := Table ModuleName (Table Str α)

/-- `get_nested`. -/
def getNested {α : Type} (map : ScopedTable α) (scope : ModuleName) (name : Str) : Option α :=
  (map.get? scope).bind fun names => names.get? name

/-- Store what is known of a name of a scope. -/
def insertNested {α : Type} (map : ScopedTable α) (scope : ModuleName) (name : Str) (a : α) :
    ScopedTable α :=
  map.upsert scope (fun names => names.insert name a) (Table.empty.insert name a)

/-- `MAX_HOPS`, of `resolve_alias`. -/
def maxHops : Nat := 32

/-- The walk of `resolve_alias`, from a name, with those visited and the last alias met. -/
def resolveAliasFrom (aliases : ScopedTable Alias) : Nat → List (ModuleName × Str) →
    ModuleName → Str → Option Alias → Option Alias
  | 0, _, _, _, last => last
  | hops + 1, visited, scope, name, last =>
    if (scope, name) ∈ visited then last
    else
      match getNested aliases scope name with
      | none => last
      | some (.localName s n) =>
        resolveAliasFrom aliases hops ((scope, name) :: visited) s n (some (.localName s n))
      | some (.global value) => some (.global value)

/-- `resolve_alias`. -/
def resolveAlias (aliases : ScopedTable Alias) (scope : ModuleName) (name : Str) :
    Option Alias :=
  resolveAliasFrom aliases maxHops [] scope name none

/-! ## Exports -/

/-- `Exports`, with what the re-exports and the functions carry besides. -/
structure ModuleExports extends Exports where
  /-- Where each re-export is written. -/
  reExportRanges : Table Attribute TextRange := Table.empty
  returnTypes : Table ModuleName ModuleName := Table.empty

/-- `Attribute::from_module_name`. -/
def fromModuleName (name : ModuleName) : Attribute := (splitAttr name).getD ([], name)

namespace ModuleExports

variable (self : ModuleExports)

/-- `resolve_imported_name`. -/
def resolveImportedName (name : Attribute) : Option Attribute := self.reExports.get? name

/-- `get_re_export`. -/
def getReExport (name : Attribute) : Option (Attribute × TextRange) :=
  (self.reExports.get? name).map fun imported =>
    (imported, (self.reExportRanges.get? name).getD {})

/-- `is_re_export`. -/
def isReExport (name : Attribute) : Bool := (self.getReExport name).isSome

/-- `get_all`. -/
def getAll (m : ModuleName) : Option (List Str) := self.all.get? m

/-- `resolve_transitive`. -/
def resolveTransitive (name : Attribute) : Option Attribute :=
  Lifeguard.resolveTransitive self.reExports name

/-- A name, or else what it is a re-export of, has the property. -/
def holdsOf (P : ModuleName → Bool) (name : ModuleName) : Bool :=
  P name || (self.resolveTransitive (fromModuleName name)).any fun x => P (asModuleName x)

/-- `is_class`. -/
def isClass (name : ModuleName) : Bool :=
  self.holdsOf (fun n => decide (self.exports.get? n = some .classType)) name

/-- `is_known_symbol`. -/
def isKnownSymbol (name : ModuleName) : Bool :=
  self.holdsOf (fun n => (self.exports.get? n).isSome) name

/-- `is_function`. -/
def isFunction (name : ModuleName) : Bool := decide (self.exports.get? name = some .function)

/-- `resolve_return_class`. -/
def resolveReturnClass (func : ModuleName) : Option ModuleName :=
  ((self.returnTypes.get? func).or
      ((self.resolveTransitive (fromModuleName func)).bind fun source =>
        self.returnTypes.get? (asModuleName source))).filter self.isClass

end ModuleExports

/-! ## The alias table -/

/-- `AliasTable`. -/
structure AliasTable where
  aliases : ScopedTable Alias := Table.empty
  deriving DecidableEq

/-- `QualifiedGlobalAlias`. -/
inductive QualifiedGlobalAlias
  | noAlias
  | unusableAlias
  | resolved (value : Value) (qualified : ModuleName) (hasSuffix : Bool)
  deriving DecidableEq, Repr

namespace AliasTable

/-- `lookup_alias`. -/
def lookupAlias (self : AliasTable) (scope : ModuleName) (name : Str) : Option Alias :=
  getNested self.aliases scope name

/-- `resolve`. -/
def resolve (self : AliasTable) (scope : ModuleName) (name : Str) : Option Alias :=
  resolveAlias self.aliases scope name

end AliasTable

/-- The end of an alias, as the first part of a dotted name. -/
def qualifyAlias (library : ParserLibrary) (name : Str) (expression : ModuleName) :
    Option Alias → QualifiedGlobalAlias
  | some (.global value) =>
    match value.asModuleName with
    | some target =>
      let parts := library.components expression
      if target = [] then .unusableAlias
      else if parts.head? = some name then
        .resolved value (library.fromParts (library.components target ++ parts.tail))
          (decide (1 < parts.length))
      else .unusableAlias
    | none => .unusableAlias
  | _ => .unusableAlias

/-- `resolve_qualified_global_alias`. -/
def AliasTable.resolveQualifiedGlobalAlias (library : ParserLibrary) (self : AliasTable)
    (res : ResolvedName) (expression : ModuleName) : QualifiedGlobalAlias :=
  match self.lookupAlias res.scope res.name with
  | none => .noAlias
  | some _ => qualifyAlias library res.name expression (self.resolve res.scope res.name)

/-- What the builders of both tables read. -/
structure BindingsContext where
  library : ParserLibrary
  definitions : DefinitionTable
  exports : ModuleExports
  /-- The modules of the import graph. -/
  graph : List ModuleName

namespace AliasTable

variable (ctx : BindingsContext) (self : AliasTable) (cursor : Cursor)

/-- `add_alias`. -/
def addAlias (name : Str) (rhs : Alias) : AliasTable :=
  ⟨insertNested self.aliases cursor.scope name rhs⟩

/-- `clear_alias`. -/
def clearAlias (name : Str) : AliasTable :=
  ⟨self.aliases.modify cursor.scope fun names => names.erase name⟩

/-- `lookup_external_name`. -/
def lookupExternalName (name : ModuleName) : Option Value :=
  if name ∈ ctx.graph then some (.imported name)
  else if ctx.exports.isClass name then some (.classOf name)
  else if ctx.exports.isFunction name then some (.function name)
  else none

/-- `expr_def`. -/
def exprDef (expr : Expr) : Option Value :=
  (ctx.definitions.resolve cursor expr).bind fun res =>
    (res.tryQualifiedName ctx.library).bind (lookupExternalName ctx)

/-- The alias of an import that is assigned to a name: that of the import itself, where it has
one. -/
def importAlias (res : ResolvedName) : Alias :=
  ((self.lookupAlias res.scope res.name).or
    ((res.tryQualifiedName ctx.library).map fun name => .global (.variable name))).getD
    (.global .unknown)

/-- The alias of a name that is assigned to another: a global one is taken over as it is, and
any other is followed when it is looked up. -/
def nameAlias (res : ResolvedName) : Alias :=
  match self.lookupAlias res.scope res.name with
  | some (.global value) => .global value
  | _ => .localName res.scope res.name

/-- The last part of `assign_single`: the right side is a variable, or nothing. -/
def assignVariable (name : Str) (rhs : Expr) : AliasTable :=
  match ctx.definitions.resolve cursor rhs with
  | some res =>
    if res.isImport then self.addAlias cursor name (self.importAlias ctx res)
    else
      match rhs with
      | .name _ _ _ => self.addAlias cursor name (self.nameAlias res)
      | _ => self
  | none => self

/-- `assign_single`, of a name whose alias is cleared. -/
def assignName (name : Str) (rhs : Expr) : AliasTable :=
  match (ctx.definitions.importModuleState cursor.scope).matchCall ctx.library rhs with
  | some imported => self.addAlias cursor name (.global (.imported imported))
  | none =>
    match exprDef ctx cursor rhs with
    | some (.classOf m) => self.addAlias cursor name (.global (.classOf m))
    | some (.imported m) => self.addAlias cursor name (.global (.imported m))
    | _ => self.assignVariable ctx cursor name rhs

/-- `assign_single`: a name assigned to itself keeps its alias. -/
def assignSingle (lhs rhs : Expr) : AliasTable :=
  match lhs.asVarName with
  | none => self
  | some name =>
    if rhs.asVarName = some name then self
    else (self.clearAlias cursor name).assignName ctx cursor name rhs

/-- `import`. -/
def importNames (names : List ImportAlias) : AliasTable :=
  names.foldl (fun table a =>
    a.asname.elim table fun asname =>
      table.addAlias cursor asname.id (.global (.imported a.name.id))) self

/-- `import_from`: the module is as it is written, whatever the level. -/
def importFrom (source : Option Str) (names : List ImportAlias) : AliasTable :=
  names.foldl (fun table a =>
    a.asname.elim table fun asname =>
      let fqName := ctx.library.append (source.getD []) a.name.id
      table.addAlias cursor asname.id
        (.global ((lookupExternalName ctx fqName).getD (.variable fqName)))) self

/-- `stmt`, of statements nested at most `fuel` deep. -/
def stmt : Nat → Cursor → AliasTable → Stmt → AliasTable
  | 0, _, self, _ => self
  | fuel + 1, cursor, self, .classDef name _ _ body _ =>
    body.foldl (stmt fuel (cursor.enterClassScope ctx.library name.id)) self
  | fuel + 1, cursor, self, .functionDef name _ _ body _ =>
    body.foldl (stmt fuel (cursor.enterFunctionScope ctx.library name.id)) self
  | _ + 1, cursor, self, .assign targets value _ =>
    match targets with
    | [target] => self.assignSingle ctx cursor target value
    | _ => self
  | _ + 1, cursor, self, .annAssign target _ value =>
    value.elim self fun value => self.assignSingle ctx cursor target value
  | _ + 1, cursor, self, .importNames names _ => self.importNames cursor names
  | _ + 1, cursor, self, .importFrom source _ names _ _ =>
    self.importFrom ctx cursor source names
  | fuel + 1, cursor, self, s => s.children.foldl (stmt fuel cursor) self

/-- `AliasTable::new`. -/
def make (parsed : ParsedModule) : AliasTable :=
  parsed.body.foldl
    (stmt ctx (Stmt.depths parsed.body) (Cursor.enterModuleScope parsed.name)) {}

end AliasTable

/-! ## The bindings table -/

/-- `BindingsTable`. -/
structure BindingsTable where
  bindings : ScopedTable Value := Table.empty
  aliasTable : AliasTable := {}
  deriving DecidableEq

/-- `Constructed`. -/
inductive Constructed
  | classOf (type : ModuleName)
  | unconfirmed (type : ModuleName)
  deriving DecidableEq, Repr

namespace BindingsTable

section Lookups

variable (self : BindingsTable) (scope : ModuleName) (name : Str)

/-- `lookup`. -/
def lookup : Option Value := getNested self.bindings scope name

/-- `lookup_alias`. -/
def lookupAlias : Option Alias := self.aliasTable.lookupAlias scope name

/-- `resolve`. -/
def resolve : Option Alias := self.aliasTable.resolve scope name

/-- `get_type`. -/
def getType : Option ModuleName :=
  match self.lookup scope name with
  | some (.instanceOf type) => some type
  | _ => none

/-- `get_unconfirmed_type`. -/
def getUnconfirmedType : Option ModuleName :=
  match self.lookup scope name with
  | some (.unconfirmedInstance type) => some type
  | _ => none

end Lookups

variable (ctx : BindingsContext) (isStub : Bool) (self : BindingsTable) (cursor : Cursor)

/-- `add_binding`: `None` does not displace a type that is known. -/
def addBinding (name : Str) (value : Value) : BindingsTable :=
  let keeps := (self.lookup cursor.scope name).any fun v => !v.isUnknown && !v.isNoneType
  if value.isNoneType && keeps then self
  else { self with bindings := insertNested self.bindings cursor.scope name value }

/-- `resolve_to_class`. -/
def resolveToClass (expr : Expr) : Option ModuleName :=
  (ctx.definitions.resolve cursor expr).bind fun res =>
    res.exprFullName.bind fun exprName =>
      match self.aliasTable.resolveQualifiedGlobalAlias ctx.library res exprName with
      | .resolved value qualified hasSuffix =>
        match value with
        | .classOf cls => if hasSuffix then none else some cls
        | .imported _ => if ctx.exports.isClass qualified then some qualified else none
        | _ => none
      | .noAlias =>
        let name := res.qualifiedName ctx.library
        if ctx.exports.isClass name then some name else none
      | .unusableAlias => none

/-- The function `get_function_return_class` asks for. -/
def calledFunction (res : ResolvedName) (exprName : ModuleName) : Option ModuleName :=
  match self.aliasTable.resolveQualifiedGlobalAlias ctx.library res exprName with
  | .resolved value qualified hasSuffix =>
    match value with
    | .function _ | .variable _ => if hasSuffix then none else some qualified
    | .imported _ => some qualified
    | _ => none
  | .noAlias => some (res.qualifiedName ctx.library)
  | .unusableAlias => none

/-- `get_function_return_class`. -/
def getFunctionReturnClass (func : Expr) : Option ModuleName :=
  (ctx.definitions.resolve cursor func).bind fun res =>
    res.exprFullName.bind fun exprName =>
      (self.calledFunction ctx res exprName).bind ctx.exports.resolveReturnClass

/-- `get_expr_type`. -/
def getExprType : Expr → Option ModuleName
  | .literal .boolean _ => some "builtins.bool".toList
  | .literal .bytes _ => some "builtins.bytes".toList
  | .literal .ellipsis _ => some "builtins.ellipsis".toList
  | .literal .none _ => some "builtins.NoneType".toList
  | .literal .int _ => some "builtins.int".toList
  | .literal .float _ => some "builtins.float".toList
  | .literal .complex _ => some "builtins.complex".toList
  | .stringLiteral _ _ => some "builtins.str".toList
  | .call func _ _ _ _ =>
    (self.resolveToClass ctx cursor func).or (self.getFunctionReturnClass ctx cursor func)
  | .display .dict _ _ => some "builtins.dict".toList
  | .display .set _ _ => some "builtins.set".toList
  | .display .list _ _ => some "builtins.list".toList
  | .display .tuple _ _ => some "builtins.tuple".toList
  | .display .fString _ _ => some "builtins.str".toList
  | .display .tString _ _ => some "builtins.str".toList
  | .comprehension .listComp _ _ _ => some "builtins.list".toList
  | .comprehension .setComp _ _ _ => some "builtins.set".toList
  | .comprehension .dictComp _ _ _ => some "builtins.dict".toList
  | _ => none

/-- `expr_value`. -/
def exprValue (expr : Expr) : Value :=
  (self.getExprType ctx cursor expr).elim .unknown .instanceOf

/-- `get_existing_binding`. -/
def getExistingBinding (scope : ModuleName) (name : Str) : Value :=
  (self.lookup scope name).getD .unknown

/-- `get_existing_alias_binding`. -/
def getExistingAliasBinding (scope : ModuleName) (name : Str) : Value :=
  match self.aliasTable.resolve scope name with
  | some (.global value) => value
  | some (.localName s n) => self.getExistingBinding s n
  | none => .unknown

/-- `resolve_to_imported_name`. -/
def resolveToImportedName (name : Str) : Option Attribute :=
  cursor.ascendingScopeNames.findSome? fun scope =>
    ctx.exports.resolveImportedName (scope, name)

/-- `match_imported_constructor`, of the name that is called. -/
def matchImportedName (imported : Attribute) : Option Constructed :=
  match ctx.exports.resolveTransitive imported with
  | none => some (.unconfirmed (asModuleName imported))
  | some source =>
    if ctx.exports.isClass (asModuleName source) then some (.classOf (asModuleName imported))
    else if ctx.exports.isKnownSymbol (asModuleName source) then none
    else some (.unconfirmed (asModuleName imported))

/-- `match_imported_constructor`. -/
def matchImportedConstructor : Expr → Option Constructed
  | .call (.name id _ _) _ _ _ _ =>
    (resolveToImportedName ctx cursor id).bind (matchImportedName ctx)
  | _ => none

/-- The value of the right side of an assignment. -/
def rhsValue (rhs : Expr) : Value :=
  match ctx.definitions.resolve cursor rhs with
  | some res =>
    let value := self.getExistingBinding res.scope res.name
    if value.isUnknown then self.getExistingAliasBinding res.scope res.name else value
  | none =>
    match matchImportedConstructor ctx cursor rhs with
    | some (.classOf type) => .instanceOf type
    | some (.unconfirmed type) => .unconfirmedInstance type
    | none => self.exprValue ctx cursor rhs

/-- `assign_single`: what an alias of the name says comes first. -/
def assignSingle (lhs rhs : Expr) : BindingsTable :=
  match lhs.asVarName with
  | none => self
  | some name =>
    let value := self.getExistingAliasBinding cursor.scope name
    self.addBinding cursor name
      (if value.isUnknown then self.rhsValue ctx cursor rhs else value)

/-- `assign`: of several targets, each name is unknown. -/
def assign (targets : List Expr) (value : Expr) : BindingsTable :=
  match targets with
  | [target] => self.assignSingle ctx cursor target value
  | targets =>
    (targets.filterMap Expr.asVarName).foldl (fun table name =>
      table.addBinding cursor name .unknown) self

/-- `ann_assign`: without a value, the annotation is only trusted in a stub. -/
def annAssign (target annotation : Expr) (value : Option Expr) : BindingsTable :=
  match value with
  | some value => self.assignSingle ctx cursor target value
  | none =>
    match target.asVarName, self.resolveToClass ctx cursor annotation with
    | some name, some cls =>
      if isStub then self.addBinding cursor name (.instanceOf cls) else self
    | _, _ => self

/-- `stmt`, of statements nested at most `fuel` deep. -/
def stmt : Nat → Cursor → BindingsTable → Stmt → BindingsTable
  | 0, _, self, _ => self
  | fuel + 1, cursor, self, .classDef name _ _ body _ =>
    body.foldl (stmt fuel (cursor.enterClassScope ctx.library name.id)) self
  | fuel + 1, cursor, self, .functionDef name _ _ body _ =>
    body.foldl (stmt fuel (cursor.enterFunctionScope ctx.library name.id)) self
  | _ + 1, cursor, self, .assign targets value _ => self.assign ctx cursor targets value
  | _ + 1, cursor, self, .annAssign target annotation value =>
    self.annAssign ctx isStub cursor target annotation value
  | fuel + 1, cursor, self, s => s.children.foldl (stmt fuel cursor) self

/-- `BindingsTable::new`. -/
def make (parsed : ParsedModule) : BindingsTable :=
  parsed.body.foldl
    (stmt ctx parsed.isStub (Stmt.depths parsed.body) (Cursor.enterModuleScope parsed.name))
    { aliasTable := AliasTable.make ctx parsed }

end BindingsTable

end Lifeguard
