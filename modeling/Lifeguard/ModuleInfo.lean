import Lifeguard.Definitions
import Lifeguard.Project

/-!
# The tables of a module

What is derived from the syntax of a module before it is analyzed (`module_info.rs`): the
definitions of every scope and the classes, built in one walk over all its statements.

- `ScopeResolver.resolveName`: the definition a name has at a place;
- `ResolvedName.recordedName`: the qualified name a resolved expression is recorded under;
- `buildDefinitionsAndClasses`: the tables of a module.

The walk of the tables goes into every branch of an `if`; only the definitions of a scope
leave the pruned ones out.
-/

namespace Lifeguard

open Lib

/-- `ParsedModule`. -/
structure ParsedModule where
  name : ModuleName
  isInit : Bool := false
  isStub : Bool := false
  body : List Stmt
  /-- Where the first statement is. -/
  firstRange : TextRange := {}
  /-- The public names the `.pyi` beside the module declares, if there is one. -/
  companionStubNames : Option (List Str) := none
  isThriftGenerated : Bool := false

/-- `DefinitionTable`. -/
structure DefinitionTable where
  definitions : Table ModuleName Definitions := Table.empty
  /-- The scopes whose statements run when the module is imported. -/
  eagerScopes : Finset ModuleName := ∅
  enclosingFunctions : Table ModuleName ModuleName := Table.empty
  /-- The parameter names of every function scope, in their order. -/
  paramNames : Table ModuleName (List Str) := Table.empty
  isStub : Bool := false
  deriving DecidableEq

/-- A class as its module defines it. -/
structure ClassInfo extends Class where
  name : ModuleName := []
  hasUnknownBase : Bool := false
  hasUnknownMetaclass : Bool := false
  deriving DecidableEq, Repr

/-! ## Resolving a name -/

/-- `alias_target`. -/
def aliasTarget (library : ParserLibrary) (source : ModuleName) (originalName : Str) :
    ModuleName :=
  if originalName = source then source else library.append source originalName

/-- `ResolvedName`. -/
structure ResolvedName where
  name : Str
  definition : Definition
  scope : ModuleName
  /-- The dotted name of the expression that was resolved. -/
  exprFullName : Option ModuleName := none
  deriving DecidableEq, Repr

namespace ResolvedName

variable (library : ParserLibrary) (res : ResolvedName)

/-- `is_global`. -/
def isGlobal : Bool := decide (res.definition.style = .mutableCapture .global)

/-- `is_import`. -/
def isImport : Bool := res.definition.isImport

/-- `imported_target`: the module bound by an import. -/
def importedTarget : Option ModuleName :=
  match res.definition.style with
  | .importModule imported => some imported
  | .importName parent => some (library.append parent res.name)
  | .importAsEq parent => some (aliasTarget library parent res.name)
  | .importAs parent original => some (aliasTarget library parent original)
  | _ => none

/-- `import_parent`: the module that has to run when the name is read. -/
def importParent : Option ModuleName := res.definition.style.importedModule

/-- `rebase_access`: a chain of attributes through the bound name, from `target` instead. -/
def rebaseAccess (target access : ModuleName) : ModuleName :=
  if res.name.isPrefixOf access then
    match access.drop res.name.length with
    | '.' :: suffix => appendStr target suffix
    | _ => target
  else target

/-- `qualify_import_access`. -/
def qualifyImportAccess (access : ModuleName) : Option ModuleName :=
  match res.definition.style with
  | .importModule _ => some access
  | .importName parent => some (appendStr parent access)
  | .importAsEq parent => some (res.rebaseAccess (aliasTarget library parent res.name) access)
  | .importAs parent original =>
    some (res.rebaseAccess (aliasTarget library parent original) access)
  | _ => none

/-- `scope_prefix`. -/
def scopePrefix : ModuleName := res.definition.style.importedModule.getD res.scope

/-- `qualify_name`. -/
def qualifyName (name : ModuleName) : ModuleName :=
  match res.definition.style with
  | .importModule _ => name
  | _ => appendStr res.scopePrefix name

/-- `recorded_name`: through an import, the original path. -/
def recordedName (access : ModuleName) : ModuleName :=
  if res.isImport then (res.qualifyImportAccess library access).getD (res.qualifyName access)
  else res.qualifyName access

/-- `qualified_name`. -/
def qualifiedName : ModuleName := res.recordedName library (res.exprFullName.getD res.name)

/-- `try_qualified_name`. -/
def tryQualifiedName : Option ModuleName := res.exprFullName.map (res.recordedName library)

end ResolvedName

/-- `ScopeResolver`. -/
structure ScopeResolver where
  definitions : Table ModuleName Definitions
  isStub : Bool

/-- `visible_in_class_body`. -/
def visibleInClassBody (d : Definition) (readAt : TextRange) : Bool :=
  match d.style with
  | .mutableCapture _ => true
  | _ => decide (d.firstBinding ≤ readAt.start)

/-- The sites that define a name outside the table of names. -/
def scopedSites (defs : Definitions) (name : Str) : List ScopedDefinition :=
  (defs.scopedDefinitions.get? name).getD []

/-- `comp_target_at`. -/
def compTargetAt (defs : Definitions) (name : Str) (readAt : TextRange) : Option Definition :=
  (scopedSites defs name).findSome? fun site =>
    match site.visibility with
    | .comprehension range => if range.containsRange readAt then some site.definition else none
    | .importAlias => none

/-- `alias_in_effect`: the last alias, in a class body the last one above the place. -/
def aliasInEffect (defs : Definitions) (name : Str) (readAt : TextRange)
    (positionBounded : Bool) : Option Definition :=
  ((scopedSites defs name).reverse.find? fun site =>
    decide (site.visibility = .importAlias) &&
      (!positionBounded || decide (site.definition.range.start ≤ readAt.start))).map
    ScopedDefinition.definition

namespace ScopeResolver

variable (self : ScopeResolver)

/-- What a name is in one scope of the walk. -/
def definitionIn (defs : Definitions) (kind : ScopeKind) (name : Str) (readAt : TextRange) :
    Option Definition :=
  let positionBounded := decide (kind = .classScope) && !self.isStub
  (aliasInEffect defs name readAt positionBounded).or
    (((defs.definitions.get? name).filter fun d =>
      !positionBounded || visibleInClassBody d readAt).or (compTargetAt defs name readAt))

/-- `resolve_name`. -/
def resolveName (cursor : Cursor) (name : Str) (readAt : TextRange) : Option ResolvedName :=
  cursor.legbScopes.findSome? fun s =>
    (self.definitions.get? s.1).bind fun defs =>
      (self.definitionIn defs s.2 name readAt).map fun d =>
        { name := name, definition := d, scope := s.1 }

/-- `resolve_expr`. -/
def resolveExpr (cursor : Cursor) (value : Expr) : Option ResolvedName :=
  value.baseName.bind fun name =>
    (self.resolveName cursor name value.range).map fun res =>
      { res with exprFullName := value.fullName }

end ScopeResolver

namespace DefinitionTable

variable (self : DefinitionTable)

/-- `scope_resolver`. -/
def scopeResolver : ScopeResolver := ⟨self.definitions, self.isStub⟩

/-- `resolve`. -/
def resolve (cursor : Cursor) (value : Expr) : Option ResolvedName :=
  self.scopeResolver.resolveExpr cursor value

/-- `get`. -/
def get (scope : ModuleName) (name : Str) : Option Definition :=
  (self.definitions.get? scope).bind fun defs => defs.definitions.get? name

/-- `get_import_module_state_from_def`. -/
def importModuleState (scope : ModuleName) : ImportlibState :=
  ((self.definitions.get? scope).map Definitions.importlibState).getD ⟨false, false⟩

end DefinitionTable

/-! ## Building the tables -/

/-- `CombinedDefinitionClassBuilder`: the tables as far as they are built. -/
structure ModuleTables where
  definitions : DefinitionTable := {}
  classes : Table ModuleName ClassInfo := Table.empty

/-- `method_kind_from_decorator`. -/
def methodKindFromDecorator : Expr → Option FieldKind
  | .name id _ _ =>
    if id = "property".toList then some .property
    else if id = "classmethod".toList then some .classMethod
    else if id = "staticmethod".toList then some .staticMethod
    else none
  | .attribute _ attr _ _ _ => if attr = "setter".toList then some .propertySetter else none
  | _ => none

/-- The class variable that a target is. -/
def classVarOf : Expr → Option Field
  | .name id _ _ => some ⟨.classVar, id⟩
  | _ => none

/-- `extract_class_fields`, of one statement of the body: of several decorators, the last
one that tells the kind of a method does. -/
def classFields : Stmt → List Field
  | .functionDef name _ decorators _ _ =>
    let kinds := decorators.filterMap fun dec => methodKindFromDecorator dec.expression
    [⟨kinds.getLast?.getD .instanceMethod, name.id⟩]
  | .assign targets _ _ => targets.filterMap classVarOf
  | .annAssign target _ _ => (classVarOf target).toList
  | _ => []

namespace ModuleTables

variable (ctx : DefinitionsContext)

/-- `get_class_name`. -/
def getClassName (self : ModuleTables) (cursor : Cursor) (expr : Expr) : Option ModuleName :=
  (self.definitions.resolve cursor expr).bind
    (ResolvedName.tryQualifiedName ctx.config.library)

/-- The values given for `metaclass`. -/
def metaclassKeywords (arguments : ClassArguments) : List Expr :=
  arguments.keywords.filterMap fun kw =>
    if kw.1 = some "metaclass".toList then some kw.2 else none

/-- `extract_bases_and_metaclass`. -/
def withBases (self : ModuleTables) (cursor : Cursor) (cls : ClassInfo)
    (arguments : ClassArguments) : ClassInfo :=
  let bases := arguments.args.map (self.getClassName ctx cursor)
  let metaclasses := (metaclassKeywords arguments).map (self.getClassName ctx cursor)
  { cls with
    bases := bases.reduceOption
    hasUnknownBase := bases.any Option.isNone
    metaclass := metaclasses.getLast?.join
    hasUnknownMetaclass := metaclasses.any Option.isNone }

/-- `build_class_info`, with the cursor in the scope of the class. -/
def buildClassInfo (self : ModuleTables) (cursor : Cursor) (name : Str)
    (arguments : Option ClassArguments) (body : List Stmt) : ClassInfo :=
  { (arguments.elim { name := name } fun args => self.withBases ctx cursor { name := name } args)
    with fields := body.flatMap classFields }

/-- `process_assign`, of one target: a name bound to the result of `import_module` is an
alias from there on. -/
def addAliasTarget (scope : ModuleName) (imported : ModuleName) (self : ModuleTables)
    (target : Expr) : ModuleTables :=
  match target with
  | .name id _ range =>
    { self with
      definitions :=
        { self.definitions with
          definitions := self.definitions.definitions.modify scope fun defs =>
            if (defs.definitions.get? id).isSome then
              defs.addScoped id ⟨.first (.importAs imported id) range, .importAlias⟩
            else defs } }
  | _ => self

/-- `process_assign`. -/
def processAssign (self : ModuleTables) (cursor : Cursor) (targets : List Expr) (value : Expr) :
    ModuleTables :=
  match (self.definitions.importModuleState cursor.scope).matchCall ctx.config.library value with
  | some imported => targets.foldl (addAliasTarget cursor.scope imported) self
  | none => self

/-- The head of `process_scope`: the definitions of the scope. -/
def addScope (self : ModuleTables) (cursor : Cursor) (body : List Stmt) : ModuleTables :=
  { self with
    definitions :=
      { self.definitions with
        definitions := self.definitions.definitions.insert cursor.scope
          (Definitions.make ctx body)
        eagerScopes :=
          if cursor.inEagerScope then insert cursor.scope self.definitions.eagerScopes
          else self.definitions.eagerScopes } }

/-- The function whose call runs the scope. -/
def addEnclosing (self : ModuleTables) (scope : ModuleName) (parent : Option ModuleName) :
    ModuleTables :=
  { self with
    definitions :=
      { self.definitions with
        enclosingFunctions := parent.elim self.definitions.enclosingFunctions fun f =>
          self.definitions.enclosingFunctions.insert scope f } }

/-- `extract_function_params`: a parameter displaces what the body defines under its name. -/
def extractFunctionParams (self : ModuleTables) (scope : ModuleName)
    (params : List Parameter) : ModuleTables :=
  { self with
    definitions :=
      { self.definitions with
        definitions := self.definitions.definitions.modify scope fun defs =>
          { defs with
            definitions := params.foldl (fun t p =>
              t.insert p.name (.first (.unannotated .parameter) p.range)) defs.definitions }
        paramNames := self.definitions.paramNames.insert scope (params.map Parameter.name) } }

/-- `process_stmt`, of statements nested at most `fuel` deep. -/
def processStmt : Nat → Cursor → ModuleTables → Stmt → ModuleTables
  | 0, _, self, _ => self
  | fuel + 1, cursor, self, .classDef name arguments _ body _ =>
    let inner := cursor.enterClassScope ctx.config.library name.id
    let self := self.addEnclosing inner.scope inner.nearestFunctionScope
    let info := self.buildClassInfo ctx inner name.id arguments body
    let self := { self with classes := self.classes.insert inner.scope info }
    body.foldl (processStmt fuel inner) (self.addScope ctx inner body)
  | fuel + 1, cursor, self, .functionDef name params _ body _ =>
    let inner := cursor.enterFunctionScope ctx.config.library name.id
    let self := self.addEnclosing inner.scope inner.enclosingFunctionScope
    (body.foldl (processStmt fuel inner) (self.addScope ctx inner body)).extractFunctionParams
      inner.scope params
  | _ + 1, cursor, self, .assign targets value _ => self.processAssign ctx cursor targets value
  | fuel + 1, cursor, self, s => s.children.foldl (processStmt fuel cursor) self

/-- `process_module`. -/
def processModule (isStub : Bool) (body : List Stmt) : ModuleTables :=
  let cursor := Cursor.enterModuleScope ctx.moduleName
  body.foldl (processStmt ctx (Stmt.depths body) cursor)
    (addScope ctx { definitions := { isStub := isStub } } cursor body)

end ModuleTables

/-- `build_definitions_and_classes`. -/
def buildDefinitionsAndClasses (parsed : ParsedModule) (config : AnalysisConfig) :
    ModuleTables :=
  ModuleTables.processModule ⟨parsed.name, parsed.isInit, config⟩ parsed.isStub parsed.body

end Lifeguard
