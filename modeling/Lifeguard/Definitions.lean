import Lifeguard.Cursor
import Lifeguard.Lib.Table

/-!
# The definitions of a scope

Which names the statements of a scope define, and how (`pyrefly/definitions.rs`). The walk
does not go into classes and functions, which are scopes of their own, and of an `if` it
only takes the branches the configuration keeps.

The definitions are those that `make` builds, of a source. What only the typechecker or the
exports read of them (`__all__`, the deprecated names) is left out.
-/

namespace Lifeguard

open Lib

/-- `MutableCaptureKind`. -/
inductive MutableCaptureKind
  | global
  | nonlocal
  deriving DecidableEq, Repr

/-- `DefinitionStyle`: how a name is defined. -/
inductive DefinitionStyle
  | mutableCapture (kind : MutableCaptureKind)
  | annotated (kind : SymbolKind) (identifier : TextRange)
  | unannotated (kind : SymbolKind)
  | implicitGlobal
  | importAs (parent : ModuleName) (original : Str)
  | importAsEq (parent : ModuleName)
  | importName (parent : ModuleName)
  | importModule (imported : ModuleName)
  | importInvalidRelative
  | delete
  deriving DecidableEq, Repr

namespace DefinitionStyle

/-- The place of the style among the styles. -/
def place : DefinitionStyle → Nat
  | mutableCapture _ => 0
  | annotated _ _ => 1
  | unannotated _ => 2
  | implicitGlobal => 3
  | importAs _ _ => 4
  | importAsEq _ => 5
  | importName _ => 6
  | importModule _ => 7
  | importInvalidRelative => 8
  | delete => 9

variable (library : ParserLibrary)

/-- The derived order of two styles of one kind. -/
def ltFields : DefinitionStyle → DefinitionStyle → Bool
  | mutableCapture a, mutableCapture b => decide (a = .global) && decide (b = .nonlocal)
  | annotated a r, annotated b s =>
    library.symbolKindLt a b || (decide (a = b) && library.identifierLt r s)
  | unannotated a, unannotated b => library.symbolKindLt a b
  | importAs a n, importAs b o => library.moduleNameLt a b || (decide (a = b) && decide (n < o))
  | importAsEq a, importAsEq b => library.moduleNameLt a b
  | importName a, importName b => library.moduleNameLt a b
  | importModule a, importModule b => library.moduleNameLt a b
  | _, _ => false

/-- The order of the styles: of several definitions of a name, the least is kept. -/
def lt (a b : DefinitionStyle) : Bool :=
  decide (a.place < b.place) || (decide (a.place = b.place) && ltFields library a b)

/-- `get_imported_module_name`. -/
def importedModule : DefinitionStyle → Option ModuleName
  | importAs parent _ | importAsEq parent | importName parent | importModule parent =>
    some parent
  | _ => none

/-- `is_import`. -/
def isImport (style : DefinitionStyle) : Bool := style.importedModule.isSome

/-- The style is of a symbol of the kind. -/
def hasKind (kind : SymbolKind) : DefinitionStyle → Bool
  | annotated k _ | unannotated k => decide (k = kind)
  | _ => false

end DefinitionStyle

/-- `Definition`. -/
structure Definition where
  style : DefinitionStyle
  range : TextRange
  /-- The start of the earliest place that binds the name. -/
  firstBinding : Nat
  deriving DecidableEq, Repr

namespace Definition

/-- The definition at its first place. -/
def first (style : DefinitionStyle) (range : TextRange) : Definition :=
  ⟨style, range, range.start⟩

/-- `merge`. -/
def merge (library : ParserLibrary) (d : Definition) (other : DefinitionStyle)
    (range : TextRange) : Definition where
  style := if other.lt library d.style then other else d.style
  range := if other.lt library d.style then range else d.range
  firstBinding := min d.firstBinding range.start

/-- `is_import`. -/
def isImport (d : Definition) : Bool := d.style.isImport

/-- `is_param`. -/
def isParam (d : Definition) : Bool := d.style.hasKind .parameter

/-- `is_class`. -/
def isClass (d : Definition) : Bool := d.style.hasKind .classType

end Definition

/-- `DefinitionVisibility`. -/
inductive DefinitionVisibility
  | comprehension (range : TextRange)
  | importAlias
  deriving DecidableEq, Repr

/-- `ScopedDefinition`. -/
structure ScopedDefinition where
  definition : Definition
  visibility : DefinitionVisibility
  deriving DecidableEq, Repr

/-- `Definitions`. -/
structure Definitions where
  definitions : Table Str Definition := Table.empty
  scopedDefinitions : Table Str (List ScopedDefinition) := Table.empty
  /-- The modules of the star imports. -/
  importAll : Finset ModuleName := ∅
  hasImportlib : Bool := false
  hasImportModule : Bool := false
  deriving DecidableEq

/-- The flags that recognise a call of `import_module`. -/
def Definitions.importlibState (defs : Definitions) : ImportlibState :=
  ⟨defs.hasImportlib, defs.hasImportModule⟩

/-- What the builder reads: the module and the configuration. -/
structure DefinitionsContext where
  moduleName : ModuleName
  isInit : Bool
  config : AnalysisConfig

namespace Definitions

variable (ctx : DefinitionsContext)

/-- `add_name`. -/
def addName (defs : Definitions) (x : Str) (range : TextRange) (style : DefinitionStyle) :
    Definitions :=
  { defs with
    definitions :=
      defs.definitions.upsert x (fun d => d.merge ctx.config.library style range)
        (.first style range) }

/-- `add_identifier`. -/
def addIdentifier (defs : Definitions) (x : Identifier) (style : DefinitionStyle) :
    Definitions :=
  defs.addName ctx x.id x.range style

/-- Names defined as variables. -/
def addVariables (defs : Definitions) (names : List (Str × TextRange)) : Definitions :=
  names.foldl (fun defs x => defs.addName ctx x.1 x.2 (.unannotated .variable)) defs

/-- Keep a definition outside the table of names. -/
def addScoped (defs : Definitions) (x : Str) (d : ScopedDefinition) : Definitions :=
  { defs with
    scopedDefinitions := defs.scopedDefinitions.upsert x (fun sites => sites ++ [d]) [d] }

/-- `comp_target_lvalue`, of the targets of a comprehension. -/
def addComprehensionTargets (defs : Definitions) (targets : List (Str × TextRange))
    (comprehension : TextRange) : Definitions :=
  targets.foldl (fun defs x =>
    defs.addScoped x.1 ⟨.first (.unannotated .variable) x.2, .comprehension comprehension⟩) defs

/-- What one expression of `named_in_expr` defines. -/
def addNamed (defs : Definitions) : Expr → Definitions
  | .named target _ _ => defs.addVariables ctx target.lvalues
  | .comprehension _ _ generators range =>
    defs.addComprehensionTargets (generators.flatMap fun g => g.1.lvalues) range
  | _ => defs

/-- `named_in_expr`. -/
def namedInExpr (defs : Definitions) (e : Expr) : Definitions :=
  (e.walked .binding).foldl (addNamed ctx) defs

/-- `named_in_expr`, of an expression that may be missing. -/
def namedInExprs (defs : Definitions) (es : List Expr) : Definitions :=
  es.foldl (namedInExpr ctx) defs

/-- `expr_lvalue`. -/
def exprLvalue (defs : Definitions) (target : Expr) : Definitions :=
  (defs.addVariables ctx target.lvalues).namedInExpr ctx target

/-- One name of `import`. -/
def addImport (defs : Definitions) (a : ImportAlias) : Definitions :=
  let importlib :=
    decide (a.name.id = "importlib".toList) || "importlib.".toList.isPrefixOf a.name.id
  let defs := if importlib then { defs with hasImportlib := true } else defs
  match a.asname with
  | none =>
    defs.addName ctx (ctx.config.library.firstComponent a.name.id) a.name.range
      (.importModule a.name.id)
  | some asname =>
    defs.addIdentifier ctx asname
      (if asname.id = a.name.id then .importAsEq a.name.id else .importAs a.name.id a.name.id)

/-- How one name of `from … import` is defined. -/
def importStyle (source : Option ModuleName) (a : ImportAlias) : DefinitionStyle :=
  match source, a.asname with
  | none, _ => .importInvalidRelative
  | some m, some asname => if asname.id = a.name.id then .importAsEq m else .importAs m a.name.id
  | some m, none => .importName m

/-- One name of `from … import`. -/
def addImportFrom (source : Option ModuleName) (defs : Definitions) (a : ImportAlias) :
    Definitions :=
  let defs :=
    if source = some "importlib".toList ∧ a.name.id = "import_module".toList then
      { defs with hasImportModule := true }
    else defs
  if a.name.id = "*".toList then
    { defs with importAll := source.elim defs.importAll fun m => insert m defs.importAll }
  else defs.addIdentifier ctx a.bound (importStyle source a)

/-- One target of an assignment. -/
def addTarget (value : Expr) (defs : Definitions) (target : Expr) : Definitions :=
  match defs.importlibState.matchCall ctx.config.library value with
  | some imported =>
    match target with
    | .name id _ range => defs.addName ctx id range (.importAs imported id)
    | _ => defs
  | none => defs.exprLvalue ctx target

/-- `handle_import_module`, or else the names in the expression. -/
def addExprStmt (defs : Definitions) (value : Expr) : Definitions :=
  match defs.importlibState.matchCall ctx.config.library value with
  | some imported =>
    defs.addName ctx (ctx.config.library.firstComponent imported) value.range
      (.importModule imported)
  | none => defs.namedInExpr ctx value

/-- One item of `with`. -/
def addWithItem (defs : Definitions) (item : Expr × Option Expr) : Definitions :=
  match item.2 with
  | some target => (defs.namedInExpr ctx item.1).exprLvalue ctx target
  | none => defs.namedInExpr ctx item.1

/-- One target of `del`. -/
def addDelete (defs : Definitions) (target : Expr) : Definitions :=
  match target with
  | .name id _ range => (defs.namedInExpr ctx target).addName ctx id range .delete
  | _ => defs.namedInExpr ctx target

/-- The names a clause binds. -/
def addClause (defs : Definitions) (c : Clause × List Stmt) : Definitions :=
  c.1.binds.foldl (fun defs x => defs.addIdentifier ctx x (.unannotated .variable)) defs

/-- What a statement itself defines, but for the statements in it. -/
def addStmt (defs : Definitions) : Stmt → Definitions
  | .importNames names _ => names.foldl (addImport ctx) defs
  | .importFrom source level names _ _ =>
    names.foldl (addImportFrom ctx
      (ctx.config.library.newMaybeRelative ctx.moduleName ctx.isInit level source)) defs
  | .classDef name _ _ _ _ => defs.addIdentifier ctx name (.unannotated .classType)
  | .functionDef name _ _ _ _ => defs.addIdentifier ctx name (.unannotated .function)
  | .nonlocalNames names =>
    names.foldl (fun defs x => defs.addIdentifier ctx x (.mutableCapture .nonlocal)) defs
  | .globalNames names =>
    names.foldl (fun defs x => defs.addIdentifier ctx x (.mutableCapture .global)) defs
  | .assign targets value _ => targets.foldl (addTarget ctx value) (defs.namedInExpr ctx value)
  | .annAssign target _ value =>
    let defs := defs.namedInExprs ctx value.toList
    match target with
    | .name id _ range => defs.addName ctx id range (.annotated .variable range)
    | _ => defs.exprLvalue ctx target
  | .augAssign target _ value =>
    let defs := defs.namedInExpr ctx value
    match target with
    | .name id _ range => defs.addName ctx id range (.unannotated .variable)
    | _ => defs
  | .delete targets => targets.foldl (addDelete ctx) defs
  | .expr value => defs.addExprStmt ctx value
  | .typeAlias name value =>
    let defs := defs.namedInExpr ctx value
    match name with
    | .name _ _ _ => defs.exprLvalue ctx name
    | _ => defs
  | .forLoop target iter _ _ => (defs.namedInExpr ctx iter).exprLvalue ctx target
  | .withBlock items _ => items.foldl (addWithItem ctx) defs
  | .matchCases subject cases => cases.foldl (addClause ctx) (defs.namedInExpr ctx subject)
  | .tryExcept _ handlers _ _ => handlers.foldl (addClause ctx) defs
  | .ifElse branches =>
    defs.namedInExprs ctx (branches.head?.bind Prod.fst).toList
  | .whileLoop test _ _ => defs.namedInExpr ctx test
  | .assert test msg => (defs.namedInExpr ctx test).namedInExprs ctx msg.toList
  | .raise exc cause _ => (defs.namedInExprs ctx exc.toList).namedInExprs ctx cause.toList
  | .returnValue _ | .other => defs

/-- The statements the walk goes into: of an `if`, those of the branches that are kept. -/
def visited : Stmt → List Stmt
  | .functionDef _ _ _ _ _ | .classDef _ _ _ _ _ => []
  | .ifElse branches =>
    (ctx.config.lgPrunedIfBranches branches ctx.moduleName).flatMap fun b =>
      (branches[b.1]?.map Prod.snd).getD []
  | s => s.children

/-- `stmt`, of statements nested at most `fuel` deep. -/
def stmt : Nat → Definitions → Stmt → Definitions
  | 0, defs, _ => defs
  | fuel + 1, defs, s => (visited ctx s).foldl (stmt fuel) (defs.addStmt ctx s)

/-- `Definitions::make`. -/
def make (body : List Stmt) : Definitions := body.foldl (stmt ctx (Stmt.depths body)) {}

end Definitions

end Lifeguard
