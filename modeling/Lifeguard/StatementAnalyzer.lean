import Lifeguard.SourceAnalyzer

/-!
# The walk of the analyzer

The analyzer goes over the statements of a module and adds to its record what each of them
does (`source_analyzer.rs`). Function bodies have a record of their own, whose effects are
merged into the record of the module.

- `ownWrites`: what a statement does by itself, without the statements in it;
- `stmt`: a statement with those in it;
- `analyze`: a module.
-/

namespace Lifeguard

open Lib

/-- `exception_name`. -/
def exceptionName : Expr → Option ModuleName
  | .call func _ _ _ _ => func.fullName
  | e => e.fullName

/-- `extract_try_handlers`, of one handler. -/
def extractTryHandler (handler : Clause × List Stmt) : TryHandler :=
  match handler.1.test with
  | none => .bare
  | some (.display .tuple elts _) => .typed (elts.filterMap Expr.fullName)
  | some e => .typed e.fullName.toList

/-- The expressions that are evaluated before something is stored to a place. -/
def Expr.leafOperands : Expr → List Expr
  | .attribute value _ _ _ _ => [value]
  | .subscript value slice _ _ => [value, slice]
  | _ => []

namespace SourceAnalyzer

variable (self : SourceAnalyzer) (evals : Nat) (cursor : Cursor)

/-- Expressions one after another. -/
def exprs (xs : List Expr) : List OutputWrite := xs.flatMap (self.expr cursor evals)

/-- `check_target_operands`. -/
def checkTargetOperands (target : Expr) : List OutputWrite :=
  self.exprs evals cursor (target.targetLeaves.flatMap Expr.leafOperands)

/-! ## Imports -/

/-- `add_pending_import`. -/
def addPendingImport (names : List ImportAlias) (isLazy : Bool) : List OutputWrite :=
  names.flatMap fun a =>
    (if isLazy then [] else [.eagerImport a.name.id]) ++
    match a.asname with
    | none => [.pendingImport a.name.id cursor.scope]
    | some asname =>
      [.pendingImport asname.id cursor.scope, .pendingImport a.name.id asname.id,
        .aliasedImport a.name.id cursor.scope]

/-- `add_called_import`, of an import statement. -/
def addCalledImport (names : List ImportAlias) : List OutputWrite :=
  names.map fun a => .calledImport a.bound.id cursor.scope

/-- A called or a pending import. -/
def addImport (isCalled : Bool) (imported : ModuleName) : OutputWrite :=
  if isCalled then .calledImport imported cursor.scope else .pendingImport imported cursor.scope

/-- `add_sub_import`. -/
def addSubImport (m : ModuleName) (isCalled : Bool) (name : Str) : List OutputWrite :=
  let maybeSub := if m = [] then name else self.library.append m name
  let missing := (self.importGraph.getMissingImports self.info.moduleName).any fun ms =>
    decide (m ∈ ms)
  if self.isModule maybeSub || missing then [addImport cursor isCalled maybeSub] else []

/-- The module of a `from` import. -/
def importSource (source : Option Str) (level : Nat) : Option ModuleName :=
  self.library.newMaybeRelative self.info.moduleName self.parsed.isInit level source

/-- `add_import_from`, with `add_star_import_from`. -/
def addImportFrom (source : Option Str) (level : Nat) (names : List ImportAlias) (isLazy : Bool)
    (isCalled : Bool) : List OutputWrite :=
  (self.importSource source level).elim [] fun m =>
    (if isLazy then [] else [.eagerImport m]) ++
    ((if m = [] then [] else [addImport cursor isCalled m]) ++
    names.flatMap fun a =>
      if a.name.id = "*".toList then
        ((self.info.exports.getAll m).getD []).flatMap (self.addSubImport cursor m isCalled)
      else self.addSubImport cursor m isCalled a.name.id)

/-- The effect of binding an exported name again. -/
def reassignment (exported : Attribute) (range : TextRange) : List OutputWrite :=
  addEffect cursor
    { kind := .importedVarReassignment, name := asModuleName exported, range := range }

/-- `check_re_exports`. -/
def checkReExports (name : Str) (range : TextRange) : List OutputWrite :=
  let exported := (self.info.moduleName, name)
  if self.info.exports.isReExport exported then reassignment cursor exported range else []

/-- `check_multi_reexport`. -/
def checkMultiReexport (range : TextRange) (name : Str) : List OutputWrite :=
  let exported := (self.info.moduleName, name)
  let cleared := (self.info.exports.getReExport exported).any fun e =>
    decide (e.1.1 = []) && decide (e.1.2 = []) && decide (e.2 ≠ range)
  if cleared then reassignment cursor exported range else []

/-- `import_from`, with `import_star`. -/
def importFrom (source : Option Str) (level : Nat) (names : List ImportAlias) (isLazy : Bool)
    (range : TextRange) : List OutputWrite :=
  self.addImportFrom cursor source level names isLazy false ++
  names.flatMap fun a =>
    if a.name.id = "*".toList then
      (((self.importSource source level).bind self.info.exports.getAll).getD []).flatMap
        (self.checkMultiReexport cursor range)
    else self.checkMultiReexport cursor range a.bound.id

/-- `check_function_statement`, of one statement. -/
def checkFunctionStatement : Stmt → List OutputWrite
  | .importNames names isLazy => addPendingImport cursor names isLazy
  | .importFrom source level names isLazy range =>
    self.importFrom cursor source level names isLazy range
  | _ => []

/-- `check_function_expr`, of a chain. -/
def checkFunctionChain (x : Expr) : List OutputWrite :=
  ((self.importedChain cursor x).bind Prod.snd).elim [] fun m =>
    [.calledImport m cursor.scope]

/-- `check_function_body_for_imports`. -/
def checkFunctionBodyForImports (body : List Stmt) : List OutputWrite :=
  body.flatMap fun statement =>
    statement.all.flatMap (self.checkFunctionStatement cursor) ++
      ((statement.all.flatMap Stmt.exprs).flatMap (Expr.chains false)).flatMap
        (self.checkFunctionChain cursor)

/-! ## Simple statements -/

/-- `check_assign_to_import_module`, of the name that the module is bound to. -/
def assignImportModule (name : Str) (imported : ModuleName) : List OutputWrite :=
  [.pendingImport name cursor.scope, .pendingImport imported cursor.scope,
    .calledImport imported cursor.scope]

/-- `check_assign_to_import_module`, or else `check_assign_target`. -/
def assignTarget (value target : Expr) : List OutputWrite :=
  match target.asVarName, self.importedByCall cursor value with
  | some name, some imported => assignImportModule cursor name imported
  | _, _ => self.checkAssignTarget cursor target

/-- `assign`. -/
def assign (targets : List Expr) (value : Expr) (range : TextRange) : List OutputWrite :=
  targets.flatMap (fun target =>
    self.assignTarget cursor value target ++ self.checkTargetOperands evals cursor target) ++
  ((if cursor.scope = self.info.moduleName then
      match targets with
      | .name id _ _ :: _ => self.checkReExports cursor id range
      | _ => []
    else []) ++
  self.expr cursor evals value)

/-- A store to a target, and what is evaluated for it. -/
def storeTo (target : Expr) : List OutputWrite :=
  self.checkAssignTarget cursor target ++ self.checkTargetOperands evals cursor target

/-- `ann_assign`. -/
def annAssign (target : Expr) (value : Option Expr) : List OutputWrite :=
  (if value.isSome then self.checkAssignTarget cursor target else []) ++
    (self.checkTargetOperands evals cursor target ++ self.exprs evals cursor value.toList)

/-- `raise`: an exception that is caught is no effect, and in a `try` body a bare `raise` is
taken to be caught. -/
def raise (exc cause : Option Expr) (range : TextRange) : List OutputWrite :=
  let raised (name : ModuleName) :=
    if cursor.catchesException name then []
    else addEffect cursor { kind := .raise, name := name, range := range }
  match exc with
  | some e =>
    self.exprs evals cursor (e :: cause.toList) ++
      raised ((exceptionName e).getD "<unknown exception>".toList)
  | none => if cursor.inTryBody then [] else raised "<unknown exception>".toList

/-- What a decorator is called with: nothing, unless it is written as a call. -/
def decoratorCall : Expr → Expr × Option CallArguments
  | .call func args keywords argsRange _ => (func, some ⟨args, keywords, argsRange⟩)
  | e => (e, none)

/-- The name of a decorator that is no name. -/
def unknownDecoratorName : Expr → Str
  | .subscript _ _ _ _ => "<subscript>".toList
  | _ => "<unknown>".toList

/-- The last part of `check_decorators`: what the decorator is resolved to. -/
def decoratorEffect (callee : Expr) (arguments : Option CallArguments) (data : CallData)
    (range : TextRange) : List OutputWrite :=
  match self.info.resolve cursor callee with
  | none =>
    self.checkUnresolvedCall cursor (self.expr cursor evals) callee arguments (some .decorator)
  | some res =>
    match self.resolvedFname res with
    | none =>
      addEffect cursor
        { kind := .unknownDecoratorCall, name := unknownDecoratorName callee, range := range }
    | some fname =>
      if declaredSafe fname then []
      else
        .calledFunction fname ::
          addEffect cursor
            { kind := if res.isImport then .importedDecoratorCall else .decoratorCall
              name := fname
              range := range
              data := if arguments.isSome then .call data else .none }

/-- The chain below the last link of a decorator. -/
def decoratorChain : Expr → List OutputWrite
  | .attribute (.attribute value attr attrRange ctx _) _ _ _ _ =>
    self.checkAttrImpl cursor value attr attrRange ctx
  | _ => []

/-- `check_decorators`, of one decorator. -/
def checkDecorator (dec : Decorator) : List OutputWrite :=
  let callee := (decoratorCall dec.expression).1
  let arguments := (decoratorCall dec.expression).2
  let checked := (arguments.map (self.checkCallArgs cursor)).getD ([], {})
  let operands := arguments.elim [] fun a => a.args ++ a.keywords.map Prod.snd
  self.exprs evals cursor operands ++
  (checked.1 ++
    if isPropertyDecorator callee then []
    else
      let fname := (self.info.resolve cursor callee).bind self.resolvedFname
      (if fname.any declaredSafe then [] else self.checkCallArgLimit cursor arguments fname) ++
      (self.decoratorChain cursor callee ++
        self.decoratorEffect evals cursor callee arguments checked.2 dec.range))

/-- `check_decorators`. -/
def checkDecorators (decorators : List Decorator) : List OutputWrite :=
  decorators.flatMap (self.checkDecorator evals cursor)

/-- The head of `class_def`: what is evaluated in the enclosing scope, and the creation of the
class. A bare name is only looked up. -/
def classHead (name : Str) (arguments : ClassArguments) (range : TextRange) :
    List OutputWrite :=
  let evaluated := (arguments.args ++ arguments.keywords.map Prod.snd).filter fun e =>
    e.asVarName.isNone
  let hasMetaclass := arguments.keywords.any fun kw => decide (kw.1 = some "metaclass".toList)
  self.exprs evals cursor evaluated ++
  if !arguments.args.isEmpty || hasMetaclass then
    addEffect cursor
      { kind := .classCreation
        name := appendStr (appendStr cursor.scope name) "__init_subclass__".toList
        range := range }
  else []

/-- `check_method`. -/
def checkMethod : Stmt → List OutputWrite
  | .functionDef name _ _ _ range =>
    if name.id = "__del__".toList then
      addEffect cursor { kind := .customFinalizer, name := name.id, range := range }
    else []
  | _ => []

/-- What a statement does by itself, without the statements in it. -/
def ownWrites : Stmt → List OutputWrite
  | .assign targets value range => self.assign evals cursor targets value range
  | .annAssign target _ value => self.annAssign evals cursor target value
  | .augAssign target _ value =>
    self.storeTo evals cursor target ++ self.expr cursor evals value
  | .delete targets => targets.flatMap (self.storeTo evals cursor)
  | .expr value => self.expr cursor evals value
  | .returnValue value => self.exprs evals cursor value.toList
  | .classDef name arguments decorators _ range =>
    self.checkDecorators evals cursor decorators ++
      arguments.elim [] fun a => self.classHead evals cursor name.id a range
  | .functionDef name params decorators _ range =>
    self.checkDecorators evals cursor decorators ++
      (self.exprs evals cursor (params.filterMap Parameter.default) ++
      if cursor.scope = self.info.moduleName then self.checkReExports cursor name.id range
      else [])
  | .raise exc cause range => self.raise evals cursor exc cause range
  | .forLoop target iter _ _ => self.exprs evals cursor [target, iter]
  | .whileLoop test _ _ => self.expr cursor evals test
  | .withBlock items _ =>
    items.flatMap fun item =>
      self.expr cursor evals item.1 ++ item.2.elim [] (self.storeTo evals cursor)
  | .matchCases subject _ => self.expr cursor evals subject
  | .importNames names isLazy => addPendingImport cursor names isLazy
  | .importFrom source level names isLazy range =>
    self.importFrom cursor source level names isLazy range
  | .assert test msg => self.exprs evals cursor (test :: msg.toList)
  | .tryExcept _ _ _ _ | .ifElse _ | .typeAlias _ _ | .globalNames _ | .nonlocalNames _
  | .other => []

/-- What `stmts_with_called_imports` does before a statement. -/
def calledImportWrites : Stmt → List OutputWrite
  | .importNames names isLazy =>
    addCalledImport cursor names ++ addPendingImport cursor names isLazy
  | .importFrom source level names isLazy range =>
    self.importFrom cursor source level names isLazy range ++
      self.addImportFrom cursor source level names isLazy true
  | _ => []

/-! ## The walk -/

/-- The body of a statement without its own record, but where it stands in one. -/
abbrev Walk := Cursor → ModuleEffects → Stmt → ModuleEffects

/-- `stmts_with_called_imports`. -/
def stmtsWithCalledImports (walk : Walk) (output : ModuleEffects) (body : List Stmt) :
    ModuleEffects :=
  body.foldl (fun output s => walk cursor (output.apply (self.calledImportWrites cursor s)) s)
    output

/-- `run_body`: a function body has a record of its own, and the imports of the outermost
function are looked for in all of its body. -/
def runBody (walk : Walk) (name : Str) (body : List Stmt) (output : ModuleEffects) :
    ModuleEffects :=
  let inner := cursor.enterFunctionScope self.library name
  let output :=
    if cursor.inEagerScope then output.apply (self.checkFunctionBodyForImports inner body)
    else output
  let out := body.foldl (walk inner) {}
  { output with
    effects := output.effects.merge out.effects
    allCalledImportNames := output.allCalledImportNames ∪ out.allCalledImportNames }

/-- The body of a class, in its scope. -/
def classBody (walk : Walk) (name : Str) (body : List Stmt) (range : TextRange)
    (output : ModuleEffects) : ModuleEffects :=
  let inner := cursor.enterClassScope self.library name
  body.foldl (fun output s => walk inner (output.apply (checkMethod inner s)) s)
    (output.apply (self.checkReExports inner name range))

/-- `if_`, of one branch: the test always runs, and what the body of a guard does is
marked. -/
def ifBranch (walk : Walk) (branches : List (Option Expr × List Stmt)) (output : ModuleEffects)
    (branch : Nat × Option Expr) : ModuleEffects :=
  let output := output.apply (self.exprs evals cursor branch.2.toList)
  let guarded := output.enterMainGuard (branch.2.any AnalysisConfig.isMainGuard)
  let body := ((branches[branch.1]?).map Prod.snd).getD []
  (body.foldl (walk cursor) guarded).leaveMainGuard output.inMainGuard

/-- `stmt`, of statements nested at most `fuel` deep. -/
def stmt : Nat → Walk
  | 0, _, output, _ => output
  | fuel + 1, cursor, output, s =>
    let output := output.apply (self.ownWrites evals cursor s)
    let walk := stmt fuel
    match s with
    | .functionDef name _ _ body _ => self.runBody cursor walk name.id body output
    | .classDef name _ _ body range => self.classBody cursor walk name.id body range output
    | .withBlock _ body => self.stmtsWithCalledImports cursor walk output body
    | .tryExcept body handlers orelse finalbody =>
      let inner := cursor.enterTryBody (handlers.map extractTryHandler)
      let output := self.stmtsWithCalledImports inner walk output body
      (handlers.flatMap Prod.snd ++ (orelse ++ finalbody)).foldl (walk cursor) output
    | .ifElse branches =>
      (self.info.config.lgPrunedIfBranches branches self.info.moduleName).foldl
        (self.ifBranch evals cursor walk branches) output
    | .forLoop _ _ _ _ | .whileLoop _ _ _ | .matchCases _ _ =>
      s.children.foldl (walk cursor) output
    | _ => output

/-- `check_names_only_in_stub`. -/
def checkNamesOnlyInStub (output : ModuleEffects) : Option (List Str × TextRange) :=
  self.parsed.companionStubNames.bind fun names =>
    if names.isEmpty || decide (output.eagerImports = ∅) then none
    else
      (self.info.definitions.definitions.get? self.info.moduleName).bind fun defined =>
        let binds (name : Str) := (defined.definitions.get? name).isSome
        if !decide (defined.importAll = ∅) || binds "__getattr__".toList || names.any binds then
          none
        else some (names, (self.parsed.body.head?.map fun _ => self.parsed.firstRange).getD {})

/-- `analyze`: the record of the module. -/
def analyze : ModuleEffects :=
  let cursor := Cursor.enterModuleScope self.info.moduleName
  let output := self.parsed.body.foldl (self.stmt evals (Stmt.depths self.parsed.body) cursor) {}
  ({ output with namesOnlyInStub := self.checkNamesOnlyInStub output }).markCalledImports

end SourceAnalyzer

/-- `analyze`: a module generated from Thrift has no effects. -/
def analyze (evals : Nat) (parsed : ParsedModule) (exports : ModuleExports) (graph : ImportGraph)
    (stubs : Stubs) (config : AnalysisConfig) : AnalyzedModule :=
  let info := ModuleInfo.make parsed exports graph stubs config
  let output := SourceAnalyzer.analyze ⟨parsed, info, graph⟩ evals
  { moduleEffects := if parsed.isThriftGenerated then { output with effects := Table.empty }
      else output
    definitions := info.definitions
    classes := info.classes }

end Lifeguard
