import Lifeguard.Bindings
import Lifeguard.CallArgs
import Lifeguard.ImportGraph
import Lifeguard.KnownFunctions

/-!
# The checks of the analyzer

What an expression does when it is evaluated, as far as the tables of its module tell
(`source_analyzer.rs`). A check is what it writes; the walk over the statements
(`StatementAnalyzer`) adds that to the record.

- `checkCall`, `checkAttrImpl`, `checkSubscript`, `checkCompare`, `checkName`: one kind of
  expression;
- `checkAssignTarget`: one place that is stored to;
- `expr`: an expression and all that is evaluated with it, the text of an `eval` included.

The memo of the links of a chain is left out: it answers what the import graph does.
-/

namespace Lifeguard

open Lib

/-- `ModuleInfo`. -/
structure ModuleInfo where
  moduleName : ModuleName
  config : AnalysisConfig
  definitions : DefinitionTable
  bindings : BindingsTable
  classes : Table ModuleName ClassInfo
  exports : ModuleExports
  stubs : Stubs

namespace ModuleInfo

/-- `ModuleInfo::new`. -/
def make (parsed : ParsedModule) (exports : ModuleExports) (graph : ImportGraph) (stubs : Stubs)
    (config : AnalysisConfig) : ModuleInfo :=
  let tables := buildDefinitionsAndClasses parsed config
  { moduleName := parsed.name
    config := config
    definitions := tables.definitions
    bindings := BindingsTable.make
      { library := config.library, definitions := tables.definitions, exports := exports,
        graph := graph.nodes } parsed
    classes := tables.classes
    exports := exports
    stubs := stubs }

variable (info : ModuleInfo)

/-- `resolve_builtins`. -/
def resolveBuiltins (value : Expr) : Option ResolvedName :=
  value.baseName.bind fun name =>
    (info.stubs.builtins.definitions.get builtinsName name).map fun d =>
      { name := name, definition := d, scope := builtinsName, exprFullName := value.fullName }

/-- `resolve`. -/
def resolve (cursor : Cursor) (value : Expr) : Option ResolvedName :=
  (info.definitions.resolve cursor value).or (info.resolveBuiltins value)

end ModuleInfo

/-! ## Arguments -/

/-- `into_effect_data`. -/
def CallData.intoEffectData (data : CallData) : EffectData :=
  if data.hasUnsafeArgs || !data.forwardedParams.isEmpty then .call data else .none

/-- `CallKind`. -/
inductive CallKind
  | function
  | method
  | decorator
  deriving DecidableEq, Repr

/-- `unknown_call_effect`. -/
def CallKind.unknownCallEffect : CallKind → EffectKind
  | .function => .unknownFunctionCall
  | .method => .unknownMethodCall
  | .decorator => .unknownDecoratorCall

/-- `Arguments`, of a call. -/
structure CallArguments where
  args : List Expr
  keywords : List (Option Str × Expr)
  range : TextRange

/-- The expression of an argument, and whether it is starred. -/
def unstarred : Expr → Bool × Expr
  | .starred value _ _ => (true, value)
  | e => (false, e)

/-! ## What is read off the syntax -/

/-- `modules_attr_receiver`. -/
def modulesAttrReceiver : Expr → Option Expr
  | .attribute value attr _ _ _ => if attr = "modules".toList then some value else none
  | _ => none

/-- `sys_module_aliases`. -/
def sysModuleAliases (body : List Stmt) : List Str :=
  (body.flatMap Stmt.all).flatMap fun s =>
    match s with
    | .importNames names _ =>
      (names.filter fun a => decide (a.name.id = "sys".toList)).map fun a => a.bound.id
    | _ => []

/-- `is_sys_modules_expr`. -/
def isSysModulesExpr (aliases : List Str) (e : Expr) : Bool :=
  ((modulesAttrReceiver e).bind Expr.asVarName).any fun name => decide (name ∈ aliases)

/-- `string_literal_module`. -/
def stringLiteralModule : Expr → Option ModuleName
  | .stringLiteral key _ => if key = [] then none else some key
  | _ => none

/-- The key that a test asks for. -/
def probedKey (aliases : List Str) : Expr → Option ModuleName
  | .compare left [op] (right :: _) _ =>
    if (op = .mem ∨ op = .notMem) ∧ isSysModulesExpr aliases right then stringLiteralModule left
    else none
  | _ => none

/-- `sys_modules_probed_keys`. -/
def sysModulesProbedKeys (body : List Stmt) : List ModuleName :=
  ((body.flatMap Stmt.all).flatMap fun s => s.exprs.flatMap (Expr.walked .everywhere)).filterMap
    (probedKey (sysModuleAliases body))

/-- `EXPECTED_IN_SYS_MODULES`. -/
def expectedInSysModules : List Str :=
  ["__main__".toList, "builtins".toList, "sys".toList]

/-- `THREAD_LOCAL_CLASSES`. -/
def threadLocalClasses : List Str := ["threading.local".toList, "_thread._local".toList]

/-- `is_builtin_literal`. -/
def isBuiltinLiteral : Expr → Bool
  | .stringLiteral _ _ | .display _ _ _ => true
  | .literal kind _ => decide (kind ≠ .none) && decide (kind ≠ .ellipsis)
  | .comprehension kind _ _ _ => decide (kind ≠ .generator)
  | _ => false

/-- The links of a chain of attributes. -/
def chainLinks : Expr → List Str
  | .attribute value attr _ _ _ => chainLinks value ++ [attr]
  | _ => []

/-- `get_import_chain_string`, with an attribute at the end. -/
def getImportChainString (library : ParserLibrary) (obj : Expr) (attr resName : Str) :
    ModuleName :=
  library.fromParts (resName :: (chainLinks obj ++ [attr]))

/-- `is_property_decorator`. -/
def isPropertyDecorator : Expr → Bool
  | .attribute _ attr _ _ _ =>
    decide (attr = "setter".toList) || decide (attr = "getter".toList) ||
      decide (attr = "deleter".toList)
  | _ => false

/-- The name of an unknown call, and none where the receiver is a literal. -/
def unknownCallName : Expr → Option Str
  | .attribute value _ _ _ _ =>
    if isBuiltinLiteral value then none
    else
      match value with
      | .call _ _ _ _ _ => some "<chained method>".toList
      | _ => some "<unknown method>".toList
  | .subscript _ _ _ _ => some "<subscript>".toList
  | _ => some "<unknown>".toList

/-- The descent of `thread_local_base`: the classes seen, and those still to be looked at. -/
def threadLocalFrom (classes : Table ModuleName ClassInfo) : Nat → List ModuleName →
    List ModuleName → Bool
  | _, _, [] => false
  | 0, _, _ => false
  | fuel + 1, seen, typ :: pending =>
    if typ ∈ threadLocalClasses then true
    else if typ ∈ seen then threadLocalFrom classes fuel seen pending
    else
      let bases := ((classes.get? typ).map fun cls => cls.bases).getD []
      threadLocalFrom classes fuel (typ :: seen) (bases.reverse ++ pending)

/-! ## The analyzer -/

/-- `SourceAnalyzer`. -/
structure SourceAnalyzer where
  parsed : ParsedModule
  info : ModuleInfo
  importGraph : ImportGraph

namespace SourceAnalyzer

variable (self : SourceAnalyzer) (cursor : Cursor)

/-- The parser library. -/
abbrev library : ParserLibrary := self.info.config.library

/-- The graph has the module. -/
def isModule (name : ModuleName) : Bool := decide (name ∈ self.importGraph.nodes)

/-- `add_effect`: a runnable effect keeps the handlers of the `try` bodies around it. -/
def addEffect (eff : Effect) : List OutputWrite :=
  [.effect cursor.scope
    (if eff.kind.isRunnable && cursor.inTryBody then eff.withTryHandlers cursor.tryHandlers
      else eff)]

/-! ### What the tables say of a resolved name -/

/-- `thread_local_base`. -/
def threadLocalBase (typ : ModuleName) : Option ModuleName :=
  let bases := (self.info.classes.entries.map fun e => e.2.bases.length).sum
  if threadLocalFrom self.info.classes (bases + 1) [] [typ] then some "_thread._local".toList
  else none

/-- The type of the value a resolved name is bound to. -/
def typeOf (res : ResolvedName) : Option ModuleName :=
  self.info.bindings.getType res.scope res.name

/-- `resolves_to_import`. -/
def resolvesToImport (expr : Expr) : Bool :=
  (self.info.resolve cursor expr).any ResolvedName.isImport

/-- `is_import_alias`. -/
def isImportAlias (obj : Expr) : Bool :=
  obj.asVarName.any fun name =>
    match self.info.bindings.lookupAlias cursor.scope name with
    | some (.global _) => true
    | _ => false

/-- `receiver_param`: the parameter that a name is, or is an alias of. -/
def receiverParam (res : ResolvedName) : Option (ModuleName × Str) :=
  if res.definition.isParam then some (res.scope, res.name)
  else
    match self.info.bindings.resolve res.scope res.name with
    | some (.localName s n) =>
      if (self.info.definitions.get s n).any Definition.isParam then some (s, n) else none
    | _ => none

/-- The bindings say that the name is a class. -/
def boundToClass (scope : ModuleName) (name : Str) : Bool :=
  match self.info.bindings.lookup scope name with
  | some (.classOf _) => true
  | _ => false

/-- `receiver_is_class`. -/
def receiverIsClass (res : ResolvedName) : Bool :=
  if res.definition.isClass then true
  else if self.boundToClass res.scope res.name then true
  else
    match self.info.bindings.resolve res.scope res.name with
    | some (.global (.classOf _)) => true
    | some (.localName s n) =>
      (self.info.definitions.get s n).any Definition.isClass || self.boundToClass s n
    | _ => false

/-- `fname_replace_import_alias`. -/
def fnameReplaceImportAlias (callName : ModuleName) (res : ResolvedName) : Option ModuleName :=
  match self.info.bindings.aliasTable.resolveQualifiedGlobalAlias self.library res callName with
  | .resolved _ qualified _ => some qualified
  | .noAlias | .unusableAlias => none

/-- `resolved_fname`. -/
def resolvedFname (res : ResolvedName) : Option ModuleName :=
  res.exprFullName.map fun callName =>
    (self.fnameReplaceImportAlias callName res).getD (res.qualifiedName self.library)

/-- `call_target_name`: a method of a typed receiver is that of its class. -/
def callTargetName (func : Expr) : Option ModuleName :=
  (self.info.resolve cursor func).bind fun res =>
    match func with
    | .attribute _ attr _ _ _ =>
      match self.typeOf res with
      | some typ => some (appendStr typ attr)
      | none => self.resolvedFname res
    | _ => self.resolvedFname res

/-- The class that a call of the name returns. -/
def resultClass (name : ModuleName) : Option ModuleName :=
  if self.info.exports.isClass name then some name
  else
    match self.info.exports.resolveReturnClass name with
    | some cls => some cls
    | none => if self.info.exports.isKnownSymbol name then none else some name

/-- `chained_call_method`, with `call_result_class` of the receiver. -/
def chainedCallMethod : Expr → Option ModuleName
  | .attribute (.call receiver _ _ _ _) attr _ _ _ =>
    (((chainedCallMethod receiver).or (self.callTargetName cursor receiver)).bind
      self.resultClass).map fun cls => appendStr cls attr
  | _ => none

/-- `super_call_method`. -/
def superCallMethod : Expr → Option ModuleName
  | .attribute (.call receiver [] _ _ _) attr _ _ _ =>
    if self.callTargetName cursor receiver = some (appendStr builtinsName "super".toList) then
      cursor.enclosingClassScope.map fun cls => appendStr cls attr
    else none
  | _ => none

/-- `imported_chain`: the module a chain names, and its longest prefix that is one. -/
def importedChain : Expr → Option (ModuleName × Option ModuleName)
  | .attribute value attr _ _ _ =>
    (importedChain value).map fun chain =>
      let next := self.library.append chain.1 attr
      (next, if self.isModule next then some next else chain.2)
  | x =>
    ((self.info.resolve cursor x).filter ResolvedName.isImport).bind fun res =>
      (res.qualifyImportAccess self.library res.name).map fun base =>
        (base, if self.isModule base then some base else none)

/-- `is_sys_modules_access`. -/
def isSysModulesAccess (expr : Expr) : Bool :=
  ((modulesAttrReceiver expr).bind (self.info.resolve cursor)).any fun res =>
    decide (res.importedTarget self.library = some "sys".toList)

/-- `sys_modules_key` and `sys_modules_read_likely_safe`. -/
def sysModulesReadLikelySafe (slice : Expr) (ctx : ExprContext) : Bool :=
  let reader := self.info.moduleName
  ((if ctx = .load then stringLiteralModule slice else none).any fun key =>
    decide (key ∈ expectedInSysModules) || decide (reader = key) ||
      ((iterParents reader).any fun p => decide (p.1 = key)) ||
      cursor.namesException "KeyError".toList ||
      decide (key ∈ sysModulesProbedKeys self.parsed.body))

/-- `may_mutate_receiver`. -/
def mayMutateReceiver (typ : ModuleName) (method : Str) : Bool :=
  match self.info.stubs.get ((self.library.parent typ).getD typ) with
  | none => true
  | some stub =>
    stub.moduleEffects.scopeHasEffect (self.library.append typ method) .mutation

/-- `call_effect_from_stub`. -/
def callEffectFromStub (fname : ModuleName) : Bool :=
  (splitAttr fname).any fun p =>
    (self.info.stubs.get p.1).any fun stub => (stub.definitions.get p.1 p.2).isSome

/-- The module that the expression imports, where it is a call of `import_module`. -/
def importedByCall (value : Expr) : Option ModuleName :=
  (self.info.definitions.importModuleState cursor.scope).matchCall self.library value

/-! ### Small checks -/

/-- `add_sys_modules_access`. -/
def addSysModulesAccess (range : TextRange) : List OutputWrite :=
  addEffect cursor { kind := .sysModulesAccess, name := "sys.modules".toList, range := range }

/-- `add_param_method_call`, in the scope of the parameter. -/
def addParamMethodCall (param : ModuleName × Str) (range : TextRange) : List OutputWrite :=
  [.effect param.1 { kind := .paramMethodCall, name := param.2, range := range }]

/-- `imported_store_effect`. -/
def importedStoreEffect (res : ResolvedName) (attr : Option Str) (range : TextRange) : Effect :=
  if attr = some "__import__".toList ∧ res.importParent = some builtinsName then
    { kind := .builtinsImportOverride, name := "builtins.__import__".toList, range := range }
  else { kind := .importedVarMutation, name := res.name, range := range }

/-- `unknown_function_name`. -/
def unknownFunctionName (func : Expr) : List OutputWrite :=
  (unknownCallName func).elim [] fun name =>
    addEffect cursor { kind := .unknownFunctionCall, name := name, range := func.range }

/-- `check_thread_local_store`. -/
def checkThreadLocalStore (obj : Expr) (ctx : ExprContext) (range : TextRange) :
    List OutputWrite :=
  let base := obj.asVarName.bind fun _ =>
    (self.info.resolve cursor obj).bind fun res => (self.typeOf res).bind self.threadLocalBase
  base.elim [] fun base =>
    let hook := if ctx = .del then "__delattr__".toList else "__setattr__".toList
    addEffect cursor { kind := .methodCall, name := appendStr base hook, range := range }

/-- `classify_call_arg`: what it writes, and the class. -/
def classifyCallArg (arg : Expr) : List OutputWrite × ArgClass :=
  match self.info.resolve cursor arg with
  | none => ([], .other)
  | some res =>
    if res.isImport || self.isImportAlias cursor arg then
      (addEffect cursor { kind := .importedVarArgument, name := res.name, range := arg.range },
        .imported)
    else
      match self.receiverParam res with
      | some (scope, param) =>
        if cursor.currentFunctionScope = some scope then ([], .forwardedParam param)
        else ([], .other)
      | none => ([], .other)

/-- `check_call_args`: what it writes, and the record of the arguments. -/
def checkCallArgs (arguments : CallArguments) : List OutputWrite × CallData :=
  let positional := arguments.args.map fun arg =>
    ((unstarred arg).1, self.classifyCallArg cursor (unstarred arg).2)
  let keywords := arguments.keywords.map fun kw => (kw.1, self.classifyCallArg cursor kw.2)
  (positional.flatMap (fun a => a.2.1) ++ keywords.flatMap (fun a => a.2.1),
    Lifeguard.checkCallArgs (positional.map fun a => ⟨a.1, a.2.2⟩)
      (keywords.map fun a => ⟨a.1, a.2.2⟩))

/-- `check_call_arg_limit`. -/
def checkCallArgLimit (arguments : Option CallArguments) (fname : Option ModuleName) :
    List OutputWrite :=
  arguments.elim [] fun arguments =>
    if maxArgs < arguments.args.length && !fname.any self.callEffectFromStub then
      addEffect cursor { kind := .tooManyArgs, name := [], range := arguments.range }
    else []

/-! ### Attributes -/

/-- The property or the attribute of a class in another module that an access may run. -/
def checkTypedAttr (obj : Expr) (attr : Str) (res : ResolvedName) : List OutputWrite :=
  let onType (kind : EffectKind) (typ : ModuleName) :=
    if "builtins.".toList.isPrefixOf typ then []
    else addEffect cursor
      { kind := kind, name := self.library.append typ attr, range := obj.range }
  match self.typeOf res with
  | some typ =>
    match self.info.classes.get? typ with
    | some cls =>
      if (cls.getField attr).any fun field => decide (field.kind = .property) then
        addEffect cursor
          { kind := .methodCall
            name := res.qualifyName (self.library.append cls.name attr)
            range := obj.range }
      else []
    | none => if self.info.exports.isClass typ then onType .importedTypeAttr typ else []
  | none =>
    (self.info.bindings.getUnconfirmedType res.scope res.name).elim []
      (onType .unconfirmedTypeAttr)

/-- The submodule that a chain through an import needs. -/
def checkImportAccess (obj : Expr) (attr : Str) (res : ResolvedName) : List OutputWrite :=
  let access := getImportChainString self.library obj attr res.name
  (res.qualifyImportAccess self.library access).elim [] fun fullModule =>
    if res.importedTarget self.library = some fullModule then []
    else [.calledImport fullModule cursor.scope]

/-- `check_attr_impl`. -/
def checkAttrImpl (obj : Expr) (attr : Str) (attrRange : TextRange) (ctx : ExprContext) :
    List OutputWrite :=
  match self.info.resolve cursor obj with
  | none =>
    obj.fullName.elim [] fun fname =>
      addEffect cursor { kind := .unknownObject, name := fname, range := obj.range }
  | some res =>
    let range := obj.range.cover attrRange
    let stored := decide (ctx = .store)
    self.checkTypedAttr cursor obj attr res ++
      ((if res.isImport then
          self.checkImportAccess cursor obj attr res ++
            if stored then addEffect cursor (importedStoreEffect res (some attr) range) else []
        else []) ++
      if stored then self.checkThreadLocalStore cursor obj ctx range else [])

/-! ### Subscripts, comparisons and names -/

/-- `check_subscript`. -/
def checkSubscript (value slice : Expr) (ctx : ExprContext) (range : TextRange) :
    List OutputWrite :=
  if self.isSysModulesAccess cursor value then
    if self.sysModulesReadLikelySafe cursor slice ctx then []
    else addSysModulesAccess cursor range
  else if ctx = .load then []
  else
    match self.info.resolve cursor value with
    | none => []
    | some res =>
      (if res.isImport || self.isImportAlias cursor value then
          addEffect cursor { kind := .importedVarMutation, name := res.name, range := value.range }
        else []) ++
      (self.receiverParam res).elim [] fun param => addParamMethodCall param value.range

/-- `check_compare`. -/
def checkCompare (left : Expr) (comparators : List Expr) : List OutputWrite :=
  (left :: comparators).flatMap fun e =>
    match self.info.resolve cursor e with
    | some res =>
      if res.isImport then
        addEffect cursor { kind := .unknownValueBinaryOp, name := res.name, range := left.range }
      else []
    | none => []

/-- `check_name`. -/
def checkName (x : Expr) (id : Str) : List OutputWrite :=
  [.readName id cursor.scope
    (((self.info.resolve cursor x).filter ResolvedName.isImport).bind
      ResolvedName.importParent)]

/-! ### Stores -/

/-- The last branch of `check_assign_target`: a name of the scope itself. -/
def checkLocalTarget (target : Expr) (res : ResolvedName) : List OutputWrite :=
  match target with
  | .subscript value slice ctx range => self.checkSubscript cursor value slice ctx range
  | .attribute _ _ _ _ _ =>
    (self.receiverParam res).elim [] fun param => addParamMethodCall param target.range
  | _ => []

/-- A store to what a name resolves to. -/
def checkResolvedTarget (target : Expr) (res : ResolvedName) : List OutputWrite :=
  if res.isImport then
    let attr :=
      match target with
      | .attribute _ attr _ _ _ => some attr
      | _ => none
    addEffect cursor (importedStoreEffect res attr target.range)
  else
    (match target with
      | .attribute value _ _ ctx _ => self.checkThreadLocalStore cursor value ctx target.range
      | _ => []) ++
    if res.isGlobal then
      addEffect cursor { kind := .globalVarAssign, name := res.name, range := target.range }
    else if res.scope = self.info.moduleName ∧ res.scope ≠ cursor.scope then
      addEffect cursor { kind := .globalVarMutation, name := res.name, range := target.range }
    else self.checkLocalTarget cursor target res

/-- `check_assign_target`, of one place that is stored to. -/
def checkTargetLeaf (target : Expr) : List OutputWrite :=
  match target with
  | .name _ .del _ => []
  | _ =>
    let sysModules :=
      match target with
      | .subscript value _ _ _ => self.isSysModulesAccess cursor value
      | _ => false
    if sysModules then addSysModulesAccess cursor target.range
    else (self.info.resolve cursor target).elim [] (self.checkResolvedTarget cursor target)

/-- `check_assign_target`. -/
def checkAssignTarget (target : Expr) : List OutputWrite :=
  target.targetLeaves.flatMap (self.checkTargetLeaf cursor)

/-! ### Calls -/

/-- `check_getattr`. -/
def checkGetattr (arguments : CallArguments) : List OutputWrite :=
  match arguments.args with
  | obj :: attr :: _ =>
    match attr with
    | .stringLiteral value range => self.checkAttrImpl cursor obj value range .load
    | _ =>
      addEffect cursor
        { kind := .prohibitedFunctionCall, name := "getattr".toList, range := attr.range }
  | _ => []

/-- `check_setattr`. -/
def checkSetattr (arguments : CallArguments) : List OutputWrite :=
  match arguments.args with
  | obj :: attr :: _ :: _ =>
    match attr with
    | .stringLiteral value range =>
      self.checkAttrImpl cursor obj value range .store ++
        if self.resolvesToImport cursor obj then [] else self.checkAssignTarget cursor obj
    | _ =>
      addEffect cursor
          { kind := .prohibitedFunctionCall, name := "setattr".toList, range := attr.range } ++
        self.checkAssignTarget cursor obj
  | _ => []

/-- Only the effects are taken over from an evaluated text, at the place of the call. -/
def evaluatedAt (range : TextRange) (ws : List OutputWrite) : List OutputWrite :=
  (effectsOf ws).map fun e => .effect e.1 { e.2 with range := range }

/-- `check_eval`; `evaluated` is the check of an expression. -/
def checkEval (evaluated : Expr → List OutputWrite) (arguments : Option CallArguments)
    (fname : ModuleName) (range : TextRange) : List OutputWrite :=
  let unknown := addEffect cursor { kind := .execCall, name := fname, range := range }
  match (arguments.map CallArguments.args).getD [] with
  | [] => []
  | .stringLiteral code _ :: _ =>
    if code = [] then []
    else
      match self.library.parseExpr code with
      | some e => evaluatedAt range (evaluated e)
      | none => unknown
  | _ => unknown

/-- The names of the calls that `check_unresolved_call` knows by themselves, and the other
builtins. -/
def checkBuiltinCall (evaluated : Expr → List OutputWrite) (func : Expr)
    (arguments : Option CallArguments) (callKind : Option CallKind) (fname : ModuleName) :
    List OutputWrite :=
  let builtins := self.info.stubs.asBuiltins
  if fname = "getattr".toList then arguments.elim [] (self.checkGetattr cursor)
  else if fname = "setattr".toList then arguments.elim [] (self.checkSetattr cursor)
  else if fname = "exec".toList then
    addEffect cursor { kind := .execCall, name := fname, range := func.range }
  else if fname = "eval".toList then self.checkEval cursor evaluated arguments fname func.range
  else
    match builtins.callEffect self.library func with
    | some eff => addEffect cursor eff
    | none =>
      if fname = "type.__new__".toList ∨ fname = "type.__init__".toList then []
      else if builtins.isKnownBuiltin self.library func then []
      else
        let kind := (callKind.map CallKind.unknownCallEffect).getD .unknownFunctionCall
        addEffect cursor { kind := kind, name := fname, range := func.range }

/-- The function is `sys.modules.<attr>`. -/
def isSysModulesMethod (func : Expr) : Bool :=
  match func with
  | .attribute value _ _ _ _ => self.isSysModulesAccess cursor value
  | _ => false

/-- `check_unresolved_call`. -/
def checkUnresolvedCall (evaluated : Expr → List OutputWrite) (func : Expr)
    (arguments : Option CallArguments) (callKind : Option CallKind) : List OutputWrite :=
  match func.fullName with
  | none => unknownFunctionName cursor func
  | some fname =>
    if self.isSysModulesMethod cursor func then addSysModulesAccess cursor func.range
    else self.checkBuiltinCall cursor evaluated func arguments callKind fname

/-- `get_method_definition_source_name`. -/
def getMethodDefinitionSourceName (attr : Str) (value : ModuleName) : Option ModuleName :=
  (self.info.exports.resolveTransitive (fromModuleName value)).map fun source =>
    self.library.append (asModuleName source) attr

/-- `check_indirectly_called_method`. -/
def checkIndirectlyCalledMethod (fname : ModuleName) (res : ResolvedName) (attr : Str) :
    List OutputWrite :=
  (((self.info.bindings.lookup res.scope res.name).bind Value.asModuleName).bind
    (self.getMethodDefinitionSourceName attr)).elim [] fun source =>
      [.indirectMethod fname source]

/-- `check_param_method_mutation`. -/
def checkParamMethodMutation (param : ModuleName × Str) (typ : Option ModuleName) (attr : Str)
    (range : TextRange) : List OutputWrite :=
  if typ.all fun t => self.mayMutateReceiver t attr then addParamMethodCall param range else []

/-- `check_global_receiver_mutation`. -/
def checkGlobalReceiverMutation (res : ResolvedName) (typ : Option ModuleName) (attr : Str)
    (range : TextRange) : List OutputWrite :=
  let isGlobalReceiver := res.isGlobal ||
    (decide (res.scope = self.info.moduleName) && decide (cursor.scope ≠ self.info.moduleName))
  if isGlobalReceiver && typ.any fun t => self.mayMutateReceiver t attr then
    addEffect cursor { kind := .globalVarMutation, name := res.name, range := range }
  else []

/-- `handle_method_call`, of a method of what a name resolves to. -/
def methodCall (attr : Str) (res : ResolvedName) (fname : ModuleName) (range : TextRange)
    (data : EffectData) : List OutputWrite :=
  let typ := self.typeOf res
  let fname := (typ.map fun t => self.library.append t attr).getD fname
  let receiver := self.receiverParam res
  let isSafeBuiltinMethod := receiver.isSome && typ.isNone &&
    self.info.stubs.isMethodSafeInBuiltins attr
  let kind := if self.receiverIsClass res then EffectKind.unboundMethodCall else .methodCall
  (if isSafeBuiltinMethod then []
    else addEffect cursor { kind := kind, name := fname, range := range, data := data }) ++
  (self.checkIndirectlyCalledMethod fname res attr ++
    ((if isSafeBuiltinMethod then []
        else receiver.elim [] fun param => self.checkParamMethodMutation param typ attr range) ++
      self.checkGlobalReceiverMutation cursor res typ attr range))

/-- `handle_method_call`: none where the call is not that of a method. -/
def handleMethodCall (func : Expr) (res : ResolvedName) (fname : ModuleName) (range : TextRange)
    (data : EffectData) : Option (List OutputWrite) :=
  match func with
  | .attribute _ attr _ _ _ =>
    match res.definition.style with
    | .annotated _ _ | .unannotated _ => some (self.methodCall cursor attr res fname range data)
    | _ => none
  | _ => none

/-- `resolve_function_name`: what it writes, and the name. -/
def resolveFunctionName (evaluated : Expr → List OutputWrite) (func : Expr)
    (arguments : Option CallArguments) :
    List OutputWrite × Option (ResolvedName × ModuleName) :=
  match self.info.resolve cursor func with
  | none => (self.checkUnresolvedCall cursor evaluated func arguments none, none)
  | some res =>
    if res.scope = builtinsName then
      (self.checkUnresolvedCall cursor evaluated func arguments none, none)
    else
      match self.resolvedFname res with
      | none => (unknownFunctionName cursor func, none)
      | some fname => ([], some (res, fname))

/-- The last part of `check_unpacked_call`: a call of a function with a name. -/
def namedCall (func : Expr) (res : ResolvedName) (fname : ModuleName) (range : TextRange)
    (data : EffectData) : List OutputWrite :=
  .calledFunction fname ::
    if declaredSafe fname then []
    else
      (self.handleMethodCall cursor func res fname range data).getD
        (addEffect cursor
          { kind := if res.isImport then .importedFunctionCall else .functionCall
            name := fname
            range := range
            data := data })

/-- `check_unpacked_call`, past the arguments. -/
def unpackedCall (evaluated : Expr → List OutputWrite) (func : Expr)
    (arguments : CallArguments) (range : TextRange) (data : CallData) : List OutputWrite :=
  if self.isSysModulesMethod cursor func then addSysModulesAccess cursor range
  else
    let data := data.intoEffectData
    match self.superCallMethod cursor func with
    | some fname =>
      addEffect cursor { kind := .superMethodCall, name := fname, range := range, data := data }
    | none =>
      match self.chainedCallMethod cursor func with
      | some fname =>
        .calledFunction fname ::
          addEffect cursor { kind := .methodCall, name := fname, range := range, data := data }
      | none =>
        let resolved := self.resolveFunctionName cursor evaluated func (some arguments)
        resolved.1 ++
          (self.checkCallArgLimit cursor (some arguments) (resolved.2.map Prod.snd) ++
            resolved.2.elim [] fun r => self.namedCall cursor func r.1 r.2 range data)

/-- `check_unpacked_call`. -/
def checkUnpackedCall (evaluated : Expr → List OutputWrite) (func : Expr)
    (arguments : CallArguments) (range : TextRange) : List OutputWrite :=
  let checked := self.checkCallArgs cursor arguments
  checked.1 ++ self.unpackedCall cursor evaluated func arguments range checked.2

/-- `check_subclasses_access`. -/
def checkSubclassesAccess (func : Expr) : List OutputWrite :=
  match func with
  | .attribute value attr _ _ _ =>
    if attr = "__subclasses__".toList then
      let base := ((self.info.resolve cursor value).filter fun res =>
        res.definition.isClass || res.isImport).bind (ResolvedName.tryQualifiedName self.library)
      addEffect cursor
        { kind := .subclassesAccess
          name := (base.map fun b => appendStr b attr).getD attr
          range := func.range }
    else []
  | _ => []

/-- `check_call`. -/
def checkCall (evaluated : Expr → List OutputWrite) (call func : Expr)
    (arguments : CallArguments) : List OutputWrite :=
  self.checkSubclassesAccess cursor func ++
    match self.importedByCall cursor call with
    | some imported => [.pendingImport imported cursor.scope]
    | none => self.checkUnpackedCall cursor evaluated func arguments call.range

/-! ### Expressions -/

/-- The check of one expression, but for those in it. -/
def checkNode (evaluated : Expr → List OutputWrite) (x : Expr) : List OutputWrite :=
  match x with
  | .call func args keywords argsRange _ =>
    self.checkCall cursor evaluated x func ⟨args, keywords, argsRange⟩
  | .attribute value attr attrRange ctx _ => self.checkAttrImpl cursor value attr attrRange ctx
  | .subscript value slice ctx range => self.checkSubscript cursor value slice ctx range
  | .compare left _ comparators _ => self.checkCompare cursor left comparators
  | .name id _ _ => self.checkName cursor x id
  | _ => []

/-- `expr`, with texts that are evaluated in texts at most `evals` deep. -/
def expr : Nat → Expr → List OutputWrite
  | 0, x => (x.walked .evaluated).flatMap (self.checkNode cursor fun _ => [])
  | evals + 1, x => (x.walked .evaluated).flatMap (self.checkNode cursor (expr evals))

end SourceAnalyzer

end Lifeguard
