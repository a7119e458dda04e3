import Lifeguard.Effects

/-!
# Python syntax

The parsed syntax of a module, and the configuration that prunes the branches of an `if`
(`config.rs`). What the parser library computes about a module is a parameter
(`ParserLibrary`).

- `Expr`, `Stmt`: expressions and statements; `TextRange` locates them.
- `Expr.walked`: an expression and what is in it, in the order a visitor meets them.
- `Stmt.children`: the statements right inside a statement.
- `AnalysisConfig.lgPrunedIfBranches`: the branches of an `if` that are kept.

Expressions that no modelled function tells apart are one constructor (`operation`), by
their operands; annotations are left out, but for that of a declared variable.
-/

namespace Lifeguard

/-- `TextRange::cover`. -/
def TextRange.cover (a b : TextRange) : TextRange := ⟨min a.start b.start, max a.stop b.stop⟩

/-- `TextRange::contains_range`. -/
def TextRange.containsRange (a b : TextRange) : Bool :=
  decide (a.start ≤ b.start) && decide (b.stop ≤ a.stop)

/-- `CmpOp`. -/
inductive CmpOp
  | eq
  | notEq
  | lt
  | ltE
  | gt
  | gtE
  | is
  | isNot
  | mem
  | notMem
  deriving DecidableEq, Repr

/-- `ExprContext`. -/
inductive ExprContext
  | load
  | store
  | del
  | invalid
  deriving DecidableEq, Repr

/-- The literals without parts. -/
inductive LiteralKind
  | bytes
  | int
  | float
  | complex
  | boolean
  | none
  | ellipsis
  deriving DecidableEq, Repr

/-- The displays and the formatted strings. -/
inductive DisplayKind
  | list
  | tuple
  | set
  | dict
  | fString
  | tString
  deriving DecidableEq, Repr

/-- The comprehensions. -/
inductive ComprehensionKind
  | listComp
  | setComp
  | dictComp
  | generator
  deriving DecidableEq, Repr

/-- `Expr`. A keyword argument without a name is `**value`; a generator of a comprehension is
its target, and its iterable with its conditions. -/
inductive Expr
  | name (id : Str) (ctx : ExprContext) (range : TextRange)
  | attribute (value : Expr) (attr : Str) (attrRange : TextRange) (ctx : ExprContext)
      (range : TextRange)
  | subscript (value slice : Expr) (ctx : ExprContext) (range : TextRange)
  | call (func : Expr) (args : List Expr) (keywords : List (Option Str × Expr))
      (argsRange range : TextRange)
  | compare (left : Expr) (ops : List CmpOp) (comparators : List Expr) (range : TextRange)
  | lambda (defaults : List Expr) (body : Expr) (range : TextRange)
  | named (target value : Expr) (range : TextRange)
  | starred (value : Expr) (ctx : ExprContext) (range : TextRange)
  | stringLiteral (value : Str) (range : TextRange)
  | literal (kind : LiteralKind) (range : TextRange)
  | display (kind : DisplayKind) (elts : List Expr) (range : TextRange)
  | comprehension (kind : ComprehensionKind) (elts : List Expr)
      (generators : List (Expr × List Expr)) (range : TextRange)
  | operation (operands : List Expr) (range : TextRange)

namespace Expr

/-- `Ranged::range`. -/
def range : Expr → TextRange
  | .name _ _ r | .attribute _ _ _ _ r | .subscript _ _ _ r | .call _ _ _ _ r
  | .compare _ _ _ r | .lambda _ _ r | .named _ _ r | .starred _ _ r | .stringLiteral _ r
  | .literal _ r | .display _ _ r | .comprehension _ _ _ r | .operation _ r => r

/-- `ExprExt::base_name`. -/
def baseName : Expr → Option Str
  | .name id _ _ => some id
  | .attribute value _ _ _ _ => value.baseName
  | .subscript value _ _ _ => value.baseName
  | _ => none

/-- `ExprExt::full_name`. -/
def fullName : Expr → Option ModuleName
  | .name id _ _ => some id
  | .attribute value attr _ _ _ => value.fullName.map fun x => appendStr x attr
  | _ => none

/-- `ExprExt::as_var_name`. -/
def asVarName : Expr → Option Str
  | .name id _ _ => some id
  | _ => none

/-- How far a visitor goes: into what is evaluated with the expression, into what binds a
name of the enclosing scope, or everywhere. -/
inductive Walk
  | evaluated
  | binding
  | everywhere
  deriving DecidableEq, Repr

mutual

/-- The expression and what is in it, the outer one first. The body of a `lambda` is not
evaluated with it; a comprehension and a `lambda` are scopes of their own, and a named
expression binds its target. -/
def walked (w : Walk) : Expr → List Expr
  | .name id ctx r => [.name id ctx r]
  | .attribute value attr ar ctx r => .attribute value attr ar ctx r :: walked w value
  | .subscript value slice ctx r =>
    .subscript value slice ctx r :: (walked w value ++ walked w slice)
  | .call func args keywords ar r =>
    .call func args keywords ar r ::
      (walked w func ++ (walkedAll w args ++ walkedKeywords w keywords))
  | .compare left ops comparators r =>
    .compare left ops comparators r :: (walked w left ++ walkedAll w comparators)
  | .lambda defaults body r =>
    .lambda defaults body r ::
      (match w with
        | .evaluated => walkedAll w defaults
        | .binding => []
        | .everywhere => walkedAll w defaults ++ walked w body)
  | .named target value r =>
    .named target value r ::
      (match w with
        | .binding => walked w target
        | _ => walked w target ++ walked w value)
  | .starred value ctx r => .starred value ctx r :: walked w value
  | .stringLiteral value r => [.stringLiteral value r]
  | .literal kind r => [.literal kind r]
  | .display kind elts r => .display kind elts r :: walkedAll w elts
  | .comprehension kind elts generators r =>
    .comprehension kind elts generators r ::
      (match w with
        | .binding => []
        | _ => walkedAll w elts ++ walkedGenerators w generators)
  | .operation operands r => .operation operands r :: walkedAll w operands

/-- Expressions one after another. -/
def walkedAll (w : Walk) : List Expr → List Expr
  | [] => []
  | e :: rest => walked w e ++ walkedAll w rest

/-- The values of keyword arguments. -/
def walkedKeywords (w : Walk) : List (Option Str × Expr) → List Expr
  | [] => []
  | kw :: rest => walkedKeyword w kw ++ walkedKeywords w rest

/-- The value of a keyword argument. -/
def walkedKeyword (w : Walk) : Option Str × Expr → List Expr
  | (_, value) => walked w value

/-- The generators of a comprehension. -/
def walkedGenerators (w : Walk) : List (Expr × List Expr) → List Expr
  | [] => []
  | g :: rest => walkedGenerator w g ++ walkedGenerators w rest

/-- A generator of a comprehension. -/
def walkedGenerator (w : Walk) : Expr × List Expr → List Expr
  | (target, rest) => walked w target ++ walkedAll w rest

end

mutual

/-- The places a target stores to: a list or a tuple stores to each of its elements. -/
def targetLeaves : Expr → List Expr
  | .display .list elts _ => targetsLeaves elts
  | .display .tuple elts _ => targetsLeaves elts
  | .starred value _ _ => targetLeaves value
  | e => [e]

/-- The places targets store to. -/
def targetsLeaves : List Expr → List Expr
  | [] => []
  | e :: rest => targetLeaves e ++ targetsLeaves rest

end

/-- `Ast::expr_lvalue`: the names a target binds, each with its location. -/
def lvalues (target : Expr) : List (Str × TextRange) :=
  target.targetLeaves.filterMap fun e =>
    match e with
    | .name id _ r => some (id, r)
    | _ => none

mutual

/-- The dotted chains in an expression, each by its last link; `inChain` says that the
expression is a link of one. -/
def chains (inChain : Bool) : Expr → List Expr
  | .name _ _ _ => []
  | .attribute value attr ar ctx r =>
    (if inChain then [] else [.attribute value attr ar ctx r]) ++ chains true value
  | .subscript value slice _ _ => chains false value ++ chains false slice
  | .call func args keywords _ _ =>
    chains false func ++ (chainsAll args ++ chainsKeywords keywords)
  | .compare left _ comparators _ => chains false left ++ chainsAll comparators
  | .lambda defaults body _ => chainsAll defaults ++ chains false body
  | .named target value _ => chains false target ++ chains false value
  | .starred value _ _ => chains false value
  | .stringLiteral _ _ => []
  | .literal _ _ => []
  | .display _ elts _ => chainsAll elts
  | .comprehension _ elts generators _ => chainsAll elts ++ chainsGenerators generators
  | .operation operands _ => chainsAll operands

/-- The chains in expressions. -/
def chainsAll : List Expr → List Expr
  | [] => []
  | e :: rest => chains false e ++ chainsAll rest

/-- The chains in the values of keyword arguments. -/
def chainsKeywords : List (Option Str × Expr) → List Expr
  | [] => []
  | kw :: rest => chainsKeyword kw ++ chainsKeywords rest

/-- The chains in the value of a keyword argument. -/
def chainsKeyword : Option Str × Expr → List Expr
  | (_, value) => chains false value

/-- The chains in the generators of a comprehension. -/
def chainsGenerators : List (Expr × List Expr) → List Expr
  | [] => []
  | g :: rest => chainsGenerator g ++ chainsGenerators rest

/-- The chains in a generator of a comprehension. -/
def chainsGenerator : Expr × List Expr → List Expr
  | (target, rest) => chains false target ++ chainsAll rest

end

end Expr

/-- `Identifier`. -/
structure Identifier where
  id : Str
  range : TextRange := {}
  deriving DecidableEq, Repr

/-- `Alias`: one name of an import statement. -/
structure ImportAlias where
  name : Identifier
  asname : Option Identifier := none
  deriving DecidableEq, Repr

/-- The name the alias binds, where it is no dotted name without `as`. -/
def ImportAlias.bound (a : ImportAlias) : Identifier := a.asname.getD a.name

/-- `Arguments`, of a class statement. -/
structure ClassArguments where
  args : List Expr := []
  keywords : List (Option Str × Expr) := []

/-- A parameter that is not variadic. -/
structure Parameter where
  name : Str
  range : TextRange := {}
  default : Option Expr := none

/-- The head of an `except` or `case` clause: the exception type or the guard, the names it
binds, and the expressions of its pattern. -/
structure Clause where
  test : Option Expr := none
  binds : List Identifier := []
  values : List Expr := []

/-- `Decorator`. -/
structure Decorator where
  expression : Expr
  range : TextRange := {}

/-- `Stmt`. A branch of an `if` without a test is its `else`. -/
inductive Stmt
  | functionDef (name : Identifier) (params : List Parameter) (decorators : List Decorator)
      (body : List Stmt) (range : TextRange)
  | classDef (name : Identifier) (arguments : Option ClassArguments)
      (decorators : List Decorator) (body : List Stmt) (range : TextRange)
  | returnValue (value : Option Expr)
  | delete (targets : List Expr)
  | assign (targets : List Expr) (value : Expr) (range : TextRange)
  | augAssign (target : Expr) (isAdd : Bool) (value : Expr)
  | annAssign (target annotation : Expr) (value : Option Expr)
  | forLoop (target iter : Expr) (body orelse : List Stmt)
  | whileLoop (test : Expr) (body orelse : List Stmt)
  | ifElse (branches : List (Option Expr × List Stmt))
  | withBlock (items : List (Expr × Option Expr)) (body : List Stmt)
  | matchCases (subject : Expr) (cases : List (Clause × List Stmt))
  | raise (exc cause : Option Expr) (range : TextRange)
  | tryExcept (body : List Stmt) (handlers : List (Clause × List Stmt))
      (orelse finalbody : List Stmt)
  | assert (test : Expr) (msg : Option Expr)
  | importNames (names : List ImportAlias) (isLazy : Bool)
  | importFrom (source : Option Str) (level : Nat) (names : List ImportAlias) (isLazy : Bool)
      (range : TextRange)
  | globalNames (names : List Identifier)
  | nonlocalNames (names : List Identifier)
  | expr (value : Expr)
  | typeAlias (name value : Expr)
  | other

namespace Stmt

/-- `Visit::recurse`: the statements right inside a statement, in their order. -/
def children : Stmt → List Stmt
  | .functionDef _ _ _ body _ | .classDef _ _ _ body _ | .withBlock _ body => body
  | .forLoop _ _ body orelse | .whileLoop _ body orelse => body ++ orelse
  | .ifElse branches => branches.flatMap Prod.snd
  | .matchCases _ cases => cases.flatMap Prod.snd
  | .tryExcept body handlers orelse finalbody =>
    body ++ (handlers.flatMap Prod.snd ++ (orelse ++ finalbody))
  | _ => []

/-- `Visit<Expr>`: the expressions of a statement, but for those of the statements in it. -/
def exprs : Stmt → List Expr
  | .functionDef _ params decorators _ _ =>
    decorators.map Decorator.expression ++ params.filterMap Parameter.default
  | .classDef _ arguments decorators _ _ =>
    decorators.map Decorator.expression ++ arguments.elim [] fun a => a.args ++ a.keywords.map Prod.snd
  | .returnValue value => value.toList
  | .delete targets => targets
  | .assign targets value _ => targets ++ [value]
  | .augAssign target _ value => [target, value]
  | .annAssign target annotation value => target :: annotation :: value.toList
  | .forLoop target iter _ _ => [target, iter]
  | .whileLoop test _ _ => [test]
  | .ifElse branches => branches.filterMap Prod.fst
  | .withBlock items _ => items.flatMap fun item => item.1 :: item.2.toList
  | .matchCases subject cases =>
    subject :: cases.flatMap fun c => c.1.values ++ c.1.test.toList
  | .raise exc cause _ => exc.toList ++ cause.toList
  | .tryExcept _ handlers _ _ => handlers.filterMap fun h => h.1.test
  | .assert test msg => test :: msg.toList
  | .expr value => [value]
  | .typeAlias name value => [name, value]
  | .importNames _ _ | .importFrom _ _ _ _ _ | .globalNames _ | .nonlocalNames _ | .other => []

/-- The statement and those in it, nested at most `fuel` deep. -/
def nested : Nat → Stmt → List Stmt
  | 0, _ => []
  | fuel + 1, s => s :: s.children.flatMap (nested fuel)

mutual

/-- How deep statements are nested in a statement. -/
def depth : Stmt → Nat
  | .functionDef _ _ _ body _ => depths body + 1
  | .classDef _ _ _ body _ => depths body + 1
  | .withBlock _ body => depths body + 1
  | .forLoop _ _ body orelse => max (depths body) (depths orelse) + 1
  | .whileLoop _ body orelse => max (depths body) (depths orelse) + 1
  | .ifElse branches => branchDepths branches + 1
  | .matchCases _ cases => clauseDepths cases + 1
  | .tryExcept body handlers orelse finalbody =>
    max (max (depths body) (clauseDepths handlers)) (max (depths orelse) (depths finalbody)) + 1
  | _ => 1

/-- The deepest nesting in a body. -/
def depths : List Stmt → Nat
  | [] => 0
  | s :: rest => max (depth s) (depths rest)

/-- The deepest nesting in the branches of an `if`. -/
def branchDepths : List (Option Expr × List Stmt) → Nat
  | [] => 0
  | b :: rest => max (branchDepth b) (branchDepths rest)

/-- The deepest nesting in a branch. -/
def branchDepth : Option Expr × List Stmt → Nat
  | (_, body) => depths body

/-- The deepest nesting in the clauses of a statement. -/
def clauseDepths : List (Clause × List Stmt) → Nat
  | [] => 0
  | c :: rest => max (clauseDepth c) (clauseDepths rest)

/-- The deepest nesting in a clause. -/
def clauseDepth : Clause × List Stmt → Nat
  | (_, body) => depths body

end

/-- The statement and all those in it. -/
def all (s : Stmt) : List Stmt := s.nested s.depth

end Stmt

/-- `SymbolKind`, of the symbols that are built here. -/
inductive SymbolKind
  | variable
  | parameter
  | function
  | classType
  deriving DecidableEq, Repr

/-- What the parser library answers. -/
structure ParserLibrary where
  /-- Which branches of an `if` the static evaluation of the tests leaves, each by its place
  and with the test that is left of it. -/
  prunedIfBranches : List (Option Expr × List Stmt) → List (Nat × Option Expr)
  /-- What name a relative module name stands for. -/
  newMaybeRelative : ModuleName → Bool → Nat → Option Str → Option ModuleName
  /-- A name under a package. -/
  append : ModuleName → Str → ModuleName
  components : ModuleName → List Str
  fromParts : List Str → ModuleName
  parent : ModuleName → Option ModuleName
  /-- The first statement of a text, where that is an expression. -/
  parseExpr : Str → Option Expr
  /-- The orders of its types. -/
  symbolKindLt : SymbolKind → SymbolKind → Bool
  moduleNameLt : ModuleName → ModuleName → Bool
  identifierLt : TextRange → TextRange → Bool

/-- `ModuleName::first_component`. -/
def ParserLibrary.firstComponent (library : ParserLibrary) (m : ModuleName) : Str :=
  (library.components m).headD []

/-- Dotted names; every test may be true, and no text can be evaluated. -/
def dottedNames : ParserLibrary where
  prunedIfBranches branches := branches.zipIdx.map fun b => (b.2, b.1.1)
  newMaybeRelative _ _ _ source := source
  append m x := if m = [] then x else appendStr m x
  components m := [m]
  fromParts parts := (parts.intersperse ['.']).flatten
  parent m := (splitAttr m).map Prod.fst
  parseExpr _ := none
  symbolKindLt _ _ := false
  moduleNameLt _ _ := false
  identifierLt _ _ := false

/-- `is_name_eq_main`. -/
def isNameEqMain (nameSide mainSide : Expr) : Bool :=
  (match nameSide with
    | .name id _ _ => decide (id = "__name__".toList)
    | _ => false) &&
  match mainSide with
    | .stringLiteral value _ => decide (value = "__main__".toList)
    | _ => false

/-- `is_name_main_guard`. -/
def isNameMainGuard : Expr → Bool
  | .compare left [.eq] (right :: _) _ => isNameEqMain left right || isNameEqMain right left
  | _ => false

/-- `AnalysisConfig`: without a main module, every `__main__` guard is live. -/
structure AnalysisConfig where
  library : ParserLibrary
  mainModule : Option ModuleName := none

namespace AnalysisConfig

/-- `AnalysisConfig::is_main_guard`. -/
def isMainGuard (test : Expr) : Bool := isNameMainGuard test

/-- The branch is a `__main__` guard, and the main module is known. -/
def prunes (config : AnalysisConfig) (test : Option Expr) : Option ModuleName :=
  config.mainModule.filter fun _ => test.any isNameMainGuard

theorem prunes_eq (config : AnalysisConfig) (test : Option Expr) :
    config.prunes test = if test.any isMainGuard then config.mainModule else none := by
  have hguard : test.any isNameMainGuard = test.any isMainGuard := rfl
  rw [prunes, hguard]
  cases config.mainModule with
  | none => simp
  | some main => cases test.any isMainGuard <;> rfl

/-- The filter of `lg_pruned_if_branches`: a guard is dropped outside the main module, and
in the main module its body is the last branch, without a test. -/
def keptBranches (config : AnalysisConfig) (currentModule : ModuleName) :
    List (Nat × Option Expr) → List (Nat × Option Expr)
  | [] => []
  | (i, test) :: rest =>
    match config.prunes test with
    | some main =>
      if main = currentModule then [(i, none)] else keptBranches config currentModule rest
    | none => (i, test) :: keptBranches config currentModule rest

/-- `lg_pruned_if_branches`, each branch by its place. -/
def lgPrunedIfBranches (config : AnalysisConfig) (branches : List (Option Expr × List Stmt))
    (currentModule : ModuleName) : List (Nat × Option Expr) :=
  config.keptBranches currentModule (config.library.prunedIfBranches branches)

/-- The configuration with another main module. -/
def withMain (config : AnalysisConfig) (main : Option ModuleName) : AnalysisConfig :=
  { config with mainModule := main }

/-- Without a main module, every branch the parser library leaves is walked. -/
theorem lgPrunedIfBranches_none (config : AnalysisConfig)
    (branches : List (Option Expr × List Stmt)) (currentModule : ModuleName) :
    (config.withMain none).lgPrunedIfBranches branches currentModule =
      config.library.prunedIfBranches branches := by
  have hgo : ∀ l, (config.withMain none).keptBranches currentModule l = l := by
    intro l
    induction l with
    | nil => rfl
    | cons b l ih => exact congrArg (b :: ·) ih
  exact hgo _

/-- With another main module, the guards are left out. -/
theorem lgPrunedIfBranches_other (config : AnalysisConfig) {main currentModule : ModuleName}
    (hmain : main ≠ currentModule) (branches : List (Option Expr × List Stmt)) :
    (config.withMain (some main)).lgPrunedIfBranches branches currentModule =
      (config.library.prunedIfBranches branches).filter fun b => !b.2.any isMainGuard := by
  have hgo : ∀ l, (config.withMain (some main)).keptBranches currentModule l =
      l.filter fun b => !b.2.any isMainGuard := by
    intro l
    induction l with
    | nil => rfl
    | cons b l ih =>
      obtain ⟨i, test⟩ := b
      have hconfig : (config.withMain (some main)).mainModule = some main := rfl
      rw [keptBranches, prunes_eq, hconfig]
      cases hguard : test.any isMainGuard with
      | true =>
        rw [List.filter_cons_of_neg (by simp [hguard])]
        simpa [hmain] using ih
      | false =>
        rw [List.filter_cons_of_pos (by simp [hguard])]
        simpa using ih
  exact hgo _

end AnalysisConfig

/-! ## Calls of `importlib` -/

/-- `ImportlibState`. -/
structure ImportlibState where
  hasImportlib : Bool
  hasImportModule : Bool

/-- `name.starts_with('.')` and what `trim_start_matches('.')` takes off. -/
def leadingDots (name : Str) : Nat := (name.takeWhile (· = '.')).length

/-- The keyword argument of a name. -/
def keywordOf (keywords : List (Option Str × Expr)) (name : Str) : Option Expr :=
  (keywords.find? fun kw => decide (kw.1 = some name)).map Prod.snd

namespace ImportlibState

/-- `is_import_module_call`. -/
def isImportModuleCall (self : ImportlibState) : Expr → Bool
  | .name id _ _ => self.hasImportModule && decide (id = "import_module".toList)
  | .attribute (.name value _ _) attr _ _ _ =>
    self.hasImportlib && decide (value = "importlib".toList) &&
      decide (attr = "import_module".toList)
  | _ => false

variable (library : ParserLibrary)

/-- `get_relative_imported_module_name`: a relative name starts with a dot. -/
def getRelativeImportedModuleName (name package : Str) : Option ModuleName :=
  if leadingDots name = 0 then none
  else
    let suffix := name.dropWhile (· = '.')
    if leadingDots name - 1 = 0 then some (library.append package suffix)
    else library.newMaybeRelative package false (leadingDots name - 1) (some suffix)

/-- `get_imported_module_name_mixed_args`. -/
def getImportedModuleNameMixedArgs (args : List Expr) (keywords : List (Option Str × Expr)) :
    Option ModuleName :=
  match args, keywords with
  | [.stringLiteral name _], [(some kw, .stringLiteral package _)] =>
    if kw = "package".toList then getRelativeImportedModuleName library name package else none
  | _, _ => none

/-- `get_imported_module_name_kw_args`. -/
def getImportedModuleNameKwArgs (keywords : List (Option Str × Expr)) : Option ModuleName :=
  match keywordOf keywords "name".toList with
  | some (.stringLiteral name _) =>
    match keywordOf keywords "package".toList with
    | some (.stringLiteral package _) => getRelativeImportedModuleName library name package
    | _ => some name
  | _ => none

/-- `get_imported_module_name_pos_args`. -/
def getImportedModuleNamePosArgs : List Expr → Option ModuleName
  | [.stringLiteral name _, .stringLiteral package _] =>
    getRelativeImportedModuleName library name package
  | [.stringLiteral arg _] => some arg
  | _ => none

/-- `get_imported_module_name`. -/
def getImportedModuleName (args : List Expr) (keywords : List (Option Str × Expr)) :
    Option ModuleName :=
  (getImportedModuleNameMixedArgs library args keywords).or
    ((getImportedModuleNameKwArgs library keywords).or
      (getImportedModuleNamePosArgs library args))

/-- `match_call`, of any expression: none where it is no call. -/
def matchCall (self : ImportlibState) : Expr → Option ModuleName
  | .call func args keywords _ _ =>
    if self.isImportModuleCall func then getImportedModuleName library args keywords else none
  | _ => none

end ImportlibState

end Lifeguard
