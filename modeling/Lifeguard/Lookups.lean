import Lifeguard.StatementAnalyzer

/-!
# What the analyzer looks up

The expressions whose names the checks of a statement look up, and the statements that a walk
visits, each with the cursor it is visited with.

- `Expr.queried`: what is looked up for one expression;
- `exprNodes`: the expressions that are checked with an expression;
- `SourceAnalyzer.lookups`: what is looked up for a statement, but for those in it;
- `SourceAnalyzer.places`: the statements that are visited.
-/

namespace Lifeguard

open Lib

/-! ## Expressions -/

/-- The receivers in a chain of attributes and calls. -/
def Expr.receivers : Expr → List Expr
  | .attribute value _ _ _ _ => value :: receivers value
  | .call func _ _ _ _ => func :: receivers func
  | _ => []

/-- What is looked up for a store to a place. -/
def Expr.storeQueried (target : Expr) : List Expr :=
  target ::
    match target with
    | .attribute value _ _ _ _ => [value]
    | .subscript value _ _ _ => value :: value.receivers
    | _ => []

/-- What is looked up for a call, written as one or as a decorator. -/
def callQueried (func : Expr) (args : List Expr) (keywords : List (Option Str × Expr)) :
    List Expr :=
  func :: (func.receivers ++ (args.map (fun arg => (unstarred arg).2) ++
    (keywords.map Prod.snd ++ (args.take 1 ++
      -- `setattr` stores to its first argument
      if func.fullName = some "setattr".toList then
        ((args.take 1).flatMap Expr.targetLeaves).flatMap Expr.storeQueried
      else []))))

/-- What is looked up for an expression, but for those in it. -/
def Expr.queried : Expr → List Expr
  | .call func args keywords _ _ => callQueried func args keywords
  | .attribute value _ _ _ _ => [value]
  | .subscript value _ _ _ => value :: value.receivers
  | .compare left _ comparators _ => left :: comparators
  | _ => []

/-- The text that a call of `eval` evaluates. -/
def calledText (library : ParserLibrary) (func : Expr) (args : List Expr) : Option Expr :=
  if func.fullName = some "eval".toList then
    match args with
    | .stringLiteral code _ :: _ => if code = [] then none else library.parseExpr code
    | _ => none
  else none

/-- The text that an expression evaluates. -/
def Expr.evaluatedText (library : ParserLibrary) : Expr → Option Expr
  | .call func args _ _ _ => calledText library func args
  | _ => none

/-- The expressions that are checked with an expression, those of the texts it evaluates
among them. -/
def exprNodes (library : ParserLibrary) : Nat → Expr → List Expr
  | 0, x => x.walked .evaluated
  | evals + 1, x =>
    (x.walked .evaluated).flatMap fun node =>
      node :: (node.evaluatedText library).elim [] (exprNodes library evals)

theorem Expr.self_mem_walked (w : Expr.Walk) (x : Expr) : x ∈ x.walked w := by
  cases x with
  | name id ctx r => exact List.mem_singleton.mpr rfl
  | stringLiteral value r => exact List.mem_singleton.mpr rfl
  | literal kind r => exact List.mem_singleton.mpr rfl
  | _ => exact List.mem_cons_self ..

theorem self_mem_exprNodes (library : ParserLibrary) (evals : Nat) (x : Expr) :
    x ∈ exprNodes library evals x := by
  cases evals with
  | zero => exact x.self_mem_walked .evaluated
  | succ evals =>
    exact List.mem_flatMap.mpr ⟨x, x.self_mem_walked .evaluated, List.mem_cons_self ..⟩

theorem mem_receivers_of_modulesAttrReceiver {e value : Expr}
    (h : modulesAttrReceiver e = some value) : value ∈ e.receivers := by
  unfold modulesAttrReceiver at h
  split at h
  · split at h
    · cases h
      exact List.mem_cons_self ..
    · cases h
  · cases h

/-! ## Statements -/

/-- The positional arguments, of a decorator none where it is not written as a call. -/
def argsOf (arguments : Option CallArguments) : List Expr :=
  (arguments.map CallArguments.args).getD []

/-- The keyword arguments. -/
def keywordsOf (arguments : Option CallArguments) : List (Option Str × Expr) :=
  (arguments.map CallArguments.keywords).getD []

namespace Decorator

/-- What is called, and what it is called with. -/
abbrev call (dec : Decorator) : Expr × Option CallArguments :=
  SourceAnalyzer.decoratorCall dec.expression

/-- What is looked up for a decorator by itself. -/
def queried (dec : Decorator) : List Expr :=
  callQueried dec.call.1 (argsOf dec.call.2) (keywordsOf dec.call.2)

/-- The expressions that a decorator evaluates: its arguments, and the text of an `eval`. -/
def evaluated (library : ParserLibrary) (dec : Decorator) : List Expr :=
  argsOf dec.call.2 ++ ((keywordsOf dec.call.2).map Prod.snd ++
    (calledText library dec.call.1 (argsOf dec.call.2)).toList)

end Decorator

namespace Stmt

/-- The decorators of a statement. -/
def decorators : Stmt → List Decorator
  | .functionDef _ _ decorators _ _ | .classDef _ _ decorators _ _ => decorators
  | _ => []

/-- The targets a statement stores to. -/
def storedTargets : Stmt → List Expr
  | .assign targets _ _ | .delete targets => targets
  | .augAssign target _ _ => [target]
  | .annAssign target _ value => if value.isSome then [target] else []
  | .withBlock items _ => items.filterMap Prod.snd
  | _ => []

/-- The targets whose parts a statement evaluates. -/
def evaluatedTargets : Stmt → List Expr
  | .annAssign target _ _ => [target]
  | s => s.storedTargets

end Stmt

namespace SourceAnalyzer

variable (self : SourceAnalyzer) (evals : Nat)

/-- The expressions a statement evaluates itself, but for decorators and targets. -/
def evaluatedValues : Stmt → List Expr
  | .assign _ value _ | .augAssign _ _ value | .expr value => [value]
  | .annAssign _ _ value | .returnValue value => value.toList
  | .classDef _ arguments _ _ _ =>
    arguments.elim [] fun a =>
      (a.args ++ a.keywords.map Prod.snd).filter fun e => e.asVarName.isNone
  | .functionDef _ params _ _ _ => params.filterMap Parameter.default
  | .raise exc cause _ => exc.elim [] fun e => e :: cause.toList
  | .forLoop target iter _ _ => [target, iter]
  | .whileLoop test _ _ => [test]
  | .withBlock items _ => items.map Prod.fst
  | .matchCases subject _ => [subject]
  | .assert test msg => test :: msg.toList
  | .ifElse branches =>
    -- only the tests of the branches that are left
    (self.info.config.lgPrunedIfBranches branches self.info.moduleName).filterMap Prod.snd
  | _ => []

/-- The expressions a statement evaluates itself. -/
def evaluatedExprs (s : Stmt) : List Expr :=
  s.decorators.flatMap (Decorator.evaluated self.library) ++
    ((s.evaluatedTargets.flatMap Expr.targetLeaves).flatMap Expr.leafOperands ++
      self.evaluatedValues s)

/-- The expressions that are checked for a statement. -/
def nodes (s : Stmt) : List Expr := (self.evaluatedExprs s).flatMap (exprNodes self.library evals)

/-- What is looked up for a statement. -/
def lookups (s : Stmt) : List Expr :=
  s.decorators.flatMap Decorator.queried ++
    ((s.storedTargets.flatMap Expr.targetLeaves).flatMap Expr.storeQueried ++
      (self.nodes evals s).flatMap Expr.queried)

/-- The statements that are visited for a statement, nested at most `fuel` deep. -/
def places : Nat → Cursor → Stmt → List (Cursor × Stmt)
  | 0, _, _ => []
  | fuel + 1, cursor, s =>
    (cursor, s) ::
      match s with
      | .functionDef name _ _ body _ =>
        body.flatMap (places fuel (cursor.enterFunctionScope self.library name.id))
      | .classDef name _ _ body _ =>
        body.flatMap (places fuel (cursor.enterClassScope self.library name.id))
      | .tryExcept body handlers orelse finalbody =>
        body.flatMap (places fuel (cursor.enterTryBody (handlers.map extractTryHandler))) ++
          (handlers.flatMap Prod.snd ++ (orelse ++ finalbody)).flatMap (places fuel cursor)
      | .ifElse branches =>
        (self.info.config.lgPrunedIfBranches branches self.info.moduleName).flatMap fun branch =>
          (((branches[branch.1]?).map Prod.snd).getD []).flatMap (places fuel cursor)
      | s => s.children.flatMap (places fuel cursor)

/-- The statements that the walk of the module visits. -/
def modulePlaces : List (Cursor × Stmt) :=
  self.parsed.body.flatMap
    (self.places (Stmt.depths self.parsed.body) (Cursor.enterModuleScope self.info.moduleName))

end SourceAnalyzer

end Lifeguard
