import Lifeguard.GuardedEffects

/-!
# What a dropped raise says

The analyzer drops the effect of a `raise` when a handler around it seems to catch the
exception. It sees names only; here they stand for classes.

- `ExceptionClasses`: a hierarchy of exception classes, and the class a dotted name stands for;
- `Handles`, `Leaves`: the handlers that catch a class, and the classes that none of those
  around the statement catches;
- `catchesException_iff`: what the matching of names comes to;
- `raise_dropped`: for which statements a dropped effect means a caught exception.

A handler for `Exception` is taken to catch every name but the five of
`baseExceptionOnly`, and a bare `raise` in a `try` body is taken to be caught by it
(`dropped_raise_leaves`).
-/

namespace Lifeguard

/-- The exception classes of a program. The names of the two root classes are not bound
anew. -/
structure ExceptionClasses where
  Class : Type
  /-- The first is the second or a subclass of it. -/
  Derives : Class → Class → Prop
  refl : ∀ c, Derives c c
  trans : ∀ a b c, Derives a b → Derives b c → Derives a c
  baseException : Class
  exception : Class
  derives_base : ∀ c, Derives c baseException
  /-- The class a dotted name stands for. -/
  named : ModuleName → Option Class
  named_base : ∀ n, stripBuiltins n = "BaseException".toList → named n = some baseException
  named_exception : ∀ n, stripBuiltins n = "Exception".toList → named n = some exception

/-- The names in the head of an `except` clause. -/
def handlerNames (handler : Clause × List Stmt) : List ModuleName :=
  match handler.1.test with
  | none => []
  | some (.display .tuple elts _) => elts.filterMap Expr.fullName
  | some e => e.fullName.toList

namespace ExceptionClasses

variable (h : ExceptionClasses)

/-- The handler is bare or names an ancestor of the class. -/
def Handles (handler : Clause × List Stmt) (c : h.Class) : Prop :=
  handler.1.test = none ∨ ∃ n ∈ handlerNames handler, ∃ d, h.named n = some d ∧ h.Derives c d

/-- An exception of the class leaves the `try` statements: no handler catches it. -/
def Leaves (tries : List (List (Clause × List Stmt))) (c : h.Class) : Prop :=
  ∀ handlers ∈ tries, ∀ handler ∈ handlers, ¬h.Handles handler c

/-- What a `raise` can raise: an instance of the class it names, and when it names none any
exception. -/
def Raises (exc : Option Expr) (c : h.Class) : Prop :=
  ∀ n d, exc.bind exceptionName = some n → h.named n = some d → c = d

/-- One handler is bare or names an ancestor of all that the statement can raise. -/
def Caught (tries : List (List (Clause × List Stmt))) (exc : Option Expr) : Prop :=
  ∃ handlers ∈ tries, ∃ handler ∈ handlers, handler.1.test = none ∨
    ∃ n ∈ handlerNames handler, ∃ d, h.named n = some d ∧ ∀ c, h.Raises exc c → h.Derives c d

theorem Caught.not_leaves {h : ExceptionClasses} {tries : List (List (Clause × List Stmt))}
    {exc : Option Expr} (hcaught : h.Caught tries exc) {c : h.Class} (hc : h.Raises exc c) :
    ¬h.Leaves tries c := by
  obtain ⟨handlers, hmem, handler, hhandler, hcatch⟩ := hcaught
  intro hleaves
  refine hleaves handlers hmem handler hhandler ?_
  rcases hcatch with hbare | ⟨n, hn, d, hd, hall⟩
  · exact Or.inl hbare
  · exact Or.inr ⟨n, hn, d, hd, hall c hc⟩

end ExceptionClasses

/-! ## The matching of names -/

theorem catches_typed {names : List ModuleName} {excName : ModuleName} :
    (TryHandler.typed names).catches excName = true ↔
      ∃ n ∈ names, exceptionMatches n excName = true := by
  cases names with
  | nil => simp [TryHandler.typed, TryHandler.catches]
  | cons n rest =>
    cases rest with
    | nil => simp [TryHandler.typed, TryHandler.catches]
    | cons m rest => simp [TryHandler.typed, TryHandler.catches, List.any_eq_true]

theorem exceptionMatches_iff {name excName : ModuleName} :
    exceptionMatches name excName = true ↔
      stripBuiltins name = "BaseException".toList ∨
      (stripBuiltins name = "Exception".toList ∧ stripBuiltins excName ∉ baseExceptionOnly) ∨
      (name = excName ∧ stripBuiltins name ≠ "Exception".toList) := by
  unfold exceptionMatches
  split
  · next hbase => simp [hbase]
  · next hbase =>
    split
    · next hexc => simp [hexc]
    · next hexc =>
      rw [decide_eq_true_iff, or_iff_right hbase, or_iff_right fun h => hexc h.1,
        and_iff_left hexc]

/-- What a handler of the source is taken to catch. -/
theorem catches_extract {handler : Clause × List Stmt} {excName : ModuleName} :
    (extractTryHandler handler).catches excName = true ↔ handler.1.test = none ∨
      ∃ n ∈ handlerNames handler, exceptionMatches n excName = true := by
  unfold extractTryHandler handlerNames
  split
  · next hnone => simp [hnone, TryHandler.catches]
  · next hsome =>
    rw [catches_typed]
    simp [hsome]
  · next hsome =>
    rw [catches_typed]
    simp [hsome]

/-- The cursor in the bodies of the `try` statements, the innermost first. -/
def Cursor.inTries (cursor : Cursor) (tries : List (List (Clause × List Stmt))) : Cursor :=
  { cursor with blocks := tries.map fun handlers => handlers.map extractTryHandler }

theorem catchesException_iff {cursor : Cursor} {tries : List (List (Clause × List Stmt))}
    {excName : ModuleName} :
    (cursor.inTries tries).catchesException excName = true ↔
      ∃ handlers ∈ tries, ∃ handler ∈ handlers, handler.1.test = none ∨
        ∃ n ∈ handlerNames handler, exceptionMatches n excName = true := by
  rw [Cursor.catchesException, Cursor.inTries]
  simp only [List.any_map, List.any_eq_true, Function.comp_apply, catches_extract]

theorem inTryBody_inTries {cursor : Cursor} {tries : List (List (Clause × List Stmt))} :
    (cursor.inTries tries).inTryBody = true ↔ tries ≠ [] := by
  rw [Cursor.inTryBody, Cursor.inTries]
  cases tries <;> simp

/-! ## Dropped effects -/

namespace SourceAnalyzer

variable (self : SourceAnalyzer) (evals : Nat) (cursor : Cursor)

/-- Nothing but the evaluation of its operands is recorded of the statement. -/
def Dropped (exc cause : Option Expr) (range : TextRange) : Prop :=
  self.raise evals cursor exc cause range =
    exc.elim [] fun e => self.exprs evals cursor (e :: cause.toList)

variable {self evals cursor}

theorem addEffect_ne_nil (eff : Effect) : addEffect cursor eff ≠ [] :=
  List.cons_ne_nil _ _

/-- The name the exception is matched by. -/
theorem dropped_some {e : Expr} {cause : Option Expr} {range : TextRange} :
    self.Dropped evals cursor (some e) cause range ↔
      cursor.catchesException ((exceptionName e).getD "<unknown exception>".toList) = true := by
  unfold Dropped raise
  dsimp only [Option.elim_some]
  cases cursor.catchesException ((exceptionName e).getD "<unknown exception>".toList) with
  | true => simp
  | false => simp [addEffect_ne_nil]

theorem dropped_none {cause : Option Expr} {range : TextRange} :
    self.Dropped evals cursor none cause range ↔ cursor.inTryBody = true := by
  unfold Dropped raise
  dsimp only [Option.elim_none]
  cases hbody : cursor.inTryBody with
  | true => simp
  | false =>
    have hnone : cursor.blocks = [] := by
      rw [Cursor.inTryBody, Bool.not_eq_false', List.isEmpty_iff] at hbody
      exact hbody
    simp [Cursor.catchesException, hnone, addEffect_ne_nil]

/-- A dropped effect of a class is that of a caught exception, if the class derives from
`Exception` or goes by the name of one of the builtins that do not. -/
theorem caught_of_named (h : ExceptionClasses) {tries : List (List (Clause × List Stmt))}
    {e : Expr} {n : ModuleName} {c : h.Class} (hname : exceptionName e = some n)
    (hnamed : h.named n = some c)
    (hclass : h.Derives c h.exception ∨ stripBuiltins n ∈ baseExceptionOnly)
    (hcatch : (cursor.inTries tries).catchesException n = true) : h.Caught tries (some e) := by
  have hraises : ∀ d, h.Raises (some e) d → d = c := fun d hd => hd n c hname hnamed
  obtain ⟨handlers, hmem, handler, hhandler, hmatch⟩ := catchesException_iff.mp hcatch
  refine ⟨handlers, hmem, handler, hhandler, ?_⟩
  rcases hmatch with hbare | ⟨m, hm, hmatch⟩
  · exact Or.inl hbare
  refine Or.inr ⟨m, hm, ?_⟩
  rcases exceptionMatches_iff.mp hmatch with hbase | ⟨hexc, hunlisted⟩ | ⟨rfl, -⟩
  · exact ⟨h.baseException, h.named_base m hbase, fun d _ => h.derives_base d⟩
  · refine ⟨h.exception, h.named_exception m hexc, fun d hd => ?_⟩
    rw [hraises d hd]
    exact hclass.resolve_right hunlisted
  · refine ⟨c, hnamed, fun d hd => ?_⟩
    rw [hraises d hd]
    exact h.refl c

/-- For every hierarchy of exception classes, every stack of `try` bodies and every `raise`
whose effect is dropped. If the statement names a class that derives from `Exception`, or one of
the builtins that do not by its own name, then one handler is bare or names an ancestor of all
that is raised, and so no exception of the statement leaves the `try` statements. If it names no
class, one handler is bare, or names `BaseException` or `Exception`, or what is raised. And a
bare `raise` is dropped just when it stands in a `try` body. -/
theorem raise_dropped (h : ExceptionClasses) (self : SourceAnalyzer) (evals : Nat)
    (cursor : Cursor) (tries : List (List (Clause × List Stmt))) (cause : Option Expr)
    (range : TextRange) :
    (∀ e n c, exceptionName e = some n → h.named n = some c →
      h.Derives c h.exception ∨ stripBuiltins n ∈ baseExceptionOnly →
      self.Dropped evals (cursor.inTries tries) (some e) cause range →
        h.Caught tries (some e) ∧ ∀ d, h.Raises (some e) d → ¬h.Leaves tries d) ∧
    (∀ e, (∀ n, exceptionName e = some n → h.named n = none) →
      self.Dropped evals (cursor.inTries tries) (some e) cause range →
        h.Caught tries (some e) ∨ ∃ handlers ∈ tries, ∃ handler ∈ handlers,
          ∃ m ∈ handlerNames handler, h.named m = some h.exception ∨
            m = (exceptionName e).getD "<unknown exception>".toList) ∧
    (self.Dropped evals (cursor.inTries tries) none cause range ↔ tries ≠ []) := by
  refine ⟨?_, ?_, dropped_none.trans inTryBody_inTries⟩
  · intro e n c hname hnamed hclass hdropped
    rw [dropped_some, hname, Option.getD_some] at hdropped
    have hcaught := caught_of_named h hname hnamed hclass hdropped
    exact ⟨hcaught, fun d hd => hcaught.not_leaves hd⟩
  · intro e _ hdropped
    rw [dropped_some] at hdropped
    obtain ⟨handlers, hmem, handler, hhandler, hmatch⟩ := catchesException_iff.mp hdropped
    rcases hmatch with hbare | ⟨m, hm, hmatch⟩
    · exact Or.inl ⟨handlers, hmem, handler, hhandler, Or.inl hbare⟩
    rcases exceptionMatches_iff.mp hmatch with hbase | ⟨hexc, -⟩ | ⟨hsame, -⟩
    · exact Or.inl ⟨handlers, hmem, handler, hhandler, Or.inr ⟨m, hm, h.baseException,
        h.named_base m hbase, fun d _ => h.derives_base d⟩⟩
    · exact Or.inr ⟨handlers, hmem, handler, hhandler, m, hm,
        Or.inl (h.named_exception m hexc)⟩
    · exact Or.inr ⟨handlers, hmem, handler, hhandler, m, hm, Or.inr hsame⟩

end SourceAnalyzer

/-! ## A class outside `Exception` -/

/-- The two roots, `KeyError`, and `class Quit(BaseException)`. -/
inductive QuitClass
  | baseException
  | exception
  | keyError
  | quit
  deriving DecidableEq

/-- The classes an exception class derives from. -/
def QuitClass.ancestors : QuitClass → List QuitClass
  | .baseException => [.baseException]
  | .exception => [.exception, .baseException]
  | .keyError => [.keyError, .exception, .baseException]
  | .quit => [.quit, .baseException]

/-- What the names stand for. -/
def quitNamed (n : ModuleName) : Option QuitClass :=
  if stripBuiltins n = "BaseException".toList then some .baseException
  else if stripBuiltins n = "Exception".toList then some .exception
  else if n = "KeyError".toList then some .keyError
  else if n = "Quit".toList then some .quit
  else none

def quitClasses : ExceptionClasses where
  Class := QuitClass
  Derives a b := b ∈ a.ancestors
  refl a := by cases a <;> decide
  trans a b c := by cases a <;> cases b <;> cases c <;> decide
  baseException := .baseException
  exception := .exception
  derives_base a := by cases a <;> decide
  named := quitNamed
  named_base n hn := by rw [quitNamed, if_pos hn]
  named_exception n hn := by
    have hne : stripBuiltins n ≠ "BaseException".toList := by
      rw [hn]
      decide
    rw [quitNamed, if_neg hne, if_pos hn]

/-- `except` with a name. -/
def exceptName (name : String) : Clause × List Stmt :=
  ({ test := some (.name name.toList .load {}) }, [])

/-- The analyzer of a module without statements. -/
def emptyAnalyzer : SourceAnalyzer :=
  SourceAnalyzer.make (callThenGuard []) noExports aloneGraph noStubs dottedConfig

/-- `Quit`. -/
def quitExpr : Expr :=
  .name "Quit".toList .load {}

/-- Two effects that are dropped though the exception leaves: `raise Quit` in a `try` with
`except Exception`, and a bare `raise` of it in one with `except KeyError`. -/
theorem dropped_raise_leaves :
    (emptyAnalyzer.Dropped 0 ((Cursor.enterModuleScope "m".toList).inTries
        [[exceptName "Exception"]]) (some quitExpr) none {} ∧
      quitClasses.Raises (some quitExpr) .quit ∧
      quitClasses.Leaves [[exceptName "Exception"]] .quit) ∧
    (emptyAnalyzer.Dropped 0 ((Cursor.enterModuleScope "m".toList).inTries
        [[exceptName "KeyError"]]) none none {} ∧
      quitClasses.Raises none .quit ∧
      quitClasses.Leaves [[exceptName "KeyError"]] .quit) := by
  -- no handler names an ancestor of the class
  have hleaves : ∀ name d, quitNamed name.toList = some d → d ∉ QuitClass.quit.ancestors →
      quitClasses.Leaves [[exceptName name]] .quit := by
    intro name d hnamed hnot handlers hhandlers handler hhandler
    rw [List.mem_singleton.mp hhandlers, List.mem_singleton] at hhandler
    subst hhandler
    rintro (hbare | ⟨n, hn, d', hd, hderives⟩)
    · cases hbare
    · have hn : n = name.toList := by simpa [handlerNames, exceptName, Expr.fullName] using hn
      subst hn
      have hsame : d = d' := Option.some.inj (hnamed.symm.trans hd)
      exact hnot (hsame ▸ hderives)
  refine ⟨⟨SourceAnalyzer.dropped_some.mpr (by decide), ?_,
      hleaves "Exception" .exception (by decide) (by decide)⟩,
    SourceAnalyzer.dropped_none.mpr (by decide), ?_,
      hleaves "KeyError" .keyError (by decide) (by decide)⟩
  · intro n d hn hd
    obtain rfl : "Quit".toList = n := by simpa [quitExpr, exceptionName, Expr.fullName] using hn
    have hquit : quitNamed "Quit".toList = some .quit := by decide
    exact Option.some.inj (hquit.symm.trans hd)
  · intro n d hn
    cases hn

/-- `KeyError`. -/
def keyErrorExpr : Expr :=
  .name "KeyError".toList .load {}

/-- `raise KeyError` inside two `try` bodies, of which the outer one has `except Exception`: its
effect is dropped, and the exception does not leave. -/
theorem raise_dropped_keyError :
    quitClasses.Caught [[exceptName "ValueError"], [exceptName "Exception"]]
        (some keyErrorExpr) ∧
      ¬quitClasses.Leaves [[exceptName "ValueError"], [exceptName "Exception"]] .keyError := by
  have hnamed : quitNamed "KeyError".toList = some .keyError := by decide
  obtain ⟨hcaught, hstays⟩ := (SourceAnalyzer.raise_dropped quitClasses emptyAnalyzer 0
    (Cursor.enterModuleScope "m".toList) [[exceptName "ValueError"], [exceptName "Exception"]]
    none {}).1 keyErrorExpr "KeyError".toList .keyError (by decide) hnamed
    (Or.inl (by decide : QuitClass.exception ∈ QuitClass.keyError.ancestors))
    (SourceAnalyzer.dropped_some.mpr (by decide))
  refine ⟨hcaught, hstays .keyError fun n d hn hd => ?_⟩
  obtain rfl : "KeyError".toList = n := by
    simpa [keyErrorExpr, exceptionName, Expr.fullName] using hn
  exact Option.some.inj (hnamed.symm.trans hd)

end Lifeguard
