import Lifeguard.Syntax

/-!
# Where a walk is

The scopes and the `try` bodies around a place of the program (`cursor.rs`,
`exceptions.rs`). A walk hands its cursor down; when it comes back from a scope or a block it
goes on with the cursor it had before.

- `TryHandler.catches`: whether a handler catches an exception of a name;
- `Cursor`: the current scope, those around it, and the blocks of its function;
- `legbScopes`: the scopes a name is looked up in.
-/

namespace Lifeguard

/-! ## Handlers -/

/-- `BASE_EXCEPTION_ONLY`. -/
def baseExceptionOnly : List Str :=
  ["BaseException".toList, "BaseExceptionGroup".toList, "GeneratorExit".toList,
    "KeyboardInterrupt".toList, "SystemExit".toList]

/-- `strip_builtins`. -/
def stripBuiltins (s : Str) : Str :=
  if "builtins.".toList.isPrefixOf s then s.drop "builtins.".length else s

/-- `exception_matches`. -/
def exceptionMatches (name excName : ModuleName) : Bool :=
  if stripBuiltins name = "BaseException".toList then true
  else if stripBuiltins name = "Exception".toList then
    !decide (stripBuiltins excName ∈ baseExceptionOnly)
  else decide (name = excName)

namespace TryHandler

/-- `TryHandler::typed`. -/
def typed : List ModuleName → TryHandler
  | [name] => single name
  | names => multiple names

/-- `TryHandler::catches`. -/
def catches (excName : ModuleName) : TryHandler → Bool
  | bare => true
  | single name => exceptionMatches name excName
  | multiple names => names.any fun name => exceptionMatches name excName

/-- `TryHandler::names`. -/
def names (excName : ModuleName) : TryHandler → Bool
  | bare => false
  | single name => decide (name = excName)
  | multiple names => decide (excName ∈ names)

end TryHandler

/-! ## The cursor -/

/-- `ScopeKind`. -/
inductive ScopeKind
  | moduleScope
  | classScope
  | function
  deriving DecidableEq, Repr

/-- `ScopeKind::is_eager`: the body of the scope runs when the module is imported. -/
def ScopeKind.isEager (kind : ScopeKind) : Bool := decide (kind ≠ .function)

/-- `Cursor`. The outer scopes and the blocks are listed from the inside. -/
structure Cursor where
  current : ScopeKind × ModuleName
  outer : List (ScopeKind × ModuleName) := []
  /-- The handlers of each `try` body around the place, in the current function. -/
  blocks : List (List TryHandler) := []

namespace Cursor

/-- `enter_module_scope`, of a new cursor. -/
def enterModuleScope (name : ModuleName) : Cursor := { current := (.moduleScope, name) }

variable (library : ParserLibrary) (cursor : Cursor)

/-- `scope`. -/
def scope : ModuleName := cursor.current.2

/-- The scopes, from the inside. -/
def scopes : List (ScopeKind × ModuleName) := cursor.current :: cursor.outer

/-- `enter_class_scope`. -/
def enterClassScope (name : Str) : Cursor :=
  { cursor with
    current := (.classScope, library.append cursor.scope name)
    outer := cursor.scopes }

/-- `enter_function_scope`: the body of a function runs where it is called, outside the
blocks around its `def`. -/
def enterFunctionScope (name : Str) : Cursor where
  current := (.function, library.append cursor.scope name)
  outer := cursor.scopes
  blocks := []

/-- `enter_block`, of a `try` body. -/
def enterTryBody (handlers : List TryHandler) : Cursor :=
  { cursor with blocks := handlers :: cursor.blocks }

/-- `in_try_body`. -/
def inTryBody : Bool := !cursor.blocks.isEmpty

/-- `catches_exception`. -/
def catchesException (excName : ModuleName) : Bool :=
  cursor.blocks.any fun handlers => handlers.any (TryHandler.catches excName)

/-- `names_exception`. -/
def namesException (excName : ModuleName) : Bool :=
  cursor.blocks.any fun handlers => handlers.any (TryHandler.names excName)

/-- `try_handlers`, of the outermost block first. -/
def tryHandlers : List TryHandler := cursor.blocks.reverse.flatten

/-- The walk of `legb_scopes_iter`: past a function, classes are skipped. -/
def legbFrom : Bool → List (ScopeKind × ModuleName) → List (ModuleName × ScopeKind)
  | _, [] => []
  | inFunction, (kind, name) :: rest =>
    let tail := legbFrom (inFunction || decide (kind = .function)) rest
    if kind = .classScope ∧ inFunction then tail else (name, kind) :: tail

/-- `legb_scopes_iter`. -/
def legbScopes : List (ModuleName × ScopeKind) := legbFrom false cursor.scopes

/-- `in_eager_scope`. -/
def inEagerScope : Bool := cursor.scopes.all fun s => s.1.isEager

/-- `ascending_scope_names_iter`. -/
def ascendingScopeNames : List ModuleName := cursor.scopes.map Prod.snd

/-- The innermost scope of a kind. -/
def innermost (kind : ScopeKind) (scopes : List (ScopeKind × ModuleName)) :
    Option ModuleName :=
  (scopes.find? fun s => decide (s.1 = kind)).map Prod.snd

/-- `enclosing_function_scope`: the outermost one. -/
def enclosingFunctionScope : Option ModuleName := innermost .function cursor.scopes.reverse

/-- `nearest_function_scope`: the innermost one, but for the current scope. -/
def nearestFunctionScope : Option ModuleName := innermost .function cursor.outer

/-- `current_function_scope`. -/
def currentFunctionScope : Option ModuleName := innermost .function cursor.scopes

/-- `enclosing_class_scope`. -/
def enclosingClassScope : Option ModuleName := innermost .classScope cursor.scopes

end Cursor

end Lifeguard
