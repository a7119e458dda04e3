import Lifeguard.Lib.Canon
import Lifeguard.Lib.Rounds
import Lifeguard.ReExportMap
import Lifeguard.SafetyResolver
import Mathlib.Data.Char
import Mathlib.Data.List.Lex
import Mathlib.Data.Prod.Lex

/-!
# Star imports

`expand_star_re_exports` (`exports.rs`) turns the `from S import *` statements of the
modules into re-exports. It goes over all of them until nothing changes: a star binds the
public names of its source, and displaces what a star of lower rank bound.

The re-exports are kept under the pair of module and name, without their locations.
-/

namespace Lifeguard

open Lib

/-- `ExportType`. -/
inductive ExportType
  | classType
  | function
  | globalVariable
  deriving DecidableEq, Repr

/-- `StarRank`: a star outside every `except` handler beats one inside, and a later star an
earlier one. -/
abbrev StarRank := Bool ×ₗ Nat

/-- `StarImport`: `from source import *`, by where it starts. -/
structure StarImport where
  source : ModuleName
  offset : Nat
  /-- It sits in an `except` handler. -/
  isFallback : Bool := false
  deriving DecidableEq, Repr

/-- The rank of what the star binds. -/
def StarImport.rank (star : StarImport) : StarRank := toLex (!star.isFallback, star.offset)

/-- `Exports`. Two statements of a module do not start at the same place. -/
structure Exports where
  /-- The definitions, by their qualified names. -/
  exports : Table ModuleName ExportType := Table.empty
  reExports : Table Attribute Attribute := Table.empty
  /-- The contents of `__all__`. -/
  all : Table ModuleName (List Str) := Table.empty
  starImports : Table ModuleName (List StarImport) := Table.empty
  offsets : ∀ e ∈ starImports.entries, (e.2.map StarImport.offset).Nodup

/-- No two statements start at the same place where there are none. -/
theorem offsets_empty : ∀ e ∈ (Table.empty : Table ModuleName (List StarImport)).entries,
    (e.2.map StarImport.offset).Nodup :=
  fun _ he => absurd he List.not_mem_nil

/-- `Attribute::as_module_name`. -/
def asModuleName (x : Attribute) : ModuleName :=
  if x.1 = [] then x.2 else appendStr x.1 x.2

/-- What bound the names of the modules: `none` a definition or an explicit re-export, a
rank the star of that rank. -/
abbrev StarMembers := Table Attribute (Option StarRank)

/-- `name.starts_with('_')`. -/
def isPrivate (name : Str) : Bool := decide (name.head? = some '_')

/-- `star_bound_names`: the names `from source import *` binds. -/
def starBoundNames (source : ModuleName) (all : Table ModuleName (List Str))
    (members : StarMembers) : List Str :=
  match all.get? source with
  | some names => names
  | none =>
    (members.keys.filter fun x => decide (x.1 = source) && !isPrivate x.2).map Prod.snd

theorem mem_starBoundNames_of_none {source : ModuleName} {all : Table ModuleName (List Str)}
    (hall : all.get? source = none) {members : StarMembers} {n : Str} :
    n ∈ starBoundNames source all members ↔
      (members.get? (source, n)).isSome ∧ isPrivate n = false := by
  simp only [starBoundNames, hall, List.mem_map, List.mem_filter, Bool.and_eq_true,
    decide_eq_true_eq, Bool.not_eq_true']
  constructor
  · rintro ⟨⟨m, n'⟩, ⟨hkey, rfl, hpublic⟩, rfl⟩
    exact ⟨Table.mem_keys.mp hkey, hpublic⟩
  · rintro ⟨hmember, hpublic⟩
    exact ⟨(source, n), ⟨Table.mem_keys.mpr hmember, rfl, hpublic⟩, rfl⟩

/-- `star_can_replace`. -/
def starCanReplace (existing : Option (Option StarRank)) (rank : StarRank) : Bool :=
  match existing with
  | some none => false
  | some (some bound) => decide (bound < rank)
  | none => true

/-- The state of the loop of `expand_star_re_exports`. -/
structure StarState where
  members : StarMembers
  reExports : Table Attribute Attribute

/-- One name of one star; the flag is raised when it is bound. A name that is a submodule is
not. -/
def bindStarName (graph : Finset ModuleName) (m : ModuleName) (star : StarImport)
    (acc : Bool × StarState) (n : Str) : Bool × StarState :=
  if !starCanReplace (acc.2.members.get? (m, n)) star.rank then acc
  else if asModuleName (star.source, n) ∈ graph then acc
  else
    (true,
      { members := acc.2.members.insert (m, n) (some star.rank)
        reExports := acc.2.reExports.insert (m, n) (star.source, n) })

/-- One star. -/
def bindStar (graph : Finset ModuleName) (all : Table ModuleName (List Str))
    (acc : Bool × StarState) (edge : ModuleName × StarImport) : Bool × StarState :=
  (starBoundNames edge.2.source all acc.2.members).foldl
    (bindStarName graph edge.1 edge.2) acc

namespace Exports

variable (E : Exports)

/-- The stars of all the modules. -/
def starEdges : List (ModuleName × StarImport) :=
  E.starImports.entries.flatMap fun e => e.2.map fun star => (e.1, star)

/-- The stars in the order of the loop. -/
def sortedStarEdges : List (ModuleName × StarImport) :=
  insertionSort.sortOn (fun edge => toLex (edge.1, toLex (edge.2.offset, edge.2.source)))
    E.starEdges

/-- The modules a star touches. -/
def relevant : List ModuleName :=
  E.sortedStarEdges.flatMap fun edge => [edge.1, edge.2.source]

/-- The names the modules bind without a star. -/
def ownNames : List Attribute :=
  E.exports.keys.filterMap rsplitOnce ++ E.reExports.keys

/-- `seed_star_members`. -/
def seedStarMembers : StarMembers :=
  (E.ownNames.filter fun x => decide (x.1 ∈ E.relevant)).foldl
    (fun members x => members.insert x none) Table.empty

/-- One turn of the loop. -/
def starRound (graph : Finset ModuleName) (st : StarState) : Option StarState :=
  let (changed, st') := E.sortedStarEdges.foldl (bindStar graph E.all) (false, st)
  if changed then some st' else none

/-- The state the loop starts from. -/
def starStart : StarState where
  members := E.seedStarMembers
  reExports := E.reExports

/-- Every name a star can bind. -/
def starNames : List Str :=
  E.all.entries.flatMap Prod.snd ++ E.ownNames.map Prod.snd

/-- Turns enough for every star to bind every name. -/
def starFuel : Nat := E.sortedStarEdges.length * E.starNames.length * E.sortedStarEdges.length

/-- The loop of `expand_star_re_exports`. -/
def starLoop (graph : Finset ModuleName) : StarState :=
  runRounds (E.starRound graph) E.starFuel E.starStart

/-- `expand_star_re_exports`. -/
def expandStarReExports (graph : Finset ModuleName) : Exports :=
  if E.starImports.entries.isEmpty then E
  else { E with reExports := (E.starLoop graph).reExports }

/-- The name is that of a definition. -/
def Defines (x : Attribute) : Prop := asModuleName x ∈ E.exports.keys

end Exports

end Lifeguard
