import Lifeguard.Errors
import Lifeguard.Lib.Table
import Mathlib.Data.Finset.Union
import Mathlib.Data.Finset.Insert

/-!
# Function verdicts

The safety concerns of one function (`FunctionSafety`), the record kept for it
(`FunctionSafetyInfo`), and the facts the map phase leaves for the reduce to
settle (`module_safety.rs`).

The source packs the three concerns into the bits of a private byte; here the bits
are the elements of a finite set, so that `has`, `insert` and `remove` are
membership, union and difference, and `Safe` is the empty set.
-/

namespace Lifeguard

open Lib

/-- One bit of `FunctionSafety`. -/
inductive Concern
  /-- Safe within its own module, unsafe when called across modules. -/
  | unsafeIfImported
  /-- A transitive callee could not be resolved; may clear in the reduce. -/
  | unsafeMissingDep
  /-- `FunctionSafety::Unsafe`: intrinsically unsafe to call. -/
  | hardUnsafe
  deriving DecidableEq, Repr

/-- `FunctionSafety`: the set of concerns. `Safe` is `∅`. -/
abbrev FunctionSafety := Finset Concern

/-- `FunctionSafety::is_safe`. -/
def FunctionSafety.isSafe (v : FunctionSafety) : Bool := decide (v = ∅)

@[simp] theorem FunctionSafety.isSafe_iff {v : FunctionSafety} :
    FunctionSafety.isSafe v = true ↔ v = ∅ := by
  simp [FunctionSafety.isSafe]

/-- `MutatedParam`. -/
structure MutatedParam where
  name : ModuleName
  position : ParamPosition
  deriving DecidableEq, Repr

/-- `FunctionSafetyInfo`. -/
structure FunctionSafetyInfo where
  verdict : FunctionSafety
  missingDepCallees : Finset ModuleName := ∅
  mutatedParams : List MutatedParam := []
  deriving DecidableEq

namespace FunctionSafetyInfo

/-- `FunctionSafetyInfo::new`. -/
def new (verdict : FunctionSafety) : FunctionSafetyInfo where
  verdict := verdict

/-- `FunctionSafetyInfo::unsafe_missing_dep`. -/
def unsafeMissingDep (callee : ModuleName) : FunctionSafetyInfo where
  verdict := {.unsafeMissingDep}
  missingDepCallees := {callee}

/-- `extend_mutated_params`: append the parameters whose name is not there yet. -/
def extendMutatedParams (target : List MutatedParam) (params : List MutatedParam) :
    List MutatedParam :=
  params.foldl (fun acc param =>
    if acc.any (fun existing => decide (existing.name = param.name)) then acc
    else acc ++ [param]) target

/-- `merge_ref`: the record that carries the concerns of both. -/
def mergeRef (self other : FunctionSafetyInfo) : FunctionSafetyInfo where
  verdict := self.verdict ∪ other.verdict
  missingDepCallees := self.missingDepCallees ∪ other.missingDepCallees
  mutatedParams := extendMutatedParams self.mutatedParams other.mutatedParams

/-- The `bool` that `merge_ref` returns: whether the record changed. -/
def mergeRefChanged (self other : FunctionSafetyInfo) : Bool :=
  decide ((mergeRef self other).verdict ≠ self.verdict) ||
    decide ((mergeRef self other).missingDepCallees.card ≠ self.missingDepCallees.card) ||
    decide ((mergeRef self other).mutatedParams.length ≠ self.mutatedParams.length)

end FunctionSafetyInfo

/-- `MutationCandidateSite`. -/
inductive MutationCandidateSite
  | moduleScope (call : ModuleName)
  | function (name : ModuleName)
  deriving DecidableEq, Repr

/-- `MutationCandidate`: a call passing an imported object to a callee unresolved in
its library. -/
structure MutationCandidate where
  callee : ModuleName
  site : MutationCandidateSite
  argOffset : Nat
  importedArgs : ImportedArgs
  range : TextRange := {}
  fromMainGuard : Bool := false
  deriving DecidableEq, Repr

/-- `PropertyCandidate`. -/
structure PropertyCandidate where
  attributeName : ModuleName
  range : TextRange := {}
  fromMainGuard : Bool := false
  deriving DecidableEq, Repr

/-- `SubclassCandidate`. -/
structure SubclassCandidate where
  candidateClass : ModuleName
  range : TextRange := {}
  fromMainGuard : Bool := false
  deriving DecidableEq, Repr

/-- The verdicts of one module, by module-local name. -/
abbrev ModuleVerdicts := Table Str FunctionSafetyInfo

/-- The merged verdicts: module, then module-local name. -/
abbrev FunctionSafetyMap := Table ModuleName ModuleVerdicts

/-- `get_function_safety`. -/
def getFunctionSafety (fs : FunctionSafetyMap) (m : ModuleName) (name : Str) :
    Option FunctionSafetyInfo :=
  (fs.get? m).bind fun fns => fns.get? name

/-- An edit of the entry `get_function_safety_mut` hands out; nothing is edited when
there is none. -/
def modifyFunctionSafety (fs : FunctionSafetyMap) (m : ModuleName) (name : Str)
    (f : FunctionSafetyInfo → FunctionSafetyInfo) : FunctionSafetyMap :=
  fs.modify m fun fns => fns.modify name f

theorem getFunctionSafety_modify (fs : FunctionSafetyMap) (m m' : ModuleName)
    (name name' : Str) (f : FunctionSafetyInfo → FunctionSafetyInfo) :
    getFunctionSafety (modifyFunctionSafety fs m name f) m' name' =
      if m' = m ∧ name' = name then (getFunctionSafety fs m' name').map f
      else getFunctionSafety fs m' name' := by
  unfold getFunctionSafety modifyFunctionSafety
  rw [Table.get?_modify]
  by_cases hm : m' = m
  · rw [if_pos hm]
    cases fs.get? m' with
    | none => simp
    | some fns =>
      show (fns.modify name f).get? name' = _
      rw [Table.get?_modify]
      by_cases hn : name' = name
      · rw [if_pos hn, if_pos ⟨hm, hn⟩]
        rfl
      · rw [if_neg hn, if_neg (fun h => hn h.2)]
        rfl
  · rw [if_neg hm, if_neg (fun h => hm h.1)]

end Lifeguard
