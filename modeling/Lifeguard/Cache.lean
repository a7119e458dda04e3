import Lifeguard.Constructors
import Lifeguard.ModuleSafety

/-!
# The cache artifact

The facts one library's analysis leaves for the reduce (`cache/artifact.rs`,
`cache/main_guard.rs`): a record for each module, the export facts, and the class facts.
Hash sets are finite sets, the hash map of verdicts is a table, and a vector is a list.
-/

namespace Lifeguard

open Lib

/-- `CachedReturnType`: the class a call to the function evaluates to. -/
structure CachedReturnType where
  function : ModuleName
  returnClass : ModuleName
  deriving DecidableEq, Repr

/-- `CachedReExport`: `exportedModule.exportedAttr` stands for
`importedModule.importedAttr`. -/
structure CachedReExport where
  exportedModule : ModuleName
  exportedAttr : Str
  importedModule : ModuleName
  importedAttr : Str
  deriving DecidableEq, Repr

/-- `Attribute`: a name of a module. -/
abbrev Attribute := ModuleName × Str

/-- The name the record exports. -/
def CachedReExport.exported (re : CachedReExport) : Attribute :=
  (re.exportedModule, re.exportedAttr)

/-- The name it stands for. -/
def CachedReExport.imported (re : CachedReExport) : Attribute :=
  (re.importedModule, re.importedAttr)

/-- `CachedExports`. -/
structure CachedExports where
  reExports : List CachedReExport := []
  returnTypes : List CachedReturnType := []
  deriving DecidableEq, Repr

/-- `CachedModuleSafety`. -/
structure CachedModuleSafety where
  errors : List SafetyError := []
  forceImportsEagerOverrides : List SafetyError := []
  implicitImports : List ModuleName := []
  deriving DecidableEq, Repr

/-- `CachedSafety`. -/
inductive CachedSafety
  | ok (safety : CachedModuleSafety)
  | analysisError (message : Str)
  deriving DecidableEq, Repr

/-- `MainGuardFacts`: the edges no statement outside a `__main__` guard writes. -/
structure MainGuardFacts where
  imports : Finset ModuleName := ∅
  deriving DecidableEq

/-- `CachedModule`. -/
structure CachedModule where
  name : ModuleName
  safety : CachedSafety := .ok {}
  imports : Finset ModuleName := ∅
  missingImports : Finset ModuleName := ∅
  ambiguousImports : Finset ModuleName := ∅
  sideEffectImports : Finset ModuleName := ∅
  functionSafety : ModuleVerdicts := Table.empty
  mutationCandidates : List MutationCandidate := []
  propertyCandidates : List PropertyCandidate := []
  subclassCandidates : List SubclassCandidate := []
  mainGuard : MainGuardFacts := {}

/-- `LibraryCache`. -/
structure LibraryCache where
  modules : List CachedModule := []
  exports : CachedExports := {}
  /-- Class FQN to its base classes, in their declaration order. -/
  classBases : List (ModuleName × List ModuleName) := []
  classProperties : List (ModuleName × List Str) := []
  constructorCallees : List (ModuleName × ConstructorCallees) := []

/-- What `sort_and_dedup` leaves of the exports of merged caches: one record for each
exported attribute and one for each function. -/
structure CachedExports.Deduped (exports : CachedExports) : Prop where
  reExports : (exports.reExports.map fun re => (re.exportedModule, re.exportedAttr)).Nodup
  returnTypes : (exports.returnTypes.map CachedReturnType.function).Nodup

end Lifeguard
