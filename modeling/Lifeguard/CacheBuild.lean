import Lifeguard.Bindings
import Lifeguard.LibraryFacts
import Lifeguard.Reduce

/-!
# Building the cache of a library

How the facts of a library become the cache it writes (`cache/artifact.rs`,
`commands/analyze_library.rs`): a record of each module, with its verdicts and its edges in the
graph of imports; the re-exports and return types of its own modules; the facts of its classes.

- `LibraryCache.build`, `analyzeLibrary`: the cache;
- `LibraryCache.built_build`: it has one record of each module and one of each export.

The maps are run through in the order of their hashes, and a parallel iteration collects in any
order (`BuildOrders`).
-/

namespace Lifeguard

open Lib

/-- The orders in which the tables are run through that a cache is built from. -/
structure BuildOrders (exports : ModuleExports) where
  records : List (ModuleName × SafetyResult) → List (ModuleName × SafetyResult)
  perm_records : ∀ l, (records l).Perm l
  reExports : List (Attribute × Attribute)
  perm_reExports : reExports.Perm exports.reExports.entries
  returnTypes : List (ModuleName × ModuleName)
  perm_returnTypes : returnTypes.Perm exports.returnTypes.entries
  /-- The sort of the modules. -/
  sort : UnstableSort

/-- There are such orders: the tables as they are listed. -/
def BuildOrders.listed (exports : ModuleExports) : BuildOrders exports where
  records l := l
  perm_records _ := List.Perm.refl _
  reExports := exports.reExports.entries
  perm_reExports := List.Perm.refl _
  returnTypes := exports.returnTypes.entries
  perm_returnTypes := List.Perm.refl _
  sort := insertionSort

/-- `graph_edge_sets`. -/
def graphEdgeSets (graph : ImportGraphBuilder) (name : ModuleName) : GraphEdgeSets where
  imports := (graph.graph.edges.filter fun e => e.1 = name).image Prod.snd
  missingImports := graph.missing.setAt name
  ambiguousImports := graph.ambiguous.setAt name
  mainGuardImports := graph.mainGuardOnly.setAt name

/-- `CachedSafety::from_safety_result`. -/
def CachedSafety.fromSafetyResult : SafetyResult → CachedSafety
  | .ok safety =>
    .ok
      { errors := safety.errors
        forceImportsEagerOverrides := safety.forceImportsEagerOverrides
        implicitImports := insertionSort.sortOn (fun m : ModuleName => m) safety.implicitImports }
  | .analysisError message => .analysisError message

/-- The record of a module. -/
def cachedModule (importGraph : ImportGraphBuilder)
    (sideEffectImports : Table ModuleName (Finset ModuleName)) (e : ModuleName × SafetyResult) :
    CachedModule :=
  let edges := graphEdgeSets importGraph e.1
  let ms := e.2.asSafety.getD {}
  { name := e.1
    safety := .fromSafetyResult e.2
    imports := edges.imports
    missingImports := edges.missingImports
    ambiguousImports := edges.ambiguousImports
    sideEffectImports := sideEffectImports.setAt e.1
    functionSafety := ms.functionSafety
    mutationCandidates := ms.mutationCandidates
    propertyCandidates := ms.propertyCandidates
    subclassCandidates := ms.subclassCandidates
    mainGuard := { imports := edges.mainGuardImports } }

/-- The module that owns a function is one of the library's own: the longest package above the
function that the graph knows. -/
def ownsFunction (ownModules : Finset ModuleName) (importGraph : ImportGraphBuilder)
    (function : ModuleName) : Bool :=
  ((iterParents function).find? fun p => decide (p.1 ∈ importGraph.graph.nodes)).any fun p =>
    decide (p.1 ∈ ownModules)

section Build

variable {exports : ModuleExports} (orders : BuildOrders exports)

/-- `CachedExports::from_exports`. -/
def CachedExports.fromExports (ownModules : Finset ModuleName)
    (importGraph : ImportGraphBuilder) : CachedExports :=
  let exports : CachedExports :=
    { reExports := (orders.reExports.filter fun e => decide (e.1.1 ∈ ownModules)).map fun e =>
        { exportedModule := e.1.1
          exportedAttr := e.1.2
          importedModule := e.2.1
          importedAttr := e.2.2 }
      returnTypes := (orders.returnTypes.filter fun e =>
        ownsFunction ownModules importGraph e.1).map fun e =>
          { function := e.1, returnClass := e.2 } }
  exports.sortAndDedup

/-- `LibraryCache::build`. -/
def LibraryCache.build (safetyMap : SafetyMap) (importGraph : ImportGraphBuilder)
    (sideEffectImports : Table ModuleName (Finset ModuleName)) : LibraryCache :=
  let modules := orders.sort.sortOn CachedModule.name
    ((orders.records safetyMap.entries).map (cachedModule importGraph sideEffectImports))
  { modules := modules
    exports := .fromExports orders (moduleNames modules).toFinset importGraph }

/-- The cache that `analyze-library` writes, of a library that has sources. -/
def analyzeLibrary (output : AnalysisOutput) (importGraph : ImportGraphBuilder) : LibraryCache :=
  { LibraryCache.build orders output.safetyMap importGraph output.sideEffectImports with
    classBases := output.classBases
    classProperties := output.classProperties
    constructorCallees := output.constructorCallees }

/-! ## One record of each -/

variable {safetyMap : SafetyMap} {importGraph : ImportGraphBuilder}
  {sideEffectImports : Table ModuleName (Finset ModuleName)}

/-- The records are those of the safety map, in some order. -/
theorem LibraryCache.perm_modules_build :
    (LibraryCache.build orders safetyMap importGraph sideEffectImports).modules.Perm
      (safetyMap.entries.map (cachedModule importGraph sideEffectImports)) :=
  (orders.sort.sortOn_perm _ _).trans ((orders.perm_records _).map _)

theorem LibraryCache.mem_modules_build {r : CachedModule} :
    r ∈ (LibraryCache.build orders safetyMap importGraph sideEffectImports).modules ↔
      ∃ result, safetyMap.get? r.name = some result ∧
        r = cachedModule importGraph sideEffectImports (r.name, result) := by
  rw [(perm_modules_build orders).mem_iff, List.mem_map]
  constructor
  · rintro ⟨e, he, rfl⟩
    exact ⟨e.2, Table.mem_entries.mp he, rfl⟩
  · rintro ⟨result, hget, hr⟩
    exact ⟨(r.name, result), Table.mem_entries.mpr hget, hr.symm⟩

theorem LibraryCache.perm_moduleNames_build :
    (moduleNames (LibraryCache.build orders safetyMap importGraph sideEffectImports).modules).Perm
      safetyMap.keys := by
  have hnames : (safetyMap.entries.map (cachedModule importGraph sideEffectImports)).map
      CachedModule.name = safetyMap.keys := by
    rw [List.map_map]
    rfl
  exact hnames ▸ (perm_modules_build orders).map CachedModule.name

/-- A cache that was built has one record of each module, and one of each export. -/
theorem LibraryCache.built_build :
    (LibraryCache.build orders safetyMap importGraph sideEffectImports).Built where
  names := (perm_moduleNames_build orders).nodup_iff.mpr safetyMap.keys_nodup
  exports := CachedExports.deduped_sortAndDedup _

theorem built_analyzeLibrary (output : AnalysisOutput) :
    (analyzeLibrary orders output importGraph).Built where
  names := (LibraryCache.built_build orders).names
  exports := (LibraryCache.built_build orders).exports

end Build

end Lifeguard
