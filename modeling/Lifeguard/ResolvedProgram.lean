import Lifeguard.Errors
import Lifeguard.ImportGraph
import Lifeguard.ReExportMap

/-!
# The resolved program

What the lazy-import policy is computed from (`output/policy.rs`): the modules classified
as passing or failing, the import graph, the re-exports, and the imports each module makes
for their side effects only. It comes from a whole-program analysis
(`ResolvedProgram.fromWholeProgram`) or from the resolved caches
(`ResolvedProgram.fromCache`), and either way

- no module both passes and fails, each being classified once;
- what is still missing is no node of the graph.

The sets of modules to load eagerly and the counts of errors go straight to the output and
are left out.
-/

namespace Lifeguard

open Lib

/-- `ClassifiedModules`. -/
structure ClassifiedModules where
  failingModules : Finset ModuleName := ∅
  passingModules : Finset ModuleName := ∅
  implicitImports : Table ModuleName (List ModuleName) := Table.empty

/-- A module passes when it was analyzed and has no error. -/
def CachedSafety.isSafe : CachedSafety → Bool
  | .ok safety => safety.errors.isEmpty
  | .analysisError _ => false

/-- `record_implicit_imports`. -/
def recordImplicitImports (c : ClassifiedModules) (name : ModuleName)
    (imports : List ModuleName) : ClassifiedModules :=
  if imports = [] then c else { c with implicitImports := c.implicitImports.insert name imports }

/-- One module of `classify_modules` and of `classify_cached_modules`. -/
def classifyModule (c : ClassifiedModules) (result : ModuleName × CachedSafety) :
    ClassifiedModules :=
  let c :=
    if result.2.isSafe then { c with passingModules := insert result.1 c.passingModules }
    else { c with failingModules := insert result.1 c.failingModules }
  match result.2 with
  | .ok safety => recordImplicitImports c result.1 safety.implicitImports
  | .analysisError _ => c

/-- `classify_modules`. -/
def classifyModules (results : List (ModuleName × CachedSafety)) : ClassifiedModules :=
  results.foldl classifyModule {}

@[simp] theorem passingModules_recordImplicitImports (c : ClassifiedModules)
    (name : ModuleName) (imports : List ModuleName) :
    (recordImplicitImports c name imports).passingModules = c.passingModules := by
  unfold recordImplicitImports
  split <;> rfl

@[simp] theorem failingModules_recordImplicitImports (c : ClassifiedModules)
    (name : ModuleName) (imports : List ModuleName) :
    (recordImplicitImports c name imports).failingModules = c.failingModules := by
  unfold recordImplicitImports
  split <;> rfl

theorem mem_classifyModule (c : ClassifiedModules) (result : ModuleName × CachedSafety)
    (m : ModuleName) :
    (m ∈ (classifyModule c result).passingModules ↔
        m ∈ c.passingModules ∨ (m = result.1 ∧ result.2.isSafe = true)) ∧
      (m ∈ (classifyModule c result).failingModules ↔
        m ∈ c.failingModules ∨ (m = result.1 ∧ result.2.isSafe = false)) := by
  obtain ⟨name, safety⟩ := result
  unfold classifyModule
  cases safety with
  | analysisError message => simp [CachedSafety.isSafe, or_comm]
  | ok safety =>
    by_cases hsafe : CachedSafety.isSafe (.ok safety) = true
    · simp [hsafe, or_comm]
    · simp [hsafe, or_comm]

theorem mem_foldl_classifyModule {results : List (ModuleName × CachedSafety)}
    {c : ClassifiedModules} {m : ModuleName} :
    (m ∈ (results.foldl classifyModule c).passingModules ↔
        m ∈ c.passingModules ∨ ∃ r ∈ results, r.1 = m ∧ r.2.isSafe = true) ∧
      (m ∈ (results.foldl classifyModule c).failingModules ↔
        m ∈ c.failingModules ∨ ∃ r ∈ results, r.1 = m ∧ r.2.isSafe = false) := by
  induction results generalizing c with
  | nil => simp
  | cons r rest ih =>
    obtain ⟨hpass, hfail⟩ := ih (c := classifyModule c r)
    obtain ⟨hpass', hfail'⟩ := mem_classifyModule c r m
    rw [List.foldl_cons]
    constructor
    · rw [hpass, hpass', List.exists_mem_cons_iff, or_assoc, eq_comm]
    · rw [hfail, hfail', List.exists_mem_cons_iff, or_assoc, eq_comm]

/-- A module that is classified once passes or fails, not both. -/
theorem classifyModules_disjoint {results : List (ModuleName × CachedSafety)}
    (h : (results.map Prod.fst).Nodup) :
    Disjoint (classifyModules results).failingModules (classifyModules results).passingModules := by
  rw [Finset.disjoint_left]
  intro m hfail hpass
  rcases (mem_foldl_classifyModule.2.mp hfail) with hempty | ⟨r, hr, hrm, hunsafe⟩
  · exact absurd hempty (by simp)
  rcases (mem_foldl_classifyModule.1.mp hpass) with hempty | ⟨r', hr', hrm', hsafe⟩
  · exact absurd hempty (by simp)
  have heq : r = r' := List.inj_on_of_nodup_map h hr hr' (hrm.trans hrm'.symm)
  rw [heq, hsafe] at hunsafe
  exact absurd hunsafe (by simp)

/-- `SideEffects`: of each module the imports that nothing in it uses. -/
inductive SideEffects
  | whole (imports : Table ModuleName (Finset ModuleName))
  | cached (modules : List CachedModule)

/-- The modules the propagation goes through. -/
def SideEffects.entries : SideEffects → List (ModuleName × Finset ModuleName)
  | .whole imports => imports.entries
  | .cached modules => modules.map fun m => (m.name, m.sideEffectImports)

/-- `ResolvedProgram`. -/
structure ResolvedProgram where
  classified : ClassifiedModules
  importGraph : ImportGraph
  reExports : ReExports
  sideEffects : SideEffects
  classified_once : Disjoint classified.failingModules classified.passingModules
  missing_unknown : ∀ m t, t ∈ importGraph.missing.setAt m → t ∉ importGraph.nodes

/-- `ResolvedProgram::from_whole_program`. -/
def ResolvedProgram.fromWholeProgram (safetyMap : Table ModuleName CachedSafety)
    (importGraph : ImportGraph) (reExports : Table Attribute Attribute)
    (sideEffectImports : Table ModuleName (Finset ModuleName)) : ResolvedProgram where
  classified := classifyModules safetyMap.entries
  importGraph := importGraph.resolveMissingToKnown
  reExports := .whole reExports
  sideEffects := .whole sideEffectImports
  classified_once := classifyModules_disjoint safetyMap.keys_nodup
  missing_unknown := fun _ _ h => ImportGraph.mem_missing_resolve h

/-! ## From the caches -/

/-- The names of the modules. -/
def moduleNames (modules : List CachedModule) : List ModuleName :=
  modules.map CachedModule.name

/-- `ResolvedCache`: what the reduce leaves, with the bundled stubs that are only nodes of
the graph. A missing import that resolves to a module of the merge has become an edge. -/
structure ResolvedCache where
  cache : LibraryCache
  graphOnlyStubs : Finset ModuleName
  names_nodup : (moduleNames cache.modules).Nodup
  reExports_nodup : (cache.exports.reExports.map CachedReExport.exported).Nodup
  missing_unresolved : ∀ m ∈ cache.modules, ∀ t ∈ m.missingImports,
    t ∉ moduleNames cache.modules

/-- `classify_cached_modules`. -/
def classifyCachedModules (modules : List CachedModule) (graphOnlyStubs : Finset ModuleName) :
    ClassifiedModules :=
  classifyModules ((modules.filter fun m => decide (m.name ∉ graphOnlyStubs)).map
    fun m => (m.name, m.safety))

/-- The edges `to_import_graph` adds: `add_edge` makes none to a module that is no node. -/
def cachedEdges (modules : List CachedModule) : List (ModuleName × ModuleName) :=
  modules.flatMap fun m =>
    (m.imports.sort.filter fun target => decide (target ∈ moduleNames modules)).map
      fun target => (m.name, target)

/-- `to_import_graph`. -/
def toImportGraph (modules : List CachedModule) (h : (moduleNames modules).Nodup) :
    ImportGraph where
  nodes := moduleNames modules
  nodes_nodup := h
  edges := cachedEdges modules
  edges_closed := by
    intro e he
    obtain ⟨m, hm, hmem⟩ := List.mem_flatMap.mp he
    obtain ⟨target, htarget, rfl⟩ := List.mem_map.mp hmem
    exact ⟨List.mem_map_of_mem hm, of_decide_eq_true (List.mem_filter.mp htarget).2⟩
  missing := Table.empty.extendAll (modules.map fun m => (m.name, m.missingImports))
  missing_closed := by
    intro name hname
    rcases Table.mem_keys_extendAll.mp hname with hempty | ⟨w, hw, rfl⟩
    · exact absurd hempty List.not_mem_nil
    · obtain ⟨m, hm, rfl⟩ := List.mem_map.mp hw
      exact List.mem_map_of_mem hm

/-- `ResolvedProgram::from_cache`. -/
def ResolvedProgram.fromCache (c : ResolvedCache) : ResolvedProgram where
  classified := classifyCachedModules c.cache.modules c.graphOnlyStubs
  importGraph := toImportGraph c.cache.modules c.names_nodup
  reExports := .cached c.cache.exports.reExports c.reExports_nodup
  sideEffects := .cached c.cache.modules
  classified_once := by
    refine classifyModules_disjoint ?_
    rw [List.map_map]
    exact (c.names_nodup.sublist (List.filter_sublist.map _))
  missing_unknown := by
    intro m t ht
    rcases Table.mem_setAt_extendAll.mp ht with hempty | ⟨w, hw, _, hmem⟩
    · exact absurd hempty (by simp [Table.setAt])
    · obtain ⟨module', hmodule, rfl⟩ := List.mem_map.mp hw
      exact c.missing_unresolved module' hmodule t hmem

end Lifeguard
