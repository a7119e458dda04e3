import Lifeguard.CacheMerge
import Lifeguard.ImportConservation
import Lifeguard.ReExportPropagation
import Lifeguard.Resolution
import Lifeguard.ResolvedProgram
import Lifeguard.SubclassRegistration

/-!
# The reduce

How the caches of several libraries become the resolved cache the output is made of
(`cache/reduce.rs`). The caches are merged and the bundled stubs put in
(`ReduceWorkspace.merge`); then the imports are resolved against the merged modules, errors
are cleared, the verdicts are settled, and errors the libraries could not see are added
(`ReduceWorkspace.resolve`).

- `LibraryCache.resolveCrossLibraryErrors`: the phases in their order;
- `modules_resolve`: past the facts all modules share (`SharedFacts`), each module is settled
  by itself;
- `MergedFrom`: what a merge leaves, and `exists_mergedFrom`: it fails for the empty set only.
-/

namespace Lifeguard

open Lib

/-! ## The workspace -/

/-- `GraphEdgeSets`. -/
structure GraphEdgeSets where
  imports : Finset ModuleName := ∅
  missingImports : Finset ModuleName := ∅
  ambiguousImports : Finset ModuleName := ∅
  mainGuardImports : Finset ModuleName := ∅

/-- The import graph of the bundled stubs: its nodes, each with its edges. -/
structure StubGraph where
  nodes : List (ModuleName × GraphEdgeSets)
  nodes_nodup : (nodes.map Prod.fst).Nodup

/-- The record of a stub that is only a node of the graph. -/
def graphOnlyModule (name : ModuleName) (edges : GraphEdgeSets) : CachedModule :=
  { CachedModule.empty name with
    imports := edges.imports
    missingImports := edges.missingImports
    ambiguousImports := edges.ambiguousImports
    mainGuard := { imports := edges.mainGuardImports } }

/-- The nodes of the graph that no module of the cache provides. -/
def unprovidedStubs (graph : StubGraph) (modules : List CachedModule) :
    List (ModuleName × GraphEdgeSets) :=
  graph.nodes.filter fun node => decide (node.1 ∉ moduleNames modules)

/-- `inject_bundled_stub_graph`: the names it adds, and the cache with them. -/
def LibraryCache.injectBundledStubGraph (cache : LibraryCache) (graph : StubGraph) :
    Finset ModuleName × LibraryCache :=
  let added := unprovidedStubs graph cache.modules
  ((added.map Prod.fst).toFinset,
    { cache with
      modules := cache.modules ++ added.map fun node => graphOnlyModule node.1 node.2 })

/-- What `LibraryCache::build` leaves: one record of each module, and one of each export. -/
structure LibraryCache.Built (cache : LibraryCache) : Prop where
  names : (moduleNames cache.modules).Nodup
  exports : cache.exports.Deduped

/-- A cache as a library's analysis writes it. -/
abbrev BuiltCache := { cache : LibraryCache // cache.Built }

/-- `ReduceWorkspace`: libraries merged, with the stubs injected, and nothing resolved. -/
structure ReduceWorkspace where
  cache : LibraryCache
  graphOnlyStubs : Finset ModuleName
  artifactModuleCount : Nat
  merged : MergedClassFacts
  built : cache.Built
  stubs_cached : ∀ n ∈ graphOnlyStubs, n ∈ moduleNames cache.modules
  module_count : artifactModuleCount + graphOnlyStubs.card = cache.modules.length

theorem moduleNames_injectBundledStubGraph (cache : LibraryCache) (graph : StubGraph) :
    moduleNames (cache.injectBundledStubGraph graph).2.modules =
      moduleNames cache.modules ++ (unprovidedStubs graph cache.modules).map Prod.fst := by
  rw [LibraryCache.injectBundledStubGraph, moduleNames, List.map_append, List.map_map]
  rfl

theorem nodup_unprovidedStubs (graph : StubGraph) (modules : List CachedModule) :
    ((unprovidedStubs graph modules).map Prod.fst).Nodup :=
  graph.nodes_nodup.sublist (List.filter_sublist.map Prod.fst)

theorem mem_map_unprovidedStubs {graph : StubGraph} {modules : List CachedModule}
    {n : ModuleName} :
    n ∈ (unprovidedStubs graph modules).map Prod.fst ↔
      n ∈ graph.nodes.map Prod.fst ∧ n ∉ moduleNames modules := by
  simp only [unprovidedStubs, List.mem_map, List.mem_filter, decide_eq_true_eq]
  constructor
  · rintro ⟨node, ⟨hnode, hnot⟩, rfl⟩
    exact ⟨⟨node, hnode, rfl⟩, hnot⟩
  · rintro ⟨⟨node, hnode, rfl⟩, hnot⟩
    exact ⟨node, ⟨hnode, hnot⟩, rfl⟩

/-- The stubs are new names, so each module still has one record. -/
theorem LibraryCache.Built.injectBundledStubGraph {cache : LibraryCache} (h : cache.Built)
    (graph : StubGraph) : (cache.injectBundledStubGraph graph).2.Built where
  names := by
    rw [moduleNames_injectBundledStubGraph]
    refine h.names.append (nodup_unprovidedStubs graph cache.modules) ?_
    intro n hcached hstub
    exact (mem_map_unprovidedStubs.mp hstub).2 hcached
  exports := h.exports

namespace ReduceWorkspace

/-- `single_with`. -/
def singleWith (cache : LibraryCache) (h : cache.Built) (graph : StubGraph)
    (merged : MergedClassFacts) : ReduceWorkspace where
  cache := (cache.injectBundledStubGraph graph).2
  graphOnlyStubs := (cache.injectBundledStubGraph graph).1
  artifactModuleCount := cache.modules.length
  merged := merged
  built := h.injectBundledStubGraph graph
  stubs_cached n hn := by
    rw [moduleNames_injectBundledStubGraph]
    exact List.mem_append_right _ (List.mem_toFinset.mp hn)
  module_count := by
    have hcard := List.toFinset_card_of_nodup (nodup_unprovidedStubs graph cache.modules)
    simp only [LibraryCache.injectBundledStubGraph, List.length_append, List.length_map,
      hcard]

/-- `single`. -/
def single (cache : LibraryCache) (h : cache.Built) (graph : StubGraph) : ReduceWorkspace :=
  singleWith cache h graph {}

end ReduceWorkspace

/-- What `swap_remove(0)` leaves: the last item takes the place of the first. -/
def swapRemoveFirst {α : Type} : List α → List α
  | [] => []
  | _ :: rest => rest.getLast?.toList ++ rest.dropLast

/-- The merge keeps what every cache was built with. -/
theorem built_of_mergeDepCaches {S : UnstableSort} {cache : LibraryCache}
    {deps : List LibraryCache} {division : Division} {r : LibraryCache × MergedClassFacts}
    (h : cache.mergeDepCaches S deps division = some r) : r.1.Built := by
  obtain ⟨merged, facts, heq, hmodules, hexports⟩ :=
    LibraryCache.exists_mergeDepCaches S cache deps division
  rw [heq] at h
  cases h
  exact ⟨hmodules.nodup, hexports⟩

/-- `ReduceWorkspace::merge`; `none` is its error. -/
def ReduceWorkspace.merge (S : UnstableSort) (caches : List BuiltCache) (graph : StubGraph)
    (division : Division) : Option ReduceWorkspace :=
  match caches with
  | [] => none
  | cache :: rest =>
    let deps := (swapRemoveFirst (cache :: rest)).map Subtype.val
    if deps = [] then some (single cache.1 cache.2 graph)
    else
      match h : cache.1.mergeDepCaches S deps division with
      | none => none
      | some r => some (singleWith r.1 (built_of_mergeDepCaches h) graph r.2)

/-! ## What the passes read -/

/-- The merged facts that every pass over the modules reads. -/
structure MergedFacts where
  moduleNames : Finset ModuleName
  functionSafety : FunctionSafetyMap
  classBases : ClassBases
  constructorCallees : ConstructorTable

namespace MergedFacts

/-- The resolver of the first clearing pass: it answers for what the module's imports newly
resolved to, and without a safe-name index. -/
def importResolver (facts : MergedFacts) (resolved : Finset ModuleName) : SafetyResolver where
  modules := resolved
  byModule := facts.functionSafety
  classBases := some facts.classBases
  constructorCallees := some facts.constructorCallees
  mroModules := some facts.moduleNames

/-- `ResolutionContext::resolver`. -/
def resolver (facts : MergedFacts) (modules : Finset ModuleName) (globallySafe : Finset Str) :
    SafetyResolver :=
  { facts.importResolver modules with globallySafe := some globallySafe }

/-- The resolver that answers for every merged module. -/
def wholeProgram (facts : MergedFacts) (globallySafe : Finset Str) : SafetyResolver :=
  { facts.resolver facts.moduleNames globallySafe with mroModules := none }

end MergedFacts

/-- `ResolutionContext`. -/
structure ResolutionContext extends MergedFacts where
  /-- What the missing and ambiguous imports of each module newly resolved to. -/
  resolvedByModule : Table ModuleName (Finset ModuleName)

/-! ## One module -/

namespace CachedModule

/-- Edit the safety of a module whose analysis succeeded. -/
def mapSafety (m : CachedModule) (f : CachedModuleSafety → CachedModuleSafety) :
    CachedModule :=
  { m with
    safety :=
      match m.safety with
      | .ok safety => .ok (f safety)
      | .analysisError message => .analysisError message }

/-- The module once its verdicts are taken. -/
def takeFunctionSafety (m : CachedModule) : CachedModule :=
  { m with functionSafety := Table.empty }

/-- The module with its verdicts handed back. -/
def returnFunctionSafety (fs : FunctionSafetyMap) (m : CachedModule) : CachedModule :=
  { m with functionSafety := (fs.get? m.name).getD m.functionSafety }

end CachedModule

/-- `dedupe_implicit_imports`: the first of equal ones is kept. -/
def dedupeImplicitImports (safety : CachedModuleSafety) : CachedModuleSafety :=
  { safety with implicitImports := extendDeduped [] safety.implicitImports }

/-- `retain_unverified_errors`. -/
def retainUnverifiedErrors (isVerifiedSafe : SafetyError → Bool) (safety : CachedModuleSafety) :
    CachedModuleSafety :=
  { safety with
    errors := safety.errors.filter fun e =>
      !e.kind.couldBeCausedByMissingImport || !isVerifiedSafe e }

/-- The missing-import resolution of one module, and the errors it clears. Answers what the
module's imports newly resolved to, when there were any to resolve. -/
def MergedFacts.resolveMissing (facts : MergedFacts) (fromAmbiguous : Finset ModuleName)
    (m : CachedModule) : Option (Finset ModuleName) × CachedModule :=
  let missing := (m.mapSafety dedupeImplicitImports).resolveMissingImports facts.moduleNames
    fromAmbiguous
  (missing.1,
    match missing.1 with
    | none => missing.2
    | some resolved =>
      missing.2.mapSafety (retainUnverifiedErrors
        ((facts.importResolver resolved).clears m.name)))

/-- The errors that the confirmed candidates at the module scope of `m` are reported as. -/
def moduleScopeErrorsOf (emitted : List ModuleScopeError) (m : ModuleName) : List SafetyError :=
  (emitted.filter fun e => decide (e.moduleName = m)).map fun e =>
    { kind := .importedVarArgument, metadata := e.metadata, range := e.range }

/-- Report what the candidates emitted for the module. -/
def CachedModule.addModuleErrors (emitted : List ModuleScopeError) (m : CachedModule) :
    CachedModule :=
  m.mapSafety fun safety =>
    { safety with errors := safety.errors ++ moduleScopeErrorsOf emitted m.name }

/-- `is_resolved_error_verified_safe`. -/
def isResolvedErrorVerifiedSafe (caller : ModuleName) (error : SafetyError)
    (wholeProgram : SafetyResolver) (scopedResolver : Option SafetyResolver)
    (promoted : Finset (ModuleName × Str)) : Bool :=
  match wholeProgram.recordedConstructorClears caller error with
  | some cleared => cleared
  | none =>
    let qualified := (unqualifiedIndexKey error.metadata).isNone
    if error.kind = .unsafeDecoratorCall ∨ qualified = false then
      wholeProgram.isErrorVerifiedSafe error
    -- a callee of the own module, unless the verdict comes from a promotion
    else if (error.kind = .unsafeFunctionCall ∨ error.kind = .unsafeMethodCall) ∧
        (wholeProgram.splitAtModule (trimCalls error.metadata)).any (fun p =>
          decide (p.1 = caller) && decide ((p.1, p.2) ∉ promoted)) = true then
      wholeProgram.isErrorVerifiedSafe error
    else scopedResolver.any fun resolver => resolver.isErrorVerifiedSafe error

/-- Whether the second clearing pass clears an error of a module whose imports newly resolved
to these, when there were any to resolve. -/
def MergedFacts.clears (facts : MergedFacts) (outcome : ResolutionOutcome)
    (resolved : Option (Finset ModuleName)) (caller : ModuleName) (error : SafetyError) : Bool :=
  isResolvedErrorVerifiedSafe caller error (facts.wholeProgram outcome.globallySafe)
    (resolved.map fun resolved => facts.resolver resolved outcome.globallySafe)
    outcome.promoted.toFinset

/-- `finalize_resolution`, for one module. -/
def ResolutionContext.finalizeResolution (ctx : ResolutionContext) (outcome : ResolutionOutcome)
    (m : CachedModule) : CachedModule :=
  m.mapSafety (retainUnverifiedErrors
    (ctx.clears outcome (ctx.resolvedByModule.get? m.name) m.name))

/-- The unqualified names of the errors of one module. -/
def CachedModule.unqualifiedNames (m : CachedModule) : List Str :=
  match m.safety with
  | .ok safety => safety.errors.filterMap fun e => unqualifiedIndexKey e.metadata
  | .analysisError _ => []

/-- `unqualified_error_names`. -/
def unqualifiedErrorNames (modules : List CachedModule) : Finset Str :=
  (modules.flatMap CachedModule.unqualifiedNames).toFinset

/-! ## The phases -/

namespace LibraryCache

/-- `resolve_ambiguous_imports`: what each module's newly resolve to, where any do. -/
def resolveAmbiguousImports (cache : LibraryCache) :
    Table ModuleName (Finset ModuleName) × LibraryCache :=
  let names := (moduleNames cache.modules).toFinset
  let passes := cache.modules.map fun m => (m.name, m.resolveAmbiguousImports names)
  (Table.ofOptions (passes.map fun p => (p.1, if p.2.1 = ∅ then none else some p.2.1)),
    { cache with modules := passes.map fun p => p.2.2 })

/-- The class facts folded, and the verdicts as the re-exports propagate them. -/
def mergedFacts (cache : LibraryCache) (merged : MergedClassFacts) : MergedFacts where
  moduleNames := (moduleNames cache.modules).toFinset
  functionSafety := cache.propagateReExportSafety.functionSafety
  classBases := foldFqnLists merged.classBases cache.classBases
  constructorCallees := foldConstructorCallees merged.constructorCallees cache.constructorCallees

/-- The missing-import resolution of all the modules. -/
def resolveMissingImports (facts : MergedFacts)
    (ambiguousResolved : Table ModuleName (Finset ModuleName)) (modules : List CachedModule) :
    Table ModuleName (Finset ModuleName) × List CachedModule :=
  let passes := modules.map fun m =>
    (m.name, facts.resolveMissing (ambiguousResolved.setAt m.name) m)
  (Table.ofOptions (passes.map fun p => (p.1, p.2.1)), passes.map fun p => p.2.2)

/-- The imports resolved: the facts the later passes read, and the modules. -/
def resolveImports (cache : LibraryCache) (merged : MergedClassFacts) :
    ResolutionContext × List CachedModule :=
  let ambiguous := cache.resolveAmbiguousImports
  let facts := ambiguous.2.mergedFacts merged
  let missing := resolveMissingImports facts ambiguous.1
    (ambiguous.2.modules.map CachedModule.takeFunctionSafety)
  ({ facts with resolvedByModule := missing.1 }, missing.2)

/-- `resolve_program`, as the reduce calls it. -/
def resolveProgramOf (facts : MergedFacts) (modules : List CachedModule) : ResolutionOutcome :=
  resolveProgram facts.moduleNames facts.functionSafety
    (modules.map fun m => (m.name, m.mutationCandidates)) (unqualifiedErrorNames modules)
    .probeStr

/-- What `resolve_property_candidates` reads. -/
def propertyFacts (cache : LibraryCache) (moduleNames : Finset ModuleName)
    (outcome : ResolutionOutcome) : PropertyFacts where
  exports := cache.exports
  classProperties := mergeClassProperties cache.classProperties
  resolver :=
    { modules := moduleNames
      byModule := outcome.functionSafety
      globallySafe := some outcome.globallySafe }

/-- `resolve_cross_library_errors`. -/
def resolveCrossLibraryErrors (cache : LibraryCache) (merged : MergedClassFacts) :
    LibraryCache :=
  let imported := cache.resolveImports merged
  let ctx := imported.1
  let outcome := resolveProgramOf ctx.toMergedFacts imported.2
  let modules := imported.2.map (CachedModule.addModuleErrors outcome.moduleScopeErrors)
  let modules := applyCachedRegistrations modules ctx.classBases
  let settled := { ctx with functionSafety := outcome.functionSafety }
  let modules := modules.map (settled.finalizeResolution outcome)
  let modules := (cache.propertyFacts ctx.moduleNames outcome).resolvePropertyCandidates modules
  { modules := modules.map (CachedModule.returnFunctionSafety outcome.functionSafety)
    exports := cache.exports }

/-- `apply_main_module`. -/
def applyMainModule (cache : LibraryCache) (mainModule : Option ModuleName) : LibraryCache :=
  match mainModule with
  | none => cache
  | some mainModule =>
    { cache with
      modules := cache.modules.map fun m =>
        if m.name ≠ mainModule then (dropMainGuarded m).2 else m }

end LibraryCache

/-! ## One module at a time -/

@[simp] theorem CachedModule.name_mapSafety (m : CachedModule)
    (f : CachedModuleSafety → CachedModuleSafety) : (m.mapSafety f).name = m.name := rfl

@[simp] theorem CachedModule.name_resolveMissingImports (m : CachedModule)
    (names fromAmbiguous : Finset ModuleName) :
    (m.resolveMissingImports names fromAmbiguous).2.name = m.name := by
  rw [CachedModule.resolveMissingImports]
  split <;> rfl

/-- The resolution of missing imports neither reads nor writes what is known of the errors. -/
theorem CachedModule.resolveMissingImports_congr (m m' : CachedModule) (hname : m.name = m'.name)
    (himports : m.imports = m'.imports) (hmissing : m.missingImports = m'.missingImports)
    (names fromAmbiguous : Finset ModuleName) :
    (m.resolveMissingImports names fromAmbiguous).1 =
        (m'.resolveMissingImports names fromAmbiguous).1 ∧
      (m.resolveMissingImports names fromAmbiguous).2.imports =
        (m'.resolveMissingImports names fromAmbiguous).2.imports ∧
      (m.resolveMissingImports names fromAmbiguous).2.missingImports =
        (m'.resolveMissingImports names fromAmbiguous).2.missingImports := by
  rw [CachedModule.resolveMissingImports, CachedModule.resolveMissingImports, hname, himports,
    hmissing]
  split
  · exact ⟨rfl, himports, hmissing⟩
  · exact ⟨rfl, rfl, rfl⟩

@[simp] theorem MergedFacts.name_resolveMissing (facts : MergedFacts)
    (fromAmbiguous : Finset ModuleName) (m : CachedModule) :
    (facts.resolveMissing fromAmbiguous m).2.name = m.name := by
  have hname : ((m.mapSafety dedupeImplicitImports).resolveMissingImports facts.moduleNames
      fromAmbiguous).2.name = m.name := CachedModule.name_resolveMissingImports _ _ _
  rw [MergedFacts.resolveMissing]
  dsimp only
  split <;> exact hname

/-- The imports of one module resolved, and the errors that clears. -/
def MergedFacts.resolveImports (facts : MergedFacts) (m : CachedModule) :
    Option (Finset ModuleName) × CachedModule :=
  let ambiguous := m.resolveAmbiguousImports facts.moduleNames
  facts.resolveMissing ambiguous.1 ambiguous.2.takeFunctionSafety

@[simp] theorem MergedFacts.name_resolveImports (facts : MergedFacts) (m : CachedModule) :
    (facts.resolveImports m).2.name = m.name :=
  (facts.name_resolveMissing _ _).trans rfl

/-- What the settling of a module reads of all the modules. -/
structure SharedFacts where
  facts : MergedFacts
  outcome : ResolutionOutcome
  walked : WalkedBases
  walkerImports : Table ModuleName (Finset ModuleName)
  properties : PropertyFacts

namespace SharedFacts

/-- The facts with the verdicts as they are settled. -/
def settled (shared : SharedFacts) : MergedFacts :=
  { shared.facts with functionSafety := shared.outcome.functionSafety }

/-- Add what the walked bases make of the module's subclass candidates. -/
def register (shared : SharedFacts) (m : CachedModule) : CachedModule :=
  if shared.walked.entries = [] then m
  else registerModule shared.walked shared.walkerImports shared.facts.classBases m

/-- Add what the properties make of the module's property candidates. -/
def addProperties (shared : SharedFacts) (m : CachedModule) : CachedModule :=
  if shared.properties.classProperties.entries.isEmpty then m
  else shared.properties.resolveModule m

/-- Settle one module. -/
def settle (shared : SharedFacts) (m : CachedModule) : CachedModule :=
  let imported := shared.facts.resolveImports m
  let m := shared.register (imported.2.addModuleErrors shared.outcome.moduleScopeErrors)
  let m := m.mapSafety (retainUnverifiedErrors
    (shared.settled.clears shared.outcome imported.1 m.name))
  (shared.addProperties m).returnFunctionSafety shared.outcome.functionSafety

@[simp] theorem name_register (shared : SharedFacts) (m : CachedModule) :
    (shared.register m).name = m.name := by
  rw [register]
  split <;> rfl

@[simp] theorem name_addProperties (shared : SharedFacts) (m : CachedModule) :
    (shared.addProperties m).name = m.name := by
  rw [addProperties, PropertyFacts.resolveModule]
  split
  · rfl
  · split <;> rfl

@[simp] theorem name_settle (shared : SharedFacts) (m : CachedModule) :
    (shared.settle m).name = m.name := by
  show (shared.addProperties _).name = m.name
  rw [name_addProperties, CachedModule.name_mapSafety, name_register]
  exact shared.facts.name_resolveImports m

end SharedFacts

namespace LibraryCache

variable {cache : LibraryCache} {merged : MergedClassFacts}

theorem applyCachedRegistrations_eq (modules : List CachedModule) (classBases : ClassBases) :
    applyCachedRegistrations modules classBases = modules.map fun m =>
      if (recordModules modules).1.entries = [] then m
      else registerModule (recordModules modules).1 (recordModules modules).2 classBases m := by
  have hdef : applyCachedRegistrations modules classBases =
      if (recordModules modules).1.entries = [] then modules
      else modules.map (registerModule (recordModules modules).1 (recordModules modules).2
        classBases) := rfl
  rw [hdef]
  split
  · rw [List.map_id']
  · rfl

theorem resolvePropertyCandidates_eq (facts : PropertyFacts) (modules : List CachedModule) :
    facts.resolvePropertyCandidates modules = modules.map fun m =>
      if facts.classProperties.entries.isEmpty then m else facts.resolveModule m := by
  rw [PropertyFacts.resolvePropertyCandidates]
  split
  · rw [List.map_id']
  · rfl

/-- What the modules of the cache share. -/
def sharedFacts (cache : LibraryCache) (merged : MergedClassFacts) : SharedFacts :=
  let imported := cache.resolveImports merged
  let facts := imported.1.toMergedFacts
  let outcome := resolveProgramOf facts imported.2
  let walks :=
    recordModules (imported.2.map (CachedModule.addModuleErrors outcome.moduleScopeErrors))
  { facts, outcome
    walked := walks.1
    walkerImports := walks.2
    properties := cache.propertyFacts facts.moduleNames outcome }

theorem moduleNames_resolveAmbiguousImports (cache : LibraryCache) :
    moduleNames cache.resolveAmbiguousImports.2.modules = moduleNames cache.modules := by
  rw [resolveAmbiguousImports, moduleNames, moduleNames, List.map_map, List.map_map]
  rfl

/-- Where the names of the modules differ, each finds what its own ambiguous imports resolved
to. -/
theorem setAt_resolveAmbiguousImports (h : (moduleNames cache.modules).Nodup) {m : CachedModule}
    (hm : m ∈ cache.modules) :
    cache.resolveAmbiguousImports.1.setAt m.name =
      (m.resolveAmbiguousImports (moduleNames cache.modules).toFinset).1 := by
  rw [resolveAmbiguousImports, Table.setAt]
  generalize (moduleNames cache.modules).toFinset = names
  rw [Table.get?_ofOptions (k := m.name)
    (o := if (m.resolveAmbiguousImports names).1 = ∅ then none
      else some (m.resolveAmbiguousImports names).1)]
  · split
    · next hempty => exact hempty.symm
    · rfl
  · rw [List.map_map, List.map_map]
    exact h
  · rw [List.map_map]
    exact List.mem_map.mpr ⟨m, hm, rfl⟩

theorem functionSafety_withFunctionSafety (cache : LibraryCache) (fs : FunctionSafetyMap) :
    (cache.withFunctionSafety fs).functionSafety =
      Table.ofList (cache.modules.map fun m =>
        (m.name, (fs.get? m.name).getD m.functionSafety)) := by
  rw [functionSafety, withFunctionSafety, List.map_map]
  rfl

/-- The ambiguous imports have no part in the merged facts. -/
theorem mergedFacts_resolveAmbiguousImports (cache : LibraryCache) (merged : MergedClassFacts) :
    cache.resolveAmbiguousImports.2.mergedFacts merged = cache.mergedFacts merged := by
  have hverdicts : cache.resolveAmbiguousImports.2.functionSafety = cache.functionSafety := by
    rw [functionSafety, functionSafety, resolveAmbiguousImports, List.map_map, List.map_map]
    rfl
  rw [mergedFacts, mergedFacts, moduleNames_resolveAmbiguousImports, propagateReExportSafety,
    propagateReExportSafety, hverdicts]
  have hpropagated : ∀ fs, (cache.resolveAmbiguousImports.2.withFunctionSafety fs).functionSafety =
      (cache.withFunctionSafety fs).functionSafety := by
    intro fs
    rw [functionSafety_withFunctionSafety, functionSafety_withFunctionSafety,
      resolveAmbiguousImports, List.map_map, List.map_map]
    rfl
  rw [hpropagated]
  rfl

/-- Each module resolves its imports by itself, and finds what they newly resolved to. -/
theorem resolveImports_eq (merged : MergedClassFacts) (h : (moduleNames cache.modules).Nodup) :
    (cache.resolveImports merged).1.toMergedFacts = cache.mergedFacts merged ∧
      (cache.resolveImports merged).2 =
        cache.modules.map (fun m => ((cache.mergedFacts merged).resolveImports m).2) ∧
      ∀ m ∈ cache.modules, (cache.resolveImports merged).1.resolvedByModule.get? m.name =
        ((cache.mergedFacts merged).resolveImports m).1 := by
  have hown : ∀ m ∈ cache.modules, (cache.mergedFacts merged).resolveMissing
      (cache.resolveAmbiguousImports.1.setAt m.name)
      (m.resolveAmbiguousImports (moduleNames cache.modules).toFinset).2.takeFunctionSafety =
        (cache.mergedFacts merged).resolveImports m := by
    intro m hm
    rw [setAt_resolveAmbiguousImports h hm]
    rfl
  have hmodules : cache.resolveAmbiguousImports.2.modules = cache.modules.map fun m =>
      (m.resolveAmbiguousImports (moduleNames cache.modules).toFinset).2 :=
    List.map_map.trans rfl
  have hpasses : (cache.resolveAmbiguousImports.2.modules.map
      CachedModule.takeFunctionSafety).map (fun m => (m.name,
        (cache.mergedFacts merged).resolveMissing
          (cache.resolveAmbiguousImports.1.setAt m.name) m)) =
      cache.modules.map fun m => (m.name, (cache.mergedFacts merged).resolveImports m) := by
    rw [hmodules, List.map_map, List.map_map]
    exact List.map_congr_left fun m hm => congrArg (Prod.mk m.name) (hown m hm)
  have hmissing : (cache.resolveImports merged) =
      ({ cache.mergedFacts merged with
          resolvedByModule := Table.ofOptions (cache.modules.map fun m =>
            (m.name, ((cache.mergedFacts merged).resolveImports m).1)) },
        cache.modules.map fun m => ((cache.mergedFacts merged).resolveImports m).2) := by
    rw [resolveImports, mergedFacts_resolveAmbiguousImports]
    dsimp only
    rw [resolveMissingImports]
    dsimp only
    rw [hpasses, List.map_map, List.map_map]
    rfl
  rw [hmissing]
  refine ⟨rfl, rfl, fun m hm => ?_⟩
  refine Table.get?_ofOptions ?_ (List.mem_map.mpr ⟨m, hm, rfl⟩)
  rw [List.map_map]
  exact h

/-- Past the facts they share, the modules are settled one by one. -/
theorem modules_resolveCrossLibraryErrors (h : (moduleNames cache.modules).Nodup) :
    (cache.resolveCrossLibraryErrors merged).modules =
      cache.modules.map (cache.sharedFacts merged).settle := by
  obtain ⟨hfacts, hmodules, hresolved⟩ := resolveImports_eq merged h
  let shared := cache.sharedFacts merged
  let ctx := { (cache.resolveImports merged).1 with
    functionSafety := shared.outcome.functionSafety }
  have hregister : applyCachedRegistrations ((cache.resolveImports merged).2.map
      (CachedModule.addModuleErrors shared.outcome.moduleScopeErrors)) shared.facts.classBases =
        ((cache.resolveImports merged).2.map
          (CachedModule.addModuleErrors shared.outcome.moduleScopeErrors)).map shared.register :=
    applyCachedRegistrations_eq _ _
  have hproperties : ∀ modules, shared.properties.resolvePropertyCandidates modules =
      modules.map shared.addProperties := resolvePropertyCandidates_eq _
  have hdef : (cache.resolveCrossLibraryErrors merged).modules =
      (shared.properties.resolvePropertyCandidates
        ((applyCachedRegistrations ((cache.resolveImports merged).2.map
          (CachedModule.addModuleErrors shared.outcome.moduleScopeErrors))
            shared.facts.classBases).map (ctx.finalizeResolution shared.outcome))).map
        (CachedModule.returnFunctionSafety shared.outcome.functionSafety) := rfl
  rw [hdef, hregister, hproperties, hmodules]
  simp only [List.map_map]
  refine List.map_congr_left fun m hm => ?_
  have hfinal : ∀ m', m'.name = m.name → ctx.finalizeResolution shared.outcome m' =
      m'.mapSafety (retainUnverifiedErrors (shared.settled.clears shared.outcome
        (shared.facts.resolveImports m).1 m'.name)) := by
    intro m' hname
    rw [ResolutionContext.finalizeResolution, hname,
      show ctx.resolvedByModule.get? m.name = _ from hresolved m hm]
    rw [show shared.facts = cache.mergedFacts merged from hfacts]
    rfl
  simp only [Function.comp_apply]
  rw [hfinal]
  · rw [SharedFacts.settle, show shared.facts = cache.mergedFacts merged from hfacts]
  · rw [SharedFacts.name_register]
    exact (cache.mergedFacts merged).name_resolveImports m

theorem moduleNames_resolveCrossLibraryErrors (h : (moduleNames cache.modules).Nodup) :
    moduleNames (cache.resolveCrossLibraryErrors merged).modules = moduleNames cache.modules := by
  rw [modules_resolveCrossLibraryErrors h, moduleNames, moduleNames, List.map_map]
  exact List.map_congr_left fun m _ => SharedFacts.name_settle _ m

end LibraryCache

/-! ## The graph of a settled module -/

/-- Both resolutions of imports leave the same edges and missing imports. -/
theorem MergedFacts.edges_resolveImports (facts : MergedFacts) (m : CachedModule) :
    (facts.resolveImports m).2.imports = (m.resolveImports facts.moduleNames).imports ∧
      (facts.resolveImports m).2.missingImports =
        (m.resolveImports facts.moduleNames).missingImports := by
  have hedges := (CachedModule.resolveMissingImports_congr
    ((m.resolveAmbiguousImports facts.moduleNames).2.takeFunctionSafety.mapSafety
      dedupeImplicitImports)
    (m.resolveAmbiguousImports facts.moduleNames).2 rfl rfl rfl facts.moduleNames
    (m.resolveAmbiguousImports facts.moduleNames).1).2
  rw [MergedFacts.resolveImports, MergedFacts.resolveMissing]
  dsimp only
  split <;> exact hedges

namespace SharedFacts

variable (shared : SharedFacts) (m : CachedModule)

theorem edges_register :
    (shared.register m).imports = m.imports ∧
      (shared.register m).missingImports = m.missingImports := by
  rw [register]
  split <;> exact ⟨rfl, rfl⟩

theorem edges_addProperties :
    (shared.addProperties m).imports = m.imports ∧
      (shared.addProperties m).missingImports = m.missingImports := by
  rw [addProperties, PropertyFacts.resolveModule]
  split
  · exact ⟨rfl, rfl⟩
  · split <;> exact ⟨rfl, rfl⟩

/-- Settling does to the edges what the resolution of imports does. -/
theorem edges_settle :
    (shared.settle m).imports = (m.resolveImports shared.facts.moduleNames).imports ∧
      (shared.settle m).missingImports =
        (m.resolveImports shared.facts.moduleNames).missingImports := by
  obtain ⟨himports, hmissing⟩ := shared.facts.edges_resolveImports m
  rw [← himports, ← hmissing]
  constructor
  · exact (edges_addProperties shared _).1.trans (edges_register shared _).1
  · exact (edges_addProperties shared _).2.trans (edges_register shared _).2

end SharedFacts

/-! ## The resolved cache -/

@[simp] theorem name_dropMainGuarded (m : CachedModule) : (dropMainGuarded m).2.name = m.name := by
  unfold dropMainGuarded
  cases m.safety <;> rfl

theorem moduleNames_applyMainModule (cache : LibraryCache) (mainModule : Option ModuleName) :
    moduleNames (cache.applyMainModule mainModule).modules = moduleNames cache.modules := by
  cases mainModule with
  | none => rfl
  | some mainModule =>
    refine List.map_map.trans (List.map_congr_left fun m _ => ?_)
    rw [Function.comp_apply]
    split
    · exact name_dropMainGuarded m
    · rfl

namespace ReduceWorkspace

/-- The cache that `resolve` settles: what a guard wrote is dropped, but for the module that
is run as `__main__`. -/
def entered (w : ReduceWorkspace) (mainModule : Option ModuleName) : LibraryCache :=
  w.cache.applyMainModule mainModule

theorem names_entered (w : ReduceWorkspace) (mainModule : Option ModuleName) :
    (moduleNames (w.entered mainModule).modules).Nodup := by
  rw [entered, moduleNames_applyMainModule]
  exact w.built.names

/-- What the modules share when the workspace is resolved. -/
def shared (w : ReduceWorkspace) (mainModule : Option ModuleName) : SharedFacts :=
  (w.entered mainModule).sharedFacts w.merged

theorem moduleNames_shared (w : ReduceWorkspace) (mainModule : Option ModuleName) :
    (w.shared mainModule).facts.moduleNames = (moduleNames w.cache.modules).toFinset := by
  have hfacts := (LibraryCache.resolveImports_eq w.merged (w.names_entered mainModule)).1
  rw [show (w.shared mainModule).facts = _ from hfacts, LibraryCache.mergedFacts, entered,
    moduleNames_applyMainModule]

/-- `ReduceWorkspace::resolve`. -/
def resolve (w : ReduceWorkspace) (mainModule : Option ModuleName) : ResolvedCache where
  cache := (w.entered mainModule).resolveCrossLibraryErrors w.merged
  graphOnlyStubs := w.graphOnlyStubs
  names_nodup := by
    rw [LibraryCache.moduleNames_resolveCrossLibraryErrors (w.names_entered mainModule)]
    exact w.names_entered mainModule
  reExports_nodup := by
    cases mainModule with
    | none => exact w.built.exports.reExports
    | some _ => exact w.built.exports.reExports
  missing_unresolved m hm t ht := by
    rw [LibraryCache.moduleNames_resolveCrossLibraryErrors (w.names_entered mainModule), entered,
      moduleNames_applyMainModule]
    rw [LibraryCache.modules_resolveCrossLibraryErrors (w.names_entered mainModule)] at hm
    obtain ⟨m', -, rfl⟩ := List.mem_map.mp hm
    rw [(SharedFacts.edges_settle _ m').2, mem_missingImports_resolveImports] at ht
    intro hmerged
    refine ht.2 t ?_ (Or.inl rfl)
    rw [show ((w.entered mainModule).sharedFacts w.merged).facts.moduleNames = _ from
      w.moduleNames_shared mainModule]
    exact List.mem_toFinset.mpr hmerged

/-- Resolving settles each module by itself, past the facts they share. -/
theorem modules_resolve (w : ReduceWorkspace) (mainModule : Option ModuleName) :
    (w.resolve mainModule).cache.modules =
      (w.entered mainModule).modules.map (w.shared mainModule).settle :=
  LibraryCache.modules_resolveCrossLibraryErrors (w.names_entered mainModule)

end ReduceWorkspace

/-! ## What the merge leaves -/

section Merge

open scoped List

/-- All the records of the caches. -/
def recordsOfCaches (caches : List BuiltCache) : List CachedModule :=
  caches.flatMap fun cache => cache.1.modules

theorem swapRemoveFirst_perm {α : Type} (a : α) (l : List α) : swapRemoveFirst (a :: l) ~ l := by
  rcases List.eq_nil_or_concat l with rfl | ⟨init, last, rfl⟩
  · exact List.Perm.refl _
  · simpa [swapRemoveFirst] using (@List.perm_append_comm _ init [last]).symm

theorem mem_moduleNames {modules : List CachedModule} {n : ModuleName} :
    n ∈ moduleNames modules ↔ ∃ m ∈ modules, m.name = n := List.mem_map

/-- The one record of a name, where each name has one. -/
theorem recordsNamed_of_nodup {modules : List CachedModule} (h : (moduleNames modules).Nodup)
    {m : CachedModule} (hm : m ∈ modules) : recordsNamed modules m.name = [m] := by
  induction modules with
  | nil => exact absurd hm List.not_mem_nil
  | cons first modules ih =>
    have hsplit := List.nodup_cons.mp h
    rcases List.mem_cons.mp hm with rfl | hrest
    · have hnone : recordsNamed modules m.name = [] :=
        List.filter_eq_nil_iff.mpr fun r hr hname =>
          hsplit.1 (mem_moduleNames.mpr ⟨r, hr, of_decide_eq_true hname⟩)
      rw [recordsNamed, List.filter_cons_of_pos (by simp)]
      exact congrArg (List.cons m) hnone
    · have hne : first.name ≠ m.name := fun heq =>
        hsplit.1 (mem_moduleNames.mpr ⟨m, hrest, heq.symm⟩)
      rw [recordsNamed, List.filter_cons_of_neg (by simpa using hne)]
      exact ih hsplit.2 hrest

/-- The modules of a workspace are the artifact's and, as stubs, the nodes of the graph that it
does not provide. -/
theorem modules_singleWith {cache : LibraryCache} (h : cache.Built) (graph : StubGraph)
    (merged : MergedClassFacts) :
    (∀ n, n ∈ moduleNames (ReduceWorkspace.singleWith cache h graph merged).cache.modules ↔
      n ∈ moduleNames cache.modules ∨ n ∈ graph.nodes.map Prod.fst) ∧
    (∀ n, n ∈ (ReduceWorkspace.singleWith cache h graph merged).graphOnlyStubs ↔
      n ∈ graph.nodes.map Prod.fst ∧ n ∉ moduleNames cache.modules) ∧
    ∀ m ∈ (ReduceWorkspace.singleWith cache h graph merged).cache.modules,
      m ∈ cache.modules ∨ ∃ node ∈ unprovidedStubs graph cache.modules,
        m = graphOnlyModule node.1 node.2 := by
  refine ⟨fun n => ?_, fun n => ?_, fun m hm => ?_⟩
  · rw [ReduceWorkspace.singleWith, moduleNames_injectBundledStubGraph, List.mem_append,
      mem_map_unprovidedStubs]
    constructor
    · rintro (hcached | ⟨hnode, -⟩)
      · exact Or.inl hcached
      · exact Or.inr hnode
    · rintro (hcached | hnode)
      · exact Or.inl hcached
      · by_cases hcached : n ∈ moduleNames cache.modules
        · exact Or.inl hcached
        · exact Or.inr ⟨hnode, hcached⟩
  · exact List.mem_toFinset.trans mem_map_unprovidedStubs
  · rcases List.mem_append.mp hm with hcached | hnew
    · exact Or.inl hcached
    · obtain ⟨node, hnode, rfl⟩ := List.mem_map.mp hnew
      exact Or.inr ⟨node, hnode, rfl⟩

/-- The records that go into a merge: those of the caches, and a stub for each node of the
graph that no cache provides. -/
def deliveredRecords (caches : List BuiltCache) (graph : StubGraph) : List CachedModule :=
  recordsOfCaches caches ++
    (unprovidedStubs graph (recordsOfCaches caches)).map fun node =>
      graphOnlyModule node.1 node.2

section Delivered

variable {caches : List BuiltCache} {graph : StubGraph} {n : ModuleName}

theorem mem_moduleNames_deliveredRecords :
    n ∈ moduleNames (deliveredRecords caches graph) ↔
      n ∈ moduleNames (recordsOfCaches caches) ∨ n ∈ graph.nodes.map Prod.fst := by
  have hsplit : moduleNames (deliveredRecords caches graph) =
      moduleNames (recordsOfCaches caches) ++
        (unprovidedStubs graph (recordsOfCaches caches)).map Prod.fst := by
    rw [deliveredRecords, moduleNames, List.map_append, List.map_map]
    rfl
  rw [hsplit, List.mem_append, mem_map_unprovidedStubs]
  by_cases hn : n ∈ moduleNames (recordsOfCaches caches)
  · simp [hn]
  · simp [hn]

/-- No stub has the name of a record. -/
theorem recordsNamed_deliveredRecords (hn : n ∈ moduleNames (recordsOfCaches caches)) :
    recordsNamed (deliveredRecords caches graph) n = recordsNamed (recordsOfCaches caches) n := by
  have hnone : recordsNamed ((unprovidedStubs graph (recordsOfCaches caches)).map fun node =>
      graphOnlyModule node.1 node.2) n = [] := by
    refine List.filter_eq_nil_iff.mpr fun r hr hname => ?_
    obtain ⟨node, hnode, rfl⟩ := List.mem_map.mp hr
    have hname : node.1 = n := of_decide_eq_true hname
    exact (mem_map_unprovidedStubs.mp (List.mem_map_of_mem hnode)).2 (hname ▸ hn)
  rw [recordsNamed, deliveredRecords, List.filter_append]
  exact (congrArg _ hnone).trans (List.append_nil _)

/-- A stub is the one record of its name. -/
theorem recordsNamed_stub {node : ModuleName × GraphEdgeSets}
    (hnode : node ∈ unprovidedStubs graph (recordsOfCaches caches)) :
    recordsNamed (deliveredRecords caches graph) node.1 = [graphOnlyModule node.1 node.2] := by
  have hnone : recordsNamed (recordsOfCaches caches) node.1 = [] := by
    refine List.filter_eq_nil_iff.mpr fun r hr hname => ?_
    have hname : r.name = node.1 := of_decide_eq_true hname
    exact (mem_map_unprovidedStubs.mp (List.mem_map_of_mem hnode)).2
      (hname ▸ List.mem_map_of_mem hr)
  have hnames : (moduleNames ((unprovidedStubs graph (recordsOfCaches caches)).map fun node =>
      graphOnlyModule node.1 node.2)).Nodup := by
    rw [moduleNames, List.map_map]
    exact nodup_unprovidedStubs graph (recordsOfCaches caches)
  rw [recordsNamed, deliveredRecords, List.filter_append]
  refine (congrArg (· ++ _) hnone).trans ?_
  exact recordsNamed_of_nodup hnames (List.mem_map_of_mem hnode)

end Delivered

/-- The modules of a merge are those of the caches and the bundled stubs no cache provides,
each joined from all its records. -/
structure MergedFrom (S : UnstableSort) (caches : List BuiltCache) (graph : StubGraph)
    (w : ReduceWorkspace) : Prop where
  names : ∀ n, n ∈ moduleNames w.cache.modules ↔ n ∈ moduleNames (deliveredRecords caches graph)
  stubs : ∀ n, n ∈ w.graphOnlyStubs ↔
    n ∈ graph.nodes.map Prod.fst ∧ n ∉ moduleNames (recordsOfCaches caches)
  joins : ∀ m ∈ w.cache.modules,
    ∃ first rest, (first :: rest) ~ recordsNamed (deliveredRecords caches graph) m.name ∧
      m = mergeRecords S first rest

/-- What is merged of the caches, with the stubs put in. -/
theorem mergedFrom_singleWith {S : UnstableSort} {caches : List BuiltCache}
    {cache : LibraryCache} (hbuilt : cache.Built) (graph : StubGraph) (merged : MergedClassFacts)
    (hnames : ∀ n, n ∈ moduleNames cache.modules ↔ n ∈ moduleNames (recordsOfCaches caches))
    (hjoins : ∀ m ∈ cache.modules,
      ∃ first rest, (first :: rest) ~ recordsNamed (recordsOfCaches caches) m.name ∧
        m = mergeRecords S first rest) :
    MergedFrom S caches graph (ReduceWorkspace.singleWith cache hbuilt graph merged) := by
  obtain ⟨hall, hstubs, hmodules⟩ := modules_singleWith hbuilt graph merged
  refine ⟨fun n => ?_, fun n => ?_, fun m hm => ?_⟩
  · rw [hall, hnames, mem_moduleNames_deliveredRecords]
  · rw [hstubs, hnames]
  · rcases hmodules m hm with hcached | ⟨node, hnode, rfl⟩
    · rw [recordsNamed_deliveredRecords ((hnames _).mp (List.mem_map_of_mem hcached))]
      exact hjoins m hcached
    · have hdelivered : node ∈ unprovidedStubs graph (recordsOfCaches caches) := by
        refine List.mem_filter.mpr ⟨(List.mem_filter.mp hnode).1, decide_eq_true ?_⟩
        rw [← hnames]
        exact of_decide_eq_true (List.mem_filter.mp hnode).2
      refine ⟨graphOnlyModule node.1 node.2, [], ?_, rfl⟩
      exact (recordsNamed_stub hdelivered).symm ▸ List.Perm.refl _

/-- The merge fails for no set of caches but the empty one. -/
theorem exists_mergedFrom (S : UnstableSort) {caches : List BuiltCache} (hne : caches ≠ [])
    (graph : StubGraph) (division : Division) :
    ∃ w, ReduceWorkspace.merge S caches graph division = some w ∧
      MergedFrom S caches graph w := by
  cases caches with
  | nil => exact absurd rfl hne
  | cons cache rest =>
    have hperm := swapRemoveFirst_perm cache rest
    rw [ReduceWorkspace.merge]
    by_cases hdeps : (swapRemoveFirst (cache :: rest)).map Subtype.val = []
    · have hrest : rest = [] := by
        rw [List.map_eq_nil_iff.mp hdeps] at hperm
        exact hperm.symm.eq_nil
      subst hrest
      have hrecords : recordsOfCaches [cache] = cache.1.modules := by
        rw [recordsOfCaches, List.flatMap_cons, List.flatMap_nil, List.append_nil]
      rw [if_pos hdeps]
      refine ⟨_, rfl, mergedFrom_singleWith cache.2 graph {} (fun n => ?_) fun m hm => ?_⟩
      · rw [hrecords]
      · rw [hrecords, recordsNamed_of_nodup cache.2.names hm]
        exact ⟨m, [], List.Perm.refl _, rfl⟩
    · rw [if_neg hdeps]
      obtain ⟨merged, facts, heq, hmerged, -⟩ := LibraryCache.exists_mergeDepCaches S cache.1
        ((swapRemoveFirst (cache :: rest)).map Subtype.val) division
      have hrecords : (cache.1.modules ++ ((swapRemoveFirst (cache :: rest)).map
          Subtype.val).flatMap LibraryCache.modules) ~ recordsOfCaches (cache :: rest) := by
        rw [recordsOfCaches, List.flatMap_cons, List.flatMap_map]
        exact (hperm.flatMap_right _).append_left _
      split
      · next hnone => rw [heq] at hnone; cases hnone
      · next r hsome =>
        have hr : r = (merged, facts) := Option.some.inj (hsome.symm.trans heq)
        subst hr
        refine ⟨_, rfl, mergedFrom_singleWith (built_of_mergeDepCaches heq) graph facts
          (fun n => ?_) fun m hm => ?_⟩
        · rw [mem_moduleNames, mem_moduleNames, hmerged.names]
          exact exists_congr fun r => and_congr_left fun _ => hrecords.mem_iff
        · obtain ⟨first, others, hfirst, hjoin⟩ := hmerged.joins m hm
          refine ⟨first, others, ?_, hjoin⟩
          rw [← hfirst]
          exact hrecords.filter _

end Merge

end Lifeguard
