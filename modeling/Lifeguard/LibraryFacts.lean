import Lifeguard.Discovery
import Lifeguard.Lib.Canon
import Lifeguard.Lib.Grouping
import Lifeguard.ScopeWorkers
import Mathlib.Data.List.Lex
import Mathlib.Data.Prod.Lex
import Mathlib.Order.WithBot

/-!
# The facts of one library

What the analysis of a library hands on once the module-scope pass is over
(`project/analysis.rs`, `project/mutations.rs`, `class.rs`): the verdicts, each in the record of
the module that owns its function; the calls that only another library can judge; and the facts
about the classes.

- `collectMutationCandidates`: the calls that pass an imported object to an unresolved callee;
- `finalizeSafetyMap`: the verdicts handed to the records;
- `runAnalysis`: what is left of the records and of the classes once the stubs are gone.

The maps are consumed and the sets run through in the order of their hashes, which is a
parameter (`LibraryOrders`).
-/

namespace Lifeguard

open Lib

/-- The orders in which the maps and sets of an analysis are run through. -/
structure LibraryOrders (info : ProjectInfo) (safety : ProjectInfo.Verdicts) where
  verdicts : List ModuleName
  nodup_verdicts : verdicts.Nodup
  mem_verdicts : ∀ n, n ∈ verdicts ↔ (safety n).isSome
  /-- The parameters of a set of them. -/
  params : List ModuleName → List ModuleName
  perm_params : ∀ l, (params l).Perm l
  effectTable : List (ModuleName × List Effect)
  perm_effectTable : effectTable.Perm info.effectTable.entries
  classes : List (ModuleName × Class)
  perm_classes : classes.Perm info.classes.entries
  /-- The sort of the candidates. -/
  sort : UnstableSort

/-- There are such orders: the tables as they are listed. -/
def LibraryOrders.listed (info : ProjectInfo) (st : AnalysisState) :
    LibraryOrders info st.safety where
  verdicts := st.functionSafety.keys
  nodup_verdicts := Table.keys_nodup _
  mem_verdicts _ := Table.mem_keys
  params l := l
  perm_params _ := List.Perm.refl _
  effectTable := info.effectTable.entries
  perm_effectTable := List.Perm.refl _
  classes := info.classes.entries
  perm_classes := List.Perm.refl _
  sort := insertionSort

/-! ## Candidates for another library -/

/-- `MutationCandidateScope`. -/
structure MutationCandidateScope where
  moduleName : ModuleName
  callerFunction : Option ModuleName
  missing : Option (Finset ModuleName)
  ambiguousImports : Option (Finset ModuleName)

/-- `callee_is_unresolved`: the callee, or a package above it, is an import that is not
resolved. -/
def calleeIsUnresolved (callee : ModuleName) (missing ambiguous : Option (Finset ModuleName)) :
    Bool :=
  let isUnresolved (name : ModuleName) : Bool :=
    missing.any (fun m => decide (name ∈ m)) || ambiguous.any fun a => decide (name ∈ a)
  isUnresolved callee || (iterParents callee).any fun p => isUnresolved p.1

/-- `mutation_candidate_scope`: `modules` are those of the analysis map. -/
def mutationCandidateScope (modules : Finset ModuleName) (importGraph : ImportGraphBuilder)
    (scope : ModuleName) : Option MutationCandidateScope :=
  let found : Option (ModuleName × Option ModuleName) :=
    if scope ∈ modules then some (scope, none)
    else (enclosingModule scope fun m => decide (m ∈ modules)).map fun p => (p.1, some p.2)
  found.bind fun p =>
    let missing := importGraph.missing.get? p.1
    let ambiguous := importGraph.ambiguous.get? p.1
    if missing.isNone && ambiguous.isNone then none
    else some
      { moduleName := p.1
        callerFunction := p.2
        missing := missing
        ambiguousImports := ambiguous }

/-- The candidate that a call to the callee is. -/
def MutationCandidateScope.candidate (found : MutationCandidateScope) (eff : Effect)
    (callData : CallData) (callee : ModuleName × Nat) : MutationCandidate where
  callee := callee.1
  site :=
    match found.callerFunction with
    | some name => .function name
    | none => .moduleScope eff.name
  argOffset := callee.2
  importedArgs := callData.importedArgs
  range := eff.range
  fromMainGuard := eff.fromMainGuard

/-- `MutationCandidate::cmp`, as a key: over what a cache carries. -/
def MutationCandidate.sortKey (c : MutationCandidate) :
    ModuleName ×ₗ (Bool ×ₗ ModuleName) ×ₗ Nat ×ₗ
      (Nat ×ₗ List ModuleName ×ₗ Bool ×ₗ WithBot Nat) ×ₗ Bool :=
  let site : Bool ×ₗ ModuleName :=
    match c.site with
    | .moduleScope call => toLex (false, call)
    | .function name => toLex (true, name)
  let args := c.importedArgs
  toLex (c.callee, toLex (site, toLex (c.argOffset, toLex
    (toLex (args.unsafeArgIndices.toNat, toLex (args.unsafeKeywordNames, toLex
      (args.hasUnsafeKwargsExpansion, (args.unsafeArgsExpansionMin : WithBot Nat)))),
      c.fromMainGuard))))

/-- A candidate with its module, as a key. -/
def candidateKey (p : ModuleName × MutationCandidate) : ModuleName ×ₗ
    (ModuleName ×ₗ (Bool ×ₗ ModuleName) ×ₗ Nat ×ₗ
      (Nat ×ₗ List ModuleName ×ₗ Bool ×ₗ WithBot Nat) ×ₗ Bool) :=
  toLex (p.1, p.2.sortKey)

namespace ProjectInfo

variable (info : ProjectInfo) {safety : Verdicts} (orders : LibraryOrders info safety)
  (modules : Finset ModuleName) (importGraph : ImportGraphBuilder)

/-- The candidates of one effect of a scope. A callee that this library resolves was checked by
its own analysis. -/
def effectCandidates (scope : ModuleName) (eff : Effect) :
    List (ModuleName × MutationCandidate) :=
  match eff.data with
  | .none => []
  | .call callData =>
    if !callData.hasUnsafeArgs then []
    else (iterCallees eff info.classes).filterMap fun callee =>
      if hasKey info.functions callee.1 || hasKey info.mutatedParams callee.1 then none
      else (mutationCandidateScope modules importGraph scope).bind fun found =>
        if !calleeIsUnresolved callee.1 found.missing found.ambiguousImports then none
        else some (found.moduleName, found.candidate eff callData callee)

/-- The candidates of all the scopes, each with its module. -/
def allCandidates (scopes : List (ModuleName × List Effect)) :
    List (ModuleName × MutationCandidate) :=
  scopes.flatMap fun e => e.2.flatMap (info.effectCandidates modules importGraph e.1)

/-- `collect_mutation_candidates`. -/
def collectMutationCandidates : Table ModuleName (List MutationCandidate) :=
  (Table.empty : Table ModuleName (List MutationCandidate)).pushAll
    (orders.sort.sortOn candidateKey
      (info.allCandidates modules importGraph orders.effectTable))

/-- `resolve_cached_mutated_params_for`. -/
def resolveCachedMutatedParamsFor (func : ModuleName) : Option (List MutatedParam) :=
  (info.mutatedParams.get? func).map fun params =>
    let calleeModule := (info.functions.get? func).getD func
    let defs := info.paramNames.get? calleeModule
    (orders.params params).map fun param =>
      { name := param
        position :=
          match defs with
          | some d => classifyParam d func param
          | none => .unresolved }

/-! ## The verdicts in the records -/

/-- The verdict with the parameters that its function mutates. -/
def withMutatedParams (func : ModuleName) (fi : FunctionSafetyInfo) : FunctionSafetyInfo :=
  match info.resolveCachedMutatedParamsFor orders func with
  | some mutated => { fi with mutatedParams := mutated }
  | none => fi

/-- The verdict of a function, with the module that owns it and its name there. -/
def ownedVerdict (func : ModuleName) : Option (ModuleName × Str × FunctionSafetyInfo) :=
  (enclosingModuleStr func fun m => decide (m ∈ modules)).bind fun p =>
    (safety func).map fun fi => (p.1, p.2, info.withMutatedParams orders func fi)

/-- Put a verdict into the record of a module, unless that is an analysis error. -/
def putVerdict (verdict : ModuleName × Str × FunctionSafetyInfo) : SafetyResult → SafetyResult
  | .ok ms => .ok { ms with functionSafety := ms.functionSafety.insert verdict.2.1 verdict.2.2 }
  | .analysisError message => .analysisError message

/-- `finalize_safety_map`; a whole-program analysis needs the verdicts no more. -/
def finalizeSafetyMap (mode : ExecutionMode) (safetyMap : SafetyMap) : SafetyMap :=
  if mode = .incremental then
    (orders.verdicts.filterMap (info.ownedVerdict orders safetyMap.keys.toFinset)).foldl
      (fun safetyMap verdict => safetyMap.modify verdict.1 (putVerdict verdict)) safetyMap
  else safetyMap

/-- Put the candidates of a module into its record, unless that is an analysis error. -/
def putCandidates (candidates : List MutationCandidate) : SafetyResult → SafetyResult
  | .ok ms => .ok { ms with mutationCandidates := candidates }
  | .analysisError message => .analysisError message

/-- What an incremental `collect_errors_from_project` makes of the records that its pass leaves. -/
def settleRecords (safetyMap : SafetyMap) : SafetyMap :=
  (info.collectMutationCandidates orders modules importGraph).entries.foldl
    (fun safetyMap e => safetyMap.modify e.1 (putCandidates e.2))
    (info.finalizeSafetyMap orders .incremental safetyMap)

end ProjectInfo

/-! ## What is handed on -/

/-- `filter_out_stubs`: a stub of a module whose source is not there has no record. -/
def filterOutStubs (sources : ModuleProvider) (safetyMap : SafetyMap) : SafetyMap :=
  sources.moduleNames.foldl
    (fun safetyMap name =>
      if sources.isStub name && !sources.overridesSource name then safetyMap.erase name
      else safetyMap)
    safetyMap

/-- `base_edges`. -/
def baseEdges (classes : List (ModuleName × Class)) : List (ModuleName × List ModuleName) :=
  (classes.filter fun e => !e.2.bases.isEmpty).map fun e => (e.1, e.2.bases)

/-- `property_edges`. -/
def propertyEdges (classes : List (ModuleName × Class)) : List (ModuleName × List Str) :=
  classes.filterMap fun e =>
    let properties :=
      (e.2.fields.filter fun field => decide (field.kind = .property)).map Field.name
    if properties.isEmpty then none else some (e.1, properties)

/-- `resolved_constructor_callees`. -/
def ProjectInfo.resolvedConstructorCallees (info : ProjectInfo)
    (classes : List (ModuleName × Class)) : List (ModuleName × ConstructorCallees) :=
  classes.filterMap fun e =>
    let recorded := info.resolveConstructorCallees e.1
    if recorded.isEmpty then none else some (e.1, recorded)

/-- The class is one of a module that has a record. -/
def ownedClass (safetyMap : SafetyMap) (cls : ModuleName) : Bool :=
  (enclosingModule cls fun m => (safetyMap.get? m).isSome).isSome

/-- `AnalysisOutput`. -/
structure AnalysisOutput where
  safetyMap : SafetyMap
  sideEffectImports : Table ModuleName (Finset ModuleName)
  classBases : List (ModuleName × List ModuleName)
  constructorCallees : List (ModuleName × ConstructorCallees)
  classProperties : List (ModuleName × List Str)

/-- The end of an incremental `run_analysis`, from the records that the module-scope pass
leaves. -/
def ProjectInfo.runAnalysis (info : ProjectInfo) {safety : ProjectInfo.Verdicts}
    (orders : LibraryOrders info safety) (sources : ModuleProvider) (input : PassInput)
    (importGraph : ImportGraphBuilder) (sideEffectImports : Table ModuleName (Finset ModuleName))
    (records : SafetyMap) : AnalysisOutput :=
  let safetyMap := filterOutStubs sources
    (info.settleRecords orders input.analysisMap.keys.toFinset importGraph records)
  { safetyMap := safetyMap
    sideEffectImports := sideEffectImports
    classBases := (baseEdges orders.classes).filter fun e => ownedClass safetyMap e.1
    constructorCallees := (info.resolvedConstructorCallees orders.classes).filter fun e =>
      ownedClass safetyMap e.1
    classProperties := (propertyEdges orders.classes).filter fun e => ownedClass safetyMap e.1 }

end Lifeguard
