import Lifeguard.Constructors
import Lifeguard.ModuleSafety
import Lifeguard.Lib.Rounds
import Mathlib.Data.Finset.Union
import Mathlib.Data.Finset.Lattice.Fold

/-!
# The cross-library resolution phases

What the reduce does to the merged verdicts (`resolution.rs`), in its canonical
order (`resolveProgram`):

- `applyMutationCandidates`: confirm the recorded mutation candidates against one
  frozen view of the verdicts, then discharge the others against a second one;
- `promoteFixpoint`: promote the functions that only waited for a dependency, in
  synchronous rounds, until a round produces no new verdict.

A hash map is a `Table` and a hash set a `Finset`; the parallel scans of the source
read one frozen state each, so their order is not part of the model.
-/

namespace Lifeguard

open Lib

/-- `unqualified_index_key`: the name an error contributes to the promotion index;
only a bare name is indexed. -/
def unqualifiedIndexKey (metadata : Str) : Option Str :=
  let name := trimCalls metadata
  if '.' ∈ name then none else some name

/-! ## The merged modules, seen by name -/

/-- `ModuleView`: the merged module set, each module with its verdicts if it has
any. -/
structure ModuleView where
  moduleNames : Finset ModuleName
  functionSafety : FunctionSafetyMap

/-- `Split`: a name split at its longest ancestor that names a module. -/
structure Split where
  verdicts : Option ModuleVerdicts
  localName : Str

namespace ModuleView

/-- `ModuleView::get`. -/
def get (view : ModuleView) (name : Str) : Option (Option ModuleVerdicts) :=
  if name ∈ view.moduleNames then some (view.functionSafety.get? name) else none

/-- The walk of `ModuleView::split`, below position `end`. -/
def splitFrom (view : ModuleView) (name : Str) : Nat → Option Split
  | 0 => none
  | pos + 1 =>
    if name[pos]? = some '.' then
      match view.get (name.take pos) with
      | some verdicts => some { verdicts, localName := name.drop (pos + 1) }
      | none => splitFrom view name pos
    else splitFrom view name pos

/-- `ModuleView::split`: strict ancestors only, longest first. -/
def split (view : ModuleView) (name : Str) : Option Split :=
  view.splitFrom name name.length

/-- `ModuleView::lookup_callee`: the entry held by the name's longest module
ancestor. -/
def lookupCallee (view : ModuleView) (name : Str) : Option FunctionSafetyInfo :=
  (view.split name).bind fun s => s.verdicts.bind fun fns => fns.get? s.localName

end ModuleView

/-! ## Mutation candidates -/

/-- What `module_scope_error` is called with. -/
structure ModuleScopeError where
  moduleName : ModuleName
  metadata : Str
  range : TextRange
  deriving DecidableEq

/-- The state the candidates are applied to: the verdicts, and the module-scope errors
emitted so far. -/
structure CandidateState where
  functionSafety : FunctionSafetyMap
  moduleScopeErrors : List ModuleScopeError := []

/-- The edit `apply_confirmed_candidate` makes to its caller's entry. -/
def confirmInfo (callee : ModuleName) (info : FunctionSafetyInfo) : FunctionSafetyInfo :=
  let missing := info.missingDepCallees.erase callee
  let verdict := insert .hardUnsafe info.verdict
  { info with
    verdict := if missing = ∅ then verdict.erase .unsafeMissingDep else verdict
    missingDepCallees := missing }

/-- The edit `discharge_candidate` makes to its caller's entry. -/
def dischargeInfo (callee : ModuleName) (info : FunctionSafetyInfo) :
    FunctionSafetyInfo :=
  let missing := info.missingDepCallees.erase callee
  { info with
    verdict :=
      if .unsafeMissingDep ∉ info.verdict ∨ missing ≠ ∅ then info.verdict
      else info.verdict.erase .unsafeMissingDep
    missingDepCallees := missing }

/-- `apply_confirmed_candidate`. -/
def applyConfirmedCandidate (moduleName : ModuleName) (candidate : MutationCandidate)
    (st : CandidateState) : CandidateState :=
  match candidate.site with
  | .moduleScope call =>
    { st with
      moduleScopeErrors := st.moduleScopeErrors ++ [⟨moduleName, call, candidate.range⟩] }
  | .function name =>
    { st with
      functionSafety :=
        modifyFunctionSafety st.functionSafety moduleName name (confirmInfo candidate.callee) }

/-- `discharge_candidate`. -/
def dischargeCandidate (moduleName : ModuleName) (candidate : MutationCandidate)
    (fs : FunctionSafetyMap) : FunctionSafetyMap :=
  match candidate.site with
  | .moduleScope _ => fs
  | .function name =>
    modifyFunctionSafety fs moduleName name (dischargeInfo candidate.callee)

/-- `mutated_arg_reaches`: an argument position reaches a parameter that `callee`, or
a constructor method of it, mutates. -/
def mutatedArgReaches (callee : ModuleName) (argOffset : Nat) (args : ImportedArgs)
    (view : ModuleView) : Bool :=
  let own := view.split callee
  let asModule := view.get callee
  let hit (info : Option FunctionSafetyInfo) (argOffset : Nat) : Bool :=
    info.any fun info =>
      args.hitsAnyParam (info.mutatedParams.map fun p => (p.name, p.position)) argOffset
  let ownHit :=
    own.any fun s => hit (s.verdicts.bind fun fns => fns.get? s.localName) argOffset
  -- The constructor methods are probed in the module the callee names, if it names
  -- one, and else below the callee's own local name.
  let ctor : Option (Option ModuleVerdicts × Str) :=
    match asModule, own with
    | some verdicts, _ => some (verdicts, [])
    | none, some s => some (s.verdicts, s.localName)
    | none, none => none
  ownHit || ctor.any fun (ctorMap, ctorPrefix) =>
    constructorMethods.any fun method =>
      let probe := if ctorPrefix = [] then method else appendStr ctorPrefix method
      hit (ctorMap.bind fun fns => fns.get? probe) (argOffset + 1)

/-- `candidate_mutates`. -/
def candidateMutates (candidate : MutationCandidate) (view : ModuleView) : Bool :=
  mutatedArgReaches candidate.callee candidate.argOffset candidate.importedArgs view

/-- `callee_resolves_unsafe`: an unresolved callee answers `false`. -/
def calleeResolvesUnsafe (callee : ModuleName) (view : ModuleView) : Bool :=
  (view.lookupCallee callee).any fun info => !FunctionSafety.isSafe info.verdict

/-- Whether a candidate sits in a function, not at module scope. -/
def MutationCandidate.inFunction (candidate : MutationCandidate) : Bool :=
  match candidate.site with
  | .function _ => true
  | .moduleScope _ => false

/-- The candidates of all modules, each with its module. -/
def candidatePairs (modules : List (ModuleName × List MutationCandidate)) :
    List (ModuleName × MutationCandidate) :=
  modules.flatMap fun p => p.2.map fun candidate => (p.1, candidate)

/-- The first phase: apply every candidate that mutates on the frozen view. -/
def confirmCandidates (pairs : List (ModuleName × MutationCandidate))
    (moduleNames : Finset ModuleName) (fs : FunctionSafetyMap) : CandidateState :=
  let view : ModuleView := ⟨moduleNames, fs⟩
  (pairs.filter fun p => candidateMutates p.2 view).foldl
    (fun st p => applyConfirmedCandidate p.1 p.2 st) { functionSafety := fs }

/-- The second phase: discharge every unconfirmed function candidate whose callee does
not resolve unsafe on the verdicts the first phase left. -/
def dischargeCandidates (pairs : List (ModuleName × MutationCandidate))
    (moduleNames : Finset ModuleName) (before fs : FunctionSafetyMap) :
    FunctionSafetyMap :=
  (pairs.filter fun p =>
    !candidateMutates p.2 ⟨moduleNames, before⟩ && p.2.inFunction &&
      !calleeResolvesUnsafe p.2.callee ⟨moduleNames, fs⟩).foldl
    (fun fs p => dischargeCandidate p.1 p.2 fs) fs

/-- `apply_mutation_candidates`. -/
def applyMutationCandidates (modules : List (ModuleName × List MutationCandidate))
    (moduleNames : Finset ModuleName) (fs : FunctionSafetyMap) : CandidateState :=
  let pairs := candidatePairs modules
  let confirmed := confirmCandidates pairs moduleNames fs
  { confirmed with
    functionSafety :=
      dischargeCandidates pairs moduleNames fs confirmed.functionSafety }

/-! ## Promotion -/

/-- `ResolvedCallee`: a promotion candidate's callee, split once. -/
inductive ResolvedCallee
  | qualified (moduleName : ModuleName) (localName : Str)
  | unqualified (name : Str)
  deriving DecidableEq

/-- `PromotionCandidate`. -/
structure PromotionCandidate where
  moduleName : ModuleName
  name : Str
  /-- The verdict without `UnsafeMissingDep`, the same in every round. -/
  baseVerdict : FunctionSafety
  callees : Finset ResolvedCallee
  deriving DecidableEq

/-- `NameSearch`. -/
inductive NameSearch
  | intern
  | probeStr
  deriving DecidableEq, Repr

/-- `resolve_callee`: package a split callee, or the whole name when no prefix is a
module. -/
def resolveCallee (funcName : Str) (split : Option (ModuleName × Str)) : ResolvedCallee :=
  match split with
  | some (moduleName, localName) => .qualified moduleName localName
  | none => .unqualified funcName

/-- How `promote_fixpoint` splits a callee, for either search. -/
def splitCallee (moduleNames : Finset ModuleName) (search : NameSearch) (name : Str) :
    ResolvedCallee :=
  match search with
  | .intern => resolveCallee name (enclosingModule name fun m => decide (m ∈ moduleNames))
  | .probeStr =>
    resolveCallee name (enclosingModuleStr name fun m => decide (m ∈ moduleNames))

/-- The promotion candidate of one entry, if promotion might clear it. -/
def promotionCandidate (split : Str → ResolvedCallee) (moduleName : ModuleName)
    (name : Str) (info : FunctionSafetyInfo) : Option PromotionCandidate :=
  if .unsafeMissingDep ∈ info.verdict ∧ .hardUnsafe ∉ info.verdict ∧
      info.missingDepCallees ≠ ∅ then
    some
      { moduleName, name
        baseVerdict := info.verdict.erase .unsafeMissingDep
        callees := info.missingDepCallees.image split }
  else none

/-- `collect_promotion_candidates`. -/
def collectPromotionCandidates (moduleNames : Finset ModuleName) (fs : FunctionSafetyMap)
    (split : Str → ResolvedCallee) : List PromotionCandidate :=
  (fs.entries.filter fun e => decide (e.1 ∈ moduleNames)).flatMap fun e =>
    e.2.entries.filterMap fun f => promotionCandidate split e.1 f.1 f.2

/-- `maybe_non_blocking_verdict`: only `Safe` and `UnsafeIfImported` do not block. -/
def maybeNonBlockingVerdict (verdict : FunctionSafety) : Option FunctionSafety :=
  if verdict = ∅ ∨ verdict = {.unsafeIfImported} then some verdict else none

/-- The state of the promotion loop. -/
structure PromotionState where
  functionSafety : FunctionSafetyMap
  globallySafe : Finset Str
  globallyIfImported : Finset Str
  /-- The candidates whose `promoted_flags` bit is not set. -/
  remaining : List PromotionCandidate
  promoted : List (ModuleName × Str) := []

/-- `resolve_callee_verdict`. -/
def resolveCalleeVerdict (callee : ResolvedCallee) (fs : FunctionSafetyMap)
    (globallySafe globallyIfImported : Finset Str) : Option FunctionSafety :=
  match callee with
  | .qualified moduleName localName =>
    (getFunctionSafety fs moduleName localName).bind fun info =>
      maybeNonBlockingVerdict info.verdict
  | .unqualified name =>
    if name ∈ globallySafe then some ∅
    else if name ∈ globallyIfImported then some {.unsafeIfImported}
    else none

namespace PromotionState

/-- What a callee resolves to in a frozen state. -/
def resolve (st : PromotionState) (callee : ResolvedCallee) : Option FunctionSafety :=
  resolveCalleeVerdict callee st.functionSafety st.globallySafe st.globallyIfImported

/-- The verdict a candidate is promoted to in a frozen state, when every callee
resolves. -/
def target (st : PromotionState) (candidate : PromotionCandidate) :
    Option FunctionSafety :=
  if ∀ callee ∈ candidate.callees, (st.resolve callee).isSome then
    some (candidate.baseVerdict ∪
      candidate.callees.biUnion fun callee => (st.resolve callee).getD ∅)
  else none

/-- The frozen phase of a round: the candidates to promote, with their verdicts. -/
def toPromote (st : PromotionState) : List (PromotionCandidate × FunctionSafety) :=
  st.remaining.filterMap fun candidate =>
    (st.target candidate).map fun verdict => (candidate, verdict)

/-- The apply phase, for one promotion. -/
def commit (needed : Finset Str) (st : PromotionState)
    (p : PromotionCandidate × FunctionSafety) : PromotionState :=
  if (getFunctionSafety st.functionSafety p.1.moduleName p.1.name).isSome then
    { st with
      functionSafety :=
        modifyFunctionSafety st.functionSafety p.1.moduleName p.1.name
          fun info => { info with verdict := p.2 }
      globallySafe :=
        if p.1.name ∈ needed ∧ p.2 = ∅ then insert p.1.name st.globallySafe
        else st.globallySafe
      globallyIfImported :=
        if p.1.name ∈ needed ∧ p.2 = {.unsafeIfImported} then
          insert p.1.name st.globallyIfImported
        else st.globallyIfImported
      promoted := st.promoted ++ [(p.1.moduleName, p.1.name)] }
  else st

/-- One round of the loop; `none` when there is nothing to promote. -/
def round (needed : Finset Str) (st : PromotionState) : Option PromotionState :=
  if st.toPromote = [] then none
  else
    some (st.toPromote.foldl (commit needed)
      { st with remaining := st.remaining.filter fun c => (st.target c).isNone })

end PromotionState

/-- The names of the unqualified callees of the candidates, added to the names the
errors need. -/
def neededNames (needed : Finset Str) (candidates : List PromotionCandidate) :
    Finset Str :=
  candidates.foldl (fun acc candidate =>
    acc ∪ candidate.callees.biUnion fun callee =>
      match callee with
      | .unqualified name => {name}
      | .qualified _ _ => ∅) needed

/-- The needed names some merged module defines with exactly this verdict. -/
def globalIndex (moduleNames : Finset ModuleName) (fs : FunctionSafetyMap)
    (needed : Finset Str) (verdict : FunctionSafety) : Finset Str :=
  needed.filter fun name =>
    ∃ m ∈ moduleNames, (getFunctionSafety fs m name).any fun info =>
      decide (info.verdict = verdict)

/-- What `promote_fixpoint` is called with. -/
structure PromotionInput where
  moduleNames : Finset ModuleName
  functionSafety : FunctionSafetyMap
  neededUnqualified : Finset Str
  search : NameSearch

namespace PromotionInput

/-- The candidates, collected once. -/
def candidates (P : PromotionInput) : List PromotionCandidate :=
  collectPromotionCandidates P.moduleNames P.functionSafety
    (splitCallee P.moduleNames P.search)

/-- `needed_unqualified`, once the callees' names are in it. -/
def needed (P : PromotionInput) : Finset Str :=
  neededNames P.neededUnqualified P.candidates

/-- The state before the first round. -/
def start (P : PromotionInput) : PromotionState where
  functionSafety := P.functionSafety
  globallySafe := globalIndex P.moduleNames P.functionSafety P.needed ∅
  globallyIfImported :=
    globalIndex P.moduleNames P.functionSafety P.needed {.unsafeIfImported}
  remaining := P.candidates

/-- The state after at most `fuel` rounds. -/
def stateAfter (P : PromotionInput) (fuel : Nat) : PromotionState :=
  runRounds (PromotionState.round P.needed) fuel P.start

end PromotionInput

/-- `promote_fixpoint`. A round that promotes shortens `remaining`, so the loop ends
within as many rounds as there are candidates (`round_promoteFixpoint`). -/
def promoteFixpoint (P : PromotionInput) : PromotionState :=
  P.stateAfter P.candidates.length

/-- `ResolutionOutcome`, with the verdicts and the emitted errors. -/
structure ResolutionOutcome where
  functionSafety : FunctionSafetyMap
  moduleScopeErrors : List ModuleScopeError
  promoted : List (ModuleName × Str)
  globallySafe : Finset Str

/-- The promotion `resolve_program` runs once the candidates are applied. -/
def promotionInput (moduleNames : Finset ModuleName) (st : CandidateState)
    (needed : Finset Str) (search : NameSearch) : PromotionInput where
  moduleNames := moduleNames
  functionSafety := st.functionSafety
  neededUnqualified :=
    needed ∪ (st.moduleScopeErrors.filterMap fun e => unqualifiedIndexKey e.metadata).toFinset
  search := search

/-- `resolve_program`: the resolution phases in their canonical order. -/
def resolveProgram (moduleNames : Finset ModuleName) (fs : FunctionSafetyMap)
    (candidates : List (ModuleName × List MutationCandidate)) (needed : Finset Str)
    (search : NameSearch) : ResolutionOutcome :=
  let applied := applyMutationCandidates candidates moduleNames fs
  let final := promoteFixpoint (promotionInput moduleNames applied needed search)
  { functionSafety := final.functionSafety
    moduleScopeErrors := applied.moduleScopeErrors
    promoted := final.promoted
    globallySafe := final.globallySafe }

end Lifeguard
