import Lifeguard.Lib.Levels
import Lifeguard.ResolvedProgram
import Mathlib.Data.Finset.Fold
import Mathlib.Data.Prod.Lex

/-!
# The lazy-import policy

For each passing module, the modules whose import must have run before it may be imported
lazily: its `lazy_eligible` set (`output/policy.rs`). The table of these sets is made by a
scan of the import graph and then only grows, in passes:

- `scan`: failing imports, failing sources of re-exports, missing imports, and packages
  further up that lie in an import cycle;
- `cycleDepWrites`: the imports of a module within its cycle, given to its children too;
- `entryGuardWrites`: for cycles that are entered through several members, the entries;
- `implicitWrites` and `chainWrites`: implicit imports, and the shortest import chains to
  them;
- `sideEffectWrites`: imports for their side effects of modules that have a set.

No pass but the last reads the table it writes, and that one reads a copy made before it:
a pass is given by its writes, in the order of the source's loops. The source runs the
passes in parallel over hash maps, so that the order of the writes is open: `PolicyRun`
takes any. `policy` is the run in the order of the loops.
-/

namespace Lifeguard

open Lib

/-- Modules added to the set of a module. -/
abbrev Write := ModuleName × Finset ModuleName

/-- `lazy_eligible`. -/
abbrev LazyEligible := Table ModuleName (Finset ModuleName)

variable (p : ResolvedProgram)

namespace ResolvedProgram

/-- The nodes of the import graph. -/
abbrev nodes : List ModuleName := p.importGraph.nodes

/-- The passing modules. -/
abbrev passing : Finset ModuleName := p.classified.passingModules

/-- The failing modules. -/
abbrev failing : Finset ModuleName := p.classified.failingModules

/-- The modules that have sources. -/
def sourceModules : Finset ModuleName := p.passing ∪ p.failing

/-- `implicit_parents`, looked up. -/
def implicitParents (m : ModuleName) : List ModuleName :=
  (p.importGraph.implicitParentImports.get? m).getD []

/-- The import cycles. -/
def cycles (sccs : List (List ModuleName)) : List (List ModuleName) :=
  ImportGraph.collectCycles sccs p.sourceModules

end ResolvedProgram

/-! ## The scan -/

/-- What one import adds in the scan: itself when it fails, and the failing modules its
re-exports end in. -/
def importGuards (reMap : LazyEligible) (acc : Finset ModuleName) (imported : ModuleName) :
    Finset ModuleName :=
  (if imported ∈ p.failing then insert imported acc else acc) ∪ reMap.setAt imported

/-- The set the scan makes for a passing module. -/
def failingImportedModules (reMap : LazyEligible) (cycles : List (List ModuleName))
    (m : ModuleName) : Finset ModuleName :=
  (p.importGraph.getImports m).foldl (importGuards p reMap) ∅ ∪
    (p.importGraph.getMissingImports m).getD ∅ ∪
    ((ancestors m).tail.filter fun pkg => decide (pkg ∈ cycles.flatten)).toFinset

/-- One module of the scan. -/
def scanModule (reMap : LazyEligible) (cycles : List (List ModuleName)) (t : LazyEligible)
    (m : ModuleName) : LazyEligible :=
  if m ∈ p.passing then t.insert m (failingImportedModules p reMap cycles m) else t

/-- The scan of the import graph in `build_lazy_eligible`. -/
def scan (reMap : LazyEligible) (cycles : List (List ModuleName)) (order : List ModuleName) :
    LazyEligible :=
  order.foldl (scanModule p reMap cycles) Table.empty

/-! ## Cycle dependencies -/

/-- `cycle_children`: the modules right below a member. -/
def cycleChildren (member : ModuleName) : List ModuleName :=
  p.nodes.filter fun child => decide (parent child = some member)

/-- What a child gets for a dependency of its package: the package for itself. -/
def childDep (member child dep : ModuleName) : ModuleName :=
  if dep = child then member else dep

/-- `propagate_to_children`. -/
def propagateToChildren (member : ModuleName) (deps : Finset ModuleName) : List Write :=
  ((cycleChildren p member).filter fun child => decide (child ∈ p.passing)).map fun child =>
    (child, deps.image (childDep member child))

/-- `cycle_imports`: what a member imports, directly or as an implicit parent, of its cycle. -/
def cycleImports (cycle : List ModuleName) (member : ModuleName) : Finset ModuleName :=
  ((p.importGraph.getImports member ++ p.implicitParents member).filter
    fun m => decide (m ≠ member) && decide (m ∈ cycle)).toFinset

/-- One member of `add_cycle_deps`. -/
def memberWrites (cycle : List ModuleName) (member : ModuleName) : List Write :=
  if member ∈ p.passing then
    if cycleImports p cycle member = ∅ then []
    else
      (member, cycleImports p cycle member) ::
        propagateToChildren p member (cycleImports p cycle member)
  -- a failing member loads eagerly itself; its children are checked on their own
  else propagateToChildren p member {member}

/-- `add_cycle_deps`. -/
def cycleDepWrites (cycles : List (List ModuleName)) : List Write :=
  cycles.flatMap fun cycle => cycle.flatMap (memberWrites p cycle)

/-! ## Cycle entry guards -/

/-- The keys whose list holds a name, as often as it does: how the source inverts a map
from modules to lists. -/
def keysHolding (t : Table ModuleName (List ModuleName)) (name : ModuleName) : List ModuleName :=
  t.entries.flatMap fun entry => (entry.2.filter fun m => decide (m = name)).map fun _ => entry.1

/-- The modules that import a member, directly or as an implicit parent. -/
def importersOf (member : ModuleName) : List ModuleName :=
  p.importGraph.getImporters member ++
    keysHolding p.importGraph.implicitParentImports member

/-- The module that runs first when the member is imported. -/
def entryOf (cycle : List ModuleName) (member : ModuleName) : ModuleName :=
  (outermostMemberAncestor member cycle).getD member

/-- Neither a member nor below one. -/
def isOutsider (cycle : List ModuleName) (m : ModuleName) : Bool :=
  decide (m ∉ cycle) && (outermostMemberAncestor m cycle).isNone

/-- One importer of a member: the entry is noted for an importer seen before, or for one
from outside. -/
def recordEntry (cycle : List ModuleName) (entry : ModuleName) (entries : LazyEligible)
    (importer : ModuleName) : LazyEligible :=
  match entries.get? importer with
  | some seen => entries.insert importer (insert entry seen)
  | none => if isOutsider cycle importer then entries.insert importer {entry} else entries

/-- One member: all its importers. -/
def recordMember (cycle : List ModuleName) (entries : LazyEligible) (member : ModuleName) :
    LazyEligible :=
  (importersOf p member).foldl (recordEntry cycle (entryOf cycle member)) entries

/-- `entries`: the entries each outsider reaches. -/
def cycleEntries (cycle : List ModuleName) : LazyEligible :=
  cycle.foldl (recordMember p cycle) Table.empty

/-- All entries that are reached. -/
def enteredMembers (entries : LazyEligible) : Finset ModuleName :=
  (entries.entries.map Prod.snd).foldr (· ∪ ·) ∅

/-- One cycle of `add_cycle_entry_guards`. -/
def entryWrites (cycle : List ModuleName) : List Write :=
  if ∀ a ∈ enteredMembers (cycleEntries p cycle), ∀ b ∈ enteredMembers (cycleEntries p cycle),
      a = b then []
  else (cycleEntries p cycle).entries.filter fun entry => decide (entry.1 ∈ p.passing)

/-- `add_cycle_entry_guards`. -/
def entryGuardWrites (cycles : List (List ModuleName)) : List Write :=
  cycles.flatMap (entryWrites p)

/-! ## Implicit imports and the chains to them -/

/-- The implicit imports of the passing modules. -/
def implicitWrites : List Write :=
  (p.classified.implicitImports.entries.filter fun entry => decide (entry.1 ∈ p.passing)).map
    fun entry => (entry.1, entry.2.toFinset)

/-- The keys of `consumers_by_target`. -/
def implicitTargets : List ModuleName :=
  (p.classified.implicitImports.entries.flatMap Prod.snd).dedup

/-- The consumers of a target that do not import it. -/
def needsChain (target : ModuleName) : List ModuleName :=
  (keysHolding p.classified.implicitImports target).filter fun c =>
    decide (¬p.importGraph.Imports c target)

/-- `hops_to_target`: of each module that leads to an importer of the target, how far away
it is, as far as consumers are still to be reached. -/
def hopsToTarget (g : ImportGraph) (target : ModuleName) (consumers : List ModuleName) :
    Table ModuleName Nat :=
  levels g.getImporters (g.nodes.length + 1) Table.empty consumers.dedup
    (g.getImporters target) 0

/-- The import with the fewest hops, of several the one with the lowest name. -/
def nextHop (g : ImportGraph) (hops : Table ModuleName Nat) (current : ModuleName) :
    Option (Nat ×ₗ ModuleName) :=
  ((g.getImports current).filterMap fun m => (hops.get? m).map fun h => toLex (h, m)).min?

/-- The modules `guard_shortest_chain` goes through. -/
def shortestChain (g : ImportGraph) (hops : Table ModuleName Nat) :
    Nat → ModuleName → List ModuleName
  | 0, _ => []
  | fuel + 1, current =>
    match nextHop g hops current with
    | none => []
    | some hop =>
      (ofLex hop).2 ::
        if (ofLex hop).1 = 0 then [] else shortestChain g hops fuel (ofLex hop).2

/-- `guard_shortest_chain`: the passing modules on the chain are guarded. -/
def guardShortestChain (hops : Table ModuleName Nat) (target consumer : ModuleName) :
    List Write :=
  ((shortestChain p.importGraph hops (p.nodes.length + 1) consumer).filter
    fun m => decide (m ∈ p.passing)).map fun m => (m, {target})

/-- One target of `propagate_implicit_imports_along_chains`: it guards itself, and so do
the chains of the consumers that need one. -/
def targetWrites (target : ModuleName) : List Write :=
  (if target ∈ p.passing then [(target, {target})] else []) ++
    (needsChain p target).flatMap
      (guardShortestChain p (hopsToTarget p.importGraph target (needsChain p target)) target)

/-- `propagate_implicit_imports_along_chains`. -/
def chainWrites : List Write :=
  (implicitTargets p).flatMap (targetWrites p)

/-! ## Side-effect imports -/

/-- `modules_with_failing_deps`. -/
def hasFailingDeps (t : LazyEligible) (m : ModuleName) : Bool := decide (t.setAt m ≠ ∅)

/-- `propagate_side_effect_entry`. -/
def sideEffectWrite (snapshot : LazyEligible) (entry : ModuleName × Finset ModuleName) :
    Option Write :=
  if entry.2 = ∅ ∨ entry.1 ∉ p.passing then none
  else some (entry.1, entry.2.filter fun imp => hasFailingDeps snapshot imp = true)

/-- `propagate_side_effect_imports` and `propagate_cached_side_effect_imports`. -/
def sideEffectWrites (snapshot : LazyEligible) : List Write :=
  p.sideEffects.entries.filterMap (sideEffectWrite p snapshot)

/-! ## Runs -/

/-- The table after each pass. -/
structure Stages where
  scanned : LazyEligible
  cycleDeps : LazyEligible
  entryGuards : LazyEligible
  implicit : LazyEligible
  chains : LazyEligible
  final : LazyEligible

/-- The re-export map, built from the live exports in some order, or from the cached
records by some workers. -/
inductive ReExportRun (failing : Finset ModuleName) : ReExports → LazyEligible → Prop
  | whole {reExports : Table Attribute Attribute} (order : List (Attribute × Attribute)) :
      order.Perm reExports.entries →
      ReExportRun failing (.whole reExports) (buildReExportMap reExports order failing)
  | cached {reExports : List CachedReExport}
      {nodup : (reExports.map CachedReExport.exported).Nodup} (chunks : List (List Nat)) :
      chunks.flatten.Perm (List.range reExports.length) →
      ReExportRun failing (.cached reExports nodup)
        (buildReExportMapFromCache reExports chunks failing)

/-- The writes of a pass, made in some order. -/
def Pass (writes : List Write) (before after : LazyEligible) : Prop :=
  ∃ order : List Write, order.Perm writes ∧ after = before.extendAll order

/-- The policy, each pass visiting what it goes through in some order. -/
structure PolicyRun (sccs : List (List ModuleName)) (s : Stages) : Prop where
  scan : ∃ order reMap, order.Perm p.nodes ∧ ReExportRun p.failing p.reExports reMap ∧
    s.scanned = scan p reMap (p.cycles sccs) order
  cycleDeps : Pass (cycleDepWrites p (p.cycles sccs)) s.scanned s.cycleDeps
  entryGuards : Pass (entryGuardWrites p (p.cycles sccs)) s.cycleDeps s.entryGuards
  implicit : Pass (implicitWrites p) s.entryGuards s.implicit
  chains : Pass (chainWrites p) s.implicit s.chains
  final : Pass (sideEffectWrites p s.chains) s.chains s.final

/-- The re-export map of one worker, or in the order of the table. -/
def ReExports.map (failing : Finset ModuleName) : ReExports → LazyEligible
  | .whole reExports => buildReExportMap reExports reExports.entries failing
  | .cached reExports _ =>
    buildReExportMapFromCache reExports [List.range reExports.length] failing

/-- The policy, in the order of the loops. -/
def policy (sccs : List (List ModuleName)) : Stages :=
  let cycles := p.cycles sccs
  let scanned := scan p (p.reExports.map p.failing) cycles p.nodes
  let cycleDeps := scanned.extendAll (cycleDepWrites p cycles)
  let entryGuards := cycleDeps.extendAll (entryGuardWrites p cycles)
  let implicit := entryGuards.extendAll (implicitWrites p)
  let chains := implicit.extendAll (chainWrites p)
  { scanned, cycleDeps, entryGuards, implicit, chains
    final := chains.extendAll (sideEffectWrites p chains) }

theorem ReExports.run_map (failing : Finset ModuleName) (reExports : ReExports) :
    ReExportRun failing reExports (reExports.map failing) := by
  cases reExports with
  | whole reExports => exact .whole reExports.entries (List.Perm.refl _)
  | cached reExports nodup =>
    refine .cached [List.range reExports.length] ?_
    simp

/-- The order of the loops is one of the orders. -/
theorem policyRun_policy (sccs : List (List ModuleName)) : PolicyRun p sccs (policy p sccs) where
  scan := ⟨p.nodes, p.reExports.map p.failing, List.Perm.refl _, p.reExports.run_map p.failing,
    rfl⟩
  cycleDeps := ⟨_, List.Perm.refl _, rfl⟩
  entryGuards := ⟨_, List.Perm.refl _, rfl⟩
  implicit := ⟨_, List.Perm.refl _, rfl⟩
  chains := ⟨_, List.Perm.refl _, rfl⟩
  final := ⟨_, List.Perm.refl _, rfl⟩

end Lifeguard
