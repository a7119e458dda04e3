import Lifeguard.ImportCollector
import Lifeguard.Lib.Growth
import Lifeguard.Lib.Search
import Lifeguard.ModuleInfo
import Lifeguard.NameGraph
import Lifeguard.Packages
import Mathlib.Order.Bounds.Defs
import Mathlib.Order.SetNotation

/-!
# Discovering the modules a program reaches

The import graph is built in two ways (`imports.rs`): `make` parses every module that is
provided, `make_with_exports` starts from the source modules and parses, in waves, what those
reach. The orders of the hash sets and of parallel results are parameters (`Enumeration`). The
exports that the second way collects beside the imports are left out.

- `Adds`: what adding the imports of some modules does to a builder (`adds_addAll`);
- `Leads`: what parsing a module can reach, and `waves_spec`: from enough fuel the waves end,
  with an exploration of it that is complete;
- `discovery_agrees`: what is reached is the least closed set, and on it the two graphs agree;
- `buildWithExports_represented`: the graph kept by indices stands for the one built here.
-/

namespace Lifeguard

open Lib ModuleImportCollector

/-! ## The provider -/

/-- `AstResult`, without the text of the error. -/
inductive AstResult
  | ok (parsed : ParsedModule)
  | parserError

/-- `ModuleProvider`: the modules that are provided, in the order they are listed, and what
parsing one gives. -/
structure ModuleProvider where
  moduleNames : List ModuleName
  parse : ModuleName → Option AstResult
  isStub : ModuleName → Bool
  overridesSource : ModuleName → Bool

/-- The order in which the imports of each module are run through, and the order in which
the results for some modules come. -/
structure Enumeration where
  imports : ModuleName → Finset ModuleName → List ModuleName
  mem_imports : ∀ m s t, t ∈ imports m s ↔ t ∈ s
  results : List ModuleName → List ModuleName
  perm_results : ∀ l, (results l).Perm l

/-! ## The builder -/

/-- `ImportGraphBuilder`, and the `ImportGraph` it becomes: both hold these four. -/
structure ImportGraphBuilder where
  graph : NameRelation := .empty
  mainGuardOnly : Table ModuleName (Finset ModuleName) := Table.empty
  missing : Table ModuleName (Finset ModuleName) := Table.empty
  ambiguous : Table ModuleName (Finset ModuleName) := Table.empty

namespace ImportGraphBuilder

variable (config : AnalysisConfig) (E : Enumeration)

/-- `add_nodes`. -/
def addNodes (b : ImportGraphBuilder) (keys : List ModuleName) : ImportGraphBuilder :=
  { b with graph := keys.foldl NameRelation.addNode b.graph }

/-- `collect_imports`. -/
def collectImports (b : ImportGraphBuilder) (name : ModuleName) (parsed : ParsedModule) :
    CollectedImports :=
  let ctx : CollectorContext :=
    { currentModule := name, isInit := parsed.isInit, graph := b.graph.nodes, config }
  collect ctx parsed.body

/-- `remove_unparseable_nodes`. -/
def removeUnparseableNodes (b : ImportGraphBuilder) (failures : List ModuleName) :
    ImportGraphBuilder :=
  { b with graph := failures.foldl NameRelation.removeNode b.graph }

/-- One import of a module: an edge, or missing. `Graph::add_edge` panics for a module that
is no node. -/
def addImport (source : ModuleName) (b : ImportGraphBuilder) (target : ModuleName) :
    Option ImportGraphBuilder :=
  (b.graph.addEdge source target).map fun graph =>
    if target ∈ b.graph.nodes then { b with graph }
    else { b with graph, missing := b.missing.extend source {target} }

/-- What was collected of one module. -/
def addCollected (b : ImportGraphBuilder) (collected : ModuleName × CollectedImports) :
    Option ImportGraphBuilder :=
  let (name, found) := collected
  ((E.imports name found.imports).foldlM (addImport name) b).map fun b =>
    { b with
      ambiguous :=
        if found.ambiguous = ∅ then b.ambiguous else b.ambiguous.extend name found.ambiguous
      mainGuardOnly :=
        if found.mainGuardOnly = ∅ then b.mainGuardOnly
        else b.mainGuardOnly.extend name found.mainGuardOnly }

/-- `add_edges_and_finish`. -/
def addEdgesAndFinish (b : ImportGraphBuilder)
    (allImports : List (ModuleName × CollectedImports)) : Option ImportGraphBuilder :=
  allImports.foldlM (addCollected E) b

/-- What comes of one module: nothing, its imports, or its name when it does not parse. -/
def parseAndCollect (p : ModuleProvider) (b : ImportGraphBuilder) (name : ModuleName) :
    Option (Except ModuleName (ModuleName × CollectedImports)) :=
  (p.parse name).map fun
    | .ok parsed => .ok (name, b.collectImports config name parsed)
    | .parserError => .error name

/-- The successes among the results. -/
def successes (results : List (Except ModuleName (ModuleName × CollectedImports))) :
    List (ModuleName × CollectedImports) :=
  results.filterMap Except.toOption

/-- The modules that do not parse among the results. -/
def failures (results : List (Except ModuleName (ModuleName × CollectedImports))) :
    List ModuleName :=
  results.filterMap fun
    | .ok _ => none
    | .error name => some name

/-- `ImportGraph::make`. -/
def make (p : ModuleProvider) : Option ImportGraphBuilder :=
  let b := addNodes {} p.moduleNames
  let results := (E.results p.moduleNames).filterMap (parseAndCollect config p b)
  (b.removeUnparseableNodes (failures results)).addEdgesAndFinish E (successes results)

/-! ## The waves -/

/-- `seed_modules`. -/
def seedModules (p : ModuleProvider) : List ModuleName :=
  p.moduleNames.filter fun name =>
    decide (name = "builtins".toList) || !p.isStub name || p.overridesSource name

/-- `stub_children`: the stubs right below each package. -/
def stubChildren (p : ModuleProvider) : Table ModuleName (List ModuleName) :=
  p.moduleNames.foldl
    (fun children name =>
      if p.isStub name then
        match parent name with
        | some pkg => children.upsert pkg (· ++ [name]) [name]
        | none => children
      else children)
    Table.empty

/-- The state of the waves. -/
structure Waves where
  reached : Finset ModuleName
  frontier : List ModuleName
  successes : List (ModuleName × CollectedImports) := []
  unparseable : List ModuleName := []

/-- A module that was met: a node that was not reached yet is in the next wave. -/
def reach (nodes : Finset ModuleName) (st : Finset ModuleName × List ModuleName)
    (imported : ModuleName) : Finset ModuleName × List ModuleName :=
  if imported ∈ nodes then meet st imported else st

/-- One result of a wave. -/
def takeResult (b : ImportGraphBuilder) (children : Table ModuleName (List ModuleName))
    (st : Waves) : Except ModuleName (ModuleName × CollectedImports) → Waves
  | .ok (name, found) =>
    let met := (E.imports name found.imports ++ (children.get? name).getD []).foldl
      (reach b.graph.nodes) (st.reached, st.frontier)
    { st with
      reached := met.1
      frontier := met.2
      successes := st.successes ++ [(name, found)] }
  | .error name => { st with unparseable := st.unparseable ++ [name] }

/-- One wave: the frontier is parsed, and then its results are taken one by one. -/
def wave (p : ModuleProvider) (b : ImportGraphBuilder)
    (children : Table ModuleName (List ModuleName)) (st : Waves) : Waves :=
  let results := (E.results st.frontier).filterMap (parseAndCollect config p b)
  results.foldl (takeResult E b children) { st with frontier := [] }

/-- The waves, until one finds nothing new. -/
def waves (p : ModuleProvider) (b : ImportGraphBuilder)
    (children : Table ModuleName (List ModuleName)) : Nat → Waves → Option Waves
  | fuel, st =>
    if st.frontier = [] then some st
    else
      match fuel with
      | 0 => none
      | fuel + 1 => waves p b children fuel (wave config E p b children st)

/-- `build_with_exports`, without the exports: the graph, and the modules it reached. -/
def buildWithExports (p : ModuleProvider) (fuel : Nat) :
    Option (ImportGraphBuilder × Finset ModuleName) := do
  let b := addNodes {} p.moduleNames
  let (reached, frontier) := (seedModules p).foldl meet (∅, [])
  let st ← waves config E p b (stubChildren p) fuel { reached, frontier }
  let graph ← (b.removeUnparseableNodes st.unparseable).addEdgesAndFinish E st.successes
  return (graph, st.reached)

/-! ## What the edges add -/

/-- From `b` to `b'` these imports, ambiguous candidates and guard-only names of each module
were added: an import of a node as an edge, another one as missing. -/
structure Adds (b b' : ImportGraphBuilder)
    (imports ambiguous guarded : ModuleName → ModuleName → Prop) : Prop where
  nodes : b'.graph.nodes = b.graph.nodes
  edges : ∀ m t, (m, t) ∈ b'.graph.edges ↔
    (m, t) ∈ b.graph.edges ∨ imports m t ∧ t ∈ b.graph.nodes
  missing : ∀ m t, t ∈ b'.missing.setAt m ↔
    t ∈ b.missing.setAt m ∨ imports m t ∧ t ∉ b.graph.nodes
  ambiguous : ∀ m t, t ∈ b'.ambiguous.setAt m ↔ t ∈ b.ambiguous.setAt m ∨ ambiguous m t
  guarded : ∀ m t, t ∈ b'.mainGuardOnly.setAt m ↔ t ∈ b.mainGuardOnly.setAt m ∨ guarded m t
  missing_full : b.missing.Full → b'.missing.Full
  ambiguous_full : b.ambiguous.Full → b'.ambiguous.Full
  guarded_full : b.mainGuardOnly.Full → b'.mainGuardOnly.Full

section Adding

variable {E : Enumeration} {b b' b'' : ImportGraphBuilder}
  {imports imports' ambiguous ambiguous' guarded guarded' : ModuleName → ModuleName → Prop}

theorem Adds.refl (b : ImportGraphBuilder) :
    Adds b b (fun _ _ => False) (fun _ _ => False) fun _ _ => False where
  nodes := rfl
  edges := by simp
  missing := by simp
  ambiguous := by simp
  guarded := by simp
  missing_full := id
  ambiguous_full := id
  guarded_full := id

theorem Adds.trans (h : Adds b b' imports ambiguous guarded)
    (h' : Adds b' b'' imports' ambiguous' guarded') :
    Adds b b'' (fun m t => imports m t ∨ imports' m t) (fun m t => ambiguous m t ∨ ambiguous' m t)
      fun m t => guarded m t ∨ guarded' m t where
  nodes := h'.nodes.trans h.nodes
  edges m t := by rw [h'.edges, h.edges, h.nodes, or_and_right, or_assoc]
  missing m t := by rw [h'.missing, h.missing, h.nodes, or_and_right, or_assoc]
  ambiguous m t := by rw [h'.ambiguous, h.ambiguous, or_assoc]
  guarded m t := by rw [h'.guarded, h.guarded, or_assoc]
  missing_full := h'.missing_full ∘ h.missing_full
  ambiguous_full := h'.ambiguous_full ∘ h.ambiguous_full
  guarded_full := h'.guarded_full ∘ h.guarded_full

theorem Adds.congr (h : Adds b b' imports ambiguous guarded)
    (himports : ∀ m t, imports' m t ↔ imports m t)
    (hambiguous : ∀ m t, ambiguous' m t ↔ ambiguous m t)
    (hguarded : ∀ m t, guarded' m t ↔ guarded m t) : Adds b b' imports' ambiguous' guarded' where
  nodes := h.nodes
  edges m t := by rw [h.edges, himports]
  missing m t := by rw [h.missing, himports]
  ambiguous m t := by rw [h.ambiguous, hambiguous]
  guarded m t := by rw [h.guarded, hguarded]
  missing_full := h.missing_full
  ambiguous_full := h.ambiguous_full
  guarded_full := h.guarded_full

theorem full_extend {t : Table ModuleName (Finset ModuleName)} {m : ModuleName}
    {s : Finset ModuleName} (h : t.Full) (hs : s.Nonempty) : (t.extend m s).Full := by
  have hone : (t.extendAll [(m, s)]).Full := h.extendAll (List.forall_mem_singleton.mpr hs)
  exact hone

/-- One import of a node. -/
theorem adds_addImport {source : ModuleName} (hsource : source ∈ b.graph.nodes)
    (target : ModuleName) : ∃ b', addImport source b target = some b' ∧
      Adds b b' (fun m t => m = source ∧ t = target) (fun _ _ => False) fun _ _ => False := by
  unfold addImport NameRelation.addEdge
  rw [if_neg (not_not_intro hsource)]
  by_cases htarget : target ∈ b.graph.nodes
  · -- the target is a module of the project: an edge
    rw [if_pos htarget]
    refine ⟨_, rfl, ?_⟩
    dsimp only
    rw [if_pos htarget]
    refine ⟨rfl, fun m t => ?_, fun m t => ?_, by simp, by simp, id, id, id⟩
    · rw [Finset.mem_insert, Prod.mk.injEq, or_comm]
      refine or_congr_right (and_iff_left_of_imp ?_).symm
      rintro ⟨-, rfl⟩
      exact htarget
    · refine (or_iff_left ?_).symm
      rintro ⟨⟨-, rfl⟩, hnot⟩
      exact hnot htarget
  · rw [if_neg htarget]
    refine ⟨_, rfl, ?_⟩
    dsimp only
    rw [if_neg htarget]
    refine ⟨rfl, fun m t => ?_, fun m t => ?_, by simp, by simp, fun h => ?_, id, id⟩
    · refine (or_iff_left ?_).symm
      rintro ⟨⟨-, rfl⟩, hmem⟩
      exact htarget hmem
    · rw [Table.mem_setAt_extend, Finset.mem_singleton]
      refine or_congr_right ?_
      constructor
      · rintro ⟨rfl, rfl⟩
        exact ⟨⟨rfl, rfl⟩, htarget⟩
      · rintro ⟨⟨rfl, rfl⟩, -⟩
        exact ⟨rfl, rfl⟩
    · exact full_extend h (Finset.singleton_nonempty target)

/-- The imports of a node, one by one. -/
theorem adds_addImports {source : ModuleName} (targets : List ModuleName)
    (hsource : source ∈ b.graph.nodes) : ∃ b', targets.foldlM (addImport source) b = some b' ∧
      Adds b b' (fun m t => m = source ∧ t ∈ targets) (fun _ _ => False) fun _ _ => False := by
  induction targets generalizing b with
  | nil =>
    exact ⟨b, rfl, (Adds.refl b).congr (by simp) (by simp) (by simp)⟩
  | cons target targets ih =>
    obtain ⟨b₁, hfirst, hadds⟩ := adds_addImport hsource target
    obtain ⟨b₂, hrest, hadds'⟩ := ih (hadds.nodes ▸ hsource)
    refine ⟨b₂, ?_, (hadds.trans hadds').congr (fun m t => ?_) (by simp) (by simp)⟩
    · rw [List.foldlM_cons, hfirst]
      exact hrest
    · rw [List.mem_cons, and_or_left]

/-- A set of names of one module, added to a table when it is not empty. -/
theorem mem_extend_nonempty {table : Table ModuleName (Finset ModuleName)} {name m t : ModuleName}
    {s : Finset ModuleName} :
    t ∈ (if s = ∅ then table else table.extend name s).setAt m ↔
      t ∈ table.setAt m ∨ m = name ∧ t ∈ s := by
  by_cases hs : s = ∅
  · rw [if_pos hs, hs]
    simp
  · rw [if_neg hs, Table.mem_setAt_extend, eq_comm (a := m)]

theorem full_extend_nonempty {table : Table ModuleName (Finset ModuleName)} {name : ModuleName}
    {s : Finset ModuleName} (h : table.Full) :
    (if s = ∅ then table else table.extend name s).Full := by
  by_cases hs : s = ∅
  · rw [if_pos hs]
    exact h
  · rw [if_neg hs]
    exact full_extend h (Finset.nonempty_iff_ne_empty.mpr hs)

/-- What was collected of one node. -/
theorem adds_addCollected {collected : ModuleName × CollectedImports}
    (hname : collected.1 ∈ b.graph.nodes) : ∃ b', addCollected E b collected = some b' ∧
      Adds b b' (fun m t => m = collected.1 ∧ t ∈ collected.2.imports)
        (fun m t => m = collected.1 ∧ t ∈ collected.2.ambiguous)
        fun m t => m = collected.1 ∧ t ∈ collected.2.mainGuardOnly := by
  obtain ⟨name, found⟩ := collected
  obtain ⟨b₁, hrun, hadds⟩ := adds_addImports (E.imports name found.imports) hname
  refine ⟨_, by rw [addCollected, hrun]; rfl, ?_⟩
  have hmaps : Adds b₁
      { b₁ with
        ambiguous :=
          if found.ambiguous = ∅ then b₁.ambiguous else b₁.ambiguous.extend name found.ambiguous
        mainGuardOnly :=
          if found.mainGuardOnly = ∅ then b₁.mainGuardOnly
          else b₁.mainGuardOnly.extend name found.mainGuardOnly }
      (fun _ _ => False) (fun m t => m = name ∧ t ∈ found.ambiguous)
      fun m t => m = name ∧ t ∈ found.mainGuardOnly :=
    { nodes := rfl
      edges := by simp
      missing := by simp
      ambiguous := fun m t => mem_extend_nonempty
      guarded := fun m t => mem_extend_nonempty
      missing_full := id
      ambiguous_full := full_extend_nonempty
      guarded_full := full_extend_nonempty }
  refine (hadds.trans hmaps).congr (fun m t => ?_) (by simp) (by simp)
  rw [E.mem_imports, or_false]

/-- What was collected of some nodes is added, whatever the orders. -/
theorem adds_addAll {all : List (ModuleName × CollectedImports)}
    (hnames : ∀ c ∈ all, c.1 ∈ b.graph.nodes) :
    ∃ b', b.addEdgesAndFinish E all = some b' ∧
      Adds b b' (fun m t => ∃ c, (m, c) ∈ all ∧ t ∈ c.imports)
        (fun m t => ∃ c, (m, c) ∈ all ∧ t ∈ c.ambiguous)
        fun m t => ∃ c, (m, c) ∈ all ∧ t ∈ c.mainGuardOnly := by
  induction all generalizing b with
  | nil => exact ⟨b, rfl, (Adds.refl b).congr (by simp) (by simp) (by simp)⟩
  | cons collected all ih =>
    obtain ⟨hname, hnames⟩ := List.forall_mem_cons.mp hnames
    obtain ⟨b₁, hfirst, hadds⟩ := adds_addCollected (E := E) hname
    obtain ⟨b₂, hrest, hadds'⟩ := ih fun c hc => hadds.nodes ▸ hnames c hc
    have hcons : ∀ (field : CollectedImports → Finset ModuleName) (m t : ModuleName),
        (∃ c, (m, c) ∈ collected :: all ∧ t ∈ field c) ↔
          (m = collected.1 ∧ t ∈ field collected.2) ∨ ∃ c, (m, c) ∈ all ∧ t ∈ field c := by
      intro field m t
      obtain ⟨name, found⟩ := collected
      simp only [List.mem_cons, Prod.mk.injEq, or_and_right, exists_or]
      refine or_congr_left ?_
      constructor
      · rintro ⟨c, ⟨rfl, rfl⟩, ht⟩
        exact ⟨rfl, ht⟩
      · rintro ⟨rfl, ht⟩
        exact ⟨_, ⟨rfl, rfl⟩, ht⟩
    refine ⟨b₂, ?_, (hadds.trans hadds').congr (hcons _) (hcons _) (hcons _)⟩
    rw [addEdgesAndFinish, List.foldlM_cons, hfirst]
    exact hrest

end Adding

/-! ## What the waves explore -/

section Exploring

variable (config : AnalysisConfig) (E : Enumeration) (p : ModuleProvider)

/-- The graph that imports are collected against: every provided module is a node. -/
def provided : ImportGraphBuilder := addNodes {} p.moduleNames

/-- What is collected of a module that parses. -/
def collected (m : ModuleName) : Option CollectedImports :=
  match p.parse m with
  | some (.ok parsed) => some ((provided p).collectImports config m parsed)
  | _ => none

/-- The module does not parse. -/
def fails (m : ModuleName) : Bool :=
  match p.parse m with
  | some .parserError => true
  | _ => false

/-- Parsing the first module reaches the second: a provided module it imports, or a stub
right below it. -/
def Leads (a m : ModuleName) : Prop :=
  m ∈ p.moduleNames ∧ ∃ found, collected config p a = some found ∧
    (m ∈ found.imports ∨ p.isStub m = true ∧ parent m = some a)

variable {config E p} {m : ModuleName}

theorem graph_addNodes (b : ImportGraphBuilder) (names : List ModuleName) :
    (b.addNodes names).graph = ⟨b.graph.nodes ∪ names.toFinset, b.graph.edges⟩ := by
  have hfrom : ∀ r : NameRelation,
      names.foldl NameRelation.addNode r = ⟨r.nodes ∪ names.toFinset, r.edges⟩ := by
    induction names with
    | nil => intro r; rw [List.foldl_nil, List.toFinset_nil, Finset.union_empty]
    | cons name names ih =>
      intro r
      rw [List.foldl_cons, ih, List.toFinset_cons, Finset.union_insert]
      show NameRelation.mk (insert name r.nodes ∪ names.toFinset) r.edges = _
      rw [Finset.insert_union]
  exact hfrom b.graph

theorem mem_nodes_provided : m ∈ (provided p).graph.nodes ↔ m ∈ p.moduleNames := by
  rw [provided, graph_addNodes]
  simp [NameRelation.empty]

/-- The nodes that are left when some were removed; without edges before there are none
after. -/
theorem graph_removeUnparseableNodes (b : ImportGraphBuilder) (failed : List ModuleName)
    (hedges : b.graph.edges = ∅) :
    (b.removeUnparseableNodes failed).graph = ⟨b.graph.nodes \ failed.toFinset, ∅⟩ := by
  have hfrom : ∀ r : NameRelation, r.edges = ∅ →
      failed.foldl NameRelation.removeNode r = ⟨r.nodes \ failed.toFinset, ∅⟩ := by
    induction failed with
    | nil =>
      intro r hr
      rw [List.foldl_nil, List.toFinset_nil, Finset.sdiff_empty, ← hr]
    | cons name failed ih =>
      intro r hr
      have hnone : (r.removeNode name).edges = ∅ := by
        rw [NameRelation.removeNode, hr, Finset.filter_empty]
      rw [List.foldl_cons, ih _ hnone, List.toFinset_cons, NameRelation.removeNode]
      congr 1
      ext m
      simp only [Finset.mem_sdiff, Finset.mem_erase, Finset.mem_insert, not_or]
      tauto
  exact hfrom b.graph hedges

/-- What comes of one module. -/
theorem parseAndCollect_eq (m : ModuleName) :
    parseAndCollect config p (provided p) m =
      match collected config p m with
      | some found => some (.ok (m, found))
      | none => if fails p m then some (.error m) else none := by
  unfold parseAndCollect collected fails
  cases p.parse m with
  | none => rfl
  | some result => cases result <;> rfl

theorem fails_of_collected {found : CollectedImports} (h : collected config p m = some found) :
    fails p m = false := by
  unfold collected at h
  unfold fails
  split at h
  · next parsed hparse => rw [hparse]
  · cases h

/-- The imports of some modules are those collected of each. -/
theorem mem_successes {l : List ModuleName} {found : CollectedImports} :
    (m, found) ∈ successes (l.filterMap (parseAndCollect config p (provided p))) ↔
      m ∈ l ∧ collected config p m = some found := by
  simp only [successes, List.mem_filterMap, parseAndCollect_eq]
  constructor
  · rintro ⟨result, ⟨a, ha, hresult⟩, hok⟩
    split at hresult
    · next found' hfound =>
      cases hresult
      cases hok
      exact ⟨ha, hfound⟩
    · split at hresult
      · cases hresult
        cases hok
      · cases hresult
  · rintro ⟨hm, hfound⟩
    exact ⟨.ok (m, found), ⟨m, hm, by rw [hfound]⟩, rfl⟩

theorem mem_failures {l : List ModuleName} :
    m ∈ failures (l.filterMap (parseAndCollect config p (provided p))) ↔
      m ∈ l ∧ fails p m = true := by
  simp only [failures, List.mem_filterMap, parseAndCollect_eq]
  constructor
  · rintro ⟨result, ⟨a, ha, hresult⟩, herror⟩
    split at hresult
    · cases hresult
      cases herror
    · split at hresult
      · next hfails =>
        cases hresult
        cases herror
        exact ⟨ha, hfails⟩
      · cases hresult
  · rintro ⟨hm, hfails⟩
    refine ⟨.error m, ⟨m, hm, ?_⟩, rfl⟩
    cases hfound : collected config p m with
    | none => rw [if_pos hfails]
    | some found =>
      rw [fails_of_collected hfound] at hfails
      cases hfails

theorem mem_stubChildren {pkg : ModuleName} :
    m ∈ ((stubChildren p).get? pkg).getD [] ↔
      m ∈ p.moduleNames ∧ p.isStub m = true ∧ parent m = some pkg := by
  -- what the loop has listed so far, and what is still to come
  have hfrom : ∀ (names : List ModuleName) (children : Table ModuleName (List ModuleName)),
      m ∈ ((names.foldl
        (fun children name =>
          if p.isStub name then
            match parent name with
            | some pkg => children.upsert pkg (· ++ [name]) [name]
            | none => children
          else children) children).get? pkg).getD [] ↔
        m ∈ (children.get? pkg).getD [] ∨
          m ∈ names ∧ p.isStub m = true ∧ parent m = some pkg := by
    intro names
    induction names with
    | nil => intro children; simp
    | cons name names ih =>
      intro children
      rw [List.foldl_cons, ih, List.mem_cons, or_and_right, ← or_assoc]
      refine or_congr_left ?_
      by_cases hstub : p.isStub name = true
      · rw [if_pos hstub]
        cases hparent : parent name with
        | none =>
          refine (or_iff_left ?_).symm
          rintro ⟨rfl, -, hpkg⟩
          rw [hparent] at hpkg
          cases hpkg
        | some above =>
          dsimp only
          rw [Table.get?_upsert]
          by_cases hpkg : pkg = above
          · subst hpkg
            rw [if_pos rfl]
            have hmem : m ∈ (((children.get? pkg).map (· ++ [name])).getD [name]) ↔
                m ∈ (children.get? pkg).getD [] ∨ m = name := by
              cases children.get? pkg with
              | none => simp
              | some below => simp
            rw [Option.getD_some, hmem]
            refine or_congr_right (and_iff_left_of_imp ?_).symm
            rintro rfl
            exact ⟨hstub, hparent⟩
          · rw [if_neg hpkg]
            refine (or_iff_left ?_).symm
            rintro ⟨rfl, -, hbelow⟩
            rw [hparent] at hbelow
            exact hpkg (Option.some.inj hbelow).symm
      · rw [if_neg hstub]
        refine (or_iff_left ?_).symm
        rintro ⟨rfl, hstub', -⟩
        exact hstub hstub'
  rw [stubChildren, hfrom]
  simp

end Exploring

/-! ## The waves -/

/-- The state of the waves after some modules were visited and with some pending. -/
structure Tracks (config : AnalysisConfig) (p : ModuleProvider) (s : Frontier ModuleName)
    (st : Waves) : Prop where
  reached : st.reached = s.met.toFinset
  successes : ∀ m found, (m, found) ∈ st.successes ↔
    m ∈ s.visited ∧ collected config p m = some found
  unparseable : ∀ m, m ∈ st.unparseable ↔ m ∈ s.visited ∧ fails p m = true

section Waving

variable {config : AnalysisConfig} {E : Enumeration} {p : ModuleProvider}
  {seeds : List ModuleName} {s : Frontier ModuleName} {st : Waves}

theorem foldl_reach (nodes : Finset ModuleName) (l : List ModuleName)
    (met : Finset ModuleName × List ModuleName) :
    l.foldl (reach nodes) met = (l.filter fun m => decide (m ∈ nodes)).foldl meet met := by
  rw [List.foldl_filter]
  congr 1
  funext met m
  unfold reach
  by_cases hm : m ∈ nodes
  · rw [if_pos hm, if_pos (decide_eq_true hm)]
  · rw [if_neg hm, if_neg (by simpa using hm)]

/-- What a module leads to is what its result makes the waves reach. -/
theorem mem_reachable {a m : ModuleName} {found : CollectedImports}
    (hfound : collected config p a = some found) :
    m ∈ ((E.imports a found.imports ++ ((stubChildren p).get? a).getD []).filter
        fun m => decide (m ∈ (provided p).graph.nodes)) ↔ Leads config p a m := by
  rw [List.mem_filter, List.mem_append, E.mem_imports, mem_stubChildren, decide_eq_true_iff,
    mem_nodes_provided, Leads]
  constructor
  · rintro ⟨himported | ⟨-, hchild⟩, hprovided⟩
    · exact ⟨hprovided, found, hfound, Or.inl himported⟩
    · exact ⟨hprovided, found, hfound, Or.inr hchild⟩
  · rintro ⟨hprovided, found', hfound', hleads⟩
    rw [hfound] at hfound'
    cases hfound'
    exact ⟨hleads.imp id fun hchild => ⟨hprovided, hchild⟩, hprovided⟩

/-- One module of a wave is visited: what its result makes the waves reach is added. -/
theorem takeResult_spec {visited rest new : List ModuleName} {a : ModuleName}
    (h : Lib.Explored (Leads config p) seeds ⟨visited, a :: (rest ++ new)⟩)
    (htracks : Tracks config p ⟨visited, a :: (rest ++ new)⟩ st) (hfrontier : st.frontier = new) :
    ∃ fresh, ∀ st', st' = (match parseAndCollect config p (provided p) a with
        | none => st
        | some result => takeResult E (provided p) (stubChildren p) st result) →
      Lib.Explored (Leads config p) seeds ⟨visited ++ [a], rest ++ (new ++ fresh)⟩ ∧
        Tracks config p ⟨visited ++ [a], rest ++ (new ++ fresh)⟩ st' ∧
        st'.frontier = new ++ fresh := by
  -- a visit that adds `fresh`, and the sets of the waves after it
  have hvisit : ∀ fresh : List ModuleName, fresh.Nodup →
      (∀ b, b ∈ fresh ↔ Leads config p a b ∧ b ∉ visited ++ a :: (rest ++ new)) →
      Lib.Explored (Leads config p) seeds ⟨visited ++ [a], rest ++ (new ++ fresh)⟩ := by
    intro fresh hnodup hmem
    have hstep : Visit (Leads config p) ⟨visited, [] ++ a :: (rest ++ new)⟩
        ⟨visited ++ [a], rest ++ (new ++ fresh)⟩ :=
      .visit hnodup hmem (by rw [List.nil_append, List.append_assoc])
    exact h.visit hstep
  have hmet : ∀ fresh : List ModuleName,
      (⟨visited ++ [a], rest ++ (new ++ fresh)⟩ : Frontier ModuleName).met.toFinset =
        st.reached ∪ fresh.toFinset := by
    intro fresh
    rw [htracks.reached]
    ext m
    simp only [Frontier.met, List.mem_toFinset, List.mem_append, List.mem_cons, List.not_mem_nil,
      Finset.mem_union, or_false]
    tauto
  have hvisited : ∀ {P : Prop} {m : ModuleName},
      m ∈ visited ++ [a] ∧ P ↔ (m ∈ visited ∧ P) ∨ (m = a ∧ P) := by
    intro P m
    rw [List.mem_append, List.mem_singleton, or_and_right]
  cases hfound : collected config p a with
  | none =>
    have hleads : ∀ b, ¬Leads config p a b := by
      rintro b ⟨-, found, hfound', -⟩
      rw [hfound] at hfound'
      cases hfound'
    refine ⟨[], fun st' hst' => ?_⟩
    rw [parseAndCollect_eq, hfound] at hst'
    dsimp only at hst'
    have hexplored := hvisit [] List.nodup_nil fun b => by simp [hleads b]
    have hsame : st'.reached = st.reached ∧ st'.successes = st.successes ∧
        st'.frontier = st.frontier := by
      rw [hst']
      cases fails p a <;> exact ⟨rfl, rfl, rfl⟩
    refine ⟨hexplored, ⟨?_, fun m found => ?_, fun m => ?_⟩, ?_⟩
    · rw [hmet, hsame.1, List.toFinset_nil, Finset.union_empty]
    · rw [hsame.2.1, htracks.successes]
      dsimp only
      rw [hvisited]
      refine (or_iff_left ?_).symm
      rintro ⟨rfl, hfound'⟩
      rw [hfound] at hfound'
      cases hfound'
    · dsimp only
      rw [hvisited, ← htracks.unparseable m, hst']
      by_cases hfails : fails p a = true
      · rw [if_pos hfails]
        show m ∈ st.unparseable ++ [a] ↔ _
        rw [List.mem_append, List.mem_singleton]
        refine or_congr_right (and_iff_left_of_imp ?_).symm
        rintro rfl
        exact hfails
      · rw [if_neg hfails]
        refine (or_iff_left ?_).symm
        rintro ⟨rfl, hfails'⟩
        exact hfails hfails'
    · rw [hsame.2.2, hfrontier, List.append_nil]
  | some found =>
    obtain ⟨fresh, hrun, hnodup, hmem⟩ := foldl_meet
      ((E.imports a found.imports ++ ((stubChildren p).get? a).getD []).filter
        fun m => decide (m ∈ (provided p).graph.nodes)) st.reached st.frontier
    refine ⟨fresh, fun st' hst' => ?_⟩
    rw [parseAndCollect_eq, hfound] at hst'
    dsimp only at hst'
    rw [takeResult, foldl_reach, hrun] at hst'
    have hexplored := hvisit fresh hnodup fun b => by
      rw [hmem, mem_reachable hfound, htracks.reached, List.mem_toFinset]
      rfl
    refine ⟨hexplored, ⟨?_, fun m found' => ?_, fun m => ?_⟩, ?_⟩
    · rw [hmet, hst']
    · dsimp only
      rw [hvisited, ← htracks.successes m found', hst']
      show (m, found') ∈ st.successes ++ [(a, found)] ↔ _
      rw [List.mem_append, List.mem_singleton, Prod.mk.injEq]
      refine or_congr_right (and_congr_right ?_)
      rintro rfl
      rw [hfound, Option.some.injEq, eq_comm]
    · dsimp only
      rw [hvisited, ← htracks.unparseable m, hst']
      refine (or_iff_left ?_).symm
      rintro ⟨rfl, hfails⟩
      rw [fails_of_collected hfound] at hfails
      cases hfails
    · rw [hst', hfrontier]

/-- The results of a wave, taken one by one. -/
theorem foldl_takeResult (wave : List ModuleName) {visited new : List ModuleName}
    (h : Lib.Explored (Leads config p) seeds ⟨visited, wave ++ new⟩)
    (htracks : Tracks config p ⟨visited, wave ++ new⟩ st) (hfrontier : st.frontier = new) :
    ∃ fresh, ∀ st', st' = (wave.filterMap (parseAndCollect config p (provided p))).foldl
        (takeResult E (provided p) (stubChildren p)) st →
      Lib.Explored (Leads config p) seeds ⟨visited ++ wave, new ++ fresh⟩ ∧
        Tracks config p ⟨visited ++ wave, new ++ fresh⟩ st' ∧ st'.frontier = new ++ fresh := by
  induction wave generalizing visited new st with
  | nil =>
    refine ⟨[], fun st' hst' => ?_⟩
    rw [hst', List.append_nil, List.append_nil]
    exact ⟨h, htracks, hfrontier⟩
  | cons a rest ih =>
    obtain ⟨fresh, hone⟩ := takeResult_spec (E := E) h htracks hfrontier
    obtain ⟨hexplored, htracks', hfrontier'⟩ := hone _ rfl
    obtain ⟨more, hmore⟩ := ih hexplored htracks' hfrontier'
    refine ⟨fresh ++ more, fun st' hst' => ?_⟩
    have hassoc : visited ++ a :: rest = visited ++ [a] ++ rest := by simp
    rw [hassoc, ← List.append_assoc]
    refine hmore st' ?_
    rw [hst', List.filterMap_cons]
    cases parseAndCollect config p (provided p) a <;> rfl

/-- What holds between two waves. -/
theorem wave_spec (h : Lib.Explored (Leads config p) seeds ⟨s.visited, st.frontier⟩)
    (htracks : Tracks config p ⟨s.visited, st.frontier⟩ st) :
    ∃ visited, visited.length = s.visited.length + st.frontier.length ∧
      ∀ st', st' = wave config E p (provided p) (stubChildren p) st →
        Lib.Explored (Leads config p) seeds ⟨visited, st'.frontier⟩ ∧
          Tracks config p ⟨visited, st'.frontier⟩ st' := by
  have hperm := E.perm_results st.frontier
  have h' := h.perm hperm.symm
  have htracks' : Tracks config p ⟨s.visited, E.results st.frontier ++ []⟩
      { st with frontier := [] } := by
    refine ⟨?_, htracks.successes, htracks.unparseable⟩
    rw [List.append_nil]
    show st.reached = _
    rw [htracks.reached]
    ext m
    simp only [Frontier.met, List.mem_toFinset, List.mem_append, hperm.mem_iff]
  rw [← List.append_nil (E.results st.frontier)] at h'
  obtain ⟨fresh, hfold⟩ := foldl_takeResult (E := E) (E.results st.frontier) h' htracks' rfl
  refine ⟨s.visited ++ E.results st.frontier, ?_, fun st' hst' => ?_⟩
  · rw [List.length_append, hperm.length_eq]
  · obtain ⟨hexplored, htracks'', hfrontier⟩ := hfold st' hst'
    rw [hfrontier]
    exact ⟨hexplored, htracks''⟩

/-- Every module that is met is provided. -/
theorem length_met_le (hseeds : ∀ m ∈ seeds, m ∈ p.moduleNames)
    (h : Lib.Explored (Leads config p) seeds s) : s.met.length ≤ p.moduleNames.length := by
  have hdom : s.met.length ≤ p.moduleNames.toFinset.card :=
    h.length_le (fun m hm => List.mem_toFinset.mpr (hseeds m hm))
      fun _ _ m hm => List.mem_toFinset.mpr hm.1
  exact hdom.trans (List.toFinset_card_le _)

variable (st) in
/-- From enough fuel the waves end, with nothing pending. -/
theorem waves_spec (hseeds : ∀ m ∈ seeds, m ∈ p.moduleNames) {fuel : Nat}
    (h : Lib.Explored (Leads config p) seeds ⟨s.visited, st.frontier⟩)
    (htracks : Tracks config p ⟨s.visited, st.frontier⟩ st)
    (hfuel : p.moduleNames.length ≤ s.visited.length + fuel) :
    ∃ st' visited, waves config E p (provided p) (stubChildren p) fuel st = some st' ∧
      Lib.Explored (Leads config p) seeds ⟨visited, []⟩ ∧ Tracks config p ⟨visited, []⟩ st' := by
  induction fuel generalizing s st with
  | zero =>
    have hle := length_met_le hseeds h
    rw [Frontier.met, List.length_append] at hle
    dsimp only at hle
    have hnil : st.frontier = [] := List.length_eq_zero_iff.mp (by omega)
    refine ⟨st, s.visited, ?_, hnil ▸ h, hnil ▸ htracks⟩
    rw [waves, if_pos hnil]
  | succ fuel ih =>
    rw [waves]
    by_cases hnil : st.frontier = []
    · rw [if_pos hnil]
      exact ⟨st, s.visited, rfl, hnil ▸ h, hnil ▸ htracks⟩
    · rw [if_neg hnil]
      obtain ⟨visited, hlen, hwave⟩ := wave_spec (E := E) h htracks
      obtain ⟨h', htracks'⟩ := hwave _ rfl
      have hpos := List.length_pos_iff.mpr hnil
      exact ih (s := ⟨visited, []⟩) _ h' htracks' (by dsimp only; omega)

end Waving

/-! ## Discovery -/

section Discovering

variable (config : AnalysisConfig) (E E' : Enumeration) (p : ModuleProvider)

/-- The set holds the seeds, and what each of its members leads to. -/
def Closed (S : Finset ModuleName) : Prop :=
  (∀ m ∈ seedModules p, m ∈ S) ∧ ∀ a ∈ S, ∀ m, Leads config p a m → m ∈ S

variable {config E E' p}

/-- More fuel changes nothing. -/
theorem waves_of_le {b : ImportGraphBuilder} {children : Table ModuleName (List ModuleName)}
    {fuel fuel' : Nat} {st st' : Waves} (h : waves config E p b children fuel st = some st')
    (hle : fuel ≤ fuel') : waves config E p b children fuel' st = some st' := by
  induction fuel generalizing fuel' st with
  | zero =>
    rw [waves] at h
    unfold waves
    split at h
    · next hnil =>
      rw [if_pos hnil]
      exact h
    · cases h
  | succ fuel ih =>
    obtain ⟨more, rfl⟩ := Nat.exists_eq_add_of_le' hle
    rw [waves] at h
    rw [← Nat.add_assoc, waves]
    by_cases hnil : st.frontier = []
    · rw [if_pos hnil] at h ⊢
      exact h
    · rw [if_neg hnil] at h ⊢
      exact ih h (Nat.le_add_left fuel more)

theorem mem_moduleNames_of_seed {m : ModuleName} (h : m ∈ seedModules p) : m ∈ p.moduleNames :=
  (List.mem_filter.mp h).1

/-- The seeds that the waves start from. -/
theorem exists_seeds (config : AnalysisConfig) (p : ModuleProvider) :
    ∃ seeds : List ModuleName, (seedModules p).foldl meet (∅, []) = (seeds.toFinset, seeds) ∧
      (∀ m, m ∈ seeds ↔ m ∈ seedModules p) ∧
      Lib.Explored (Leads config p) seeds ⟨[], seeds⟩ := by
  obtain ⟨seeds, hrun, hnodup, hmem⟩ := foldl_meet (seedModules p) ∅ []
  refine ⟨seeds, ?_, fun m => ?_, explored_start hnodup⟩
  · rw [hrun, Finset.empty_union, List.nil_append]
  · rw [hmem]
    simp

/-- A complete exploration of what the seeds lead to has visited the least closed set. -/
theorem isLeast_visited {seeds visited : List ModuleName}
    (hseeds : ∀ m, m ∈ seeds ↔ m ∈ seedModules p)
    (h : Lib.Explored (Leads config p) seeds ⟨visited, []⟩) :
    IsLeast {S : Finset ModuleName | Closed config p S} visited.toFinset := by
  have hmet : (⟨visited, []⟩ : Frontier ModuleName).met = visited := List.append_nil visited
  constructor
  · refine ⟨fun m hm => ?_, fun a ha m hleads => ?_⟩
    · exact List.mem_toFinset.mpr (hmet ▸ h.seeds_met m ((hseeds m).mpr hm))
    · exact List.mem_toFinset.mpr (hmet ▸ h.leads_met a (List.mem_toFinset.mp ha) m hleads)
  · rintro S ⟨hstart, hclosed⟩ m hm
    obtain ⟨seed, hseed, hpath⟩ := (h.mem_visited rfl).mp (List.mem_toFinset.mp hm)
    induction hpath with
    | refl => exact hstart seed ((hseeds seed).mp hseed)
    | tail hrest hstep ih =>
      refine hclosed _ (ih ?_) _ hstep
      exact List.mem_toFinset.mpr ((h.mem_visited rfl).mpr ⟨seed, hseed, hrest⟩)

/-- A graph of the provided modules without those that fail in a set, and with what was
collected of the members of the set. -/
structure BuiltFrom (config : AnalysisConfig) (p : ModuleProvider) (members : Finset ModuleName)
    (g : ImportGraphBuilder) : Prop where
  nodes : ∀ m, m ∈ g.graph.nodes ↔ m ∈ p.moduleNames ∧ ¬(m ∈ members ∧ fails p m = true)
  edges : ∀ m t, (m, t) ∈ g.graph.edges ↔ m ∈ members ∧ t ∈ g.graph.nodes ∧
    ∃ found, collected config p m = some found ∧ t ∈ found.imports
  missing : ∀ m t, t ∈ g.missing.setAt m ↔ m ∈ members ∧ t ∉ g.graph.nodes ∧
    ∃ found, collected config p m = some found ∧ t ∈ found.imports
  ambiguous : ∀ m t, t ∈ g.ambiguous.setAt m ↔ m ∈ members ∧
    ∃ found, collected config p m = some found ∧ t ∈ found.ambiguous
  guarded : ∀ m t, t ∈ g.mainGuardOnly.setAt m ↔ m ∈ members ∧
    ∃ found, collected config p m = some found ∧ t ∈ found.mainGuardOnly
  full : g.missing.Full ∧ g.ambiguous.Full ∧ g.mainGuardOnly.Full

/-- Removing the modules that failed and adding what was collected builds such a graph. -/
theorem builtFrom_finish {members : Finset ModuleName} {failed : List ModuleName}
    {all : List (ModuleName × CollectedImports)} (hmembers : ∀ m ∈ members, m ∈ p.moduleNames)
    (hfailed : ∀ m, m ∈ failed ↔ m ∈ members ∧ fails p m = true)
    (hall : ∀ m found, (m, found) ∈ all ↔ m ∈ members ∧ collected config p m = some found) :
    ∃ g, ((provided p).removeUnparseableNodes failed).addEdgesAndFinish E all = some g ∧
      BuiltFrom config p members g := by
  have hprovided : (provided p).graph.edges = ∅ := by
    rw [provided, graph_addNodes]
    rfl
  have hgraph := graph_removeUnparseableNodes (provided p) failed hprovided
  have hnodes : ∀ m, m ∈ ((provided p).removeUnparseableNodes failed).graph.nodes ↔
      m ∈ p.moduleNames ∧ ¬(m ∈ members ∧ fails p m = true) := by
    intro m
    rw [hgraph, Finset.mem_sdiff, mem_nodes_provided, List.mem_toFinset, hfailed]
  -- what was collected is of modules that did not fail, so their nodes are left
  have hnames : ∀ c ∈ all, c.1 ∈ ((provided p).removeUnparseableNodes failed).graph.nodes := by
    rintro ⟨m, found⟩ hc
    obtain ⟨hm, hfound⟩ := (hall m found).mp hc
    refine (hnodes m).mpr ⟨hmembers m hm, fun hfails => ?_⟩
    rw [fails_of_collected hfound] at hfails
    cases hfails.2
  obtain ⟨g, hrun, hadds⟩ := adds_addAll (E := E) hnames
  have hcollected : ∀ (field : CollectedImports → Finset ModuleName) (m t : ModuleName),
      (∃ found, (m, found) ∈ all ∧ t ∈ field found) ↔
        m ∈ members ∧ ∃ found, collected config p m = some found ∧ t ∈ field found := by
    intro field m t
    simp only [hall, and_assoc, exists_and_left]
  -- the tables start empty, so they hold only what is added here
  have hempty : ∀ m t : ModuleName,
      t ∉ (Table.empty : Table ModuleName (Finset ModuleName)).setAt m := by
    intro m t
    simp [Table.setAt]
  refine ⟨g, hrun, fun m => ?_, fun m t => ?_, fun m t => ?_, fun m t => ?_, fun m t => ?_,
    hadds.missing_full Table.full_empty, hadds.ambiguous_full Table.full_empty,
    hadds.guarded_full Table.full_empty⟩
  · rw [hadds.nodes, hnodes]
  · rw [hadds.edges, hcollected, hadds.nodes, hgraph, or_iff_right (Finset.notMem_empty _),
      and_assoc, and_comm (a := ∃ _, _)]
  · rw [hadds.missing, hcollected, hadds.nodes]
    refine (or_iff_right (hempty m t)).trans ?_
    rw [and_assoc, and_comm (a := ∃ _, _)]
  · rw [hadds.ambiguous, hcollected]
    exact or_iff_right (hempty m t)
  · rw [hadds.guarded, hcollected]
    exact or_iff_right (hempty m t)

/-- `make` builds the graph of all modules. -/
theorem make_spec (config : AnalysisConfig) (E : Enumeration) (p : ModuleProvider) :
    ∃ g, make config E p = some g ∧ BuiltFrom config p p.moduleNames.toFinset g := by
  have hmem : ∀ m, m ∈ E.results p.moduleNames ↔ m ∈ p.moduleNames.toFinset := by
    intro m
    rw [(E.perm_results _).mem_iff, List.mem_toFinset]
  refine builtFrom_finish (fun m hm => List.mem_toFinset.mp hm) (fun m => ?_) fun m found => ?_
  · rw [← hmem]
    exact mem_failures
  · rw [← hmem]
    exact mem_successes

/-- `build_with_exports` ends, and builds the graph of the least closed set. -/
theorem buildWithExports_spec (config : AnalysisConfig) (E : Enumeration) (p : ModuleProvider) :
    ∃ g reached,
      (∀ fuel, p.moduleNames.length ≤ fuel →
        buildWithExports config E p fuel = some (g, reached)) ∧
      IsLeast {S : Finset ModuleName | Closed config p S} reached ∧
      (∀ m ∈ reached, m ∈ p.moduleNames) ∧ BuiltFrom config p reached g := by
  obtain ⟨seeds, hseedsRun, hseeds, hstart⟩ := exists_seeds config p
  have hseedsProvided : ∀ m ∈ seeds, m ∈ p.moduleNames :=
    fun m hm => mem_moduleNames_of_seed ((hseeds m).mp hm)
  -- the state before the first wave: nothing visited, the seeds pending
  have htracks : Tracks config p ⟨[], seeds⟩ { reached := seeds.toFinset, frontier := seeds } :=
    ⟨rfl, fun m found => by simp, fun m => by simp⟩
  obtain ⟨st, visited, hwaves, hexplored, htracks'⟩ :=
    waves_spec (E := E) (s := ⟨[], seeds⟩) { reached := seeds.toFinset, frontier := seeds }
      hseedsProvided hstart htracks (Nat.zero_add _).ge
  have hreached : st.reached = visited.toFinset := by
    rw [htracks'.reached, Frontier.met, List.append_nil]
  have hmem : ∀ m, m ∈ visited ↔ m ∈ st.reached := by
    intro m
    rw [hreached, List.mem_toFinset]
  have hprovided : ∀ m ∈ st.reached, m ∈ p.moduleNames := by
    intro m hm
    obtain ⟨seed, hseed, hpath⟩ := (hexplored.mem_visited rfl).mp ((hmem m).mpr hm)
    cases hpath with
    | refl => exact hseedsProvided _ hseed
    | tail _ hleads => exact hleads.1
  have hfailed : ∀ m, m ∈ st.unparseable ↔ m ∈ st.reached ∧ fails p m = true :=
    fun m => (htracks'.unparseable m).trans (and_congr_left' (hmem m))
  have hall : ∀ m found, (m, found) ∈ st.successes ↔
      m ∈ st.reached ∧ collected config p m = some found :=
    fun m found => (htracks'.successes m found).trans (and_congr_left' (hmem m))
  obtain ⟨g, hrun, hbuilt⟩ := builtFrom_finish (E := E) hprovided hfailed hall
  refine ⟨g, st.reached, fun fuel hfuel => ?_, ?_, hprovided, hbuilt⟩
  · rw [buildWithExports, hseedsRun]
    show (waves config E p (provided p) (stubChildren p) fuel _ >>= _) = _
    rw [waves_of_le hwaves hfuel]
    show (((provided p).removeUnparseableNodes st.unparseable).addEdgesAndFinish E st.successes >>=
      fun graph => pure (graph, st.reached)) = _
    rw [hrun]
    rfl
  · rw [hreached]
    exact isLeast_visited hseeds hexplored

/-- Two graphs have the same imports of a module: the same edges, and in each table the same
entry. -/
structure SameImports (g g' : ImportGraphBuilder) (m : ModuleName) : Prop where
  edges : ∀ t, (m, t) ∈ g.graph.edges ↔ (m, t) ∈ g'.graph.edges
  missing : g.missing.get? m = g'.missing.get? m
  ambiguous : g.ambiguous.get? m = g'.ambiguous.get? m
  mainGuardOnly : g.mainGuardOnly.get? m = g'.mainGuardOnly.get? m

/-- On a closed set of modules the graph of its members is that of all modules. -/
theorem sameImports_of_closed {members : Finset ModuleName} {g full : ImportGraphBuilder}
    (hclosed : ∀ a ∈ members, ∀ m, Leads config p a m → m ∈ members)
    (hmembers : ∀ m ∈ members, m ∈ p.moduleNames) (hg : BuiltFrom config p members g)
    (hfull : BuiltFrom config p p.moduleNames.toFinset full) {m : ModuleName} (hm : m ∈ members) :
    SameImports g full m := by
  have hall : m ∈ p.moduleNames.toFinset := List.mem_toFinset.mpr (hmembers m hm)
  -- what a member imports is a node of both graphs or of none
  have hnodes : ∀ found, collected config p m = some found → ∀ t ∈ found.imports,
      (t ∈ g.graph.nodes ↔ t ∈ full.graph.nodes) := by
    intro found hfound t ht
    rw [hg.nodes, hfull.nodes, List.mem_toFinset]
    refine and_congr_right fun hprovided => not_congr (and_congr_left fun _ => ?_)
    exact iff_of_true (hclosed m hm t ⟨hprovided, found, hfound, Or.inl ht⟩) hprovided
  refine ⟨fun t => ?_, hg.full.1.get?_congr hfull.full.1 fun t => ?_,
    hg.full.2.1.get?_congr hfull.full.2.1 fun t => ?_,
    hg.full.2.2.get?_congr hfull.full.2.2 fun t => ?_⟩
  · rw [hg.edges, hfull.edges, and_iff_right hm, and_iff_right hall]
    constructor
    · rintro ⟨hnode, found, hfound, ht⟩
      exact ⟨(hnodes found hfound t ht).mp hnode, found, hfound, ht⟩
    · rintro ⟨hnode, found, hfound, ht⟩
      exact ⟨(hnodes found hfound t ht).mpr hnode, found, hfound, ht⟩
  · rw [hg.missing, hfull.missing, and_iff_right hm, and_iff_right hall]
    constructor
    · rintro ⟨hnode, found, hfound, ht⟩
      exact ⟨mt (hnodes found hfound t ht).mpr hnode, found, hfound, ht⟩
    · rintro ⟨hnode, found, hfound, ht⟩
      exact ⟨mt (hnodes found hfound t ht).mp hnode, found, hfound, ht⟩
  · rw [hg.ambiguous, hfull.ambiguous, and_iff_right hm, and_iff_right hall]
  · rw [hg.guarded, hfull.guarded, and_iff_right hm, and_iff_right hall]

/-- Discovery ends on every provider, in every order of the waves and sets. It has reached the
least set that holds the seeds and what its members lead to; its graph has the provided modules
but for those of the set that do not parse; each import collected of a member is an edge or
missing, and not both; and the imports of a member are those in the graph of all modules. -/
theorem discovery_agrees (config : AnalysisConfig) (E E' : Enumeration) (p : ModuleProvider) :
    ∃ g reached full,
      (∀ fuel, p.moduleNames.length ≤ fuel →
        buildWithExports config E p fuel = some (g, reached)) ∧
      make config E' p = some full ∧
      IsLeast {S : Finset ModuleName | Closed config p S} reached ∧
      (∀ m, m ∈ g.graph.nodes ↔ m ∈ p.moduleNames ∧ ¬(m ∈ reached ∧ fails p m = true)) ∧
      (∀ m ∈ reached, ∀ found, collected config p m = some found → ∀ t,
        (t ∈ found.imports ↔ (m, t) ∈ g.graph.edges ∨ t ∈ g.missing.setAt m) ∧
          ¬((m, t) ∈ g.graph.edges ∧ t ∈ g.missing.setAt m)) ∧
      ∀ m ∈ reached, SameImports g full m := by
  obtain ⟨g, reached, hbuild, hleast, hprovided, hg⟩ := buildWithExports_spec config E p
  obtain ⟨full, hmake, hfull⟩ := make_spec config E' p
  refine ⟨g, reached, full, hbuild, hmake, hleast, hg.nodes, ?_, fun m hm =>
    sameImports_of_closed hleast.1.2 hprovided hg hfull hm⟩
  intro m hm found hfound t
  rw [hg.edges, hg.missing, and_iff_right hm, and_iff_right hm]
  have himports : (∃ found', collected config p m = some found' ∧ t ∈ found'.imports) ↔
      t ∈ found.imports := by
    simp [hfound]
  rw [himports]
  by_cases hnode : t ∈ g.graph.nodes <;> simp [hnode]

end Discovering

/-! ## The graph as it is kept -/

/-- The names and edges are what a history of operations on the graph leaves. -/
def Made (r : NameRelation) : Prop := ∃ history, NameRelation.run history = some r

theorem Made.step {r r' : NameRelation} (h : Made r) (op : GraphOp) (hop : r.step op = some r') :
    Made r' := by
  obtain ⟨history, hrun⟩ := h
  refine ⟨history ++ [op], ?_⟩
  rw [NameRelation.run] at hrun ⊢
  rw [List.foldlM_append, hrun]
  show (r.step op >>= fun r' => some r') = _
  rw [hop]
  rfl

theorem Made.addNodes {b : ImportGraphBuilder} (h : Made b.graph) (keys : List ModuleName) :
    Made (b.addNodes keys).graph := by
  have hfrom : ∀ r, Made r → Made (keys.foldl NameRelation.addNode r) := by
    induction keys with
    | nil => exact fun r hr => hr
    | cons name keys ih => exact fun r hr => ih _ (hr.step (.addNode name) rfl)
  exact hfrom _ h

theorem Made.removeUnparseableNodes {b : ImportGraphBuilder} (h : Made b.graph)
    (failed : List ModuleName) : Made (b.removeUnparseableNodes failed).graph := by
  have hfrom : ∀ r, Made r → Made (failed.foldl NameRelation.removeNode r) := by
    induction failed with
    | nil => exact fun r hr => hr
    | cons name failed ih => exact fun r hr => ih _ (hr.step (.removeNode name) rfl)
  exact hfrom _ h

theorem Made.addImport {source target : ModuleName} {b b' : ImportGraphBuilder} (h : Made b.graph)
    (hadd : addImport source b target = some b') : Made b'.graph := by
  obtain ⟨graph, hgraph, rfl⟩ := Option.map_eq_some_iff.mp hadd
  have hmade : Made graph := h.step (.addEdge source target) hgraph
  split <;> exact hmade

/-- A fold that may panic keeps what each step keeps. -/
theorem foldlM_keeps {α σ : Type} {P : σ → Prop} {f : σ → α → Option σ}
    (hstep : ∀ s a s', P s → f s a = some s' → P s') (l : List α) {s s' : σ} (h : P s)
    (hrun : l.foldlM f s = some s') : P s' := by
  induction l generalizing s with
  | nil =>
    cases hrun
    exact h
  | cons a l ih =>
    rw [List.foldlM_cons] at hrun
    obtain ⟨s₁, hfirst, hrest⟩ := Option.bind_eq_some_iff.mp hrun
    exact ih (hstep s a s₁ h hfirst) hrest

theorem Made.addEdgesAndFinish {E : Enumeration} {b b' : ImportGraphBuilder} (h : Made b.graph)
    {all : List (ModuleName × CollectedImports)} (hadd : b.addEdgesAndFinish E all = some b') :
    Made b'.graph := by
  refine foldlM_keeps (P := fun b => Made b.graph) ?_ all h hadd
  rintro b ⟨name, found⟩ b' hb hcollected
  obtain ⟨b₁, himports, rfl⟩ := Option.map_eq_some_iff.mp hcollected
  exact foldlM_keeps (P := fun b => Made b.graph) (fun b t b' hb ht => hb.addImport ht) _ hb
    himports

/-- The graph of discovery, kept by indices, stands for its names and edges. -/
theorem buildWithExports_represented {G : Type} {ops : DiGraphOps G ModuleName}
    (hops : ops.Lawful) {config : AnalysisConfig} {E : Enumeration} {p : ModuleProvider} {fuel : Nat}
    {g : ImportGraphBuilder} {reached : Finset ModuleName}
    (h : buildWithExports config E p fuel = some (g, reached)) :
    ∃ history graph, NameGraph.run ops history = some graph ∧ Represents ops graph g.graph := by
  have hstart : Made (provided p).graph := Made.addNodes (b := {}) ⟨[], rfl⟩ p.moduleNames
  obtain ⟨st, -, hrest⟩ := Option.bind_eq_some_iff.mp h
  obtain ⟨g', hfinish, heq⟩ := Option.bind_eq_some_iff.mp hrest
  cases heq
  have hmade := (hstart.removeUnparseableNodes st.unparseable).addEdgesAndFinish hfinish
  obtain ⟨history, hrun⟩ := hmade
  have hrel := run_represents hops history
  rw [hrun] at hrel
  cases hgraph : NameGraph.run ops history with
  | none =>
    rw [hgraph] at hrel
    cases hrel
  | some graph =>
    rw [hgraph] at hrel
    cases hrel with
    | some hrep => exact ⟨history, graph, hgraph, hrep⟩

end ImportGraphBuilder

end Lifeguard
