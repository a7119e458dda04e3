import Lifeguard.Lib.DiGraph
import Lifeguard.Lib.Table
import Lifeguard.Names
import Mathlib.Data.Finset.Prod

/-!
# The graph keyed by module names

The import graph keeps its modules in a library graph, whose nodes are indices, and a map
from each name to its index (`graph.rs`). Removing a node gives its index to the last one,
so the map has to follow. The library's operations are a parameter, with what they promise.

- `NameRelation`: what the graph is for, a set of names and a set of edges;
- `Represents`: the map and the indices are one another's inverse, and the neighbors are
  those of the relation; each operation keeps it (`represents_addNode` and those beside it);
- `run_represents`: so does every history of operations, which panics only where a name an
  edge starts from is absent.
-/

namespace Lifeguard

open Lib

/-! ## Names and edges -/

/-- A set of names and a set of edges between them. -/
structure NameRelation where
  nodes : Finset ModuleName
  edges : Finset (ModuleName × ModuleName)

namespace NameRelation

/-- No names. -/
def empty : NameRelation := ⟨∅, ∅⟩

/-- Add a name, without edges when it is new. -/
def addNode (r : NameRelation) (name : ModuleName) : NameRelation :=
  { r with nodes := insert name r.nodes }

/-- Add an edge to a name that is present. The name it starts from must be. -/
def addEdge (r : NameRelation) (source target : ModuleName) : Option NameRelation :=
  if source ∉ r.nodes then none
  else if target ∈ r.nodes then some { r with edges := insert (source, target) r.edges }
  else some r

/-- Add an edge that is new and not from a name to itself. -/
def tryAddEdge (r : NameRelation) (source target : ModuleName) : Option NameRelation :=
  if source = target ∨ (source, target) ∈ r.edges then some r else r.addEdge source target

/-- Remove a name with all its edges. -/
def removeNode (r : NameRelation) (name : ModuleName) : NameRelation where
  nodes := r.nodes.erase name
  edges := r.edges.filter fun e => e.1 ≠ name ∧ e.2 ≠ name

end NameRelation

/-! ## The graph -/

/-- `Graph`: the library's graph, and the index of each name. -/
structure NameGraph (G : Type) where
  graph : G
  nodes : Table ModuleName Nat

/-- An operation on the graph. -/
inductive GraphOp
  | addNode (name : ModuleName)
  | addEdge (source target : ModuleName)
  | tryAddEdge (source target : ModuleName)
  | removeNode (name : ModuleName)

/-- What an operation does to the names and edges; no result is a panic. -/
def NameRelation.step (r : NameRelation) : GraphOp → Option NameRelation
  | .addNode name => some (r.addNode name)
  | .addEdge source target => r.addEdge source target
  | .tryAddEdge source target => r.tryAddEdge source target
  | .removeNode name => some (r.removeNode name)

namespace NameGraph

variable {G : Type} (ops : DiGraphOps G ModuleName)

/-- `Graph::new`. -/
def new : NameGraph G := ⟨ops.new, Table.empty⟩

/-- `Graph::add_node`, with the index. -/
def addNode (g : NameGraph G) (node : ModuleName) : NameGraph G × Nat :=
  match g.nodes.get? node with
  | some ix => (g, ix)
  | none =>
    let (graph, ix) := ops.addNode g.graph node
    ({ graph, nodes := g.nodes.insert node ix }, ix)

/-- `Graph::add_edge`, with whether an edge was added; `self.nodes[from]` panics when the
name is absent. -/
def addEdge (g : NameGraph G) (source target : ModuleName) : Option (NameGraph G × Bool) :=
  (g.nodes.get? source).map fun p =>
    match g.nodes.get? target with
    | some q => ({ g with graph := ops.addEdge g.graph p q }, true)
    | none => (g, false)

/-- `Graph::has_edge`. -/
def hasEdge (g : NameGraph G) (source target : ModuleName) : Bool :=
  match g.nodes.get? source, g.nodes.get? target with
  | some p, some q => ops.containsEdge g.graph p q
  | _, _ => false

/-- `Graph::try_add_edge`. -/
def tryAddEdge (g : NameGraph G) (source target : ModuleName) : Option (NameGraph G × Bool) :=
  if source = target then some (g, false)
  else if g.hasEdge ops source target then some (g, false)
  else g.addEdge ops source target

/-- `Graph::remove_node`; the name that was moved is asked for with `expect`. -/
def removeNode (g : NameGraph G) (name : ModuleName) : Option (NameGraph G) :=
  match g.nodes.get? name with
  | none => some g
  | some ix =>
    let nodes := g.nodes.erase name
    let lastIx := ops.nodeCount g.graph - 1
    let graph := ops.removeNode g.graph ix
    if ix ≠ lastIx then
      (ops.nodeWeight graph ix).map fun swappedName =>
        { graph, nodes := nodes.insert swappedName ix }
    else some { graph, nodes }

/-- `Graph::contains`. -/
def contains (g : NameGraph G) (node : ModuleName) : Bool := (g.nodes.get? node).isSome

/-- `Graph::find_edges`; each neighbor's name is asked for with `expect`. -/
def findEdges (g : NameGraph G) (node : ModuleName) (direction : Direction) :
    Option (List ModuleName) :=
  match g.nodes.get? node with
  | none => some []
  | some ix => (ops.neighborsDirected g.graph ix direction).mapM (ops.nodeWeight g.graph)

/-- `Graph::neighbors`. -/
def neighbors (g : NameGraph G) (node : ModuleName) : Option (List ModuleName) :=
  g.findEdges ops node .outgoing

/-- `Graph::reverse_neighbors`. -/
def reverseNeighbors (g : NameGraph G) (node : ModuleName) : Option (List ModuleName) :=
  g.findEdges ops node .incoming

/-- An operation, run. -/
def step (g : NameGraph G) : GraphOp → Option (NameGraph G)
  | .addNode name => some (g.addNode ops name).1
  | .addEdge source target => (g.addEdge ops source target).map Prod.fst
  | .tryAddEdge source target => (g.tryAddEdge ops source target).map Prod.fst
  | .removeNode name => g.removeNode ops name

end NameGraph

/-! ## What the graph stands for -/

/-- The graph stands for the names and edges: its map takes each name to the index that
bears it, and its edges are theirs. -/
structure Represents {G : Type} (ops : DiGraphOps G ModuleName) (g : NameGraph G)
    (r : NameRelation) : Prop where
  index : ∀ name i, g.nodes.get? name = some i ↔ ops.nodeWeight g.graph i = some name
  nodes : ∀ name, (g.nodes.get? name).isSome ↔ name ∈ r.nodes
  edges : ∀ name name' i j, g.nodes.get? name = some i → g.nodes.get? name' = some j →
    (ops.containsEdge g.graph i j = true ↔ (name, name') ∈ r.edges)
  edges_closed : ∀ e ∈ r.edges, e.1 ∈ r.nodes ∧ e.2 ∈ r.nodes

section Steps

variable {G : Type} {ops : DiGraphOps G ModuleName} {g : NameGraph G} {r : NameRelation}

theorem Represents.lt (hops : ops.Lawful) (h : Represents ops g r) {name : ModuleName} {i : Nat}
    (hi : g.nodes.get? name = some i) : i < ops.nodeCount g.graph := by
  have hweight := (h.index name i).mp hi
  exact (hops.isSome_nodeWeight _ i).mp (by rw [hweight]; rfl)

/-- Each index bears a name. -/
theorem Represents.exists_name (hops : ops.Lawful) (h : Represents ops g r) {i : Nat}
    (hi : i < ops.nodeCount g.graph) : ∃ name, g.nodes.get? name = some i := by
  obtain ⟨name, hname⟩ := Option.isSome_iff_exists.mp ((hops.isSome_nodeWeight _ i).mpr hi)
  exact ⟨name, (h.index name i).mpr hname⟩

/-- No two names have one index. -/
theorem Represents.injective (h : Represents ops g r) {name name' : ModuleName} {i : Nat}
    (hi : g.nodes.get? name = some i) (hi' : g.nodes.get? name' = some i) : name = name' :=
  Option.some.inj (((h.index name i).mp hi).symm.trans ((h.index name' i).mp hi'))

theorem represents_new (hops : ops.Lawful) : Represents ops (NameGraph.new ops) .empty where
  index name i := by
    constructor
    · intro h
      exact absurd h (by simp [NameGraph.new])
    · intro h
      have hlt := (hops.isSome_nodeWeight ops.new i).mp (by
        show (ops.nodeWeight (NameGraph.new ops).graph i).isSome
        rw [h]
        rfl)
      rw [hops.nodeCount_new] at hlt
      exact absurd hlt (Nat.not_lt_zero i)
  nodes name := by simp [NameGraph.new, NameRelation.empty]
  edges name name' i j hi := by simp [NameGraph.new] at hi
  edges_closed e he := absurd he (Finset.notMem_empty e)

theorem represents_addNode (hops : ops.Lawful) (h : Represents ops g r) (name : ModuleName) :
    Represents ops (g.addNode ops name).1 (r.addNode name) := by
  unfold NameGraph.addNode
  cases hget : g.nodes.get? name with
  | some ix =>
    have hmem : name ∈ r.nodes := (h.nodes name).mp (by rw [hget]; rfl)
    have hsame : r.addNode name = r := by
      rw [NameRelation.addNode, Finset.insert_eq_of_mem hmem]
    rw [hsame]
    exact h
  | none =>
    have hnew : name ∉ r.nodes := fun hmem => by
      have hsome := (h.nodes name).mpr hmem
      rw [hget] at hsome
      exact absurd hsome (by simp)
    -- the names of before keep their indices, and none of them is the new one
    have hold : ∀ n i, g.nodes.get? n = some i → n ≠ name ∧ i ≠ ops.nodeCount g.graph := by
      intro n i hi
      refine ⟨fun heq => ?_, Nat.ne_of_lt (h.lt hops hi)⟩
      rw [heq, hget] at hi
      exact absurd hi (by simp)
    have hindex : (ops.addNode g.graph name).2 = ops.nodeCount g.graph := hops.addNode_index _ _
    show Represents ops ⟨(ops.addNode g.graph name).1,
      g.nodes.insert name (ops.addNode g.graph name).2⟩ _
    rw [hindex]
    refine ⟨fun n i => ?_, fun n => ?_, fun n n' i j hi hj => ?_, fun e he => ?_⟩
    · show (g.nodes.insert name _).get? n = some i ↔ ops.nodeWeight (ops.addNode _ _).1 i = some n
      rw [Table.get?_insert, hops.nodeWeight_addNode]
      by_cases hn : n = name
      · subst hn
        rw [if_pos rfl]
        by_cases hi : i = ops.nodeCount g.graph
        · rw [if_pos hi, hi]
          exact iff_of_true rfl rfl
        · rw [if_neg hi, ← h.index, hget]
          simp [Ne.symm hi]
      · rw [if_neg hn]
        by_cases hi : i = ops.nodeCount g.graph
        · rw [if_pos hi]
          refine iff_of_false (fun hget' => (hold n i hget').2 hi) ?_
          simp [Ne.symm hn]
        · rw [if_neg hi]
          exact h.index n i
    · show ((g.nodes.insert name _).get? n).isSome ↔ n ∈ insert name r.nodes
      rw [Table.get?_insert, Finset.mem_insert]
      by_cases hn : n = name
      · simp [hn]
      · rw [if_neg hn, h.nodes]
        simp [hn]
    · -- the new index has no edge
      change (g.nodes.insert name _).get? n = some i at hi
      change (g.nodes.insert name _).get? n' = some j at hj
      show ops.containsEdge (ops.addNode _ _).1 i j = true ↔ (n, n') ∈ r.edges
      rw [hops.containsEdge_addNode]
      rw [Table.get?_insert] at hi hj
      have hfresh : ∀ a b, (a, b) ∈ r.edges → a ≠ name ∧ b ≠ name := by
        intro a b hab
        have hclosed := h.edges_closed _ hab
        exact ⟨fun heq => hnew (heq ▸ hclosed.1), fun heq => hnew (heq ▸ hclosed.2)⟩
      by_cases hn : n = name
      · rw [if_pos hn] at hi
        cases hi
        refine iff_of_false (fun hedge => ?_) fun hedge => (hfresh _ _ hedge).1 hn
        exact absurd (hops.lt_of_containsEdge _ _ _ hedge).1 (Nat.lt_irrefl _)
      · rw [if_neg hn] at hi
        by_cases hn' : n' = name
        · rw [if_pos hn'] at hj
          cases hj
          refine iff_of_false (fun hedge => ?_) fun hedge => (hfresh _ _ hedge).2 hn'
          exact absurd (hops.lt_of_containsEdge _ _ _ hedge).2 (Nat.lt_irrefl _)
        · rw [if_neg hn'] at hj
          exact h.edges n n' i j hi hj
    · -- the edges are those of before, so their ends are still nodes
      have hclosed := h.edges_closed e he
      exact ⟨Finset.mem_insert_of_mem hclosed.1, Finset.mem_insert_of_mem hclosed.2⟩

/-- What `add_edge` does, and where it panics. -/
theorem represents_addEdge (hops : ops.Lawful) (h : Represents ops g r)
    (source target : ModuleName) :
    Option.Rel (Represents ops) ((g.addEdge ops source target).map Prod.fst)
      (r.addEdge source target) := by
  unfold NameGraph.addEdge NameRelation.addEdge
  cases hp : g.nodes.get? source with
  | none =>
    have habsent : source ∉ r.nodes := fun hmem => by
      have hsome := (h.nodes source).mpr hmem
      rw [hp] at hsome
      exact absurd hsome (by simp)
    rw [if_pos habsent]
    exact .none
  | some p =>
    have hsource : source ∈ r.nodes := (h.nodes source).mp (by rw [hp]; rfl)
    rw [if_neg (not_not_intro hsource)]
    cases hq : g.nodes.get? target with
    | none =>
      have habsent : target ∉ r.nodes := fun hmem => by
        have hsome := (h.nodes target).mpr hmem
        rw [hq] at hsome
        exact absurd hsome (by simp)
      rw [if_neg habsent]
      exact .some h
    | some q =>
      have htarget : target ∈ r.nodes := (h.nodes target).mp (by rw [hq]; rfl)
      rw [if_pos htarget]
      have hplt := h.lt hops hp
      have hqlt := h.lt hops hq
      refine .some ⟨fun n i => ?_, h.nodes, fun n n' i j hi hj => ?_, fun e he => ?_⟩
      · show g.nodes.get? n = some i ↔ ops.nodeWeight (ops.addEdge g.graph p q) i = some n
        rw [hops.nodeWeight_addEdge _ _ _ _ hplt hqlt]
        exact h.index n i
      · change g.nodes.get? n = some i at hi
        change g.nodes.get? n' = some j at hj
        show ops.containsEdge (ops.addEdge g.graph p q) i j = true ↔ _ ∈ insert _ r.edges
        rw [hops.containsEdge_addEdge _ _ _ _ _ hplt hqlt, Finset.mem_insert, Prod.mk.injEq,
          h.edges n n' i j hi hj, or_comm]
        refine or_congr_left ⟨?_, ?_⟩
        · rintro ⟨rfl, rfl⟩
          exact ⟨h.injective hi hp, h.injective hj hq⟩
        · rintro ⟨rfl, rfl⟩
          exact ⟨Option.some.inj (hi.symm.trans hp), Option.some.inj (hj.symm.trans hq)⟩
      · rcases Finset.mem_insert.mp he with rfl | hold
        · exact ⟨hsource, htarget⟩
        · exact h.edges_closed e hold

theorem hasEdge_iff (h : Represents ops g r) {source target : ModuleName} :
    g.hasEdge ops source target = true ↔ (source, target) ∈ r.edges := by
  unfold NameGraph.hasEdge
  have hpresent : (source, target) ∈ r.edges →
      (∃ p, g.nodes.get? source = some p) ∧ ∃ q, g.nodes.get? target = some q := by
    intro hedge
    have hclosed := h.edges_closed _ hedge
    exact ⟨Option.isSome_iff_exists.mp ((h.nodes source).mpr hclosed.1),
      Option.isSome_iff_exists.mp ((h.nodes target).mpr hclosed.2)⟩
  cases hp : g.nodes.get? source with
  | none =>
    refine iff_of_false (by simp) fun hedge => ?_
    obtain ⟨⟨p, hp'⟩, _⟩ := hpresent hedge
    exact absurd (hp.symm.trans hp') (by simp)
  | some p =>
    cases hq : g.nodes.get? target with
    | none =>
      refine iff_of_false (by simp) fun hedge => ?_
      obtain ⟨_, q, hq'⟩ := hpresent hedge
      exact absurd (hq.symm.trans hq') (by simp)
    | some q => exact h.edges source target p q hp hq

theorem represents_tryAddEdge (hops : ops.Lawful) (h : Represents ops g r)
    (source target : ModuleName) :
    Option.Rel (Represents ops) ((g.tryAddEdge ops source target).map Prod.fst)
      (r.tryAddEdge source target) := by
  unfold NameGraph.tryAddEdge NameRelation.tryAddEdge
  by_cases hself : source = target
  · rw [if_pos hself, if_pos (Or.inl hself)]
    exact .some h
  · rw [if_neg hself]
    by_cases hedge : (source, target) ∈ r.edges
    · rw [if_pos ((hasEdge_iff h).mpr hedge), if_pos (Or.inr hedge)]
      exact .some h
    · rw [if_neg ((hasEdge_iff h).not.mpr hedge), if_neg (not_or.mpr ⟨hself, hedge⟩)]
      exact represents_addEdge hops h source target

/-- After a removal the map takes each name that is left to where its index moved. -/
theorem get?_removeNode (hops : ops.Lawful) (h : Represents ops g r) {name : ModuleName} {ix : Nat}
    (hix : g.nodes.get? name = some ix) :
    ∃ g', g.removeNode ops name = some g' ∧ g'.graph = ops.removeNode g.graph ix ∧
      ∀ n j, g'.nodes.get? n = some j ↔
        j < ops.nodeCount g.graph - 1 ∧
          g.nodes.get? n = some (movedFrom (ops.nodeCount g.graph) ix j) := by
  have hlt := h.lt hops hix
  unfold NameGraph.removeNode
  rw [hix]
  dsimp only
  by_cases hlast : ix = ops.nodeCount g.graph - 1
  · -- the last index goes, and no other moves
    rw [if_neg (not_not_intro hlast)]
    refine ⟨_, rfl, rfl, fun n j => ?_⟩
    rw [Table.get?_erase]
    by_cases hn : n = name
    · rw [if_pos hn, hn, hix]
      refine iff_of_false (by simp) ?_
      rintro ⟨hj, heq⟩
      have hmoved := Option.some.inj heq
      unfold movedFrom at hmoved
      split at hmoved <;> omega
    · rw [if_neg hn]
      have hmoved : j < ops.nodeCount g.graph - 1 →
          movedFrom (ops.nodeCount g.graph) ix j = j := by
        intro hj
        rw [movedFrom, if_neg (by omega)]
      constructor
      · intro hj
        have hjlt := h.lt hops hj
        have hne : j ≠ ix := fun heq => hn (h.injective hj (heq ▸ hix))
        have hless : j < ops.nodeCount g.graph - 1 := by omega
        exact ⟨hless, by rw [hmoved hless, hj]⟩
      · rintro ⟨hj, hget⟩
        rwa [hmoved hj] at hget
  · rw [if_pos hlast]
    have hixlt : ix < ops.nodeCount g.graph - 1 := by omega
    obtain ⟨swapped, hswapped⟩ := h.exists_name hops
      (show ops.nodeCount g.graph - 1 < ops.nodeCount g.graph by omega)
    have hweight : ops.nodeWeight (ops.removeNode g.graph ix) ix = some swapped := by
      rw [hops.nodeWeight_removeNode _ _ _ hlt hixlt, movedFrom, if_pos rfl]
      exact (h.index swapped _).mp hswapped
    rw [hweight]
    refine ⟨_, rfl, rfl, fun n j => ?_⟩
    show ((g.nodes.erase name).insert swapped ix).get? n = some j ↔ _
    rw [Table.get?_insert, Table.get?_erase]
    by_cases hn : n = swapped
    · -- the moved name
      rw [if_pos hn, hn, hswapped, Option.some.injEq, Option.some.injEq]
      unfold movedFrom
      constructor
      · rintro rfl
        exact ⟨hixlt, by rw [if_pos rfl]⟩
      · rintro ⟨hj, heq⟩
        split at heq <;> omega
    · rw [if_neg hn]
      -- the removed name is gone, though the erased key is inserted over afterwards
      by_cases hname : n = name
      · rw [if_pos hname, hname, hix]
        refine iff_of_false (by simp) ?_
        rintro ⟨hj, heq⟩
        have hmoved := Option.some.inj heq
        unfold movedFrom at hmoved
        split at hmoved <;> omega
      · rw [if_neg hname]
        -- a name that is neither removed nor moved keeps its index, below the last one
        have hindex : ∀ k, g.nodes.get? n = some k →
            k < ops.nodeCount g.graph ∧ k ≠ ix ∧ k ≠ ops.nodeCount g.graph - 1 := by
          intro k hk
          refine ⟨h.lt hops hk, fun heq => ?_, fun heq => ?_⟩
          · exact hname (h.injective hk (heq ▸ hix))
          · exact hn (h.injective hk (heq ▸ hswapped))
        constructor
        · intro hj
          obtain ⟨hjlt, hne, hne'⟩ := hindex j hj
          refine ⟨by omega, ?_⟩
          rw [movedFrom, if_neg hne, hj]
        · rintro ⟨_, hget⟩
          have hmoved := hindex _ hget
          unfold movedFrom at hget hmoved
          split at hget
          · next heq =>
            rw [if_pos heq] at hmoved
            exact absurd rfl hmoved.2.2
          · exact hget

theorem represents_removeNode (hops : ops.Lawful) (h : Represents ops g r) (name : ModuleName) :
    ∃ g', g.removeNode ops name = some g' ∧ Represents ops g' (r.removeNode name) := by
  cases hget : g.nodes.get? name with
  | none =>
    have habsent : name ∉ r.nodes := fun hmem => by
      have hsome := (h.nodes name).mpr hmem
      rw [hget] at hsome
      exact absurd hsome (by simp)
    have hsame : r.removeNode name = r := by
      obtain ⟨nodes, edges⟩ := r
      have hedges : edges.filter (fun e => e.1 ≠ name ∧ e.2 ≠ name) = edges := by
        refine Finset.filter_true_of_mem fun e he => ?_
        have hclosed := h.edges_closed e he
        exact ⟨fun heq => habsent (heq ▸ hclosed.1), fun heq => habsent (heq ▸ hclosed.2)⟩
      rw [NameRelation.removeNode]
      exact congrArg₂ NameRelation.mk (Finset.erase_eq_of_notMem habsent) hedges
    refine ⟨g, by rw [NameGraph.removeNode, hget], ?_⟩
    rw [hsame]
    exact h
  | some ix =>
    have hlt := h.lt hops hget
    obtain ⟨g', hrun, hgraph, hmap⟩ := get?_removeNode hops h hget
    have hmoved : ∀ j, j < ops.nodeCount g.graph - 1 →
        movedFrom (ops.nodeCount g.graph) ix j ≠ ix := by
      intro j hj
      unfold movedFrom
      split <;> omega
    -- a name that is left is not the one removed
    have hleft : ∀ n j, g'.nodes.get? n = some j → n ≠ name := by
      intro n j hj heq
      obtain ⟨hjlt, hn⟩ := (hmap n j).mp hj
      rw [heq, hget] at hn
      exact hmoved j hjlt (Option.some.inj hn).symm
    refine ⟨g', hrun, fun n j => ?_, fun n => ?_, fun n n' i j hi hj => ?_, fun e he => ?_⟩
    · rw [hmap, hgraph]
      by_cases hj : j < ops.nodeCount g.graph - 1
      · rw [hops.nodeWeight_removeNode _ _ _ hlt hj, h.index]
        simp [hj]
      · refine iff_of_false (fun hand => hj hand.1) fun hweight => hj ?_
        have hsome := (hops.isSome_nodeWeight _ _).mp
          (show (ops.nodeWeight (ops.removeNode g.graph ix) j).isSome by rw [hweight]; rfl)
        rwa [hops.nodeCount_removeNode _ _ hlt] at hsome
    · show _ ↔ n ∈ r.nodes.erase name
      rw [Finset.mem_erase, ← h.nodes]
      constructor
      · intro hsome
        obtain ⟨j, hj⟩ := Option.isSome_iff_exists.mp hsome
        exact ⟨hleft n j hj, by rw [((hmap n j).mp hj).2]; rfl⟩
      · rintro ⟨hne, hsome⟩
        obtain ⟨k, hk⟩ := Option.isSome_iff_exists.mp hsome
        have hklt := h.lt hops hk
        have hkne : k ≠ ix := fun heq => hne (h.injective hk (heq ▸ hget))
        by_cases hlast : k = ops.nodeCount g.graph - 1
        · have hthere := (hmap n ix).mpr ⟨by omega, by rw [movedFrom, if_pos rfl, hk, hlast]⟩
          rw [hthere]
          rfl
        · have hthere := (hmap n k).mpr ⟨by omega, by rw [movedFrom, if_neg hkne, hk]⟩
          rw [hthere]
          rfl
    · obtain ⟨hilt, hn⟩ := (hmap n i).mp hi
      obtain ⟨hjlt, hn'⟩ := (hmap n' j).mp hj
      show ops.containsEdge g'.graph i j = true ↔ _ ∈ r.edges.filter _
      rw [hgraph, hops.containsEdge_removeNode _ _ _ _ hlt hilt hjlt, h.edges n n' _ _ hn hn',
        Finset.mem_filter]
      exact (and_iff_left ⟨hleft n i hi, hleft n' j hj⟩).symm
    · obtain ⟨hold, hne⟩ := Finset.mem_filter.mp he
      have hclosed := h.edges_closed e hold
      exact ⟨Finset.mem_erase.mpr ⟨hne.1, hclosed.1⟩, Finset.mem_erase.mpr ⟨hne.2, hclosed.2⟩⟩

/-- One operation keeps what the graph stands for, and panics where the names do. -/
theorem represents_step (hops : ops.Lawful) (h : Represents ops g r) (op : GraphOp) :
    Option.Rel (Represents ops) (g.step ops op) (r.step op) := by
  cases op with
  | addNode name => exact .some (represents_addNode hops h name)
  | addEdge source target => exact represents_addEdge hops h source target
  | tryAddEdge source target => exact represents_tryAddEdge hops h source target
  | removeNode name =>
    obtain ⟨g', hrun, hrep⟩ := represents_removeNode hops h name
    show Option.Rel _ (g.removeNode ops name) _
    rw [hrun]
    exact .some hrep

/-- Reading the labels of indices that all have one. -/
theorem mapM_some {α β : Type} {f : α → Option β} {l : List α} (hsome : ∀ a ∈ l, (f a).isSome) :
    ∃ out, l.mapM f = some out ∧ ∀ b, b ∈ out ↔ ∃ a ∈ l, f a = some b := by
  induction l with
  | nil => exact ⟨[], rfl, by simp⟩
  | cons a rest ih =>
    obtain ⟨b, hb⟩ := Option.isSome_iff_exists.mp (hsome a List.mem_cons_self)
    obtain ⟨out, hout, hmem⟩ := ih fun c hc => hsome c (List.mem_cons_of_mem _ hc)
    refine ⟨b :: out, by simp [List.mapM_cons, hb, hout], fun c => ?_⟩
    rw [List.mem_cons, hmem, List.exists_mem_cons_iff, hb, Option.some.injEq, eq_comm]

/-- The names `find_edges` answers, when the edges in its direction are `Edge`. -/
theorem findEdges_spec (hops : ops.Lawful) (h : Represents ops g r) (name : ModuleName)
    (direction : Direction) {Edge : ModuleName → Prop}
    (hpresent : ∀ n, Edge n → name ∈ r.nodes ∧ n ∈ r.nodes)
    (hmem : ∀ i j n, g.nodes.get? name = some i → g.nodes.get? n = some j →
      (j ∈ ops.neighborsDirected g.graph i direction ↔ Edge n))
    (hlt : ∀ i j, j ∈ ops.neighborsDirected g.graph i direction → j < ops.nodeCount g.graph) :
    ∃ names, g.findEdges ops name direction = some names ∧ ∀ n, n ∈ names ↔ Edge n := by
  unfold NameGraph.findEdges
  cases hget : g.nodes.get? name with
  | none =>
    refine ⟨[], rfl, fun n => iff_of_false List.not_mem_nil fun hedge => ?_⟩
    have hsome := (h.nodes name).mpr (hpresent n hedge).1
    rw [hget] at hsome
    exact absurd hsome (by simp)
  | some ix =>
    obtain ⟨names, hnames, hiff⟩ := mapM_some fun j hj =>
      (hops.isSome_nodeWeight g.graph j).mpr (hlt ix j hj)
    refine ⟨names, hnames, fun n => ?_⟩
    rw [hiff]
    constructor
    · rintro ⟨j, hj, hweight⟩
      exact (hmem ix j n hget ((h.index n j).mpr hweight)).mp hj
    · intro hedge
      obtain ⟨j, hj⟩ := Option.isSome_iff_exists.mp ((h.nodes n).mpr (hpresent n hedge).2)
      exact ⟨j, (hmem ix j n hget hj).mpr hedge, (h.index n j).mp hj⟩

/-- The neighbors of a name are those of the relation, and each has a name. -/
theorem neighbors_spec (hops : ops.Lawful) (h : Represents ops g r) (name : ModuleName) :
    ∃ out into, g.neighbors ops name = some out ∧ g.reverseNeighbors ops name = some into ∧
      (∀ n, n ∈ out ↔ (name, n) ∈ r.edges) ∧ ∀ n, n ∈ into ↔ (n, name) ∈ r.edges := by
  obtain ⟨out, hout, hmemOut⟩ : ∃ out, g.neighbors ops name = some out ∧
      ∀ n, n ∈ out ↔ (name, n) ∈ r.edges := by
    refine findEdges_spec hops h name .outgoing (fun n hedge => h.edges_closed _ hedge) ?_ ?_
    · intro i j n hi hj
      rw [hops.mem_outgoing, h.edges name n i j hi hj]
    · intro i j hj
      exact (hops.lt_of_containsEdge _ _ _ ((hops.mem_outgoing _ _ _).mp hj)).2
  obtain ⟨into, hinto, hmemInto⟩ : ∃ into, g.reverseNeighbors ops name = some into ∧
      ∀ n, n ∈ into ↔ (n, name) ∈ r.edges := by
    refine findEdges_spec hops h name .incoming (fun n hedge => (h.edges_closed _ hedge).symm) ?_ ?_
    · intro i j n hi hj
      rw [hops.mem_incoming, h.edges n name j i hj hi]
    · intro i j hj
      exact (hops.lt_of_containsEdge _ _ _ ((hops.mem_incoming _ _ _).mp hj)).1
  exact ⟨out, into, hout, hinto, hmemOut, hmemInto⟩

end Steps

/-! ## Histories -/

/-- The graph after a history of operations. -/
def NameGraph.run {G : Type} (ops : DiGraphOps G ModuleName) (history : List GraphOp) :
    Option (NameGraph G) :=
  history.foldlM (NameGraph.step ops) (NameGraph.new ops)

/-- The names and edges after the same history. -/
def NameRelation.run (history : List GraphOp) : Option NameRelation :=
  history.foldlM NameRelation.step .empty

theorem run_represents {G : Type} {ops : DiGraphOps G ModuleName} (hops : ops.Lawful)
    (history : List GraphOp) :
    Option.Rel (Represents ops) (NameGraph.run ops history) (NameRelation.run history) := by
  have hfrom : ∀ (history : List GraphOp) (g : NameGraph G) (r : NameRelation),
      Represents ops g r → Option.Rel (Represents ops)
        (history.foldlM (NameGraph.step ops) g) (history.foldlM NameRelation.step r) := by
    intro history
    induction history with
    | nil => intro g r h; exact .some h
    | cons op rest ih =>
      intro g r h
      rw [List.foldlM_cons, List.foldlM_cons]
      have hstep := represents_step hops h op
      revert hstep
      generalize g.step ops op = g'
      generalize r.step op = r'
      intro hstep
      cases hstep with
      | none => exact .none
      | some hnext => exact ih _ _ hnext
  exact hfrom history _ _ (represents_new hops)

/-- After every history the map takes the names that are present to the indices, one to one
and each to the one it labels, and the neighbors both ways are those of the names and edges
after the same history. The two panic together. -/
theorem history_bijection_and_neighbors {G : Type} {ops : DiGraphOps G ModuleName}
    (hops : ops.Lawful) (history : List GraphOp) :
    Option.Rel
      (fun (g : NameGraph G) (r : NameRelation) =>
        (∀ name, g.contains name = true ↔ name ∈ r.nodes) ∧
        (∀ name i, g.nodes.get? name = some i ↔ ops.nodeWeight g.graph i = some name) ∧
        (∀ name i, g.nodes.get? name = some i → i < ops.nodeCount g.graph) ∧
        (∀ i, i < ops.nodeCount g.graph → ∃! name, g.nodes.get? name = some i) ∧
        ∀ name, ∃ out into, g.neighbors ops name = some out ∧
          g.reverseNeighbors ops name = some into ∧
          (∀ n, n ∈ out ↔ (name, n) ∈ r.edges) ∧ ∀ n, n ∈ into ↔ (n, name) ∈ r.edges)
      (NameGraph.run ops history) (NameRelation.run history) := by
  have hrun := run_represents hops history
  revert hrun
  generalize NameGraph.run ops history = g
  generalize NameRelation.run history = r
  intro hrun
  cases hrun with
  | none => exact .none
  | some h =>
    refine .some ⟨h.nodes, h.index, fun name i hi => h.lt hops hi, fun i hi => ?_,
      neighbors_spec hops h⟩
    obtain ⟨name, hname⟩ := h.exists_name hops hi
    exact ⟨name, hname, fun name' hname' => h.injective hname' hname⟩

theorem history_bijection_and_neighbors_swapped :
    Option.Rel
      (fun (g : NameGraph (EdgeList ModuleName)) (r : NameRelation) =>
        (∀ name, g.contains name = true ↔ name ∈ r.nodes) ∧
        (∀ name i, g.nodes.get? name = some i ↔
          (edgeListOps ModuleName).nodeWeight g.graph i = some name) ∧
        (∀ name i, g.nodes.get? name = some i →
          i < (edgeListOps ModuleName).nodeCount g.graph) ∧
        (∀ i, i < (edgeListOps ModuleName).nodeCount g.graph →
          ∃! name, g.nodes.get? name = some i) ∧
        ∀ name, ∃ out into, g.neighbors (edgeListOps ModuleName) name = some out ∧
          g.reverseNeighbors (edgeListOps ModuleName) name = some into ∧
          (∀ n, n ∈ out ↔ (name, n) ∈ r.edges) ∧ ∀ n, n ∈ into ↔ (n, name) ∈ r.edges)
      (NameGraph.run (edgeListOps ModuleName)
        [.addNode (fromStr "a"), .addNode (fromStr "b"), .addNode (fromStr "c"),
          .addEdge (fromStr "b") (fromStr "c"), .removeNode (fromStr "a")])
      (NameRelation.run
        [.addNode (fromStr "a"), .addNode (fromStr "b"), .addNode (fromStr "c"),
          .addEdge (fromStr "b") (fromStr "c"), .removeNode (fromStr "a")]) :=
  history_bijection_and_neighbors (edgeListOps_lawful ModuleName) _

end Lifeguard
