import Mathlib.Data.List.Basic
import Mathlib.Data.Option.Basic

/-!
# Directed graphs by index

A library for directed graphs hands out an index for each node it is given and keeps the
indices dense: when a node is removed, the last one takes its index.

- `DiGraphOps`: the operations of such a library, `DiGraphOps.Lawful`: what they promise;
- `movedFrom`: where the node at an index was before a removal;
- `EdgeList`: a graph as its nodes and its edges, which keeps the promises
  (`edgeListOps_lawful`).
-/

namespace Lib

universe u v

/-- `Direction`: along the edges or against them. -/
inductive Direction
  | outgoing
  | incoming
  deriving DecidableEq, Repr

/-- The operations on graphs of type `G` whose nodes are labelled by `α`. -/
structure DiGraphOps (G : Type u) (α : Type v) where
  new : G
  nodeCount : G → Nat
  nodeWeight : G → Nat → Option α
  /-- The graph with the node, and the index of the node. -/
  addNode : G → α → G × Nat
  addEdge : G → Nat → Nat → G
  removeNode : G → Nat → G
  containsEdge : G → Nat → Nat → Bool
  neighborsDirected : G → Nat → Direction → List Nat

/-- Where the node at index `j` was, before the node at index `i` of so many was removed. -/
def movedFrom (count i j : Nat) : Nat := if j = i then count - 1 else j

/-- What the operations promise. -/
structure DiGraphOps.Lawful {G : Type u} {α : Type v} (ops : DiGraphOps G α) : Prop where
  nodeCount_new : ops.nodeCount ops.new = 0
  isSome_nodeWeight : ∀ g i, (ops.nodeWeight g i).isSome ↔ i < ops.nodeCount g
  lt_of_containsEdge : ∀ g i j, ops.containsEdge g i j = true →
    i < ops.nodeCount g ∧ j < ops.nodeCount g
  addNode_index : ∀ g a, (ops.addNode g a).2 = ops.nodeCount g
  nodeWeight_addNode : ∀ g a i, ops.nodeWeight (ops.addNode g a).1 i =
    if i = ops.nodeCount g then some a else ops.nodeWeight g i
  containsEdge_addNode : ∀ g a i j,
    ops.containsEdge (ops.addNode g a).1 i j = ops.containsEdge g i j
  nodeWeight_addEdge : ∀ g p q i, p < ops.nodeCount g → q < ops.nodeCount g →
    ops.nodeWeight (ops.addEdge g p q) i = ops.nodeWeight g i
  containsEdge_addEdge : ∀ g p q i j, p < ops.nodeCount g → q < ops.nodeCount g →
    (ops.containsEdge (ops.addEdge g p q) i j = true ↔
      ops.containsEdge g i j = true ∨ (i = p ∧ j = q))
  nodeCount_removeNode : ∀ g i, i < ops.nodeCount g →
    ops.nodeCount (ops.removeNode g i) = ops.nodeCount g - 1
  /-- The last node takes the place of the one removed. -/
  nodeWeight_removeNode : ∀ g i j, i < ops.nodeCount g → j < ops.nodeCount g - 1 →
    ops.nodeWeight (ops.removeNode g i) j = ops.nodeWeight g (movedFrom (ops.nodeCount g) i j)
  containsEdge_removeNode : ∀ g i j k, i < ops.nodeCount g → j < ops.nodeCount g - 1 →
    k < ops.nodeCount g - 1 →
    ops.containsEdge (ops.removeNode g i) j k =
      ops.containsEdge g (movedFrom (ops.nodeCount g) i j) (movedFrom (ops.nodeCount g) i k)
  mem_outgoing : ∀ g i j,
    j ∈ ops.neighborsDirected g i .outgoing ↔ ops.containsEdge g i j = true
  mem_incoming : ∀ g i j,
    j ∈ ops.neighborsDirected g i .incoming ↔ ops.containsEdge g j i = true

/-! ## Nodes and edges as lists -/

/-- A graph as the list of its nodes and the list of its edges. -/
structure EdgeList (α : Type v) where
  nodes : List α
  edges : List (Nat × Nat)
  edges_lt : ∀ e ∈ edges, e.1 < nodes.length ∧ e.2 < nodes.length

namespace EdgeList

variable {α : Type v}

/-- Add a node. -/
def addNode (g : EdgeList α) (a : α) : EdgeList α where
  nodes := g.nodes ++ [a]
  edges := g.edges
  edges_lt := by
    intro e he
    have hlt := g.edges_lt e he
    rw [List.length_append, List.length_singleton]
    omega

/-- Add an edge between two nodes. -/
def addEdge (g : EdgeList α) (p q : Nat) : EdgeList α :=
  if h : p < g.nodes.length ∧ q < g.nodes.length then
    { nodes := g.nodes
      edges := (p, q) :: g.edges
      edges_lt := by
        intro e he
        rcases List.mem_cons.mp he with rfl | hold
        · exact h
        · exact g.edges_lt e hold }
  else g

/-- Where the node at an index goes, when the node at index `i` of so many is removed. -/
def movedTo (count i x : Nat) : Nat := if x = count - 1 then i else x

theorem movedTo_eq_iff {count i x j : Nat} (hx : x < count) (hne : x ≠ i)
    (hj : j < count - 1) : movedTo count i x = j ↔ x = movedFrom count i j := by
  unfold movedTo movedFrom
  split <;> split <;> omega

/-- Remove a node with its edges; the last node takes its place. -/
def removeNode (g : EdgeList α) (i : Nat) : EdgeList α :=
  if h : i < g.nodes.length then
    have hlast : g.nodes.length - 1 < g.nodes.length := by omega
    { nodes := (g.nodes.set i (g.nodes.get ⟨_, hlast⟩)).take (g.nodes.length - 1)
      edges := (g.edges.filter fun e => decide (e.1 ≠ i ∧ e.2 ≠ i)).map fun e =>
        (movedTo g.nodes.length i e.1, movedTo g.nodes.length i e.2)
      edges_lt := by
        intro e he
        obtain ⟨e', he', rfl⟩ := List.mem_map.mp he
        obtain ⟨hold, hne⟩ := List.mem_filter.mp he'
        have hlt := g.edges_lt e' hold
        have hne' := of_decide_eq_true hne
        rw [List.length_take, List.length_set, Nat.min_eq_left (Nat.sub_le _ _)]
        unfold movedTo
        constructor <;> dsimp only <;> split <;> omega }
  else g

/-- Whether there is an edge. -/
def containsEdge (g : EdgeList α) (i j : Nat) : Bool := decide ((i, j) ∈ g.edges)

/-- The neighbors of an index. -/
def neighborsDirected (g : EdgeList α) (i : Nat) : Direction → List Nat
  | .outgoing => (g.edges.filter fun e => e.1 = i).map Prod.snd
  | .incoming => (g.edges.filter fun e => e.2 = i).map Prod.fst

theorem edges_removeNode {g : EdgeList α} {i j k : Nat} (hi : i < g.nodes.length)
    (hj : j < g.nodes.length - 1) (hk : k < g.nodes.length - 1) :
    (j, k) ∈ (g.removeNode i).edges ↔
      (movedFrom g.nodes.length i j, movedFrom g.nodes.length i k) ∈ g.edges := by
  rw [removeNode, dif_pos hi]
  show (j, k) ∈ List.map _ _ ↔ _
  rw [List.mem_map]
  constructor
  · rintro ⟨e, he, heq⟩
    obtain ⟨hold, hne⟩ := List.mem_filter.mp he
    have hne' := of_decide_eq_true hne
    have hlt := g.edges_lt e hold
    obtain ⟨hfst, hsnd⟩ := Prod.mk.inj heq
    rw [movedTo_eq_iff hlt.1 hne'.1 hj] at hfst
    rw [movedTo_eq_iff hlt.2 hne'.2 hk] at hsnd
    rwa [← hfst, ← hsnd]
  · intro hold
    have hlt := g.edges_lt _ hold
    have hne : ∀ x, x < g.nodes.length - 1 → movedFrom g.nodes.length i x ≠ i := by
      intro x hx
      unfold movedFrom
      split <;> omega
    refine ⟨_, List.mem_filter.mpr ⟨hold, decide_eq_true ⟨hne j hj, hne k hk⟩⟩, ?_⟩
    exact Prod.ext ((movedTo_eq_iff hlt.1 (hne j hj) hj).mpr rfl)
      ((movedTo_eq_iff hlt.2 (hne k hk) hk).mpr rfl)

theorem nodes_removeNode {g : EdgeList α} {i j : Nat} (hi : i < g.nodes.length)
    (hj : j < g.nodes.length - 1) :
    (g.removeNode i).nodes[j]? = g.nodes[movedFrom g.nodes.length i j]? := by
  rw [removeNode, dif_pos hi]
  show ((g.nodes.set i _).take _)[j]? = _
  rw [List.getElem?_take_of_lt hj, List.getElem?_set]
  unfold movedFrom
  by_cases h : i = j
  · rw [if_pos h, if_pos h.symm, if_pos hi, List.get_eq_getElem,
      List.getElem?_eq_getElem (by omega)]
  · rw [if_neg h, if_neg (Ne.symm h)]

end EdgeList

/-- The operations on graphs kept as lists. -/
def edgeListOps (α : Type v) : DiGraphOps (EdgeList α) α where
  new := ⟨[], [], fun _ he => absurd he List.not_mem_nil⟩
  nodeCount g := g.nodes.length
  nodeWeight g i := g.nodes[i]?
  addNode g a := (g.addNode a, g.nodes.length)
  addEdge := EdgeList.addEdge
  removeNode := EdgeList.removeNode
  containsEdge := EdgeList.containsEdge
  neighborsDirected := EdgeList.neighborsDirected

theorem edgeListOps_lawful (α : Type v) : (edgeListOps α).Lawful where
  nodeCount_new := rfl
  isSome_nodeWeight g i := by
    show (g.nodes[i]?).isSome ↔ i < g.nodes.length
    simp
  lt_of_containsEdge g i j h := g.edges_lt _ (of_decide_eq_true h)
  addNode_index _ _ := rfl
  nodeWeight_addNode g a i := by
    show (g.nodes ++ [a])[i]? = if i = g.nodes.length then some a else g.nodes[i]?
    rcases Nat.lt_trichotomy i g.nodes.length with hlt | rfl | hgt
    · rw [List.getElem?_append_left hlt, if_neg (Nat.ne_of_lt hlt)]
    · simp
    · rw [if_neg (Nat.ne_of_gt hgt), List.getElem?_eq_none (Nat.le_of_lt hgt),
        List.getElem?_eq_none]
      rw [List.length_append, List.length_singleton]
      omega
  containsEdge_addNode _ _ _ _ := rfl
  nodeWeight_addEdge g p q i hp hq := by
    show (g.addEdge p q).nodes[i]? = g.nodes[i]?
    rw [EdgeList.addEdge, dif_pos ⟨hp, hq⟩]
  containsEdge_addEdge g p q i j hp hq := by
    show decide ((i, j) ∈ (g.addEdge p q).edges) = true ↔ decide ((i, j) ∈ g.edges) = true ∨ _
    rw [EdgeList.addEdge, dif_pos ⟨hp, hq⟩]
    simp only [decide_eq_true_eq, List.mem_cons, Prod.mk.injEq]
    exact or_comm
  nodeCount_removeNode g i hi := by
    change i < g.nodes.length at hi
    show (g.removeNode i).nodes.length = g.nodes.length - 1
    rw [EdgeList.removeNode, dif_pos hi]
    show ((g.nodes.set i _).take _).length = _
    rw [List.length_take, List.length_set, Nat.min_eq_left (Nat.sub_le _ _)]
  nodeWeight_removeNode _ _ _ hi hj := EdgeList.nodes_removeNode hi hj
  containsEdge_removeNode g i j k hi hj hk :=
    decide_eq_decide.mpr (EdgeList.edges_removeNode hi hj hk)
  mem_outgoing g i j := by
    show j ∈ (g.edges.filter fun e => e.1 = i).map Prod.snd ↔ decide ((i, j) ∈ g.edges) = true
    simp
  mem_incoming g i j := by
    show j ∈ (g.edges.filter fun e => e.2 = i).map Prod.fst ↔ decide ((j, i) ∈ g.edges) = true
    simp

end Lib
