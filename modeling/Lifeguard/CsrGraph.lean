import Lifeguard.Lib.Rounds
import Mathlib.Algebra.GroupWithZero.Nat
import Mathlib.Data.List.Range
import Mathlib.Logic.Function.Basic

/-!
# The compact call graph

A directed graph over the nodes `0..numNodes` in compressed sparse row form
(`csr_graph.rs`), with its two traversals, each an explicit work stack of nodes with a
cursor into their block of out-edges:

- `fromEdges`: the counting sort that lays the edges out, block by block;
- `nodesInCycles`: Tarjan's components, marking the nodes of every cycle;
- `dependencyLevels`: the levels in which a node comes after its out-neighbours.

A vector of the source is a function of its index here; every index the code uses is
within the vector's length. The marker `u32::MAX` is `none`. `neighbors_fromEdges` says
that the layout keeps every node's out-edges, in their order.
-/

namespace Lifeguard

open Lib Function

/-- `CsrGraph`: `adj` from `offsets v` up to `offsets (v + 1)` holds the out-edges of
`v`. -/
structure CsrGraph where
  numNodes : Nat
  offsets : Nat → Nat
  adj : Nat → Nat

/-! ## Construction -/

/-- The counting loop of `from_edges`. -/
def countEdges (edges : List (Nat × Nat)) : Nat → Nat :=
  edges.foldl (fun offsets e => update offsets (e.1 + 1) (offsets (e.1 + 1) + 1))
    fun _ => 0

/-- The summing loop of `from_edges`. -/
def sumOffsets (numNodes : Nat) (counts : Nat → Nat) : Nat → Nat :=
  (List.range numNodes).foldl
    (fun offsets i => update offsets (i + 1) (offsets (i + 1) + offsets i)) counts

/-- One step of the placing loop of `from_edges`, on `adj` and `cursor`. -/
def placeEdge (st : (Nat → Nat) × (Nat → Nat)) (e : Nat × Nat) :
    (Nat → Nat) × (Nat → Nat) :=
  let slot := st.2 e.1
  (update st.1 slot e.2, update st.2 e.1 (slot + 1))

namespace CsrGraph

/-- `CsrGraph::from_edges`. -/
def fromEdges (numNodes : Nat) (edges : List (Nat × Nat)) : CsrGraph :=
  let offsets := sumOffsets numNodes (countEdges edges)
  { numNodes, offsets, adj := (edges.foldl placeEdge (fun _ => 0, offsets)).1 }

/-- `CsrGraph::neighbors`. -/
def neighbors (g : CsrGraph) (node : Nat) : List Nat :=
  (List.range' (g.offsets node) (g.offsets (node + 1) - g.offsets node)).map g.adj

/-- There is an edge from `u` to `w`. -/
def Edge (g : CsrGraph) (u w : Nat) : Prop := w ∈ g.neighbors u

theorem edge_iff {g : CsrGraph} {u w : Nat} :
    g.Edge u w ↔ ∃ c, g.offsets u ≤ c ∧ c < g.offsets (u + 1) ∧ g.adj c = w := by
  unfold Edge neighbors
  rw [List.mem_map]
  constructor
  · rintro ⟨c, hc, rfl⟩
    rw [List.mem_range'_1] at hc
    exact ⟨c, hc.1, by omega, rfl⟩
  · rintro ⟨c, hlo, hhi, rfl⟩
    exact ⟨c, List.mem_range'_1.mpr ⟨hlo, by omega⟩, rfl⟩

/-- The edges lead from nodes to nodes, as `from_edges` asks for. -/
abbrev EdgesWithin (numNodes : Nat) (edges : List (Nat × Nat)) : Prop :=
  ∀ e ∈ edges, e.1 < numNodes ∧ e.2 < numNodes

/-- A laid-out graph: the blocks follow each other, and every edge leads to a node. -/
structure Valid (g : CsrGraph) : Prop where
  mono : ∀ v, v < g.numNodes → g.offsets v ≤ g.offsets (v + 1)
  target : ∀ v w, v < g.numNodes → g.Edge v w → w < g.numNodes

/-! ## Cycles -/

/-- The state of `nodes_in_cycles`; both stacks have their top first. -/
structure CycleState where
  inCycle : Nat → Bool
  idx : Nat → Option Nat := fun _ => none
  low : Nat → Nat := fun _ => 0
  onStack : Nat → Bool := fun _ => false
  sccStack : List Nat := []
  work : List (Nat × Nat) := []
  nextIndex : Nat := 0

/-- What visiting a node for the first time does. -/
def CycleState.visit (g : CsrGraph) (w : Nat) (st : CycleState) : CycleState :=
  { st with
    idx := update st.idx w (some st.nextIndex)
    low := update st.low w st.nextIndex
    nextIndex := st.nextIndex + 1
    sccStack := w :: st.sccStack
    onStack := update st.onStack w true
    work := (w, g.offsets w) :: st.work }

/-- The loop that pops a component down to its root. The source expects the root on the
stack; the empty stack is never reached. -/
def CycleState.popTo (v : Nat) : List Nat → CycleState → CycleState
  | [], st => { st with sccStack := [] }
  | w :: rest, st =>
    let popped :=
      { st with
        sccStack := rest
        onStack := update st.onStack w false
        inCycle := update st.inCycle w true }
    if w = v then popped else popTo v rest popped

/-- What finishing an SCC root does: a singleton is popped without being marked. -/
def CycleState.popComponent (v : Nat) (st : CycleState) : CycleState :=
  if st.sccStack.head? = some v then
    { st with sccStack := st.sccStack.tail, onStack := update st.onStack v false }
  else CycleState.popTo v st.sccStack st

/-- Finishing the node on top of the work stack. -/
def CycleState.finish (v : Nat) (rest : List (Nat × Nat)) (st : CycleState) : CycleState :=
  let st := if st.idx v = some (st.low v) then st.popComponent v else st
  let st := { st with work := rest }
  match rest with
  | [] => st
  | (parent, _) :: _ =>
    { st with low := update st.low parent (min (st.low parent) (st.low v)) }

/-- One turn of the inner loop of `nodes_in_cycles`. -/
def CycleState.step (g : CsrGraph) (st : CycleState) : Option CycleState :=
  match st.work with
  | [] => none
  | (v, cursor) :: rest =>
    if cursor < g.offsets (v + 1) then
      let w := g.adj cursor
      let st := { st with work := (v, cursor + 1) :: rest }
      match st.idx w with
      | none => some (st.visit g w)
      | some i =>
        if st.onStack w then
          some { st with low := update st.low v (min (st.low v) i) }
        else some st
    else some (st.finish v rest)

/-- The turns a search may take: one for each edge and one for each node. -/
def turns (g : CsrGraph) : Nat := g.offsets g.numNodes + g.numNodes

/-- One turn of the outer loop of `nodes_in_cycles`. -/
def CycleState.search (g : CsrGraph) (st : CycleState) (start : Nat) : CycleState :=
  if (st.idx start).isSome then st
  else runRounds (CycleState.step g) g.turns (st.visit g start)

/-- `nodes_in_cycles`: whether each node is in a cycle; a self-loop is one. -/
def nodesInCycles (g : CsrGraph) : Nat → Bool :=
  ((List.range g.numNodes).foldl (CycleState.search g)
    { inCycle := fun v => decide (v < g.numNodes) && (g.neighbors v).contains v }).inCycle

/-! ## Levels -/

/-- The state of `dependency_levels`; the work stack has its top first. -/
structure LevelState where
  level : Nat → Option Nat := fun _ => none
  expanding : Nat → Bool := fun _ => false
  work : List (Nat × Nat) := []

/-- The level of a finished node: one past its deepest leveled neighbour. -/
def LevelState.levelOf (g : CsrGraph) (settled : Nat → Bool) (st : LevelState) (v : Nat) :
    Nat :=
  ((g.neighbors v).filterMap fun w =>
    if settled w then none else (st.level w).map fun l => l + 1).foldr max 0

/-- One turn of the inner loop of `dependency_levels`. -/
def LevelState.step (g : CsrGraph) (settled : Nat → Bool) (st : LevelState) :
    Option LevelState :=
  match st.work with
  | [] => none
  | (v, cursor) :: rest =>
    if cursor < g.offsets (v + 1) then
      let w := g.adj cursor
      let work := (v, cursor + 1) :: rest
      if settled w || (st.level w).isSome || st.expanding w then some { st with work }
      else
        some
          { st with
            expanding := update st.expanding w true
            work := (w, g.offsets w) :: work }
    else
      some
        { level := update st.level v (some (st.levelOf g settled v))
          expanding := update st.expanding v false
          work := rest }

/-- One turn of the outer loop of `dependency_levels`. -/
def LevelState.search (g : CsrGraph) (settled : Nat → Bool) (st : LevelState)
    (start : Nat) : LevelState :=
  if settled start || (st.level start).isSome then st
  else
    runRounds (LevelState.step g settled) g.turns
      { st with
        work := [(start, g.offsets start)]
        expanding := update st.expanding start true }

/-- The level of every node, once the outer loop is done. -/
def nodeLevels (g : CsrGraph) (settled : Nat → Bool) : Nat → Option Nat :=
  ((List.range g.numNodes).foldl (LevelState.search g settled) {}).level

/-- `dependency_levels`: the nodes of each level, in node order. -/
def dependencyLevels (g : CsrGraph) (settled : Nat → Bool) : List (List Nat) :=
  let level := g.nodeLevels settled
  let leveled := (List.range g.numNodes).filterMap level
  if leveled = [] then []
  else
    (List.range (leveled.foldr max 0 + 1)).map fun l =>
      (List.range g.numNodes).filter fun v => decide (level v = some l)

end CsrGraph

/-! ## The layout keeps the edges -/

/-- The out-edges of a node, in the order they are given. -/
def outEdges (edges : List (Nat × Nat)) (u : Nat) : List Nat :=
  (edges.filter fun e => decide (e.1 = u)).map Prod.snd

theorem outEdges_append (es fs : List (Nat × Nat)) (u : Nat) :
    outEdges (es ++ fs) u = outEdges es u ++ outEdges fs u := by
  simp [outEdges]

theorem outEdges_singleton (a b u : Nat) :
    outEdges [(a, b)] u = if a = u then [b] else [] := by
  unfold outEdges
  by_cases h : a = u <;> simp [h]

theorem mem_outEdges {edges : List (Nat × Nat)} {u w : Nat} :
    w ∈ outEdges edges u ↔ (u, w) ∈ edges := by
  simp [outEdges]

theorem foldl_countEdges (edges : List (Nat × Nat)) (counts : Nat → Nat) (i : Nat) :
    edges.foldl (fun offsets e => update offsets (e.1 + 1) (offsets (e.1 + 1) + 1)) counts i =
      match i with
      | 0 => counts 0
      | u + 1 => counts (u + 1) + (outEdges edges u).length := by
  induction edges generalizing counts with
  | nil => cases i <;> simp [outEdges]
  | cons e edges ih =>
    obtain ⟨a, b⟩ := e
    rw [List.foldl_cons, ih]
    cases i with
    | zero => simp
    | succ u =>
      have hcons : outEdges ((a, b) :: edges) u = outEdges [(a, b)] u ++ outEdges edges u :=
        outEdges_append [(a, b)] edges u
      dsimp only
      rw [hcons, outEdges_singleton]
      by_cases h : a = u
      · subst h
        simp
        omega
      · have h' : u ≠ a := fun heq => h heq.symm
        simp [h, h']

theorem countEdges_succ (edges : List (Nat × Nat)) (u : Nat) :
    countEdges edges (u + 1) = (outEdges edges u).length := by
  rw [countEdges, foldl_countEdges]
  simp

/-- The running sum of a vector, up to and with index `i`. -/
def runningSum (counts : Nat → Nat) : Nat → Nat
  | 0 => counts 0
  | i + 1 => runningSum counts i + counts (i + 1)

theorem sumOffsets_eq (numNodes : Nat) (counts : Nat → Nat) (i : Nat) :
    sumOffsets numNodes counts i =
      if i ≤ numNodes then runningSum counts i else counts i := by
  unfold sumOffsets
  induction numNodes generalizing i with
  | zero =>
    cases i with
    | zero => rfl
    | succ i => simp
  | succ k ih =>
    rw [List.range_succ, List.foldl_append, List.foldl_cons, List.foldl_nil, update_apply,
      ih (k + 1), ih k, ih i]
    rcases Nat.lt_trichotomy i (k + 1) with h | h | h
    · rw [if_neg (by omega), if_pos (by omega), if_pos (by omega)]
    · subst h
      rw [if_pos rfl, if_neg (by omega), if_pos (by omega), if_pos (by omega), runningSum]
      omega
    · rw [if_neg (by omega), if_neg (by omega), if_neg (by omega)]

namespace CsrGraph

theorem offsets_fromEdges_succ {numNodes : Nat} (edges : List (Nat × Nat)) {u : Nat}
    (hu : u < numNodes) :
    (fromEdges numNodes edges).offsets (u + 1) =
      (fromEdges numNodes edges).offsets u + (outEdges edges u).length := by
  show sumOffsets _ _ _ = sumOffsets _ _ _ + _
  rw [sumOffsets_eq, sumOffsets_eq, if_pos (by omega), if_pos (by omega), runningSum,
    countEdges_succ]

/-- Later blocks start later. -/
theorem offsets_fromEdges_mono {numNodes : Nat} (edges : List (Nat × Nat)) {u v : Nat}
    (huv : u ≤ v) (hv : v ≤ numNodes) :
    (fromEdges numNodes edges).offsets u ≤ (fromEdges numNodes edges).offsets v := by
  induction v with
  | zero =>
    rw [Nat.le_zero.mp huv]
  | succ v ih =>
    rcases Nat.lt_succ_iff_lt_or_eq.mp (Nat.lt_succ_of_le huv) with h | h
    · have h1 := ih (by omega) (by omega)
      have h2 := offsets_fromEdges_succ edges (show v < numNodes by omega)
      omega
    · rw [h]

/-- Once some edges are placed, each node's cursor stands past its placed edges, which
fill the start of its block in their order. -/
structure Placed (offsets : Nat → Nat) (numNodes : Nat) (es : List (Nat × Nat))
    (st : (Nat → Nat) × (Nat → Nat)) : Prop where
  cursor : ∀ u, u < numNodes → st.2 u = offsets u + (outEdges es u).length
  adj : ∀ u k, u < numNodes → k < (outEdges es u).length →
    (outEdges es u)[k]? = some (st.1 (offsets u + k))

theorem placed_foldl {numNodes : Nat} {edges : List (Nat × Nat)}
    (hsrc : ∀ e ∈ edges, e.1 < numNodes) (es rest : List (Nat × Nat))
    (heq : edges = es ++ rest) {st : (Nat → Nat) × (Nat → Nat)}
    (h : Placed (fromEdges numNodes edges).offsets numNodes es st) :
    Placed (fromEdges numNodes edges).offsets numNodes edges (rest.foldl placeEdge st) := by
  induction rest generalizing es st with
  | nil =>
    rw [List.append_nil] at heq
    rw [heq] at h ⊢
    exact h
  | cons e rest ih =>
    obtain ⟨a, b⟩ := e
    have hmem : (a, b) ∈ edges := by
      rw [heq]
      simp
    have ha : a < numNodes := hsrc _ hmem
    refine ih (es ++ [(a, b)]) (by rw [heq]; simp) ⟨?_, ?_⟩
    · intro u hu
      rw [outEdges_append, outEdges_singleton, List.length_append]
      show update st.2 a (st.2 a + 1) u = _
      rw [update_apply, h.cursor a ha]
      by_cases hua : u = a
      · rw [if_pos hua, if_pos hua.symm, hua]
        rfl
      · rw [if_neg hua, if_neg (Ne.symm hua), h.cursor u hu]
        rfl
    · intro u k hu hk
      rw [outEdges_append, outEdges_singleton] at hk ⊢
      show _ = some (update st.1 (st.2 a) b ((fromEdges numNodes edges).offsets u + k))
      rw [update_apply, h.cursor a ha]
      by_cases hua : a = u
      · subst hua
        rw [if_pos rfl] at hk ⊢
        by_cases hlt : k < (outEdges es a).length
        · rw [if_neg (by omega), List.getElem?_append_left hlt]
          exact h.adj a k hu hlt
        · have hk' : k = (outEdges es a).length := by
            simp only [List.length_append, List.length_cons, List.length_nil] at hk
            omega
          rw [if_pos (by rw [hk']), hk']
          simp
      · rw [if_neg hua, List.append_nil] at hk ⊢
        have hslot : (fromEdges numNodes edges).offsets u + k ≠
            (fromEdges numNodes edges).offsets a + (outEdges es a).length := by
          -- the two positions lie in the blocks of different nodes
          have hku : k < (outEdges edges u).length := by
            rw [heq, outEdges_append, List.length_append]
            omega
          have hka : (outEdges es a).length < (outEdges edges a).length := by
            rw [heq, outEdges_append, List.length_append]
            have : outEdges ((a, b) :: rest) a = b :: outEdges rest a := by
              simp [outEdges]
            rw [this, List.length_cons]
            omega
          have hu' := offsets_fromEdges_succ edges hu
          have ha' := offsets_fromEdges_succ edges ha
          rcases Nat.lt_or_gt_of_ne hua with hlt | hgt
          · have := offsets_fromEdges_mono edges (show a + 1 ≤ u by omega) hu.le
            omega
          · have := offsets_fromEdges_mono edges (show u + 1 ≤ a by omega) ha.le
            omega
        rw [if_neg hslot]
        exact h.adj u k hu hk

/-- The counting sort keeps every node's out-edges, in their order. -/
theorem neighbors_fromEdges {numNodes : Nat} {edges : List (Nat × Nat)}
    (hsrc : ∀ e ∈ edges, e.1 < numNodes) {u : Nat} (hu : u < numNodes) :
    (fromEdges numNodes edges).neighbors u = outEdges edges u := by
  have hplaced : Placed (fromEdges numNodes edges).offsets numNodes edges
      (edges.foldl placeEdge (fun _ => 0, (fromEdges numNodes edges).offsets)) := by
    refine placed_foldl hsrc [] edges rfl ⟨?_, ?_⟩
    · intro u _
      rfl
    · intro u k _ hk
      simp [outEdges] at hk
  have hlen := offsets_fromEdges_succ edges hu
  have hdeg : (fromEdges numNodes edges).offsets (u + 1) -
      (fromEdges numNodes edges).offsets u = (outEdges edges u).length := by omega
  unfold neighbors
  rw [hdeg]
  apply List.ext_getElem?
  intro k
  rw [List.getElem?_map]
  by_cases hk : k < (outEdges edges u).length
  · rw [hplaced.adj u k hu hk, List.getElem?_range' hk, Option.map_some, Nat.one_mul]
    rfl
  · rw [List.getElem?_eq_none (by simpa using hk), List.getElem?_eq_none (by omega)]
    rfl

theorem edge_fromEdges {numNodes : Nat} {edges : List (Nat × Nat)}
    (hsrc : ∀ e ∈ edges, e.1 < numNodes) {u w : Nat} (hu : u < numNodes) :
    (fromEdges numNodes edges).Edge u w ↔ (u, w) ∈ edges := by
  unfold Edge
  rw [neighbors_fromEdges hsrc hu, mem_outEdges]

theorem valid_fromEdges {numNodes : Nat} {edges : List (Nat × Nat)}
    (h : EdgesWithin numNodes edges) : (fromEdges numNodes edges).Valid where
  mono v hv := by
    have := offsets_fromEdges_succ edges (show v < numNodes from hv)
    omega
  target v w hv he := (h _ ((edge_fromEdges (fun e he => (h e he).1) hv).mp he)).2

end CsrGraph

end Lifeguard
