import Lifeguard.CsrTraversal
import Mathlib.Data.List.Pairwise

/-!
# The cycle marking misses no cycle

`nodesInCycles` marks every node of a closed walk (`not_transGen_of_unmarked`), so the
nodes it leaves have no cycle among them.

`CycleInv` is the invariant of the search: the low link of a node on the component stack
is at most the index of every node on the stack that one of its examined edges leads to,
and at most its own; a finished node has handed its low link to the open node nearest
below it. When a root is popped, no edge leads from its component back into the stack, so
the popped nodes are closed under edges, and an unmarked one lies on no closed walk.
-/

namespace Lifeguard

open Lib Function Relation

/-- In a list that is strictly decreasing under `f`, `f` tells the members apart. -/
theorem eq_of_order {α : Type} {f : α → Nat} {l : List α}
    (h : l.Pairwise fun a b => f b < f a) {a b : α} (ha : a ∈ l) (hb : b ∈ l)
    (heq : f a = f b) : a = b := by
  induction l with
  | nil => cases ha
  | cons c l ih =>
    rw [List.pairwise_cons] at h
    rcases List.mem_cons.mp ha with rfl | ha'
    · rcases List.mem_cons.mp hb with rfl | hb'
      · rfl
      · have := h.1 b hb'
        omega
    · rcases List.mem_cons.mp hb with rfl | hb'
      · have := h.1 a ha'
        omega
      · exact ih h.2 ha' hb'

namespace CsrGraph

variable {g : CsrGraph}

/-- The index of a visited node. -/
def CycleState.index (st : CycleState) (u : Nat) : Nat := (st.idx u).getD 0

/-- Whether a node has been visited. -/
def CycleState.seen (st : CycleState) (u : Nat) : Bool := (st.idx u).isSome

/-- What holds of every state of the cycle search. The search started when `base` nodes
had been visited; `pending` is the edge whose examination is not completed yet. -/
structure CycleInv (g : CsrGraph) (base : Nat) (pending : Option (Nat × Nat))
    (st : CycleState) : Prop where
  onStack : ∀ u, st.onStack u = true ↔ u ∈ st.sccStack
  order : st.sccStack.Pairwise fun a b => st.index b < st.index a
  node : ∀ u, st.seen u = true → u < g.numNodes
  stackSeen : ∀ u ∈ st.sccStack, st.seen u = true
  bound : ∀ u, st.seen u = true → st.index u < st.nextIndex
  aboveBase : ∀ u ∈ st.sccStack, base ≤ st.index u ∧ base ≤ st.low u
  openOnStack : ∀ p ∈ st.work, p.1 ∈ st.sccStack
  openOrder : st.work.Pairwise fun p q => st.index q.1 < st.index p.1
  bottom : ∀ p, st.work.getLast? = some p → st.index p.1 = base
  cursors : ∀ p ∈ st.work, g.offsets p.1 ≤ p.2
  examined : ∀ u ∈ st.sccStack, ∀ w, pending ≠ some (u, w) → g.Examined st.work u w →
    st.seen w = true
  lowSelf : ∀ u ∈ st.sccStack, st.low u ≤ st.index u
  lowEdge : ∀ u ∈ st.sccStack, ∀ w ∈ st.sccStack, pending ≠ some (u, w) →
    g.Examined st.work u w → st.low u ≤ st.index w
  lowOpen : ∀ u ∈ st.sccStack, ∀ p ∈ st.work, st.index p.1 ≤ st.index u →
    (∀ q ∈ st.work, st.index q.1 ≤ st.index u → st.index q.1 ≤ st.index p.1) →
    st.low p.1 ≤ st.low u
  closed : ∀ u w, st.seen u = true → u ∉ st.sccStack → g.Edge u w →
    st.seen w = true ∧ w ∉ st.sccStack
  unmarked : ∀ u, st.seen u = true → u ∉ st.sccStack → st.inCycle u = false →
    ¬TransGen g.Edge u u
  selfLoop : ∀ u, u < g.numNodes → g.Edge u u → st.inCycle u = true

/-! ## Visiting a node -/

section Visit

variable {st : CycleState} {w : Nat}

theorem index_visit (u : Nat) :
    (st.visit g w).index u = if u = w then st.nextIndex else st.index u := by
  show (update st.idx w (some st.nextIndex) u).getD 0 = _
  rw [update_apply]
  split
  · rfl
  · rfl

theorem seen_visit : (st.visit g w).seen = update st.seen w true := by
  funext u
  show (update st.idx w (some st.nextIndex) u).isSome = _
  rw [update_apply, update_apply]
  split
  · rfl
  · rfl

theorem low_visit (u : Nat) :
    (st.visit g w).low u = if u = w then st.nextIndex else st.low u :=
  update_apply ..

theorem index_visit_self : (st.visit g w).index w = st.nextIndex := by
  rw [index_visit, if_pos rfl]

theorem low_visit_self : (st.visit g w).low w = st.nextIndex := by
  rw [low_visit, if_pos rfl]

theorem seen_visit_iff {u : Nat} :
    (st.visit g w).seen u = true ↔ u = w ∨ st.seen u = true := by
  rw [seen_visit, update_apply]
  split <;> simp [*]

end Visit

namespace CycleInv

variable {base : Nat} {pending : Option (Nat × Nat)} {st : CycleState} {v cursor : Nat}
  {rest : List (Nat × Nat)}

theorem ne_of_unseen {w : Nat} (h : CycleInv g base pending st) (hw : st.seen w = false)
    {u : Nat} (hu : u ∈ st.sccStack) : u ≠ w := by
  rintro rfl
  rw [h.stackSeen _ hu] at hw
  cases hw

/-- A turn that completes the pending edge `v → w`, whose target is visited: the low link
of an open node `v` is lowered to at most `x`. -/
theorem lower {w x : Nat} (h : CycleInv g base pending st) {p : Nat × Nat}
    (hp : p ∈ st.work) (hx : base ≤ x)
    (hpending : ∀ u y, pending = some (u, y) → u = p.1 ∧ y = w)
    (hseen : pending ≠ none → st.seen w = true)
    (hlow : pending ≠ none → w ∈ st.sccStack → x ≤ st.index w) :
    CycleInv g base none
      { st with low := update st.low p.1 (min (st.low p.1) x) } := by
  -- low links only go down
  have hle : ∀ u, update st.low p.1 (min (st.low p.1) x) u ≤ st.low u := by
    intro u
    rw [update_apply]
    split
    · next hu =>
      rw [hu]
      exact Nat.min_le_left ..
    · exact Nat.le_refl _
  refine
    { onStack := h.onStack
      order := h.order
      node := h.node
      stackSeen := h.stackSeen
      bound := h.bound
      aboveBase := ?_
      openOnStack := h.openOnStack
      openOrder := h.openOrder
      bottom := h.bottom
      cursors := h.cursors
      examined := ?_
      lowSelf := fun u hu => Nat.le_trans (hle u) (h.lowSelf u hu)
      lowEdge := ?_
      lowOpen := ?_
      closed := h.closed
      unmarked := h.unmarked
      selfLoop := h.selfLoop }
  · intro u hu
    refine ⟨(h.aboveBase u hu).1, ?_⟩
    show base ≤ update st.low p.1 _ u
    rw [update_apply]
    split
    · exact Nat.le_min.mpr ⟨(h.aboveBase p.1 (h.openOnStack p hp)).2, hx⟩
    · exact (h.aboveBase u hu).2
  · intro u hu y _ hex
    -- the pending edge counts as examined from here on
    by_cases hpend : pending = some (u, y)
    · obtain ⟨-, rfl⟩ := hpending u y hpend
      exact hseen (by rw [hpend]; simp)
    · exact h.examined u hu y hpend hex
  · intro u hu y hy _ hex
    by_cases hpend : pending = some (u, y)
    · obtain ⟨rfl, rfl⟩ := hpending u y hpend
      have hxy := hlow (by rw [hpend]; simp) hy
      show update st.low p.1 _ p.1 ≤ st.index y
      rw [update_self]
      exact Nat.le_trans (Nat.min_le_right ..) hxy
    · exact Nat.le_trans (hle u) (h.lowEdge u hu y hy hpend hex)
  · intro u hu q hq hqu hnearest
    show update st.low p.1 _ q.1 ≤ update st.low p.1 _ u
    by_cases hup : u = p.1
    · -- the open node nearest below an open node is that node
      have hqp : q = p := by
        refine eq_of_order (f := fun r : Nat × Nat => st.index r.1) h.openOrder hq hp ?_
        have h1 : st.index q.1 ≤ st.index u := hqu
        have h2 : st.index p.1 ≤ st.index q.1 := by
          refine hnearest p hp ?_
          rw [hup]
        rw [hup] at h1
        exact Nat.le_antisymm h1 h2
      rw [hqp, hup]
    · rw [update_of_ne hup]
      exact Nat.le_trans (hle q.1) (h.lowOpen u hu q hq hqu hnearest)

/-- Advancing the top cursor leaves the edge it passes pending. -/
theorem advance (h : CycleInv g base none st) (hw : st.work = (v, cursor) :: rest) :
    CycleInv g base (some (v, g.adj cursor))
      { st with work := (v, cursor + 1) :: rest } := by
  have hmem : ∀ {P : Nat → Prop}, (∀ p ∈ st.work, P p.1) →
      ∀ p ∈ (v, cursor + 1) :: rest, P p.1 := by
    intro P hP p hp
    rcases List.mem_cons.mp hp with rfl | hrest
    · exact hP (v, cursor) (by rw [hw]; exact List.mem_cons_self)
    · exact hP p (by rw [hw]; exact List.mem_cons_of_mem _ hrest)
  have hmem' : ∀ {P : Nat → Prop}, (∀ p ∈ (v, cursor + 1) :: rest, P p.1) →
      ∀ p ∈ st.work, P p.1 := by
    intro P hP p hp
    rw [hw] at hp
    rcases List.mem_cons.mp hp with rfl | hrest
    · exact hP (v, cursor + 1) List.mem_cons_self
    · exact hP p (List.mem_cons_of_mem _ hrest)
  -- past the cursor nothing is examined but the edge that is left pending
  have hexamined : ∀ {u w}, some (v, g.adj cursor) ≠ some (u, w) →
      g.Examined ((v, cursor + 1) :: rest) u w → g.Examined st.work u w := by
    intro u w hne hex
    rw [hw]
    rcases examined_advance hex with hex' | ⟨rfl, rfl⟩
    · exact hex'
    · exact absurd rfl hne
  refine
    { onStack := h.onStack
      order := h.order
      node := h.node
      stackSeen := h.stackSeen
      bound := h.bound
      aboveBase := h.aboveBase
      openOnStack := hmem (P := fun u => u ∈ st.sccStack) h.openOnStack
      openOrder := ?_
      bottom := ?_
      cursors := ?_
      examined := fun u hu w hne hex =>
        h.examined u hu w (by simp) (hexamined hne hex)
      lowSelf := h.lowSelf
      lowEdge := fun u hu w hw' hne hex =>
        h.lowEdge u hu w hw' (by simp) (hexamined hne hex)
      lowOpen := ?_
      closed := h.closed
      unmarked := h.unmarked
      selfLoop := h.selfLoop }
  · have := h.openOrder
    rw [hw, List.pairwise_cons] at this
    exact List.pairwise_cons.mpr this
  · have hbottom := h.bottom
    intro p hp
    cases rest with
    | nil =>
      cases hp
      exact hbottom (v, cursor) (by rw [hw]; rfl)
    | cons q rest =>
      refine hbottom p ?_
      rw [hw, List.getLast?_cons_cons]
      rwa [List.getLast?_cons_cons] at hp
  · intro p hp
    rcases List.mem_cons.mp hp with rfl | hrest
    · have := h.cursors (v, cursor) (by rw [hw]; exact List.mem_cons_self)
      exact Nat.le_succ_of_le this
    · exact h.cursors p (by rw [hw]; exact List.mem_cons_of_mem _ hrest)
  · intro u hu
    refine hmem (P := fun p => st.index p ≤ st.index u →
      (∀ q ∈ (v, cursor + 1) :: rest, st.index q.1 ≤ st.index u →
        st.index q.1 ≤ st.index p) → st.low p ≤ st.low u) ?_
    intro p hp hpu hnearest
    exact h.lowOpen u hu p hp hpu (hmem' (P := fun q => st.index q ≤ st.index u →
      st.index q ≤ st.index p.1) hnearest)

section Visit

variable {w : Nat}

theorem index_lt_of_mem (h : CycleInv g base pending st) {u : Nat} (hu : u ∈ st.sccStack) :
    st.index u < st.nextIndex :=
  h.bound u (h.stackSeen u hu)

/-- A visit leaves the indices of the nodes on the stack alone. -/
theorem index_visit_of_mem (h : CycleInv g base pending st) (hnew : st.seen w = false)
    {u : Nat} (hu : u ∈ st.sccStack) : (st.visit g w).index u = st.index u := by
  rw [index_visit, if_neg (h.ne_of_unseen hnew hu)]

/-- A visit leaves the low links of the nodes on the stack alone. -/
theorem low_visit_of_mem (h : CycleInv g base pending st) (hnew : st.seen w = false)
    {u : Nat} (hu : u ∈ st.sccStack) : (st.visit g w).low u = st.low u := by
  rw [low_visit, if_neg (h.ne_of_unseen hnew hu)]

/-- The edges of the stack examined after a visit were examined before: the new node has
no examined edge yet. -/
theorem examined_of_visit {u y : Nat} (hu : u ∈ (st.visit g w).sccStack)
    (hex : g.Examined (st.visit g w).work u y) :
    u ∈ st.sccStack ∧ g.Examined st.work u y := by
  obtain ⟨hne, hex'⟩ := examined_visit hex
  exact ⟨(List.mem_cons.mp hu).resolve_left hne, hex'⟩

theorem order_visit (h : CycleInv g base pending st) (hnew : st.seen w = false) :
    (st.visit g w).sccStack.Pairwise fun a b =>
      (st.visit g w).index b < (st.visit g w).index a := by
  refine List.pairwise_cons.mpr ⟨?_, ?_⟩
  · intro u hu
    rw [index_visit_self, h.index_visit_of_mem hnew hu]
    exact h.index_lt_of_mem hu
  · refine h.order.imp_of_mem ?_
    intro a b ha hb hlt
    rw [h.index_visit_of_mem hnew ha, h.index_visit_of_mem hnew hb]
    exact hlt

theorem bound_visit (h : CycleInv g base pending st) {u : Nat}
    (hu : (st.visit g w).seen u = true) : (st.visit g w).index u < st.nextIndex + 1 := by
  rw [index_visit]
  split
  · omega
  · next hne =>
    have := h.bound u ((seen_visit_iff.mp hu).resolve_left hne)
    omega

theorem openOrder_visit (h : CycleInv g base pending st) (hnew : st.seen w = false) :
    (st.visit g w).work.Pairwise fun p q =>
      (st.visit g w).index q.1 < (st.visit g w).index p.1 := by
  refine List.pairwise_cons.mpr ⟨?_, ?_⟩
  · intro p hp
    rw [index_visit_self, h.index_visit_of_mem hnew (h.openOnStack p hp)]
    exact h.index_lt_of_mem (h.openOnStack p hp)
  · refine h.openOrder.imp_of_mem ?_
    intro p q hp hq hlt
    rw [h.index_visit_of_mem hnew (h.openOnStack p hp),
      h.index_visit_of_mem hnew (h.openOnStack q hq)]
    exact hlt

theorem bottom_visit (h : CycleInv g base pending st) (hnew : st.seen w = false)
    (hstart : st.work = [] → st.nextIndex = base) {p : Nat × Nat}
    (hp : (st.visit g w).work.getLast? = some p) : (st.visit g w).index p.1 = base := by
  have hp' : ((w, g.offsets w) :: st.work).getLast? = some p := hp
  cases hwork : st.work with
  | nil =>
    rw [hwork, List.getLast?_singleton] at hp'
    cases hp'
    rw [index_visit_self]
    exact hstart hwork
  | cons q rest =>
    rw [hwork, List.getLast?_cons_cons, ← hwork] at hp'
    rw [h.index_visit_of_mem hnew (h.openOnStack p (List.mem_of_getLast? hp'))]
    exact h.bottom p hp'

theorem lowEdge_visit (h : CycleInv g base pending st) (hnew : st.seen w = false)
    (hpending : ∀ u y, pending = some (u, y) → y = w) {u y : Nat}
    (hu : u ∈ (st.visit g w).sccStack) (hy : y ∈ (st.visit g w).sccStack)
    (hex : g.Examined (st.visit g w).work u y) :
    (st.visit g w).low u ≤ (st.visit g w).index y := by
  obtain ⟨hu', hex'⟩ := examined_of_visit hu hex
  rw [h.low_visit_of_mem hnew hu']
  rcases List.mem_cons.mp hy with rfl | hy
  · have h1 := h.lowSelf u hu'
    have h2 := h.index_lt_of_mem hu'
    rw [index_visit_self]
    omega
  · rw [h.index_visit_of_mem hnew hy]
    refine h.lowEdge u hu' y hy ?_ hex'
    intro hpend
    exact h.ne_of_unseen hnew hy (hpending u y hpend)

theorem lowOpen_visit (h : CycleInv g base pending st) (hnew : st.seen w = false) {u : Nat}
    (hu : u ∈ (st.visit g w).sccStack) {p : Nat × Nat} (hp : p ∈ (st.visit g w).work)
    (hpu : (st.visit g w).index p.1 ≤ (st.visit g w).index u)
    (hnearest : ∀ q ∈ (st.visit g w).work, (st.visit g w).index q.1 ≤ (st.visit g w).index u →
      (st.visit g w).index q.1 ≤ (st.visit g w).index p.1) :
    (st.visit g w).low p.1 ≤ (st.visit g w).low u := by
  rcases List.mem_cons.mp hu with rfl | hu
  · -- nothing open but the new node itself is as high as it is
    rcases List.mem_cons.mp hp with rfl | hp
    · exact Nat.le_refl _
    · have h1 := hnearest _ List.mem_cons_self (Nat.le_refl _)
      have h2 := h.index_lt_of_mem (h.openOnStack p hp)
      rw [h.index_visit_of_mem hnew (h.openOnStack p hp)] at h1
      dsimp only at h1
      rw [index_visit_self] at h1
      omega
  · rw [h.index_visit_of_mem hnew hu] at hpu hnearest
    rcases List.mem_cons.mp hp with rfl | hp
    · have := h.index_lt_of_mem hu
      dsimp only at hpu
      rw [index_visit_self] at hpu
      omega
    · rw [h.index_visit_of_mem hnew (h.openOnStack p hp)] at hpu hnearest
      rw [h.low_visit_of_mem hnew hu, h.low_visit_of_mem hnew (h.openOnStack p hp)]
      refine h.lowOpen u hu p hp hpu ?_
      intro q hq hqu
      have := hnearest q (List.mem_cons_of_mem _ hq)
      rw [h.index_visit_of_mem hnew (h.openOnStack q hq)] at this
      exact this hqu

/-- A node finished before a visit was visited and off the stack before it. -/
theorem finished_of_visit {u : Nat} (hu : (st.visit g w).seen u = true)
    (hnot : u ∉ (st.visit g w).sccStack) : st.seen u = true ∧ u ∉ st.sccStack := by
  have hnot' : u ≠ w ∧ u ∉ st.sccStack := by
    rw [← not_or, ← List.mem_cons]
    exact hnot
  exact ⟨(seen_visit_iff.mp hu).resolve_left hnot'.1, hnot'.2⟩

theorem closed_visit (h : CycleInv g base pending st) (hnew : st.seen w = false) {u y : Nat}
    (hu : (st.visit g w).seen u = true) (hnot : u ∉ (st.visit g w).sccStack)
    (he : g.Edge u y) :
    (st.visit g w).seen y = true ∧ y ∉ (st.visit g w).sccStack := by
  obtain ⟨hu', hnot'⟩ := finished_of_visit hu hnot
  obtain ⟨h1, h2⟩ := h.closed u y hu' hnot' he
  refine ⟨seen_visit_iff.mpr (Or.inr h1), ?_⟩
  intro hy
  rcases List.mem_cons.mp hy with rfl | hy
  · rw [hnew] at h1
    cases h1
  · exact h2 hy

/-- Visiting a new node, over the pending edge or at the start of a search. -/
theorem visit (h : CycleInv g base pending st) (hnode : w < g.numNodes)
    (hnew : st.seen w = false) (hpending : ∀ u y, pending = some (u, y) → y = w)
    (hbase : base ≤ st.nextIndex) (hstart : st.work = [] → st.nextIndex = base) :
    CycleInv g base none (st.visit g w) := by
  refine
    { onStack := ?_
      order := h.order_visit hnew
      node := ?_
      stackSeen := ?_
      bound := fun u hu => h.bound_visit hu
      aboveBase := ?_
      openOnStack := ?_
      openOrder := h.openOrder_visit hnew
      bottom := fun p hp => h.bottom_visit hnew hstart hp
      cursors := ?_
      examined := ?_
      lowSelf := ?_
      lowEdge := fun u hu y hy _ hex => h.lowEdge_visit hnew hpending hu hy hex
      lowOpen := fun u hu p hp hpu hnearest => h.lowOpen_visit hnew hu hp hpu hnearest
      closed := fun u y hu hnot he => h.closed_visit hnew hu hnot he
      unmarked := ?_
      selfLoop := h.selfLoop }
  · intro u
    show update st.onStack w true u = true ↔ u ∈ w :: st.sccStack
    rw [update_apply, List.mem_cons]
    split
    · next hu => simp [hu]
    · next hu => rw [h.onStack u, or_iff_right hu]
  · intro u hu
    rcases seen_visit_iff.mp hu with rfl | hu
    · exact hnode
    · exact h.node u hu
  · intro u hu
    rw [seen_visit_iff]
    exact (List.mem_cons.mp hu).imp_right (h.stackSeen u)
  · intro u hu
    rcases List.mem_cons.mp hu with rfl | hu
    · -- the new node has the next index, which is not below the base
      rw [index_visit_self, low_visit_self]
      exact ⟨hbase, hbase⟩
    · rw [h.index_visit_of_mem hnew hu, h.low_visit_of_mem hnew hu]
      exact h.aboveBase u hu
  · intro p hp
    rcases List.mem_cons.mp hp with rfl | hp
    · exact List.mem_cons_self
    · exact List.mem_cons_of_mem _ (h.openOnStack p hp)
  · intro p hp
    rcases List.mem_cons.mp hp with rfl | hp
    · exact Nat.le_refl _
    · exact h.cursors p hp
  · intro u hu y _ hex
    obtain ⟨hu', hex'⟩ := examined_of_visit hu hex
    rw [seen_visit_iff]
    by_cases hpend : pending = some (u, y)
    · exact Or.inl (hpending u y hpend)
    · exact Or.inr (h.examined u hu' y hpend hex')
  · intro u hu
    rcases List.mem_cons.mp hu with rfl | hu
    · rw [index_visit_self, low_visit_self]
    · rw [h.index_visit_of_mem hnew hu, h.low_visit_of_mem hnew hu]
      exact h.lowSelf u hu
  · intro u hu hnot
    obtain ⟨hu', hnot'⟩ := finished_of_visit hu hnot
    exact h.unmarked u hu' hnot'

end Visit

/-! ## Finishing a node -/

theorem top_mem_stack (h : CycleInv g base pending st)
    (hw : st.work = (v, cursor) :: rest) : v ∈ st.sccStack :=
  h.openOnStack (v, cursor) (by rw [hw]; exact List.mem_cons_self)

/-- The nodes below the top of the work stack are lower. -/
theorem rest_lt (h : CycleInv g base pending st) (hw : st.work = (v, cursor) :: rest)
    {p : Nat × Nat} (hp : p ∈ rest) : st.index p.1 < st.index v := by
  have := h.openOrder
  rw [hw, List.pairwise_cons] at this
  exact this.1 p hp

theorem not_mem_rest (h : CycleInv g base pending st)
    (hw : st.work = (v, cursor) :: rest) (c : Nat) : (v, c) ∉ rest :=
  fun hmem => Nat.lt_irrefl _ (h.rest_lt hw hmem)

/-- A node on the stack that is as high as the finished top has all its edges
examined. -/
theorem examined_above (h : CycleInv g base none st) (hw : st.work = (v, cursor) :: rest)
    (hend : ¬cursor < g.offsets (v + 1)) {u w : Nat} (huv : st.index v ≤ st.index u)
    (he : g.Edge u w) : g.Examined st.work u w := by
  rw [hw]
  by_cases hu : u = v
  · rw [hu] at he ⊢
    exact examined_of_end hend (h.not_mem_rest hw) he
  · refine examined_of_not_open ?_ he
    intro c hmem
    rcases List.mem_cons.mp hmem with heq | hrest
    · cases heq
      exact hu rfl
    · have := h.rest_lt hw hrest
      dsimp only at this
      omega

/-- The low link of a node as high as the top is at least the low link of the top. -/
theorem low_top_le (h : CycleInv g base none st) (hw : st.work = (v, cursor) :: rest)
    {u : Nat} (hu : u ∈ st.sccStack) (huv : st.index v ≤ st.index u) :
    st.low v ≤ st.low u := by
  refine h.lowOpen u hu (v, cursor) (by rw [hw]; exact List.mem_cons_self) huv ?_
  intro q hq _
  rw [hw] at hq
  rcases List.mem_cons.mp hq with rfl | hrest
  · exact Nat.le_refl _
  · exact (h.rest_lt hw hrest).le

/-- No edge leads from the component of a root back into the stack below it. -/
theorem component_closed (h : CycleInv g base none st)
    (hw : st.work = (v, cursor) :: rest) (hend : ¬cursor < g.offsets (v + 1))
    (hroot : st.low v = st.index v) {u : Nat} (hu : u ∈ st.sccStack)
    (huv : st.index v ≤ st.index u) {w : Nat} (he : g.Edge u w) :
    st.seen w = true ∧ (w ∈ st.sccStack → st.index v ≤ st.index w) := by
  have hex := h.examined_above hw hend huv he
  refine ⟨h.examined u hu w (by simp) hex, fun hwstack => ?_⟩
  calc st.index v = st.low v := hroot.symm
    _ ≤ st.low u := h.low_top_le hw hu huv
    _ ≤ st.index w := h.lowEdge u hu w hwstack (by simp) hex

/-- The node on top of the component stack, when it is a root without a self-loop, lies
on no closed walk: its edges lead into the popped nodes, which are closed under edges. -/
theorem singleton_acyclic (h : CycleInv g base none st)
    (hw : st.work = (v, cursor) :: rest) (hend : ¬cursor < g.offsets (v + 1))
    (hroot : st.low v = st.index v) (htop : ∀ u ∈ st.sccStack, st.index v ≤ st.index u → u = v)
    (hself : ¬g.Edge v v) : ¬TransGen g.Edge v v := by
  have hv := h.top_mem_stack hw
  have hout : ∀ w, TransGen g.Edge v w → st.seen w = true ∧ w ∉ st.sccStack := by
    intro w hvw
    induction hvw with
    | single he =>
      obtain ⟨hseen, habove⟩ := h.component_closed hw hend hroot hv (Nat.le_refl _) he
      refine ⟨hseen, fun hstack => ?_⟩
      rw [htop _ hstack (habove hstack)] at he
      exact hself he
    | tail _ he ih => exact h.closed _ _ ih.1 ih.2 he
  exact fun hcycle => (hout v hcycle).2 hv

/-- Taking the finished top off the work stack, once the node below it has its low
link. -/
theorem close (h : CycleInv g base none st) (hw : st.work = (v, cursor) :: rest)
    (hend : ¬cursor < g.offsets (v + 1))
    (hparent : ∀ p, rest.head? = some p → st.low p.1 ≤ st.low v) :
    CycleInv g base none { st with work := rest } := by
  have hmem : ∀ p ∈ rest, p ∈ st.work := by
    intro p hp
    rw [hw]
    exact List.mem_cons_of_mem _ hp
  -- all edges of the top were examined, so leaving it open or not is the same
  have hexamined : ∀ {u w}, g.Examined rest u w → g.Examined st.work u w := by
    intro u w hex
    by_cases hu : u = v
    · exact h.examined_above hw hend (by rw [hu]) hex.edge
    · rw [hw]
      exact hex.cons hu
  refine
    { onStack := h.onStack
      order := h.order
      node := h.node
      stackSeen := h.stackSeen
      bound := h.bound
      aboveBase := h.aboveBase
      openOnStack := fun p hp => h.openOnStack p (hmem p hp)
      openOrder := ?_
      bottom := ?_
      cursors := fun p hp => h.cursors p (hmem p hp)
      examined := fun u hu w hne hex => h.examined u hu w hne (hexamined hex)
      lowSelf := h.lowSelf
      lowEdge := fun u hu w hw' hne hex => h.lowEdge u hu w hw' hne (hexamined hex)
      lowOpen := ?_
      closed := h.closed
      unmarked := h.unmarked
      selfLoop := h.selfLoop }
  · have := h.openOrder
    rw [hw, List.pairwise_cons] at this
    exact this.2
  · intro p hp
    have hp' : rest.getLast? = some p := hp
    cases hrest : rest with
    | nil =>
      rw [hrest] at hp'
      cases hp'
    | cons q rest' =>
      refine h.bottom p ?_
      rw [hw, hrest, List.getLast?_cons_cons, ← hrest]
      exact hp'
  · intro u hu p hp hpu hnearest
    by_cases huv : st.index v ≤ st.index u
    · -- the open node nearest below `u` was the top; it is now the one under it
      cases hrest : rest with
      | nil =>
        have hp' : p ∈ rest := hp
        rw [hrest] at hp'
        cases hp'
      | cons q rest' =>
        have hq : q ∈ rest := by
          rw [hrest]
          exact List.mem_cons_self
        have hqp : st.index q.1 ≤ st.index p.1 :=
          hnearest q hq (Nat.le_trans (h.rest_lt hw hq).le huv)
        have hp' : p ∈ q :: rest' := by
          rw [← hrest]
          exact hp
        have hpq : p = q := by
          rcases List.mem_cons.mp hp' with heq | hlower
          · exact heq
          · have horder := h.openOrder
            rw [hw, hrest, List.pairwise_cons, List.pairwise_cons] at horder
            have := horder.2.1 p hlower
            omega
        rw [hpq]
        exact Nat.le_trans (hparent q (by rw [hrest]; rfl)) (h.low_top_le hw hu huv)
    · refine h.lowOpen u hu p (hmem p hp) hpu ?_
      intro q hq hqu
      rw [hw] at hq
      rcases List.mem_cons.mp hq with rfl | hq
      · exact absurd hqu huv
      · exact hnearest q hq hqu

/-- Popping what is as high as `cut` off the component stack. -/
theorem pop {st' : CycleState} (cut : Nat) (h : CycleInv g base none st)
    (hidx : st'.idx = st.idx) (hlow : st'.low = st.low) (hwork : st'.work = st.work)
    (hnext : st'.nextIndex = st.nextIndex) (hstack : st'.sccStack.Sublist st.sccStack)
    (hmem : ∀ u, u ∈ st'.sccStack ↔ u ∈ st.sccStack ∧ st.index u < cut)
    (honStack : ∀ u, st'.onStack u = true ↔ u ∈ st'.sccStack)
    (hmarked : ∀ u, st.inCycle u = true → st'.inCycle u = true)
    (hopen : ∀ p ∈ st.work, st.index p.1 < cut)
    (hclosed : ∀ u ∈ st.sccStack, cut ≤ st.index u → ∀ w, g.Edge u w →
      st.seen w = true ∧ (w ∈ st.sccStack → cut ≤ st.index w))
    (hflag : ∀ u ∈ st.sccStack, cut ≤ st.index u → st'.inCycle u = false →
      ¬TransGen g.Edge u u) :
    CycleInv g base none st' := by
  have hindex : st'.index = st.index := by
    funext u
    rw [CycleState.index, CycleState.index, hidx]
  have hseen : st'.seen = st.seen := by
    funext u
    rw [CycleState.seen, CycleState.seen, hidx]
  have hsub : ∀ u ∈ st'.sccStack, u ∈ st.sccStack := fun u hu => ((hmem u).mp hu).1
  -- a popped node was popped before or is as high as the cut
  have hcases : ∀ u, u ∉ st'.sccStack → u ∉ st.sccStack ∨
      (u ∈ st.sccStack ∧ cut ≤ st.index u) := by
    intro u hu
    by_cases hold : u ∈ st.sccStack
    · refine Or.inr ⟨hold, Nat.not_lt.mp fun hlt => hu ((hmem u).mpr ⟨hold, hlt⟩)⟩
    · exact Or.inl hold
  refine
    { onStack := honStack
      order := ?_
      node := ?_
      stackSeen := ?_
      bound := ?_
      aboveBase := ?_
      openOnStack := ?_
      openOrder := ?_
      bottom := ?_
      cursors := ?_
      examined := ?_
      lowSelf := ?_
      lowEdge := ?_
      lowOpen := ?_
      closed := ?_
      unmarked := ?_
      selfLoop := fun u hu he => hmarked u (h.selfLoop u hu he) }
  · rw [hindex]
    exact h.order.sublist hstack
  · rw [hseen]
    exact h.node
  · rw [hseen]
    exact fun u hu => h.stackSeen u (hsub u hu)
  · rw [hseen, hindex, hnext]
    exact h.bound
  · rw [hindex, hlow]
    exact fun u hu => h.aboveBase u (hsub u hu)
  · rw [hwork]
    exact fun p hp => (hmem p.1).mpr ⟨h.openOnStack p hp, hopen p hp⟩
  · rw [hwork, hindex]
    exact h.openOrder
  · rw [hwork, hindex]
    exact h.bottom
  · rw [hwork]
    exact h.cursors
  · rw [hseen, hwork]
    exact fun u hu => h.examined u (hsub u hu)
  · rw [hlow, hindex]
    exact fun u hu => h.lowSelf u (hsub u hu)
  · rw [hwork, hlow, hindex]
    exact fun u hu w hw => h.lowEdge u (hsub u hu) w (hsub w hw)
  · rw [hwork, hlow, hindex]
    exact fun u hu => h.lowOpen u (hsub u hu)
  · rw [hseen]
    intro u w hu hnot he
    rcases hcases u hnot with hpopped | ⟨hold, hcut⟩
    · obtain ⟨h1, h2⟩ := h.closed u w hu hpopped he
      exact ⟨h1, fun hw => h2 (hsub w hw)⟩
    · obtain ⟨h1, h2⟩ := hclosed u hold hcut w he
      refine ⟨h1, fun hw => ?_⟩
      have := ((hmem w).mp hw).2
      have := h2 (hsub w hw)
      omega
  · rw [hseen]
    intro u hu hnot hunmarked
    rcases hcases u hnot with hpopped | ⟨hold, hcut⟩
    · refine h.unmarked u hu hpopped ?_
      rw [Bool.eq_false_iff] at hunmarked ⊢
      exact fun hm => hunmarked (hmarked u hm)
    · exact hflag u hold hcut hunmarked

end CycleInv

/-! ## Popping a component -/

/-- What popping down to `v` does to a stack that is strictly decreasing in `f`: it takes
off what is as high as `v`. -/
structure PopSpec (f : Nat → Nat) (v : Nat) (stack : List Nat) (st st' : CycleState) :
    Prop where
  idx : st'.idx = st.idx
  low : st'.low = st.low
  work : st'.work = st.work
  nextIndex : st'.nextIndex = st.nextIndex
  sublist : st'.sccStack.Sublist stack
  mem : ∀ u, u ∈ st'.sccStack ↔ u ∈ stack ∧ f u < f v
  onStack : ∀ u, st'.onStack u = true ↔ st.onStack u = true ∧ ¬(u ∈ stack ∧ f v ≤ f u)
  marked : ∀ u, st.inCycle u = true → st'.inCycle u = true

/-- Taking `w` off the top of the stack, marked or not. -/
theorem popSpec_top {f : Nat → Nat} {v : Nat} {rest : List Nat} {st st' : CycleState}
    (horder : (v :: rest).Pairwise fun a b => f b < f a) (hidx : st'.idx = st.idx)
    (hlow : st'.low = st.low) (hwork : st'.work = st.work)
    (hnext : st'.nextIndex = st.nextIndex) (hstack : st'.sccStack = rest)
    (honStack : st'.onStack = update st.onStack v false)
    (hmarked : ∀ u, st.inCycle u = true → st'.inCycle u = true) :
    PopSpec f v (v :: rest) st st' := by
  rw [List.pairwise_cons] at horder
  refine
    { idx := hidx
      low := hlow
      work := hwork
      nextIndex := hnext
      sublist := ?_
      mem := ?_
      onStack := ?_
      marked := hmarked }
  · rw [hstack]
    exact List.sublist_cons_self ..
  · intro u
    rw [hstack, List.mem_cons]
    constructor
    · exact fun hu => ⟨Or.inr hu, horder.1 u hu⟩
    · rintro ⟨rfl | hu, hlt⟩
      · omega
      · exact hu
  · intro u
    rw [honStack, update_apply, List.mem_cons]
    split
    · next hu => simp [hu]
    · next hu =>
      refine (and_iff_left ?_).symm
      rintro ⟨hmem, hle⟩
      have := horder.1 u (hmem.resolve_left hu)
      omega

theorem popTo_spec {f : Nat → Nat} {v : Nat} {stack : List Nat} (st : CycleState)
    (horder : stack.Pairwise fun a b => f b < f a) (hv : v ∈ stack) :
    PopSpec f v stack st (CycleState.popTo v stack st) ∧
      ∀ u ∈ stack, f v ≤ f u → (CycleState.popTo v stack st).inCycle u = true := by
  induction stack generalizing st with
  | nil => cases hv
  | cons w rest ih =>
    rw [CycleState.popTo]
    set popped : CycleState :=
      { st with
        sccStack := rest
        onStack := update st.onStack w false
        inCycle := update st.inCycle w true } with hpopped
    have hmarked : ∀ u, st.inCycle u = true → popped.inCycle u = true := by
      intro u hu
      show update st.inCycle w true u = true
      rw [update_apply, hu, ite_self]
    -- the root is popped last; all above it is popped and marked before
    by_cases hwv : w = v
    · subst hwv
      rw [if_pos rfl]
      refine ⟨popSpec_top horder rfl rfl rfl rfl rfl rfl hmarked, ?_⟩
      intro u hu hle
      rw [List.pairwise_cons] at horder
      rcases List.mem_cons.mp hu with rfl | hrest
      · exact update_self ..
      · have := horder.1 u hrest
        omega
    · rw [if_neg hwv]
      rw [List.pairwise_cons] at horder
      have hv' : v ∈ rest := (List.mem_cons.mp hv).resolve_left (Ne.symm hwv)
      have hlt : f v < f w := horder.1 v hv'
      obtain ⟨hspec, hflag⟩ := ih popped horder.2 hv'
      refine ⟨?_, ?_⟩
      · refine
          { idx := hspec.idx
            low := hspec.low
            work := hspec.work
            nextIndex := hspec.nextIndex
            sublist := hspec.sublist.trans (List.sublist_cons_self ..)
            mem := ?_
            onStack := ?_
            marked := fun u hu => hspec.marked u (hmarked u hu) }
        · intro u
          rw [hspec.mem u, List.mem_cons]
          refine and_congr_left fun hu => (or_iff_right ?_).symm
          rintro rfl
          omega
        · intro u
          rw [hspec.onStack u, List.mem_cons]
          show update st.onStack w false u = true ∧ _ ↔ _
          rw [update_apply]
          split
          · next hu =>
            subst hu
            simp [hlt.le]
          · next hu => rw [or_iff_right hu]
      · intro u hu hle
        rcases List.mem_cons.mp hu with rfl | hrest
        · exact hspec.marked u (update_self ..)
        · exact hflag u hrest hle

/-- Popping the component of a root: every popped node is marked, but for the root that
is alone in its component. -/
theorem popComponent_spec {f : Nat → Nat} {v : Nat} (st : CycleState)
    (horder : st.sccStack.Pairwise fun a b => f b < f a) (hv : v ∈ st.sccStack) :
    PopSpec f v st.sccStack st (st.popComponent v) ∧
      ∀ u ∈ st.sccStack, f v ≤ f u → (st.popComponent v).inCycle u = true ∨
        (u = v ∧ ∀ w ∈ st.sccStack, f v ≤ f w → w = v) := by
  unfold CycleState.popComponent
  split
  · next htop =>
    cases hstack : st.sccStack with
    | nil =>
      rw [hstack] at hv
      cases hv
    | cons w rest =>
      rw [hstack] at htop horder
      cases htop
      have halone : ∀ u ∈ v :: rest, f v ≤ f u → u = v := by
        intro u hu hle
        rw [List.pairwise_cons] at horder
        rcases List.mem_cons.mp hu with rfl | hrest
        · rfl
        · have := horder.1 u hrest
          omega
      refine ⟨popSpec_top horder rfl rfl rfl rfl rfl rfl fun _ hu => hu, ?_⟩
      exact fun u hu hle => Or.inr ⟨halone u hu hle, halone⟩
  · obtain ⟨hspec, hflag⟩ := popTo_spec st horder hv
    exact ⟨hspec, fun u hu hle => Or.inl (hflag u hu hle)⟩

namespace CycleInv

variable {base : Nat} {st : CycleState} {v cursor : Nat} {rest : List (Nat × Nat)}

/-- Popping the component of a root whose work is done. -/
theorem popComponent (h : CycleInv g base none st) (hv : v ∈ st.sccStack)
    (hopen : ∀ p ∈ st.work, st.index p.1 < st.index v)
    (hclosed : ∀ u ∈ st.sccStack, st.index v ≤ st.index u → ∀ w, g.Edge u w →
      st.seen w = true ∧ (w ∈ st.sccStack → st.index v ≤ st.index w))
    (halone : (∀ u ∈ st.sccStack, st.index v ≤ st.index u → u = v) → ¬g.Edge v v →
      ¬TransGen g.Edge v v) :
    CycleInv g base none (st.popComponent v) := by
  obtain ⟨hspec, hflag⟩ := popComponent_spec st h.order hv
  refine h.pop (st.index v) hspec.idx hspec.low hspec.work hspec.nextIndex
    hspec.sublist hspec.mem ?_ hspec.marked hopen hclosed ?_
  · intro u
    rw [hspec.onStack, hspec.mem, h.onStack, ← Nat.not_le]
    constructor
    · rintro ⟨hu, hnot⟩
      exact ⟨hu, fun hle => hnot ⟨hu, hle⟩⟩
    · rintro ⟨hu, hnot⟩
      exact ⟨hu, fun hand => hnot hand.2⟩
  · intro u hu hle hunmarked
    rcases hflag u hu hle with hmarked | ⟨rfl, hall⟩
    · rw [hmarked] at hunmarked
      cases hunmarked
    · refine halone hall fun hself => ?_
      have := hspec.marked u (h.selfLoop u (h.node u (h.stackSeen u hu)) hself)
      rw [this] at hunmarked
      cases hunmarked

end CycleInv

/-! ## The search -/

/-- The state in which the finished top has left the work stack and handed its low link
to the node under it. -/
def CycleState.handOver (v : Nat) (rest : List (Nat × Nat)) (st : CycleState) : CycleState :=
  { st with
    work := rest
    low :=
      match rest with
      | [] => st.low
      | (parent, _) :: _ => update st.low parent (min (st.low parent) (st.low v)) }

theorem popTo_frame (v : Nat) (stack : List Nat) (st : CycleState) (low : Nat → Nat)
    (work : List (Nat × Nat)) :
    CycleState.popTo v stack { st with low, work } =
      { CycleState.popTo v stack st with low, work } := by
  induction stack generalizing st with
  | nil => rfl
  | cons w rest ih =>
    unfold CycleState.popTo
    dsimp only
    split
    · rfl
    · exact ih
        { st with
          sccStack := rest
          onStack := update st.onStack w false
          inCycle := update st.inCycle w true }

theorem popTo_low (v : Nat) (stack : List Nat) (st : CycleState) :
    (CycleState.popTo v stack st).low = st.low := by
  induction stack generalizing st with
  | nil => rfl
  | cons w rest ih =>
    unfold CycleState.popTo
    dsimp only
    split
    · rfl
    · exact ih _

/-- Popping touches neither the low links nor the work stack, so it may come last. -/
theorem finish_eq (v : Nat) (rest : List (Nat × Nat)) (st : CycleState) :
    st.finish v rest =
      if st.idx v = some (st.low v) then (st.handOver v rest).popComponent v
      else st.handOver v rest := by
  have hcomm : (st.handOver v rest).popComponent v = (st.popComponent v).handOver v rest := by
    unfold CycleState.popComponent CycleState.handOver
    dsimp only
    split
    · rfl
    · rw [popTo_frame, popTo_low]
  unfold CycleState.finish
  split
  · rw [hcomm]
    cases rest <;> rfl
  · cases rest <;> rfl

namespace CycleInv

variable {base : Nat} {st : CycleState} {v cursor : Nat} {rest : List (Nat × Nat)}

theorem handOver (h : CycleInv g base none st) (hw : st.work = (v, cursor) :: rest)
    (hend : ¬cursor < g.offsets (v + 1)) :
    CycleInv g base none (st.handOver v rest) := by
  cases rest with
  | nil => exact h.close hw hend fun p hp => nomatch hp
  | cons p rest =>
    obtain ⟨parent, c⟩ := p
    have hparent : (parent, c) ∈ st.work := by
      rw [hw]
      exact List.mem_cons_of_mem _ List.mem_cons_self
    have hne : v ≠ parent := by
      rintro rfl
      exact h.not_mem_rest hw c List.mem_cons_self
    have hlowered := h.lower (w := 0) hparent (h.aboveBase v (h.top_mem_stack hw)).2
      (fun _ _ hnone => nomatch hnone) (fun hnone => absurd rfl hnone)
      (fun hnone => absurd rfl hnone)
    refine hlowered.close hw hend ?_
    intro q hq
    cases hq
    show update st.low parent _ parent ≤ update st.low parent _ v
    rw [update_self, update_of_ne hne]
    exact Nat.min_le_right ..

/-- Finishing the top keeps the invariant, and a search whose work is done leaves no node
on the component stack. -/
theorem finish (h : CycleInv g base none st) (hw : st.work = (v, cursor) :: rest)
    (hend : ¬cursor < g.offsets (v + 1)) :
    CycleInv g base none (st.finish v rest) ∧
      (rest = [] → (st.finish v rest).sccStack = []) := by
  have hv := h.top_mem_stack hw
  have hidx : st.idx v = some (st.index v) := by
    obtain ⟨i, hi⟩ := Option.isSome_iff_exists.mp (h.stackSeen v hv)
    rw [CycleState.index, hi]
    rfl
  rw [finish_eq]
  -- a root pops its component; another node only hands its low link down
  by_cases hroot : st.idx v = some (st.low v)
  · rw [if_pos hroot]
    have hroot' : st.low v = st.index v := by
      rw [hidx] at hroot
      exact (Option.some.inj hroot).symm
    have hhanded := h.handOver hw hend
    refine ⟨hhanded.popComponent hv (fun p hp => h.rest_lt hw hp) ?_ ?_, ?_⟩
    · exact fun u hu hle w he => h.component_closed hw hend hroot' hu hle he
    · exact fun halone hself => h.singleton_acyclic hw hend hroot' halone hself
    · rintro rfl
      -- the work is done, so the root is the start of the search and nothing was below it
      have hbase : st.index v = base := h.bottom (v, cursor) (by rw [hw]; rfl)
      obtain ⟨hspec, -⟩ := popComponent_spec (st.handOver v []) hhanded.order hv
      refine List.eq_nil_iff_forall_not_mem.mpr fun u hu => ?_
      obtain ⟨hu', hlt⟩ := (hspec.mem u).mp hu
      have h1 : base ≤ st.index u := (h.aboveBase u hu').1
      have h2 : st.index u < st.index v := hlt
      omega
  · rw [if_neg hroot]
    refine ⟨h.handOver hw hend, ?_⟩
    rintro rfl
    have hbase : st.index v = base := h.bottom (v, cursor) (by rw [hw]; rfl)
    have h1 := (h.aboveBase v hv).2
    have h2 := h.lowSelf v hv
    refine absurd ?_ hroot
    rw [hidx]
    congr 1
    omega

end CycleInv

theorem finish_seen (v : Nat) (rest : List (Nat × Nat)) (st : CycleState)
    (horder : st.sccStack.Pairwise fun a b => st.index b < st.index a)
    (hv : v ∈ st.sccStack) :
    (st.finish v rest).seen = st.seen ∧ (st.finish v rest).work = rest := by
  rw [finish_eq]
  split
  · obtain ⟨hspec, -⟩ := popComponent_spec (f := st.index) (v := v) (st.handOver v rest)
      horder hv
    refine ⟨?_, hspec.work⟩
    funext u
    rw [CycleState.seen, hspec.idx]
    rfl
  · exact ⟨rfl, rfl⟩

/-- One turn of the inner loop keeps the invariant, forgets no visited node, takes one
turn off the potential, and leaves an empty component stack with an empty work stack. -/
theorem cycle_step (hg : g.Valid) {base : Nat} {st st' : CycleState}
    (h : CycleInv g base none st) (hstep : CycleState.step g st = some st') :
    CycleInv g base none st' ∧ (∀ u, st.seen u = true → st'.seen u = true) ∧
      g.workLeft st'.seen st'.work < g.workLeft st.seen st.work ∧
      (st'.work = [] → st'.sccStack = []) := by
  unfold CycleState.step at hstep
  cases hw : st.work with
  | nil =>
    rw [hw] at hstep
    cases hstep
  | cons p rest =>
  obtain ⟨v, cursor⟩ := p
  have hv := h.top_mem_stack hw
  have hvmem : (v, cursor) ∈ st.work := by
    rw [hw]
    exact List.mem_cons_self
  rw [hw] at hstep
  dsimp only at hstep
  split at hstep
  · next hlt =>
    have hadv := h.advance hw
    have hless := workLeft_advance st.seen rest hlt
    split at hstep
    · next hnone =>
      cases hstep
      have hnew : st.seen (g.adj cursor) = false := by
        rw [CycleState.seen, hnone]
        rfl
      have he : g.Edge v (g.adj cursor) := edge_iff.mpr ⟨cursor, h.cursors _ hvmem, hlt, rfl⟩
      have htarget := hg.target v _ (h.node v (h.stackSeen v hv)) he
      have hbase : base ≤ st.nextIndex :=
        Nat.le_trans (h.aboveBase v hv).1 (h.bound v (h.stackSeen v hv)).le
      refine ⟨?_, ?_, ?_, fun hnil => nomatch hnil⟩
      · refine hadv.visit htarget hnew ?_ hbase (fun hnil => nomatch hnil)
        intro u y heq
        cases heq
        rfl
      · intro u hu
        rw [seen_visit, update_apply]
        split
        · rfl
        · exact hu
      · rw [seen_visit]
        have := workLeft_visit ((v, cursor + 1) :: rest) htarget hnew
        show g.workLeft (update st.seen _ true) (_ :: (v, cursor + 1) :: rest) < _
        rw [this]
        exact hless
    · next i hi =>
      have hseen : st.seen (g.adj cursor) = true := by
        rw [CycleState.seen, hi]
        rfl
      have hindex : st.index (g.adj cursor) = i := by
        rw [CycleState.index, hi]
        rfl
      split at hstep
      · next hon =>
        cases hstep
        have hstack := (h.onStack _).mp hon
        refine ⟨?_, fun _ hu => hu, hless, fun hnil => nomatch hnil⟩
        refine hadv.lower (p := (v, cursor + 1)) (w := g.adj cursor) List.mem_cons_self ?_ ?_ ?_ ?_
        · rw [← hindex]
          exact (h.aboveBase _ hstack).1
        · intro u y heq
          cases heq
          exact ⟨rfl, rfl⟩
        · exact fun _ => hseen
        · intro _ _
          exact hindex.symm.le
      · next hon =>
        cases hstep
        refine ⟨?_, fun _ hu => hu, hless, fun hnil => nomatch hnil⟩
        -- the target is popped: lowering to the node's own low link changes nothing
        have hlow : update st.low v (min (st.low v) (st.low v)) = st.low := by
          rw [Nat.min_self, update_eq_self]
        have := hadv.lower (p := (v, cursor + 1)) (w := g.adj cursor) (x := st.low v)
          List.mem_cons_self (h.aboveBase v hv).2
          (fun u y heq => by cases heq; exact ⟨rfl, rfl⟩) (fun _ => hseen)
          (fun _ hstack => absurd ((h.onStack _).mpr hstack) hon)
        dsimp only at this
        rw [hlow] at this
        exact this
  · next hend =>
    cases hstep
    obtain ⟨h1, h2⟩ := h.finish hw hend
    obtain ⟨hseen, hwork⟩ := finish_seen v rest st h.order hv
    refine ⟨h1, ?_, ?_, ?_⟩
    · intro u hu
      rw [hseen]
      exact hu
    · rw [hseen, hwork]
      exact workLeft_pop _ _ rest
    · rw [hwork]
      exact h2

/-- What holds between two searches: both stacks are empty. -/
structure CycleIdle (g : CsrGraph) (st : CycleState) : Prop where
  inv : CycleInv g st.nextIndex none st
  work : st.work = []
  stack : st.sccStack = []

/-- With empty stacks, where the search started does not matter. -/
theorem CycleInv.idle {base : Nat} {st : CycleState} (h : CycleInv g base none st)
    (hwork : st.work = []) (hstack : st.sccStack = []) : CycleIdle g st where
  inv :=
    { h with
      aboveBase := fun u hu => by rw [hstack] at hu; cases hu
      bottom := fun p hp => by rw [hwork] at hp; cases hp }
  work := hwork
  stack := hstack

theorem search_cycle (hg : g.Valid) {st : CycleState} (h : CycleIdle g st) {start : Nat}
    (hnode : start < g.numNodes) :
    CycleIdle g (CycleState.search g st start) ∧
      (∀ u, st.seen u = true → (CycleState.search g st start).seen u = true) ∧
      (CycleState.search g st start).seen start = true := by
  unfold CycleState.search
  split
  · next hskip => exact ⟨h, fun _ hu => hu, hskip⟩
  · next hskip =>
    have hnew : st.seen start = false := Bool.eq_false_iff.mpr hskip
    set opened : CycleState := st.visit g start with hopened
    set final := runRounds (CycleState.step g) g.turns opened with hfinal
    have hinv : CycleInv g st.nextIndex none opened :=
      h.inv.visit hnode hnew (fun _ _ hnone => nomatch hnone) (Nat.le_refl _) (fun _ => rfl)
    have hrun : CycleInv g st.nextIndex none final ∧
        (∀ u, opened.seen u = true → final.seen u = true) ∧
        (final.work = [] → final.sccStack = []) := by
      refine runRounds_inv
        (P := fun t => CycleInv g st.nextIndex none t ∧
          (∀ u, opened.seen u = true → t.seen u = true) ∧ (t.work = [] → t.sccStack = []))
        ?_ g.turns ⟨hinv, fun _ hu => hu, fun hnil => nomatch hnil⟩
      rintro t t' ⟨ht, hmono, -⟩ hstep
      obtain ⟨h1, h2, -, h4⟩ := cycle_step hg ht hstep
      exact ⟨h1, fun u hu => h2 u (hmono u hu), h4⟩
    -- the turns allowed are enough for the work left after the first visit
    have hfuel : g.workLeft opened.seen opened.work ≤ g.turns := by
      have hwork : opened.work = [(start, g.offsets start)] := by
        show (start, g.offsets start) :: st.work = _
        rw [h.work]
      rw [hwork, hopened, seen_visit, workLeft_visit _ hnode hnew]
      exact workLeft_le_turns hg _
    have hrest : CycleState.step g final = none :=
      runRounds_stable_of_inv (P := CycleInv g st.nextIndex none)
        (fun t => g.workLeft t.seen t.work)
        (fun t t' ht hstep =>
          have hturn := cycle_step hg ht hstep
          ⟨hturn.1, hturn.2.2.1⟩)
        hinv hfuel
    -- no step is left only when there is no work
    have hwork : final.work = [] := by
      unfold CycleState.step at hrest
      cases hw : final.work with
      | nil => rfl
      | cons p rest =>
        rw [hw] at hrest
        dsimp only at hrest
        split at hrest
        · split at hrest
          · cases hrest
          · split at hrest <;> cases hrest
        · cases hrest
    have hopenedSeen : opened.seen = update st.seen start true := seen_visit
    refine ⟨hrun.1.idle hwork (hrun.2.2 hwork), fun u hu => hrun.2.1 u ?_, hrun.2.1 start ?_⟩
    · rw [hopenedSeen, update_apply, hu, ite_self]
    · rw [hopenedSeen, update_self]

theorem foldl_searchCycle (hg : g.Valid) (starts : List Nat)
    (hstarts : ∀ v ∈ starts, v < g.numNodes) {st : CycleState} (h : CycleIdle g st) :
    CycleIdle g (starts.foldl (CycleState.search g) st) ∧
      (∀ u, st.seen u = true → (starts.foldl (CycleState.search g) st).seen u = true) ∧
      ∀ u ∈ starts, (starts.foldl (CycleState.search g) st).seen u = true := by
  induction starts generalizing st with
  | nil => exact ⟨h, fun _ hu => hu, fun u hu => nomatch hu⟩
  | cons start starts ih =>
    rw [List.foldl_cons]
    obtain ⟨h1, h2, h3⟩ := search_cycle hg h (hstarts start List.mem_cons_self)
    obtain ⟨i1, i2, i3⟩ := ih (fun v hv => hstarts v (List.mem_cons_of_mem _ hv)) h1
    refine ⟨i1, fun u hu => i2 u (h2 u hu), fun u hu => ?_⟩
    rcases List.mem_cons.mp hu with rfl | hu
    · exact i2 u h3
    · exact i3 u hu

theorem cycleIdle_init (marked : Nat → Bool)
    (hself : ∀ u, u < g.numNodes → g.Edge u u → marked u = true) :
    CycleIdle g { inCycle := marked } where
  inv :=
    { onStack := fun _ => ⟨fun h => Bool.noConfusion h, fun h => nomatch h⟩
      order := List.Pairwise.nil
      node := fun _ h => Bool.noConfusion h
      stackSeen := fun _ h => nomatch h
      bound := fun _ h => Bool.noConfusion h
      aboveBase := fun _ h => nomatch h
      openOnStack := fun _ h => nomatch h
      openOrder := List.Pairwise.nil
      bottom := fun _ h => nomatch h
      cursors := fun _ h => nomatch h
      examined := fun _ h => nomatch h
      lowSelf := fun _ h => nomatch h
      lowEdge := fun _ h => nomatch h
      lowOpen := fun _ h => nomatch h
      closed := fun _ _ h => Bool.noConfusion h
      unmarked := fun _ h => Bool.noConfusion h
      selfLoop := hself }
  work := rfl
  stack := rfl

/-- A node that `nodesInCycles` leaves unmarked lies on no closed walk. -/
theorem not_transGen_of_unmarked (hg : g.Valid) {v : Nat} (hv : v < g.numNodes)
    (h : g.nodesInCycles v = false) : ¬TransGen g.Edge v v := by
  have hinit := cycleIdle_init (g := g)
    (fun v => decide (v < g.numNodes) && (g.neighbors v).contains v) fun u hu he => by
      rw [decide_eq_true hu, Bool.true_and, List.contains_iff_mem]
      exact he
  obtain ⟨h1, -, h3⟩ := foldl_searchCycle hg (List.range g.numNodes)
    (fun v hv => List.mem_range.mp hv) hinit
  refine h1.inv.unmarked v (h3 v (List.mem_range.mpr hv)) ?_ h
  rw [h1.stack]
  exact List.not_mem_nil

end CsrGraph

end Lifeguard
