import Lifeguard.CsrGraph
import Mathlib.Logic.Relation

/-!
# Traversals of the compact graph

What the two traversals of `CsrGraph` share: the potential that every turn of the inner
loop lowers (`workLeft`), so that `turns` is fuel enough, and the reading of a cursor as
a set of examined edges (`Examined`).
-/

namespace Lifeguard

open Lib Function

namespace CsrGraph

variable {g : CsrGraph}

/-! ## The potential -/

/-- What a node's block costs when it is expanded from position `cursor` on. -/
def blockLeft (g : CsrGraph) (p : Nat × Nat) : Nat := g.offsets (p.1 + 1) - p.2 + 1

/-- The turns left: the unexamined edges and the open nodes of the work stack, and those
of the nodes not seen yet. -/
def workLeft (g : CsrGraph) (seen : Nat → Bool) (work : List (Nat × Nat)) : Nat :=
  (work.map g.blockLeft).sum +
    ((List.range g.numNodes).map fun w =>
      if seen w then 0 else g.blockLeft (w, g.offsets w)).sum

theorem workLeft_advance (seen : Nat → Bool) {v cursor : Nat} (rest : List (Nat × Nat))
    (h : cursor < g.offsets (v + 1)) :
    g.workLeft seen ((v, cursor + 1) :: rest) < g.workLeft seen ((v, cursor) :: rest) := by
  simp only [workLeft, List.map_cons, List.sum_cons, blockLeft]
  omega

theorem workLeft_pop (seen : Nat → Bool) (p : Nat × Nat) (rest : List (Nat × Nat)) :
    g.workLeft seen rest < g.workLeft seen (p :: rest) := by
  simp only [workLeft, List.map_cons, List.sum_cons, blockLeft]
  omega

/-- Marking one index of a range takes its term out of the sum. -/
theorem sum_range_update (f : Nat → Nat) (seen : Nat → Bool) {w n : Nat} (hw : w < n)
    (hseen : seen w = false) :
    ((List.range n).map fun i => if update seen w true i then 0 else f i).sum + f w =
      ((List.range n).map fun i => if seen i then 0 else f i).sum := by
  have hbelow : ∀ k, k ≤ w →
      ((List.range k).map fun i => if update seen w true i then 0 else f i) =
        (List.range k).map fun i => if seen i then 0 else f i := by
    intro k hk
    refine List.map_congr_left fun i hi => ?_
    have : i ≠ w := by
      have := List.mem_range.mp hi
      omega
    rw [update_of_ne this]
  induction n with
  | zero => omega
  | succ n ih =>
    rw [List.range_succ, List.map_append, List.map_append, List.sum_append,
      List.sum_append]
    rcases Nat.lt_succ_iff_lt_or_eq.mp hw with h | h
    · have hne : n ≠ w := by omega
      have := ih h
      simp only [List.map_cons, List.map_nil, List.sum_cons, List.sum_nil,
        update_of_ne hne]
      omega
    · subst h
      rw [hbelow w (Nat.le_refl w)]
      simp [hseen]

/-- Visiting a node moves its block from the unseen nodes to the work stack. -/
theorem workLeft_visit {seen : Nat → Bool} {w : Nat} (work : List (Nat × Nat))
    (hw : w < g.numNodes) (hseen : seen w = false) :
    g.workLeft (update seen w true) ((w, g.offsets w) :: work) = g.workLeft seen work := by
  have := sum_range_update (fun i => g.blockLeft (i, g.offsets i)) seen hw hseen
  simp only [workLeft, List.map_cons, List.sum_cons]
  omega

theorem sum_blocks_le (hg : g.Valid) (seen : Nat → Bool) {n : Nat} (hn : n ≤ g.numNodes) :
    ((List.range n).map fun w =>
      if seen w then 0 else g.blockLeft (w, g.offsets w)).sum ≤ g.offsets n + n := by
  induction n with
  | zero => simp
  | succ n ih =>
    have h1 := ih (by omega)
    have h2 := hg.mono n (by omega)
    have h3 : g.blockLeft (n, g.offsets n) = g.offsets (n + 1) - g.offsets n + 1 := rfl
    rw [List.range_succ, List.map_append, List.sum_append]
    simp only [List.map_cons, List.map_nil, List.sum_cons, List.sum_nil]
    split <;> omega

/-- A search that starts on an empty work stack ends within `turns`. -/
theorem workLeft_le_turns (hg : g.Valid) (seen : Nat → Bool) :
    g.workLeft seen [] ≤ g.turns := by
  simpa [workLeft, turns] using sum_blocks_le hg seen (Nat.le_refl _)

/-! ## Examined edges -/

/-- The edge from `u` to `w` has been examined: the cursor of every open occurrence of
`u` is past it. -/
def Examined (g : CsrGraph) (work : List (Nat × Nat)) (u w : Nat) : Prop :=
  ∃ c, g.offsets u ≤ c ∧ c < g.offsets (u + 1) ∧ g.adj c = w ∧
    ∀ cursor, (u, cursor) ∈ work → c < cursor

theorem Examined.edge {work : List (Nat × Nat)} {u w : Nat} (h : g.Examined work u w) :
    g.Edge u w := by
  obtain ⟨c, h1, h2, h3, -⟩ := h
  exact edge_iff.mpr ⟨c, h1, h2, h3⟩

/-- Every edge of a node that is not open has been examined. -/
theorem examined_of_not_open {work : List (Nat × Nat)} {u w : Nat}
    (hu : ∀ cursor, (u, cursor) ∉ work) (h : g.Edge u w) : g.Examined work u w := by
  obtain ⟨c, h1, h2, h3⟩ := edge_iff.mp h
  exact ⟨c, h1, h2, h3, fun cursor hmem => absurd hmem (hu cursor)⟩

/-- Closing a node keeps what is examined. -/
theorem Examined.of_cons {p : Nat × Nat} {work : List (Nat × Nat)} {u w : Nat}
    (h : g.Examined (p :: work) u w) : g.Examined work u w := by
  obtain ⟨c, h1, h2, h3, h4⟩ := h
  exact ⟨c, h1, h2, h3, fun cursor hmem => h4 cursor (List.mem_cons_of_mem _ hmem)⟩

/-- Opening or closing another node leaves what is examined of `u`. -/
theorem Examined.cons {v cursor : Nat} {work : List (Nat × Nat)} {u w : Nat} (hne : u ≠ v)
    (h : g.Examined work u w) : g.Examined ((v, cursor) :: work) u w := by
  obtain ⟨c, h1, h2, h3, h4⟩ := h
  refine ⟨c, h1, h2, h3, fun cursor' hmem => ?_⟩
  rcases List.mem_cons.mp hmem with heq | hrest
  · cases heq
    exact absurd rfl hne
  · exact h4 cursor' hrest

/-- Opening a node examines none of its edges; the other nodes keep theirs. -/
theorem examined_visit {work : List (Nat × Nat)} {u v w : Nat}
    (h : g.Examined ((v, g.offsets v) :: work) u w) : u ≠ v ∧ g.Examined work u w := by
  refine ⟨?_, h.of_cons⟩
  rintro rfl
  obtain ⟨c, h1, -, -, h4⟩ := h
  have := h4 _ List.mem_cons_self
  omega

/-- Advancing a cursor examines one more edge. -/
theorem examined_advance {v cursor : Nat} {rest : List (Nat × Nat)} {u w : Nat}
    (h : g.Examined ((v, cursor + 1) :: rest) u w) :
    g.Examined ((v, cursor) :: rest) u w ∨ (u = v ∧ w = g.adj cursor) := by
  obtain ⟨c, h1, h2, h3, h4⟩ := h
  by_cases huv : u = v
  · have hc := h4 (cursor + 1) (by rw [huv]; exact List.mem_cons_self)
    rcases Nat.lt_succ_iff_lt_or_eq.mp hc with hlt | heq
    · left
      refine ⟨c, h1, h2, h3, fun cursor' hmem => ?_⟩
      rcases List.mem_cons.mp hmem with heq | hrest
      · cases heq
        exact hlt
      · exact h4 cursor' (List.mem_cons_of_mem _ hrest)
    · right
      exact ⟨huv, by rw [← h3, heq]⟩
  · left
    refine ⟨c, h1, h2, h3, fun cursor' hmem => ?_⟩
    rcases List.mem_cons.mp hmem with heq | hrest
    · cases heq
      exact absurd rfl huv
    · exact h4 cursor' (List.mem_cons_of_mem _ hrest)

/-- A node whose cursor is at the end of its block has all its edges examined. -/
theorem examined_of_end {v cursor : Nat} {rest : List (Nat × Nat)}
    (hend : ¬cursor < g.offsets (v + 1)) (hfresh : ∀ c, (v, c) ∉ rest) {w : Nat}
    (h : g.Edge v w) : g.Examined ((v, cursor) :: rest) v w := by
  obtain ⟨c, h1, h2, h3⟩ := edge_iff.mp h
  refine ⟨c, h1, h2, h3, fun cursor' hmem => ?_⟩
  rcases List.mem_cons.mp hmem with heq | hrest
  · cases heq
    omega
  · exact absurd hrest (hfresh cursor')

end CsrGraph

end Lifeguard
