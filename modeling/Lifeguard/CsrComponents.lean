import Lifeguard.CsrCycles

/-!
# The cycle marking is exact

`CsrCycles` shows that the marking misses no cycle; here is the other half, that a marked
node lies on one, and with it that the search never pops an empty stack.

- `ReachInv`: every open node reaches the nodes at or above it on the component stack, every
  low link is the index of a node on the stack that is reached, and a finished node on the
  stack has a link below its own index;
- `component_reaches`: so the nodes above a root all reach it;
- `CycleState.Reachable`: the states the loops go through;
- `nodes_in_cycles_exact`: the marked nodes are those on directed cycles.
-/

namespace Lifeguard

open Lib Function Relation

namespace CsrGraph

variable {g : CsrGraph}

/-- The open nodes. -/
def CycleState.opened (st : CycleState) : List Nat := st.work.map Prod.fst

/-- What ties the stacks, the low links and the marks to paths of the graph. -/
structure ReachInv (g : CsrGraph) (st : CycleState) : Prop where
  reach : ∀ u ∈ st.sccStack, ∀ p ∈ st.opened, st.index p ≤ st.index u →
    ReflTransGen g.Edge p u
  link : ∀ u ∈ st.sccStack, ∃ w ∈ st.sccStack, st.index w = st.low u ∧ ReflTransGen g.Edge u w
  finished : ∀ u ∈ st.sccStack, u ∉ st.opened → st.low u < st.index u
  marked : ∀ u, st.inCycle u = true → TransGen g.Edge u u

theorem mem_opened {st : CycleState} {u : Nat} : u ∈ st.opened ↔ ∃ c, (u, c) ∈ st.work := by
  rw [CycleState.opened, List.mem_map]
  constructor
  · rintro ⟨p, hp, rfl⟩
    exact ⟨p.2, hp⟩
  · rintro ⟨c, hc⟩
    exact ⟨(u, c), hc, rfl⟩

namespace ReachInv

variable {base : Nat} {st : CycleState} {v cursor : Nat} {rest : List (Nat × Nat)}

/-! ## Examining an edge -/

/-- The open nodes all reach the top. -/
theorem reach_top (h : ReachInv g st) (hinv : CycleInv g base none st)
    (hw : st.work = (v, cursor) :: rest) {p : Nat} (hp : p ∈ st.opened) :
    ReflTransGen g.Edge p v := by
  refine h.reach v (hinv.top_mem_stack hw) p hp ?_
  obtain ⟨c, hc⟩ := mem_opened.mp hp
  rw [hw] at hc
  rcases List.mem_cons.mp hc with heq | hrest
  · cases heq
    exact Nat.le_refl _
  · exact Nat.le_of_lt (hinv.rest_lt hw hrest)

/-- Passing an edge leaves the open nodes as they are. -/
theorem advance (h : ReachInv g st) (hw : st.work = (v, cursor) :: rest) :
    ReachInv g { st with work := (v, cursor + 1) :: rest } := by
  have hopened : CycleState.opened { st with work := (v, cursor + 1) :: rest } = st.opened := by
    rw [CycleState.opened, CycleState.opened, hw]
    rfl
  refine ⟨?_, h.link, ?_, h.marked⟩
  · rw [hopened]
    exact h.reach
  · rw [hopened]
    exact h.finished

/-- An edge back into the stack lowers the link of the top to a node it leads to. -/
theorem lower (h : ReachInv g st) {w : Nat} (hv : v ∈ st.opened) (hstack : w ∈ st.sccStack)
    (hvw : g.Edge v w) :
    ReachInv g { st with low := update st.low v (min (st.low v) (st.index w)) } := by
  refine ⟨h.reach, ?_, ?_, h.marked⟩
  · intro u hu
    show ∃ y ∈ st.sccStack, st.index y = update st.low v (min (st.low v) (st.index w)) u ∧ _
    by_cases huv : u = v
    · subst huv
      rw [update_self]
      rcases Nat.le_total (st.low u) (st.index w) with hle | hle
      · rw [Nat.min_eq_left hle]
        exact h.link u hu
      · rw [Nat.min_eq_right hle]
        exact ⟨w, hstack, rfl, .single hvw⟩
    · rw [update_of_ne huv]
      exact h.link u hu
  · intro u hu hclosed
    show update st.low v _ u < st.index u
    have huv : u ≠ v := by
      rintro rfl
      exact hclosed hv
    rw [update_of_ne huv]
    exact h.finished u hu hclosed

/-- A new node is reached from all the open ones. -/
theorem visit (h : ReachInv g st) {pending : Option (Nat × Nat)} (hinv : CycleInv g base pending st)
    {w : Nat} (hnew : st.seen w = false)
    (hreach : ∀ p ∈ st.opened, ReflTransGen g.Edge p w) : ReachInv g (st.visit g w) := by
  -- what is on the stack keeps its index
  have hindex : ∀ u ∈ st.sccStack, (st.visit g w).index u = st.index u :=
    fun u hu => hinv.index_visit_of_mem hnew hu
  have hopenedStack : ∀ p ∈ st.opened, p ∈ st.sccStack := by
    intro p hp
    obtain ⟨c, hc⟩ := mem_opened.mp hp
    exact hinv.openOnStack (p, c) hc
  refine ⟨?_, ?_, ?_, h.marked⟩
  · intro u hu p hp hle
    rcases List.mem_cons.mp hu with huw | hold
    · rw [huw]
      rcases List.mem_cons.mp hp with hpw | hpold
      · rw [hpw]
      · exact hreach p hpold
    · rw [hindex u hold] at hle
      rcases List.mem_cons.mp hp with hpw | hpold
      · -- the new node is higher than all that was on the stack
        have hlt := hinv.index_lt_of_mem hold
        rw [hpw, index_visit_self] at hle
        omega
      · rw [hindex p (hopenedStack p hpold)] at hle
        exact h.reach u hold p hpold hle
  · intro u hu
    rcases List.mem_cons.mp hu with rfl | hu
    · exact ⟨u, List.mem_cons_self, by rw [index_visit_self, low_visit_self], .refl⟩
    · obtain ⟨y, hy, hlow, hreachY⟩ := h.link u hu
      refine ⟨y, List.mem_cons_of_mem w hy, ?_, hreachY⟩
      rw [hindex y hy, hinv.low_visit_of_mem hnew hu, hlow]
  · intro u hu hclosed
    rcases List.mem_cons.mp hu with rfl | hu
    · exact absurd List.mem_cons_self hclosed
    · rw [hindex u hu, hinv.low_visit_of_mem hnew hu]
      exact h.finished u hu fun hin => hclosed (List.mem_cons_of_mem w hin)

/-! ## Finishing a node -/

/-- Above a finished root every node reaches it: by links to lower and lower nodes, none of
which is below the root. -/
theorem component_reaches (h : ReachInv g st) (hinv : CycleInv g base none st)
    (hw : st.work = (v, cursor) :: rest) (hroot : st.low v = st.index v) {u : Nat}
    (hu : u ∈ st.sccStack) (huv : st.index v ≤ st.index u) : ReflTransGen g.Edge u v := by
  generalize hk : st.index u = k
  induction k using Nat.strong_induction_on generalizing u with
  | _ k ih =>
    by_cases heq : u = v
    · rw [heq]
    · have hclosed : u ∉ st.opened := by
        intro hin
        obtain ⟨c, hc⟩ := mem_opened.mp hin
        rw [hw] at hc
        rcases List.mem_cons.mp hc with htop | hrest
        · exact heq (congrArg Prod.fst htop)
        · have hlt : st.index u < st.index v := hinv.rest_lt hw hrest
          omega
      have hlt := h.finished u hu hclosed
      obtain ⟨w, hwstack, hwlow, hreach⟩ := h.link u hu
      have hvw : st.index v ≤ st.index w := by
        calc st.index v = st.low v := hroot.symm
          _ ≤ st.low u := hinv.low_top_le hw hu huv
          _ = st.index w := hwlow.symm
      exact hreach.trans (ih (st.index w) (by omega) hwstack hvw rfl)

/-- So a component of more than one node is one of cycles. -/
theorem component_cycle (h : ReachInv g st) (hinv : CycleInv g base none st)
    (hw : st.work = (v, cursor) :: rest) (hroot : st.low v = st.index v) {u w : Nat}
    (hu : u ∈ st.sccStack) (huv : st.index v ≤ st.index u) (hwstack : w ∈ st.sccStack)
    (hwv : st.index v ≤ st.index w) (hne : w ≠ v) : TransGen g.Edge u u := by
  have hv : v ∈ st.opened := mem_opened.mpr ⟨cursor, by rw [hw]; exact List.mem_cons_self⟩
  have hvcycle : TransGen g.Edge v v := by
    rcases reflTransGen_iff_eq_or_transGen.mp (h.reach w hwstack v hv hwv) with heq | hvw
    · exact absurd heq hne
    · exact hvw.trans_left (h.component_reaches hinv hw hroot hwstack hwv)
  have huv' := h.component_reaches hinv hw hroot hu huv
  have hvu := h.reach u hu v hv huv
  exact TransGen.trans_right huv' (hvcycle.trans_left hvu)

end ReachInv

/-! ## Popping a component -/

/-- What popping marks: nodes as high as the root, and none when the root is on top. -/
theorem popTo_marks {f : Nat → Nat} {v : Nat} {stack : List Nat} (st : CycleState)
    (horder : stack.Pairwise fun a b => f b < f a) (hv : v ∈ stack) {u : Nat}
    (hu : (CycleState.popTo v stack st).inCycle u = true) :
    st.inCycle u = true ∨ (u ∈ stack ∧ f v ≤ f u) := by
  induction stack generalizing st with
  | nil => cases hv
  | cons w rest ih =>
    rw [List.pairwise_cons] at horder
    rw [CycleState.popTo] at hu
    have hmark : update st.inCycle w true u = true → st.inCycle u = true ∨ u = w := by
      intro hmark
      rw [update_apply] at hmark
      split at hmark
      · next heq => exact Or.inr heq
      · exact Or.inl hmark
    have hle : f v ≤ f w := by
      rcases List.mem_cons.mp hv with rfl | hv'
      · exact Nat.le_refl _
      · exact Nat.le_of_lt (horder.1 v hv')
    split at hu
    · rcases hmark hu with hold | rfl
      · exact Or.inl hold
      · exact Or.inr ⟨List.mem_cons_self, hle⟩
    · next hne =>
      have hv' : v ∈ rest := (List.mem_cons.mp hv).resolve_left (Ne.symm hne)
      rcases ih _ horder.2 hv' hu with hold | ⟨hmem, hfu⟩
      · rcases hmark hold with hold | rfl
        · exact Or.inl hold
        · exact Or.inr ⟨List.mem_cons_self, hle⟩
      · exact Or.inr ⟨List.mem_cons_of_mem w hmem, hfu⟩

theorem popComponent_marks {f : Nat → Nat} {v : Nat} (st : CycleState)
    (horder : st.sccStack.Pairwise fun a b => f b < f a) (hv : v ∈ st.sccStack) {u : Nat}
    (hu : (st.popComponent v).inCycle u = true) :
    st.inCycle u = true ∨ (u ∈ st.sccStack ∧ f v ≤ f u ∧
      ∃ w ∈ st.sccStack, w ≠ v ∧ f v ≤ f w) := by
  unfold CycleState.popComponent at hu
  split at hu
  · exact Or.inl hu
  · next htop =>
    refine (popTo_marks st horder hv hu).imp_right fun ⟨hmem, hle⟩ => ⟨hmem, hle, ?_⟩
    cases hstack : st.sccStack with
    | nil =>
      rw [hstack] at hv
      cases hv
    | cons w rest =>
      rw [hstack] at htop horder hv
      have hne : w ≠ v := by
        rintro rfl
        exact htop rfl
      rw [List.pairwise_cons] at horder
      have hv' : v ∈ rest := (List.mem_cons.mp hv).resolve_left (Ne.symm hne)
      exact ⟨w, List.mem_cons_self, hne, Nat.le_of_lt (horder.1 v hv')⟩

namespace ReachInv

variable {base : Nat} {st : CycleState} {v cursor : Nat} {rest : List (Nat × Nat)}

/-- The link the node under the top gets when the top hands over its own. -/
theorem link_handOver (h : ReachInv g st) (hinv : CycleInv g base none st)
    (hw : st.work = (v, cursor) :: rest) {u : Nat} (hu : u ∈ st.sccStack) :
    ∃ w ∈ st.sccStack, st.index w = (st.handOver v rest).low u ∧ ReflTransGen g.Edge u w := by
  cases hrest : rest with
  | nil => exact h.link u hu
  | cons p rest' =>
    obtain ⟨parent, c⟩ := p
    show ∃ w ∈ st.sccStack, st.index w =
      update st.low parent (min (st.low parent) (st.low v)) u ∧ _
    by_cases hup : u = parent
    · subst hup
      rw [update_self]
      rcases Nat.le_total (st.low u) (st.low v) with hle | hle
      · rw [Nat.min_eq_left hle]
        exact h.link u hu
      · rw [Nat.min_eq_right hle]
        obtain ⟨w, hwstack, hlow, hreach⟩ := h.link v (hinv.top_mem_stack hw)
        have hopen : u ∈ st.opened :=
          mem_opened.mpr ⟨c, by rw [hw, hrest]; exact List.mem_cons_of_mem _ List.mem_cons_self⟩
        exact ⟨w, hwstack, hlow, (h.reach_top hinv hw hopen).trans hreach⟩
    · rw [update_of_ne hup]
      exact h.link u hu

/-- Handing over lowers links only. -/
theorem low_handOver_le (st : CycleState) (v : Nat) (rest : List (Nat × Nat)) (u : Nat) :
    (st.handOver v rest).low u ≤ st.low u := by
  cases rest with
  | nil => exact Nat.le_refl _
  | cons p rest =>
    obtain ⟨parent, c⟩ := p
    show update st.low parent (min (st.low parent) (st.low v)) u ≤ st.low u
    rw [update_apply]
    split
    · next heq =>
      rw [heq]
      exact Nat.min_le_left ..
    · exact Nat.le_refl _

/-- Finishing the top: a root takes its component along, any other node has a link below its
own index. -/
theorem finish (h : ReachInv g st) (hinv : CycleInv g base none st)
    (hw : st.work = (v, cursor) :: rest) (hend : ¬cursor < g.offsets (v + 1)) :
    ReachInv g (st.finish v rest) := by
  have hv := hinv.top_mem_stack hw
  have hidx : st.idx v = some (st.index v) := by
    obtain ⟨i, hi⟩ := Option.isSome_iff_exists.mp (hinv.stackSeen v hv)
    rw [CycleState.index, hi]
    rfl
  have hopened : ∀ p ∈ rest.map Prod.fst, p ∈ st.opened := by
    intro p hp
    rw [CycleState.opened, hw]
    exact List.mem_cons_of_mem v hp
  -- a node that is closed now was closed before, or is the top itself
  have hclosed : ∀ u, u ∉ rest.map Prod.fst → u ≠ v → u ∉ st.opened := by
    intro u hu hne hin
    rw [CycleState.opened, hw] at hin
    rcases List.mem_cons.mp hin with heq | hrest
    · exact hne heq
    · exact hu hrest
  rw [finish_eq]
  split
  · next hroot =>
    have hroot' : st.low v = st.index v := by
      rw [hidx] at hroot
      exact (Option.some.inj hroot).symm
    have hhanded := hinv.handOver hw hend
    obtain ⟨hspec, -⟩ := popComponent_spec (st.handOver v rest) hhanded.order hv
    generalize hst' : (st.handOver v rest).popComponent v = st' at hspec
    have hindex : st'.index = st.index := by
      funext u
      rw [CycleState.index, CycleState.index, hspec.idx]
      rfl
    have hmem : ∀ u, u ∈ st'.sccStack ↔ u ∈ st.sccStack ∧ st.index u < st.index v := hspec.mem
    have hwork : st'.opened = rest.map Prod.fst := by
      rw [CycleState.opened, hspec.work]
      rfl
    refine ⟨?_, ?_, ?_, ?_⟩
    · intro u hu p hp hle
      rw [hindex] at hle
      rw [hwork] at hp
      exact h.reach u ((hmem u).mp hu).1 p (hopened p hp) hle
    · intro u hu
      obtain ⟨hstack, hlt⟩ := (hmem u).mp hu
      obtain ⟨w, hwstack, hlow, hreach⟩ := h.link_handOver hinv hw hstack
      have hle : (st.handOver v rest).low u ≤ st.index u :=
        Nat.le_trans (low_handOver_le st v rest u) (hinv.lowSelf u hstack)
      refine ⟨w, (hmem w).mpr ⟨hwstack, by omega⟩, ?_, hreach⟩
      rw [hindex, hspec.low, hlow]
    · intro u hu hnot
      obtain ⟨hstack, hlt⟩ := (hmem u).mp hu
      have hne : u ≠ v := by
        rintro rfl
        exact Nat.lt_irrefl _ hlt
      rw [hwork] at hnot
      rw [hspec.low, hindex]
      exact Nat.lt_of_le_of_lt (low_handOver_le st v rest u)
        (h.finished u hstack (hclosed u hnot hne))
    · intro u hu
      rw [← hst'] at hu
      rcases popComponent_marks (st.handOver v rest) hhanded.order hv hu with
        hold | ⟨hstack, hle, w, hwstack, hne, hwle⟩
      · exact h.marked u hold
      · exact h.component_cycle hinv hw hroot' hstack hle hwstack hwle hne
  · next hroot =>
    have hlt : st.low v < st.index v := by
      have hle := hinv.lowSelf v hv
      have hne : st.index v ≠ st.low v := fun heq => hroot (by rw [hidx, heq])
      omega
    refine ⟨?_, ?_, ?_, h.marked⟩
    · intro u hu p hp hle
      exact h.reach u hu p (hopened p hp) hle
    · exact fun u hu => h.link_handOver hinv hw hu
    · intro u hu hnot
      refine Nat.lt_of_le_of_lt (low_handOver_le st v rest u) ?_
      by_cases huv : u = v
      · rw [huv]
        exact hlt
      · exact h.finished u hu (hclosed u hnot huv)

end ReachInv

/-! ## Runs -/

/-- The states the loops of `nodes_in_cycles` go through. -/
inductive CycleState.Reachable (g : CsrGraph) : CycleState → Prop
  | init : CycleState.Reachable g
      { inCycle := fun v => decide (v < g.numNodes) && (g.neighbors v).contains v }
  | start {st : CycleState} {start : Nat} : CycleState.Reachable g st → st.work = [] →
      start < g.numNodes → st.idx start = none → CycleState.Reachable g (st.visit g start)
  | turn {st st' : CycleState} : CycleState.Reachable g st → CycleState.step g st = some st' →
      CycleState.Reachable g st'

/-- Popping down to the node runs out of the stack before it finds the node. -/
def CycleState.Underflows (v : Nat) : List Nat → Prop
  | [] => True
  | w :: rest => w ≠ v ∧ CycleState.Underflows v rest

theorem not_underflows {v : Nat} {stack : List Nat} (hv : v ∈ stack) :
    ¬CycleState.Underflows v stack := by
  induction stack with
  | nil => cases hv
  | cons w rest ih =>
    rintro ⟨hne, hrest⟩
    exact ih ((List.mem_cons.mp hv).resolve_left (Ne.symm hne)) hrest

/-- One turn of the inner loop keeps what ties the state to paths. -/
theorem reach_step {base : Nat} {st st' : CycleState}
    (hinv : CycleInv g base none st) (h : ReachInv g st)
    (hstep : CycleState.step g st = some st') : ReachInv g st' := by
  unfold CycleState.step at hstep
  cases hw : st.work with
  | nil =>
    rw [hw] at hstep
    cases hstep
  | cons p rest =>
  obtain ⟨v, cursor⟩ := p
  have hvmem : (v, cursor) ∈ st.work := by
    rw [hw]
    exact List.mem_cons_self
  rw [hw] at hstep
  dsimp only at hstep
  split at hstep
  · next hlt =>
    have he : g.Edge v (g.adj cursor) := edge_iff.mpr ⟨cursor, hinv.cursors _ hvmem, hlt, rfl⟩
    -- whichever way the turn goes, the cursor has moved over one edge
    have hadv := h.advance hw
    have hopened : CycleState.opened { st with work := (v, cursor + 1) :: rest } = st.opened := by
      rw [CycleState.opened, CycleState.opened, hw]
      rfl
    split at hstep
    · next hnone =>
      cases hstep
      have hnew : st.seen (g.adj cursor) = false := by
        rw [CycleState.seen, hnone]
        rfl
      refine hadv.visit (hinv.advance hw) hnew ?_
      intro p hp
      rw [hopened] at hp
      exact (h.reach_top hinv hw hp).tail he
    · next i hi =>
      have hindex : st.index (g.adj cursor) = i := by
        rw [CycleState.index, hi]
        rfl
      split at hstep
      · next hon =>
        cases hstep
        rw [← hindex]
        refine hadv.lower ?_ ((hinv.onStack _).mp hon) he
        rw [hopened]
        exact mem_opened.mpr ⟨cursor, hvmem⟩
      · cases hstep
        exact hadv
  · next hend =>
    cases hstep
    exact h.finish hinv hw hend

/-- What holds of every state of a run. -/
theorem CycleState.Reachable.inv (hg : g.Valid) {st : CycleState}
    (h : CycleState.Reachable g st) :
    (∃ base, CycleInv g base none st) ∧ ReachInv g st ∧ (st.work = [] → CycleIdle g st) := by
  induction h with
  | init =>
    have hidle := cycleIdle_init (g := g)
      (fun v => decide (v < g.numNodes) && (g.neighbors v).contains v) fun u hu he => by
        rw [decide_eq_true hu, Bool.true_and, List.contains_iff_mem]
        exact he
    refine ⟨⟨_, hidle.inv⟩, ⟨?_, ?_, ?_, ?_⟩, fun _ => hidle⟩
    · exact fun u hu => absurd hu List.not_mem_nil
    · exact fun u hu => absurd hu List.not_mem_nil
    · exact fun u hu => absurd hu List.not_mem_nil
    · intro u hu
      have hself := (Bool.and_eq_true_iff.mp hu).2
      exact .single (List.contains_iff_mem.mp hself)
  | @start st start _ hwork hnode hnone ih =>
    obtain ⟨-, hreach, hidle⟩ := ih
    have hinv := (hidle hwork).inv
    have hnew : st.seen start = false := by
      rw [CycleState.seen, hnone]
      rfl
    refine ⟨⟨_, hinv.visit hnode hnew (fun _ _ hnone => by cases hnone) (Nat.le_refl _)
      fun _ => rfl⟩, hreach.visit hinv hnew ?_, fun hnil => by cases hnil⟩
    intro p hp
    rw [CycleState.opened, hwork] at hp
    cases hp
  | turn _ hstep ih =>
    obtain ⟨⟨base, hinv⟩, hreach, -⟩ := ih
    obtain ⟨hinv', -, -, hstack⟩ := cycle_step hg hinv hstep
    exact ⟨⟨base, hinv'⟩, reach_step hinv hreach hstep,
      fun hwork => hinv'.idle hwork (hstack hwork)⟩

/-- The states between the searches are reachable, with nothing open. -/
theorem reachable_foldl (hg : g.Valid) {starts : List Nat} (hstarts : ∀ v ∈ starts, v < g.numNodes)
    {st : CycleState} (h : CycleState.Reachable g st) (hidle : CycleIdle g st) :
    CycleState.Reachable g (starts.foldl (CycleState.search g) st) ∧
      CycleIdle g (starts.foldl (CycleState.search g) st) := by
  induction starts generalizing st with
  | nil => exact ⟨h, hidle⟩
  | cons start starts ih =>
    have hnode := hstarts start List.mem_cons_self
    refine ih (fun v hv => hstarts v (List.mem_cons_of_mem _ hv)) ?_
      (search_cycle hg hidle hnode).1
    unfold CycleState.search
    split
    · exact h
    · next hskip =>
      have hnone : st.idx start = none := Option.not_isSome_iff_eq_none.mp hskip
      exact runRounds_inv (fun t t' ht hstep => CycleState.Reachable.turn ht hstep) g.turns
        (.start h hidle.work hnode hnone)

/-- The final state of the loops. -/
theorem nodesInCycles_final (hg : g.Valid) {k : Nat} (hk : k ≤ g.numNodes) :
    CycleState.Reachable g ((List.range k).foldl (CycleState.search g)
        { inCycle := fun v => decide (v < g.numNodes) && (g.neighbors v).contains v }) ∧
      CycleIdle g ((List.range k).foldl (CycleState.search g)
        { inCycle := fun v => decide (v < g.numNodes) && (g.neighbors v).contains v }) :=
  reachable_foldl hg (fun _ hv => Nat.lt_of_lt_of_le (List.mem_range.mp hv) hk) .init
    ((CycleState.Reachable.init.inv hg).2.2 rfl)

theorem nodesInCycles_iff (hg : g.Valid) {v : Nat} (hv : v < g.numNodes) :
    g.nodesInCycles v = true ↔ TransGen g.Edge v v := by
  constructor
  · exact ((nodesInCycles_final hg (Nat.le_refl _)).1.inv hg).2.1.marked v
  · intro hcycle
    by_contra hunmarked
    exact not_transGen_of_unmarked hg hv (Bool.eq_false_iff.mpr hunmarked) hcycle

/-- The paths of a laid-out graph are those of its edges. -/
theorem transGen_fromEdges {numNodes : Nat} {edges : List (Nat × Nat)}
    (hedges : EdgesWithin numNodes edges) {v w : Nat} (hv : v < numNodes) :
    TransGen (fromEdges numNodes edges).Edge v w ↔ TransGen (fun a b => (a, b) ∈ edges) v w := by
  have hsrc : ∀ e ∈ edges, e.1 < numNodes := fun e he => (hedges e he).1
  constructor
  · intro h
    have hboth : TransGen (fun a b => (a, b) ∈ edges) v w ∧ w < numNodes := by
      induction h with
      | single he =>
        have hmem := (edge_fromEdges hsrc hv).mp he
        exact ⟨.single hmem, (hedges _ hmem).2⟩
      | tail _ he ih =>
        have hmem := (edge_fromEdges hsrc ih.2).mp he
        exact ⟨ih.1.tail hmem, (hedges _ hmem).2⟩
    exact hboth.1
  · intro h
    exact TransGen.mono (fun a b hab => (edge_fromEdges hsrc (hedges _ hab).1).mpr hab) _ _ h

/-- A node is on a cycle when it has a self-loop, or when another node is in its strongly
connected component. -/
theorem transGen_self_iff {α : Type} {r : α → α → Prop} {v : α} :
    TransGen r v v ↔ r v v ∨ ∃ w, w ≠ v ∧ ReflTransGen r v w ∧ ReflTransGen r w v := by
  constructor
  · intro h
    obtain ⟨w, hvw, hwv⟩ := TransGen.head'_iff.mp h
    by_cases hne : w = v
    · exact Or.inl (hne ▸ hvw)
    · exact Or.inr ⟨w, hne, .single hvw, hwv⟩
  · rintro (hself | ⟨w, hne, hvw, hwv⟩)
    · exact .single hself
    · rcases reflTransGen_iff_eq_or_transGen.mp hvw with heq | htrans
      · exact absurd heq hne
      · exact htrans.trans_left hwv

/-- For every list of edges between nodes, repeated ones and self-loops included: the layout
keeps the out-edges of every node, as often as they are given; the marked nodes are those on
a directed cycle, by a self-loop or in a strongly connected component of two nodes or more;
every search comes to its end; and whenever a component is popped, its root is on the stack. -/
theorem nodes_in_cycles_exact (numNodes : Nat) (edges : List (Nat × Nat))
    (hedges : EdgesWithin numNodes edges) :
    let g := fromEdges numNodes edges
    let leads := fun a b => (a, b) ∈ edges
    (∀ u < numNodes, g.neighbors u = (edges.filter fun e => decide (e.1 = u)).map Prod.snd) ∧
    (∀ v < numNodes, (g.nodesInCycles v = true ↔ TransGen leads v v) ∧
      (g.nodesInCycles v = true ↔
        leads v v ∨ ∃ w, w ≠ v ∧ ReflTransGen leads v w ∧ ReflTransGen leads w v)) ∧
    (∀ k ≤ numNodes, ((List.range k).foldl (CycleState.search g)
      { inCycle := fun v => decide (v < g.numNodes) && (g.neighbors v).contains v }).work = []) ∧
    ∀ st, CycleState.Reachable g st → ∀ v cursor rest, st.work = (v, cursor) :: rest →
      ¬CycleState.Underflows v st.sccStack := by
  intro g leads
  have hg : g.Valid := valid_fromEdges hedges
  refine ⟨?_, ?_, ?_, ?_⟩
  · intro u hu
    exact neighbors_fromEdges (fun e he => (hedges e he).1) hu
  · intro v hv
    have hcycle : g.nodesInCycles v = true ↔ TransGen leads v v :=
      (nodesInCycles_iff hg hv).trans (transGen_fromEdges hedges hv)
    exact ⟨hcycle, hcycle.trans transGen_self_iff⟩
  · intro k hk
    exact (nodesInCycles_final hg hk).2.work
  · intro st hst v cursor rest hw
    obtain ⟨⟨base, hinv⟩, -, -⟩ := hst.inv hg
    exact not_underflows (hinv.top_mem_stack hw)

/-- Two nodes on a cycle, a third with a self-loop given twice, and a fourth that leads to
them. -/
theorem nodes_in_cycles_exact_four :
    let edges := [(0, 1), (1, 0), (2, 2), (2, 2), (3, 0)]
    EdgesWithin 4 edges ∧
      ((fromEdges 4 edges).nodesInCycles 3 = true ↔
        TransGen (fun a b => (a, b) ∈ edges) 3 3) :=
  ⟨by decide, ((nodes_in_cycles_exact 4 _ (by decide)).2.1 3 (by decide)).1⟩

example : (List.range 4).map (fromEdges 4 [(0, 1), (1, 0), (2, 2), (2, 2), (3, 0)]).nodesInCycles =
    [true, true, true, false] := by decide +kernel

end CsrGraph

end Lifeguard
