import Lifeguard.CsrTraversal
import Mathlib.Data.List.Nodup

/-!
# The dependency levels are a schedule

`dependencyLevels` puts every unsettled node in a level, and, when the unsettled nodes
have no cycle among them, an unsettled out-neighbour in an earlier one:

- `nodeLevels_isSome`: which nodes get a level;
- `nodeLevels_lt`: an out-neighbour's level is lower;
- `mem_dependencyLevels`: a level lists the nodes that have it;
- `dependency_levels_schedule`: the levels list the unsettled nodes and none is empty, cycles
  or not, and without cycles they count the longest paths.

The invariant of the search (`LevelInv`) says that the work stack is a path of the graph,
so that an edge back into it closes a cycle.
-/

namespace Lifeguard

open Lib Function Relation

namespace CsrGraph

variable {g : CsrGraph} {settled : Nat → Bool}

/-- An edge between two nodes that are not settled. -/
def OpenEdge (g : CsrGraph) (settled : Nat → Bool) (u w : Nat) : Prop :=
  g.Edge u w ∧ settled u = false ∧ settled w = false

/-- No cycle runs through unsettled nodes only. -/
def AcyclicUnsettled (g : CsrGraph) (settled : Nat → Bool) : Prop :=
  ∀ v, v < g.numNodes → ¬TransGen (g.OpenEdge settled) v v

/-- The node already has a level or is being expanded. -/
def LevelState.seen (st : LevelState) (v : Nat) : Bool :=
  (st.level v).isSome || st.expanding v

/-- What holds of every state of the level search. -/
structure LevelInv (g : CsrGraph) (settled : Nat → Bool) (st : LevelState) : Prop where
  openNodes : ∀ v, st.expanding v = true ↔ ∃ c, (v, c) ∈ st.work
  nodup : (st.work.map Prod.fst).Nodup
  cursors : ∀ v c, (v, c) ∈ st.work → g.offsets v ≤ c
  node : ∀ v, st.seen v = true → v < g.numNodes ∧ settled v = false
  fresh : ∀ v, st.expanding v = true → st.level v = none
  path : st.work.Pairwise fun p q => TransGen (g.OpenEdge settled) q.1 p.1
  examined : ∀ u w, st.expanding u = true → g.Examined st.work u w →
    settled w = true ∨ st.seen w = true
  done : ∀ u l w, st.level u = some l → g.Edge u w →
    settled w = true ∨ (∃ lw, st.level w = some lw ∧ lw < l) ∨
      ReflTransGen (g.OpenEdge settled) w u
  below : ∀ u l, st.level u = some (l + 1) →
    ∃ w, g.Edge u w ∧ settled w = false ∧ st.level w = some l

theorem seen_push (st : LevelState) (w : Nat) (work : List (Nat × Nat)) :
    LevelState.seen { st with expanding := update st.expanding w true, work } =
      update st.seen w true := by
  funext u
  show ((st.level u).isSome || update st.expanding w true u) = _
  by_cases hu : u = w
  · rw [hu, update_self, update_self, Bool.or_true]
  · rw [update_of_ne hu, update_of_ne hu]
    rfl

theorem seen_finish {st : LevelState} {v : Nat} (hv : st.expanding v = true) (l : Nat)
    (work : List (Nat × Nat)) :
    LevelState.seen
        { level := update st.level v (some l), expanding := update st.expanding v false, work } =
      st.seen := by
  funext u
  show ((update st.level v (some l) u).isSome || update st.expanding v false u) =
    ((st.level u).isSome || st.expanding u)
  by_cases hu : u = v
  · rw [hu, update_self, update_self, hv, Bool.or_true]
    rfl
  · rw [update_of_ne hu, update_of_ne hu]

theorem lt_levelOf {st : LevelState} {v w l : Nat} (he : g.Edge v w)
    (hs : settled w = false) (hl : st.level w = some l) : l < st.levelOf g settled v := by
  unfold LevelState.levelOf
  have hmem : l + 1 ∈ (g.neighbors v).filterMap fun w =>
      if settled w then none else (st.level w).map fun l => l + 1 :=
    List.mem_filterMap.mpr ⟨w, he, by simp [hs, hl]⟩
  revert hmem
  generalize (g.neighbors v).filterMap _ = ls
  intro hmem
  induction ls with
  | nil => cases hmem
  | cons a ls ih =>
    rw [List.foldr_cons]
    rcases List.mem_cons.mp hmem with heq | hrest
    · omega
    · have := ih hrest
      omega

/-- A level that is not the first is one past that of an unsettled neighbour. -/
theorem levelOf_eq_succ {st : LevelState} {v l : Nat}
    (h : st.levelOf g settled v = l + 1) :
    ∃ w, g.Edge v w ∧ settled w = false ∧ st.level w = some l := by
  unfold LevelState.levelOf at h
  have hmem : ∀ ls : List Nat, ls.foldr max 0 = l + 1 → l + 1 ∈ ls := by
    intro ls
    induction ls with
    | nil => exact fun h => absurd h (by simp)
    | cons a ls ih =>
      intro hmax
      rw [List.foldr_cons] at hmax
      by_cases ha : a = l + 1
      · exact ha ▸ List.mem_cons_self
      · exact List.mem_cons_of_mem a (ih (by omega))
  obtain ⟨w, he, hw⟩ := List.mem_filterMap.mp (hmem _ h)
  split at hw
  · cases hw
  · next hs =>
    obtain ⟨lw, hlw, heq⟩ := Option.map_eq_some_iff.mp hw
    exact ⟨w, he, Bool.eq_false_iff.mpr hs, Nat.succ.inj heq ▸ hlw⟩

namespace LevelInv

variable {st : LevelState} {v cursor : Nat} {rest : List (Nat × Nat)}

/-- The node on top of the work stack is open nowhere below. -/
theorem not_mem_rest (h : LevelInv g settled st) (hw : st.work = (v, cursor) :: rest)
    (c : Nat) : (v, c) ∉ rest := by
  have hnodup := h.nodup
  rw [hw, List.map_cons, List.nodup_cons] at hnodup
  exact fun hmem => hnodup.1 (List.mem_map.mpr ⟨_, hmem, rfl⟩)

theorem expanding_top (h : LevelInv g settled st) (hw : st.work = (v, cursor) :: rest) :
    st.expanding v = true :=
  (h.openNodes v).mpr ⟨cursor, by rw [hw]; exact List.mem_cons_self⟩

theorem seen_top (h : LevelInv g settled st) (hw : st.work = (v, cursor) :: rest) :
    st.seen v = true := by
  rw [LevelState.seen, h.expanding_top hw, Bool.or_true]

/-- Every open node reaches the one on top, or is it. -/
theorem reaches_top (h : LevelInv g settled st) (hw : st.work = (v, cursor) :: rest)
    {w : Nat} (hexp : st.expanding w = true) :
    w = v ∨ TransGen (g.OpenEdge settled) w v := by
  obtain ⟨c, hmem⟩ := (h.openNodes w).mp hexp
  have hpath := h.path
  rw [hw] at hmem hpath
  rcases List.mem_cons.mp hmem with heq | hrest
  · cases heq
    exact Or.inl rfl
  · exact Or.inr ((List.pairwise_cons.mp hpath).1 _ hrest)

/-- Advancing the cursor over an edge to a settled or seen node. -/
theorem advance (h : LevelInv g settled st) (hw : st.work = (v, cursor) :: rest)
    (hskip : settled (g.adj cursor) = true ∨ st.seen (g.adj cursor) = true) :
    LevelInv g settled { st with work := (v, cursor + 1) :: rest } where
  openNodes u := by
    rw [h.openNodes u, hw]
    constructor
    · rintro ⟨c, hmem⟩
      rcases List.mem_cons.mp hmem with heq | hrest
      · cases heq
        exact ⟨_, List.mem_cons_self⟩
      · exact ⟨c, List.mem_cons_of_mem _ hrest⟩
    · rintro ⟨c, hmem⟩
      rcases List.mem_cons.mp hmem with heq | hrest
      · cases heq
        exact ⟨_, List.mem_cons_self⟩
      · exact ⟨c, List.mem_cons_of_mem _ hrest⟩
  nodup := by
    have := h.nodup
    rw [hw] at this
    exact this
  cursors u c hmem := by
    rcases List.mem_cons.mp hmem with heq | hrest
    · cases heq
      have := h.cursors v cursor (by rw [hw]; exact List.mem_cons_self)
      omega
    · exact h.cursors u c (by rw [hw]; exact List.mem_cons_of_mem _ hrest)
  node := h.node
  fresh := h.fresh
  path := by
    have := h.path
    rw [hw, List.pairwise_cons] at this
    exact List.pairwise_cons.mpr this
  examined u w hu hex := by
    rcases examined_advance hex with hex' | ⟨-, rfl⟩
    · rw [← hw] at hex'
      exact h.examined u w hu hex'
    · exact hskip
  done := h.done
  below := h.below

/-- Opening a new node over the edge just examined. -/
theorem push {w : Nat} (h : LevelInv g settled st) (hw : st.work = (v, cursor) :: rest)
    (hedge : g.OpenEdge settled v w) (hnode : w < g.numNodes) (hnew : st.seen w = false)
    (hcursor : ∀ u x, st.expanding u = true → g.Examined ((v, cursor + 1) :: rest) u x →
      x = w ∨ settled x = true ∨ st.seen x = true) :
    LevelInv g settled
      { st with
        expanding := update st.expanding w true
        work := (w, g.offsets w) :: (v, cursor + 1) :: rest } := by
  obtain ⟨hlevel, hexp⟩ : st.level w = none ∧ st.expanding w = false := by
    simpa [LevelState.seen] using hnew
  -- the new node is seen, and only it
  have hseen : ∀ u, update st.seen w true u = true ↔ u = w ∨ st.seen u = true := by
    intro u
    by_cases hu : u = w
    · simp [hu]
    · simp [hu]
  -- the advanced cursor opens the same nodes as before
  have hmem : ∀ u, (∃ c, (u, c) ∈ ((v, cursor + 1) :: rest)) ↔ st.expanding u = true := by
    intro u
    rw [h.openNodes u, hw]
    constructor <;>
    · rintro ⟨c, hmem⟩
      rcases List.mem_cons.mp hmem with heq | hrest
      · cases heq
        exact ⟨_, List.mem_cons_self⟩
      · exact ⟨c, List.mem_cons_of_mem _ hrest⟩
  refine ⟨?_, ?_, ?_, ?_, ?_, ?_, ?_, h.done, h.below⟩
  · intro u
    show update st.expanding w true u = true ↔ _
    rw [update_apply]
    by_cases hu : u = w
    · rw [if_pos hu, hu]
      exact ⟨fun _ => ⟨_, List.mem_cons_self⟩, fun _ => rfl⟩
    · rw [if_neg hu, ← hmem u]
      refine exists_congr fun c => ?_
      rw [List.mem_cons (a := (u, c)) (b := (w, g.offsets w))]
      refine (or_iff_right ?_).symm
      intro heq
      exact hu (congrArg Prod.fst heq)
  · -- an open node was seen, and the new one was not
    rw [List.map_cons, List.nodup_cons]
    refine ⟨?_, ?_⟩
    · intro hin
      obtain ⟨⟨u, c⟩, hmem', rfl⟩ := List.mem_map.mp hin
      rw [(hmem _).mp ⟨c, hmem'⟩] at hexp
      cases hexp
    · have := h.nodup
      rw [hw] at this
      exact this
  · intro u c hin
    rcases List.mem_cons.mp hin with heq | hin
    · cases heq
      exact Nat.le_refl _
    · rcases List.mem_cons.mp hin with heq | hrest
      · cases heq
        have := h.cursors v cursor (by rw [hw]; exact List.mem_cons_self)
        omega
      · exact h.cursors u c (by rw [hw]; exact List.mem_cons_of_mem _ hrest)
  · intro u hu
    rw [seen_push] at hu
    rcases (hseen u).mp hu with rfl | hu
    · exact ⟨hnode, hedge.2.2⟩
    · exact h.node u hu
  · intro u hu
    by_cases huw : u = w
    · rw [huw]
      exact hlevel
    · have hu' : st.expanding u = true := by
        have : update st.expanding w true u = true := hu
        rwa [update_of_ne huw] at this
      exact h.fresh u hu'
  · have hpath := h.path
    rw [hw, List.pairwise_cons] at hpath
    refine List.pairwise_cons.mpr ⟨?_, List.pairwise_cons.mpr hpath⟩
    intro q hq
    rcases List.mem_cons.mp hq with rfl | hq
    · exact TransGen.single hedge
    · exact TransGen.tail (hpath.1 q hq) hedge
  · intro u x hu hex
    rw [seen_push, hseen]
    obtain ⟨hne, hex'⟩ := examined_visit hex
    have hu' : st.expanding u = true := by
      have : update st.expanding w true u = true := hu
      rwa [update_of_ne hne] at this
    rcases hcursor u x hu' hex' with hx | hx | hx
    · exact Or.inr (Or.inl hx)
    · exact Or.inl hx
    · exact Or.inr (Or.inr hx)

/-- Finishing the node on top: its unsettled neighbours all have a level, but for the open
ones, which lead back to it. -/
theorem finish (h : LevelInv g settled st)
    (hw : st.work = (v, cursor) :: rest) (hend : ¬cursor < g.offsets (v + 1)) :
    LevelInv g settled
      { level := update st.level v (some (st.levelOf g settled v))
        expanding := update st.expanding v false
        work := rest } := by
  have hv := h.expanding_top hw
  have hnode := h.node v (h.seen_top hw)
  have hnone := h.fresh v hv
  have hrest := h.not_mem_rest hw
  -- the node on top had no level, so no other level changes
  have hkeep : ∀ w lw, st.level w = some lw →
      update st.level v (some (st.levelOf g settled v)) w = some lw := by
    intro w lw hlw
    have hwv : w ≠ v := by
      rintro rfl
      exact absurd (hnone.symm.trans hlw) (by simp)
    rwa [update_of_ne hwv]
  -- all edges of the node were examined: each neighbour is settled, levelled or still open
  have hneighbors : ∀ w, g.Edge v w → settled w = true ∨ (∃ lw, st.level w = some lw) ∨
      ReflTransGen (g.OpenEdge settled) w v := by
    intro w he
    have hex : g.Examined st.work v w := by
      rw [hw]
      exact examined_of_end hend hrest he
    rcases h.examined v w hv hex with hs | hseen
    · exact Or.inl hs
    · cases hl : st.level w with
      | some lw => exact Or.inr (Or.inl ⟨lw, rfl⟩)
      | none =>
        have hexp : st.expanding w = true := by
          simpa [LevelState.seen, hl] using hseen
        rcases h.reaches_top hw hexp with rfl | hreach
        · exact Or.inr (Or.inr ReflTransGen.refl)
        · exact Or.inr (Or.inr hreach.to_reflTransGen)
  refine ⟨?_, ?_, ?_, ?_, ?_, ?_, ?_, ?_, ?_⟩
  · intro u
    show update st.expanding v false u = true ↔ _
    rw [update_apply]
    by_cases hu : u = v
    · rw [if_pos hu, hu]
      exact ⟨fun hf => (Bool.false_ne_true hf).elim, fun ⟨c, hmem⟩ => absurd hmem (hrest c)⟩
    · rw [if_neg hu, h.openNodes u, hw]
      refine exists_congr fun c => ?_
      rw [List.mem_cons]
      refine or_iff_right ?_
      intro heq
      exact hu (congrArg Prod.fst heq)
  · have := h.nodup
    rw [hw, List.map_cons, List.nodup_cons] at this
    exact this.2
  · intro u c hmem
    exact h.cursors u c (by rw [hw]; exact List.mem_cons_of_mem _ hmem)
  · intro u hu
    rw [seen_finish hv] at hu
    exact h.node u hu
  · intro u hu
    have hu' : update st.expanding v false u = true := hu
    by_cases huv : u = v
    · rw [huv, update_self] at hu'
      cases hu'
    · rw [update_of_ne huv] at hu'
      show update st.level v _ u = none
      rw [update_of_ne huv]
      exact h.fresh u hu'
  · have := h.path
    rw [hw, List.pairwise_cons] at this
    exact this.2
  · intro u w hu hex
    rw [seen_finish hv]
    have hu' : update st.expanding v false u = true := hu
    by_cases huv : u = v
    · rw [huv, update_self] at hu'
      cases hu'
    · rw [update_of_ne huv] at hu'
      refine h.examined u w hu' ?_
      rw [hw]
      exact hex.cons huv
  · intro u l w hl he
    have hl' : update st.level v (some (st.levelOf g settled v)) u = some l := hl
    show settled w = true ∨ (∃ lw, update st.level v _ w = some lw ∧ lw < l) ∨ _
    by_cases huv : u = v
    · rw [huv, update_self] at hl'
      cases hl'
      rw [huv] at he ⊢
      by_cases hs : settled w = true
      · exact Or.inl hs
      rcases (hneighbors w he).resolve_left hs with ⟨lw, hlw⟩ | hback
      · -- a neighbour with a level is below the new one
        have hlt := lt_levelOf he (Bool.eq_false_iff.mpr hs) hlw
        exact Or.inr (Or.inl ⟨lw, hkeep w lw hlw, hlt⟩)
      · exact Or.inr (Or.inr hback)
    · rw [update_of_ne huv] at hl'
      rcases h.done u l w hl' he with hs | ⟨lw, hlw, hlt⟩ | hback
      · exact Or.inl hs
      · exact Or.inr (Or.inl ⟨lw, hkeep w lw hlw, hlt⟩)
      · exact Or.inr (Or.inr hback)
  · intro u l hl
    have hl' : update st.level v (some (st.levelOf g settled v)) u = some (l + 1) := hl
    show ∃ w, g.Edge u w ∧ settled w = false ∧ update st.level v _ w = some l
    by_cases huv : u = v
    · rw [huv, update_self] at hl'
      obtain ⟨w, he, hs, hlw⟩ := levelOf_eq_succ (Option.some.inj hl')
      exact ⟨w, huv ▸ he, hs, hkeep w l hlw⟩
    · rw [update_of_ne huv] at hl'
      obtain ⟨w, he, hs, hlw⟩ := h.below u l hl'
      exact ⟨w, he, hs, hkeep w l hlw⟩

end LevelInv

/-- One turn of the inner loop keeps the invariant, loses no seen node, and takes one
turn off the potential. -/
theorem level_step (hg : g.Valid) {st st' : LevelState} (h : LevelInv g settled st)
    (hstep : LevelState.step g settled st = some st') :
    LevelInv g settled st' ∧ (∀ u, st.seen u = true → st'.seen u = true) ∧
      g.workLeft st'.seen st'.work < g.workLeft st.seen st.work := by
  unfold LevelState.step at hstep
  cases hw : st.work with
  | nil =>
    rw [hw] at hstep
    cases hstep
  | cons p rest =>
  obtain ⟨v, cursor⟩ := p
  have hnode := h.node v (h.seen_top hw)
  rw [hw] at hstep
  dsimp only at hstep
  split at hstep
  · next hlt =>
    split at hstep
    · next hskip =>
      cases hstep
      have hskip' : settled (g.adj cursor) = true ∨ st.seen (g.adj cursor) = true := by
        rw [Bool.or_assoc, Bool.or_eq_true] at hskip
        exact hskip
      exact ⟨h.advance hw hskip', fun _ hu => hu, workLeft_advance _ rest hlt⟩
    · next hskip =>
      cases hstep
      rw [Bool.or_assoc, Bool.or_eq_true, not_or] at hskip
      have hs : settled (g.adj cursor) = false := Bool.eq_false_iff.mpr hskip.1
      have hnew : st.seen (g.adj cursor) = false := Bool.eq_false_iff.mpr hskip.2
      have hlo : g.offsets v ≤ cursor :=
        h.cursors v cursor (by rw [hw]; exact List.mem_cons_self)
      have he : g.Edge v (g.adj cursor) := edge_iff.mpr ⟨cursor, hlo, hlt, rfl⟩
      have htarget := hg.target v _ hnode.1 he
      refine ⟨?_, ?_, ?_⟩
      · refine h.push hw ⟨he, hnode.2, hs⟩ htarget hnew ?_
        intro u x hu hex
        rcases examined_advance hex with hex' | ⟨-, hx⟩
        · rw [← hw] at hex'
          exact Or.inr (h.examined u x hu hex')
        · exact Or.inl hx
      · intro u hu
        rw [seen_push, update_apply, hu, ite_self]
      · rw [seen_push, workLeft_visit _ htarget hnew]
        exact workLeft_advance _ rest hlt
  · next hend =>
    cases hstep
    have hv := h.expanding_top hw
    refine ⟨h.finish hw hend, ?_, ?_⟩
    · intro u hu
      rw [seen_finish hv]
      exact hu
    · rw [seen_finish hv]
      exact workLeft_pop _ _ rest

/-! ## The outer loop -/

/-- What holds between two searches: nothing is open. -/
structure LevelIdle (g : CsrGraph) (settled : Nat → Bool) (st : LevelState) : Prop where
  inv : LevelInv g settled st
  idle : st.work = []

theorem LevelIdle.expanding {st : LevelState} (h : LevelIdle g settled st) (v : Nat) :
    st.expanding v = false := by
  rw [Bool.eq_false_iff]
  intro hexp
  obtain ⟨c, hmem⟩ := (h.inv.openNodes v).mp hexp
  rw [h.idle] at hmem
  cases hmem

theorem levelIdle_init : LevelIdle g settled {} where
  inv :=
    { openNodes := fun _ => ⟨fun h => Bool.noConfusion h, fun ⟨_, h⟩ => nomatch h⟩
      nodup := List.nodup_nil
      cursors := fun _ _ h => nomatch h
      node := fun _ h => Bool.noConfusion h
      fresh := fun _ h => Bool.noConfusion h
      path := List.Pairwise.nil
      examined := fun _ _ h => Bool.noConfusion h
      done := fun _ _ _ h => nomatch h
      below := fun _ _ h => nomatch h }
  idle := rfl

/-- Opening the first node of a search. -/
theorem LevelIdle.open {st : LevelState} (h : LevelIdle g settled st) {start : Nat}
    (hnode : start < g.numNodes) (hs : settled start = false)
    (hl : st.level start = none) :
    LevelInv g settled
      { st with
        work := [(start, g.offsets start)]
        expanding := update st.expanding start true } := by
  have hexp : ∀ u, update st.expanding start true u = true → u = start := by
    intro u hu
    by_contra hne
    rw [update_of_ne hne, h.expanding u] at hu
    cases hu
  refine ⟨?_, List.nodup_singleton _, ?_, ?_, ?_, List.pairwise_singleton _ _, ?_, h.inv.done,
    h.inv.below⟩
  · intro u
    constructor
    · intro hu
      rw [hexp u hu]
      exact ⟨_, List.mem_cons_self⟩
    · rintro ⟨c, hmem⟩
      rcases List.mem_cons.mp hmem with heq | hnil
      · cases heq
        exact update_self ..
      · cases hnil
  · intro u c hmem
    rcases List.mem_cons.mp hmem with heq | hnil
    · cases heq
      exact Nat.le_refl _
    · cases hnil
  · intro u hu
    rw [seen_push] at hu
    by_cases hne : u = start
    · rw [hne]
      exact ⟨hnode, hs⟩
    · rw [update_of_ne hne] at hu
      exact h.inv.node u hu
  · intro u hu
    rw [hexp u hu]
    exact hl
  · intro u w hu hex
    have hex' : g.Examined [(start, g.offsets start)] u w := hex
    exact absurd (hexp u hu) (examined_visit hex').1

/-- A search ends with nothing open, keeps what had a level, and levels its start. -/
theorem search_level (hg : g.Valid) {st : LevelState} (h : LevelIdle g settled st) {start : Nat}
    (hnode : start < g.numNodes) :
    LevelIdle g settled (LevelState.search g settled st start) ∧
      (∀ u, (st.level u).isSome →
        ((LevelState.search g settled st start).level u).isSome) ∧
      (settled start = false →
        ((LevelState.search g settled st start).level start).isSome) := by
  unfold LevelState.search
  split
  · next hskip =>
    refine ⟨h, fun _ hu => hu, fun hs => ?_⟩
    rw [hs, Bool.false_or] at hskip
    exact hskip
  · next hskip =>
    rw [Bool.or_eq_true, not_or] at hskip
    have hs : settled start = false := Bool.eq_false_iff.mpr hskip.1
    have hl : st.level start = none := Option.not_isSome_iff_eq_none.mp hskip.2
    have hseen : st.seen start = false := by
      rw [LevelState.seen, hl, h.expanding start]
      rfl
    set opened : LevelState :=
      { st with
        work := [(start, g.offsets start)]
        expanding := update st.expanding start true } with hopened
    set final := runRounds (LevelState.step g settled) g.turns opened with hfinal
    have hinv : LevelInv g settled opened := h.open hnode hs hl
    have hrun : LevelInv g settled final ∧
        ∀ u, opened.seen u = true → final.seen u = true := by
      refine runRounds_inv
        (P := fun t => LevelInv g settled t ∧ ∀ u, opened.seen u = true → t.seen u = true)
        ?_ g.turns ⟨hinv, fun _ hu => hu⟩
      rintro t t' ⟨ht, hmono⟩ hstep
      obtain ⟨h1, h2, -⟩ := level_step hg ht hstep
      exact ⟨h1, fun u hu => h2 u (hmono u hu)⟩
    -- the turns allowed cover every edge and node once
    have hfuel : g.workLeft opened.seen opened.work ≤ g.turns := by
      rw [hopened, seen_push, workLeft_visit _ hnode hseen]
      exact workLeft_le_turns hg _
    have hrest : LevelState.step g settled final = none :=
      runRounds_stable_of_inv (P := LevelInv g settled)
        (fun t => g.workLeft t.seen t.work)
        (fun t t' ht hstep =>
          have hturn := level_step hg ht hstep
          ⟨hturn.1, hturn.2.2⟩)
        hinv hfuel
    -- no step is left only when nothing is open
    have hidle : LevelIdle g settled final := by
      refine ⟨hrun.1, ?_⟩
      unfold LevelState.step at hrest
      cases hw : final.work with
      | nil => rfl
      | cons p rest =>
        rw [hw] at hrest
        dsimp only at hrest
        split at hrest
        · split at hrest <;> cases hrest
        · cases hrest
    have hlevel : ∀ u, opened.seen u = true → (final.level u).isSome := by
      intro u hu
      have := hrun.2 u hu
      rw [LevelState.seen, hidle.expanding u, Bool.or_false] at this
      exact this
    refine ⟨hidle, fun u hu => hlevel u ?_, fun _ => hlevel start ?_⟩
    · rw [hopened, seen_push, update_apply]
      split
      · rfl
      · rw [LevelState.seen, hu, Bool.true_or]
    · rw [hopened, seen_push, update_self]

/-- Once the outer loop is done, nothing is open and every unsettled start has a level. -/
theorem foldl_search (hg : g.Valid)
    (starts : List Nat) (hstarts : ∀ v ∈ starts, v < g.numNodes) {st : LevelState}
    (h : LevelIdle g settled st) :
    LevelIdle g settled (starts.foldl (LevelState.search g settled) st) ∧
      (∀ u, (st.level u).isSome →
        ((starts.foldl (LevelState.search g settled) st).level u).isSome) ∧
      ∀ u ∈ starts, settled u = false →
        ((starts.foldl (LevelState.search g settled) st).level u).isSome := by
  induction starts generalizing st with
  | nil => exact ⟨h, fun _ hu => hu, fun u hu => nomatch hu⟩
  | cons start starts ih =>
    rw [List.foldl_cons]
    obtain ⟨h1, h2, h3⟩ := search_level hg h (hstarts start List.mem_cons_self)
    obtain ⟨i1, i2, i3⟩ := ih (fun v hv => hstarts v (List.mem_cons_of_mem _ hv)) h1
    refine ⟨i1, fun u hu => i2 u (h2 u hu), fun u hu hs => ?_⟩
    rcases List.mem_cons.mp hu with rfl | hu
    · exact i2 u (h3 hs)
    · exact i3 u hu hs

/-- Exactly the unsettled nodes get a level. -/
theorem nodeLevels_isSome (hg : g.Valid) (v : Nat) :
    (g.nodeLevels settled v).isSome ↔ v < g.numNodes ∧ settled v = false := by
  obtain ⟨h1, -, h3⟩ := foldl_search hg (List.range g.numNodes)
    (fun v hv => List.mem_range.mp hv) levelIdle_init
  constructor
  · intro hl
    refine h1.inv.node v ?_
    rw [LevelState.seen, Bool.or_eq_true]
    exact Or.inl hl
  · rintro ⟨hv, hs⟩
    exact h3 v (List.mem_range.mpr hv) hs

/-- An unsettled out-neighbour has a lower level. -/
theorem nodeLevels_lt (hg : g.Valid) (hacyclic : g.AcyclicUnsettled settled) {v w l : Nat}
    (hl : g.nodeLevels settled v = some l) (he : g.Edge v w) (hs : settled w = false) :
    ∃ lw, g.nodeLevels settled w = some lw ∧ lw < l := by
  obtain ⟨h1, -, -⟩ := foldl_search hg (List.range g.numNodes)
    (fun v hv => List.mem_range.mp hv) levelIdle_init
  rcases h1.inv.done v l w hl he with hsettled | hlower | hback
  · rw [hs] at hsettled
    cases hsettled
  · exact hlower
  · -- the edge would close a cycle
    obtain ⟨hv, hsv⟩ := (nodeLevels_isSome hg v).mp (by rw [hl]; rfl)
    exact absurd (TransGen.head' ⟨he, hsv, hs⟩ hback) (hacyclic v hv)

theorem le_foldr_max {l : Nat} {ls : List Nat} (h : l ∈ ls) : l ≤ ls.foldr max 0 := by
  induction ls with
  | nil => cases h
  | cons a ls ih =>
    rw [List.foldr_cons]
    rcases List.mem_cons.mp h with rfl | hrest
    · omega
    · have := ih hrest
      omega

/-- The level at position `l` lists the nodes whose level is `l`. -/
theorem mem_dependencyLevels (hg : g.Valid) {l v : Nat} :
    (∃ level, (g.dependencyLevels settled)[l]? = some level ∧ v ∈ level) ↔
      g.nodeLevels settled v = some l := by
  unfold dependencyLevels
  constructor
  · rintro ⟨level, hlevel, hv⟩
    dsimp only at hlevel
    split at hlevel
    · rw [List.getElem?_nil] at hlevel
      cases hlevel
    · rw [List.getElem?_map] at hlevel
      obtain ⟨k, hk, rfl⟩ := Option.map_eq_some_iff.mp hlevel
      obtain ⟨hlt, hkl⟩ := List.getElem?_eq_some_iff.mp hk
      rw [List.getElem_range] at hkl
      rw [List.mem_filter, decide_eq_true_eq, ← hkl] at hv
      exact hv.2
  · intro hl
    have hv : v < g.numNodes :=
      ((nodeLevels_isSome hg v).mp (by rw [hl]; rfl)).1
    have hmem : l ∈ (List.range g.numNodes).filterMap (g.nodeLevels settled) :=
      List.mem_filterMap.mpr ⟨v, List.mem_range.mpr hv, hl⟩
    dsimp only
    rw [if_neg (List.ne_nil_of_mem hmem), List.getElem?_map,
      List.getElem?_range (Nat.lt_succ_of_le (le_foldr_max hmem))]
    refine ⟨_, rfl, ?_⟩
    rw [List.mem_filter]
    exact ⟨List.mem_range.mpr hv, decide_eq_true hl⟩

/-- Every level lists its nodes once. -/
theorem nodup_of_mem_dependencyLevels {level : List Nat}
    (h : level ∈ g.dependencyLevels settled) : level.Nodup := by
  unfold dependencyLevels at h
  dsimp only at h
  split at h
  · cases h
  · obtain ⟨l, -, rfl⟩ := List.mem_map.mp h
    exact List.nodup_range.filter _

/-! ## The schedule -/

/-- The node begins a path of unsettled nodes of that length, and none that is longer. -/
structure LongestBelow (g : CsrGraph) (settled : Nat → Bool) (v l : Nat) : Prop where
  path : ∃ path : List Nat, (v :: path).IsChain (g.OpenEdge settled) ∧ path.length = l
  longest : ∀ path : List Nat, (v :: path).IsChain (g.OpenEdge settled) → path.length ≤ l

/-- Below a level there is a node of every lower one. -/
theorem exists_nodeLevels (hg : g.Valid) {k l v : Nat} (hl : g.nodeLevels settled v = some l)
    (hk : k ≤ l) : ∃ w, g.nodeLevels settled w = some k := by
  obtain ⟨h1, -, -⟩ := foldl_search hg (List.range g.numNodes)
    (fun v hv => List.mem_range.mp hv) (@levelIdle_init g settled)
  induction l generalizing v with
  | zero => exact ⟨v, Nat.le_zero.mp hk ▸ hl⟩
  | succ l ih =>
    rcases Nat.lt_or_eq_of_le hk with hlt | rfl
    · obtain ⟨w, -, -, hw⟩ := h1.inv.below v l hl
      exact ih hw (Nat.le_of_lt_succ hlt)
    · exact ⟨v, hl⟩

/-- A node of a level begins a path that long. -/
theorem exists_path (hg : g.Valid) {l v : Nat} (hl : g.nodeLevels settled v = some l) :
    ∃ path : List Nat, (v :: path).IsChain (g.OpenEdge settled) ∧ path.length = l := by
  obtain ⟨h1, -, -⟩ := foldl_search hg (List.range g.numNodes)
    (fun v hv => List.mem_range.mp hv) (@levelIdle_init g settled)
  induction l generalizing v with
  | zero => exact ⟨[], List.isChain_singleton v, rfl⟩
  | succ l ih =>
    obtain ⟨w, he, hw, hlw⟩ := h1.inv.below v l hl
    obtain ⟨path, hpath, hlen⟩ := ih hlw
    have hv := ((nodeLevels_isSome hg v).mp (by rw [hl]; rfl)).2
    exact ⟨w :: path, List.isChain_cons_cons.mpr ⟨⟨he, hv, hw⟩, hpath⟩,
      congrArg (· + 1) hlen⟩

/-- Without cycles among the unsettled nodes no path goes below its level's length. -/
theorem path_le_level (hg : g.Valid) (hacyclic : g.AcyclicUnsettled settled) {l v : Nat}
    (hl : g.nodeLevels settled v = some l) {path : List Nat}
    (hpath : (v :: path).IsChain (g.OpenEdge settled)) : path.length ≤ l := by
  induction path generalizing v l with
  | nil => exact Nat.zero_le l
  | cons w path ih =>
    obtain ⟨hopen, hrest⟩ := List.isChain_cons_cons.mp hpath
    obtain ⟨lw, hlw, hlt⟩ := nodeLevels_lt hg hacyclic hl hopen.1 hopen.2.2
    exact Nat.lt_of_le_of_lt (ih hlw hrest) hlt

theorem longestBelow_nodeLevels (hg : g.Valid) (hacyclic : g.AcyclicUnsettled settled)
    {l v : Nat} (hl : g.nodeLevels settled v = some l) : g.LongestBelow settled v l where
  path := exists_path hg hl
  longest _ hpath := path_le_level hg hacyclic hl hpath

/-- No level is empty: below the deepest there is a node of each. -/
theorem ne_nil_of_mem_dependencyLevels (hg : g.Valid) {level : List Nat}
    (h : level ∈ g.dependencyLevels settled) : level ≠ [] := by
  have hmax : ∀ ls : List Nat, ls ≠ [] → ls.foldr max 0 ∈ ls := by
    intro ls
    induction ls with
    | nil => exact fun h => absurd rfl h
    | cons a ls ih =>
      intro _
      rw [List.foldr_cons]
      by_cases hls : ls = []
      · simp [hls]
      · rcases Nat.le_total a (ls.foldr max 0) with hle | hle
        · rw [Nat.max_eq_right hle]
          exact List.mem_cons_of_mem a (ih hls)
        · rw [Nat.max_eq_left hle]
          exact List.mem_cons_self
  unfold dependencyLevels at h
  dsimp only at h
  split at h
  · cases h
  · next hne =>
    obtain ⟨l, hl, rfl⟩ := List.mem_map.mp h
    obtain ⟨v, -, hv⟩ := List.mem_filterMap.mp (hmax _ hne)
    obtain ⟨w, hw⟩ := exists_nodeLevels hg hv (Nat.le_of_lt_succ (List.mem_range.mp hl))
    have hnode := ((nodeLevels_isSome hg w).mp (by rw [hw]; rfl)).1
    exact List.ne_nil_of_mem
      (List.mem_filter.mpr ⟨List.mem_range.mpr hnode, decide_eq_true hw⟩)

/-- No node is in two levels, or in one twice. -/
theorem nodup_flatten_dependencyLevels : (g.dependencyLevels settled).flatten.Nodup := by
  refine List.nodup_flatten.mpr ⟨fun level h => nodup_of_mem_dependencyLevels h, ?_⟩
  unfold dependencyLevels
  dsimp only
  split
  · exact List.Pairwise.nil
  · rw [List.pairwise_map]
    refine List.nodup_range.imp ?_
    intro k l hkl v hk hl
    have hvk := of_decide_eq_true (List.mem_filter.mp hk).2
    have hvl := of_decide_eq_true (List.mem_filter.mp hl).2
    exact hkl (Option.some.inj (hvk.symm.trans hvl))

/-- The levels list the unsettled nodes, each once. -/
theorem perm_flatten_dependencyLevels (hg : g.Valid) :
    (g.dependencyLevels settled).flatten.Perm
      ((List.range g.numNodes).filter fun v => !settled v) := by
  refine (List.perm_ext_iff_of_nodup nodup_flatten_dependencyLevels
    (List.nodup_range.filter _)).mpr fun v => ?_
  rw [List.mem_flatten, List.mem_filter, List.mem_range, Bool.not_eq_true',
    ← nodeLevels_isSome hg v, Option.isSome_iff_exists]
  constructor
  · rintro ⟨level, hlevel, hv⟩
    obtain ⟨l, hl⟩ := List.mem_iff_getElem?.mp hlevel
    exact ⟨l, (mem_dependencyLevels hg).mp ⟨level, hl, hv⟩⟩
  · rintro ⟨l, hl⟩
    obtain ⟨level, hlevel, hv⟩ := (mem_dependencyLevels hg).mpr hl
    exact ⟨level, List.mem_of_getElem? hlevel, hv⟩

/-- On every graph laid out from edges between its nodes, and for every choice of settled
nodes: each search of the outer loop comes to its end, the levels list every unsettled node
once and no settled one, and none is empty; and when no cycle runs through unsettled nodes, a
node's level is the length of the longest path of unsettled nodes below it, its unsettled
out-neighbours being in earlier levels. -/
theorem dependency_levels_schedule (numNodes : Nat) (edges : List (Nat × Nat))
    (hedges : EdgesWithin numNodes edges) (settled : Nat → Bool) :
    let g := fromEdges numNodes edges
    (∀ k ≤ numNodes,
      ((List.range k).foldl (LevelState.search g settled) {}).work = []) ∧
    (g.dependencyLevels settled).flatten.Perm
      ((List.range numNodes).filter fun v => !settled v) ∧
    (∀ level ∈ g.dependencyLevels settled, level ≠ []) ∧
    (g.AcyclicUnsettled settled → ∀ l level v,
      (g.dependencyLevels settled)[l]? = some level → v ∈ level →
        g.LongestBelow settled v l ∧
        ∀ w, (v, w) ∈ edges → settled w = false →
          ∃ l' < l, ∃ level', (g.dependencyLevels settled)[l']? = some level' ∧ w ∈ level') := by
  intro g
  have hg : g.Valid := valid_fromEdges hedges
  refine ⟨?_, perm_flatten_dependencyLevels hg,
    fun level => ne_nil_of_mem_dependencyLevels hg, ?_⟩
  · intro k hk
    exact (foldl_search hg (List.range k)
      (fun v hv => Nat.lt_of_lt_of_le (List.mem_range.mp hv) hk) levelIdle_init).1.idle
  · intro hacyclic l level v hlevel hv
    have hl := (mem_dependencyLevels hg).mp ⟨level, hlevel, hv⟩
    refine ⟨longestBelow_nodeLevels hg hacyclic hl, ?_⟩
    intro w hedge hw
    have hnode := ((nodeLevels_isSome hg v).mp (by rw [hl]; rfl)).1
    have he : g.Edge v w := (edge_fromEdges (fun e he => (hedges e he).1) hnode).mpr hedge
    obtain ⟨lw, hlw, hlt⟩ := nodeLevels_lt hg hacyclic hl he hw
    exact ⟨lw, hlt, (mem_dependencyLevels hg).mpr hlw⟩

/-- Two ways from the first node to the last, and an edge past them. -/
def diamondEdges : List (Nat × Nat) := [(0, 1), (0, 2), (1, 3), (2, 3), (0, 3)]

/-- Its edges lead to greater nodes, so that there is no cycle. -/
theorem acyclicUnsettled_diamond :
    (fromEdges 4 diamondEdges).AcyclicUnsettled fun _ => false := by
  have hedge : ∀ {u w}, u < 4 → (fromEdges 4 diamondEdges).OpenEdge (fun _ => false) u w →
      u < w ∧ w < 4 := by
    intro u w hu h
    have hmem := (edge_fromEdges (by decide) hu).mp h.1
    have hincrease : ∀ e ∈ diamondEdges, e.1 < e.2 ∧ e.2 < 4 := by decide
    exact hincrease _ hmem
  intro v hv hcycle
  have hpath : ∀ {w}, TransGen ((fromEdges 4 diamondEdges).OpenEdge fun _ => false) v w →
      v < w ∧ w < 4 := by
    intro w h
    induction h with
    | single hlast => exact hedge hv hlast
    | tail _ hlast ih =>
      obtain ⟨hlt, hle⟩ := hedge ih.2 hlast
      exact ⟨ih.1.trans hlt, hle⟩
  exact lt_irrefl v (hpath hcycle).1

/-- A cycle of two nodes that a third leads to, with its edge given twice, the last node
settled; and a graph without cycles, whose first node is above a longest path of two edges. -/
theorem dependency_levels_schedule_samples :
    (let edges := [(0, 1), (1, 0), (2, 0), (2, 0), (1, 3)]
      let settled : Nat → Bool := fun v => v == 3
      EdgesWithin 4 edges ∧
        ((fromEdges 4 edges).dependencyLevels settled).flatten.Perm
          ((List.range 4).filter fun v => !settled v)) ∧
    (fromEdges 4 diamondEdges).dependencyLevels (fun _ => false) = [[3], [1, 2], [0]] ∧
      (fromEdges 4 diamondEdges).LongestBelow (fun _ => false) 0 2 := by
  have hlevels : (fromEdges 4 diamondEdges).dependencyLevels (fun _ => false) =
      [[3], [1, 2], [0]] := by decide
  refine ⟨⟨by decide, (dependency_levels_schedule 4 _ (by decide) _).2.1⟩, hlevels, ?_⟩
  exact ((dependency_levels_schedule 4 diamondEdges (by decide) fun _ => false).2.2.2
    acyclicUnsettled_diamond 2 [0] 0 (by rw [hlevels]; rfl) (List.mem_singleton_self _)).1

end CsrGraph

end Lifeguard
