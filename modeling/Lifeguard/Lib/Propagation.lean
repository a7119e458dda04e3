import Lifeguard.Lib.Rounds
import Mathlib.Data.List.Nodup
import Mathlib.Data.List.Perm.Subperm
import Mathlib.Data.Set.Lattice
import Mathlib.Logic.Relation

/-!
# Propagation along edges with a worklist

Every node has a set of facts, and an edge hands the facts of its source to its target. A
stack of edge indices drives the run: an edge is taken off and applied, and when that
changed the target, the edges that read from the target are put back, unless they are on
the stack already. What a state is, and how an edge is applied to it, are parameters
(`Merges`).

- `worklist_rest`: with enough fuel for the growth that is left, the stack runs empty;
- `facts_worklist`: every node then has the facts of all the nodes it can be reached
  from, and no other; so the order of the edges decides nothing.
-/

namespace Lib

open Relation

universe u v w x

variable {σ : Type u} {ε : Type v} {κ : Type w} {φ : Type x}

/-- What the library needs to know of a propagation. Only the states that are `ok` and the
edges that are `active` matter; `potential` is the growth that is left. -/
structure Merges (edges : List ε) (source target : ε → κ) (active : ε → Prop)
    (facts : σ → κ → Set φ) (ok : σ → Prop) (potential : σ → Nat)
    (apply : σ → ε → Bool × σ) : Prop where
  ok_apply : ∀ s, ok s → ∀ e ∈ edges, ok (apply s e).2
  inactive : ∀ s, ok s → ∀ e ∈ edges, ¬active e → apply s e = (false, s)
  facts_target : ∀ s, ok s → ∀ e ∈ edges, active e →
    facts (apply s e).2 (target e) = facts s (target e) ∪ facts s (source e)
  facts_other : ∀ s, ok s → ∀ e ∈ edges, ∀ k, k ≠ target e →
    facts (apply s e).2 k = facts s k
  changed : ∀ s, ok s → ∀ e ∈ edges, active e →
    ((apply s e).1 = true ↔ ¬facts s (source e) ⊆ facts s (target e))
  potential_changed : ∀ s, ok s → ∀ e ∈ edges, (apply s e).1 = true →
    potential (apply s e).2 < potential s
  potential_same : ∀ s, ok s → ∀ e ∈ edges, potential (apply s e).2 ≤ potential s

/-- The state propagated to so far, which edges are on the stack, and the stack. -/
structure Worklist (σ : Type u) where
  value : σ
  queued : List Bool
  work : List Nat

namespace Worklist

section Run

variable [DecidableEq κ] (edges : List ε) (source target : ε → κ) (apply : σ → ε → Bool × σ)

/-- The indices of the edges that read from a node. -/
def dependents (k : κ) : List Nat :=
  (List.range edges.length).filter fun j => (edges[j]?).any fun e => decide (source e = k)

/-- Put an edge on the stack, unless it is there. -/
def requeue (st : Worklist σ) (j : Nat) : Worklist σ :=
  if st.queued.getD j false then st
  else { st with queued := st.queued.set j true, work := j :: st.work }

/-- Take the top edge off the stack and apply it. -/
def step (st : Worklist σ) : Option (Worklist σ) :=
  match st.work with
  | [] => none
  | i :: rest =>
    let popped : Worklist σ := { st with queued := st.queued.set i false, work := rest }
    match edges[i]? with
    | none => some popped
    | some e =>
      let (changed, value) := apply st.value e
      let applied : Worklist σ := { popped with value }
      if changed then some ((dependents edges source (target e)).foldl requeue applied)
      else some applied

/-- Every edge is on the stack, the last one on top. -/
def start (s : σ) : Worklist σ where
  value := s
  queued := List.replicate edges.length true
  work := (List.range edges.length).reverse

/-- Apply at most `fuel` edges. -/
def run (fuel : Nat) (s : σ) : Worklist σ :=
  runRounds (step edges source target apply) fuel (start edges s)

end Run

/-! ## Putting edges back -/

section Requeue

variable {st : Worklist σ} {i j : Nat}

/-- The flag of an edge. -/
def IsQueued (st : Worklist σ) (j : Nat) : Prop := st.queued.getD j false = true

/-- The flags tell which edges are on the stack, each once. -/
structure Flags (n : Nat) (st : Worklist σ) : Prop where
  length : st.queued.length = n
  nodup : st.work.Nodup
  bound : ∀ i ∈ st.work, i < n
  queued : ∀ i, st.IsQueued i ↔ i ∈ st.work

variable {n : Nat}

theorem getD_set {flags : List Bool} {b : Bool} :
    (flags.set i b).getD j false = true ↔
      if j = i then b = true ∧ i < flags.length else flags.getD j false = true := by
  rw [List.getD_eq_getElem?_getD, List.getElem?_set]
  by_cases hji : i = j
  · subst hji
    rw [if_pos rfl, if_pos rfl]
    by_cases hlt : i < flags.length
    · simp [hlt]
    · simp [hlt]
  · rw [if_neg hji, if_neg (Ne.symm hji), List.getD_eq_getElem?_getD]

theorem flags_requeue (h : Flags n st) (hj : j < n) : Flags n (requeue st j) := by
  unfold requeue
  split
  · exact h
  · next hnot =>
    have hwork : j ∉ st.work := fun hmem => hnot ((h.queued j).mpr hmem)
    refine ⟨?_, ?_, ?_, ?_⟩
    · show (st.queued.set j true).length = n
      rw [List.length_set, h.length]
    · exact List.nodup_cons.mpr ⟨hwork, h.nodup⟩
    · intro i hi
      rcases List.mem_cons.mp hi with rfl | hi
      · exact hj
      · exact h.bound i hi
    · intro i
      show (st.queued.set j true).getD i false = true ↔ i ∈ j :: st.work
      rw [getD_set, List.mem_cons, h.length]
      split
      · next hij => simp [hij, hj]
      · next hij => rw [or_iff_right hij, ← h.queued i, IsQueued]

theorem isQueued_requeue (hj : j < st.queued.length) :
    (requeue st j).IsQueued i ↔ st.IsQueued i ∨ i = j := by
  unfold requeue
  split
  · next hq =>
    refine (or_iff_left_of_imp ?_).symm
    rintro rfl
    exact hq
  · show (st.queued.set j true).getD i false = true ↔ _
    rw [getD_set]
    split
    · next hij => simp [hij, hj]
    · next hij => rw [or_iff_left hij, IsQueued]

theorem value_requeue : (requeue st j).value = st.value := by
  unfold requeue
  split <;> rfl

/-- What putting a list of edges back leaves. -/
theorem requeue_all (js : List Nat) (h : Flags n st) (hjs : ∀ j ∈ js, j < n) :
    Flags n (js.foldl requeue st) ∧ (js.foldl requeue st).value = st.value ∧
      ∀ i, (js.foldl requeue st).IsQueued i ↔ st.IsQueued i ∨ i ∈ js := by
  induction js generalizing st with
  | nil => exact ⟨h, rfl, fun i => by simp⟩
  | cons j js ih =>
    have hj := hjs j List.mem_cons_self
    obtain ⟨h1, h2, h3⟩ := ih (flags_requeue h hj) fun k hk => hjs k (List.mem_cons_of_mem _ hk)
    refine ⟨h1, h2.trans value_requeue, fun i => ?_⟩
    rw [List.foldl_cons, h3, isQueued_requeue (by rw [h.length]; exact hj), List.mem_cons,
      or_assoc]

/-- Taking the top edge off the stack clears its flag. -/
theorem flags_pop {rest : List Nat} (h : Flags n st) (hw : st.work = i :: rest)
    (value : σ) :
    Flags n { value, queued := st.queued.set i false, work := rest } ∧
      ∀ j, (st.queued.set i false).getD j false = true ↔ st.IsQueued j ∧ j ≠ i := by
  have hflag : ∀ j, (st.queued.set i false).getD j false = true ↔ st.IsQueued j ∧ j ≠ i := by
    intro j
    rw [getD_set]
    split
    · next hji => simp [hji]
    · next hji => rw [and_iff_left hji, IsQueued]
  have hnodup := h.nodup
  rw [hw, List.nodup_cons] at hnodup
  refine ⟨⟨?_, hnodup.2, ?_, ?_⟩, hflag⟩
  · show (st.queued.set i false).length = n
    rw [List.length_set, h.length]
  · intro j hj
    refine h.bound j ?_
    rw [hw]
    exact List.mem_cons_of_mem _ hj
  · intro j
    show (st.queued.set i false).getD j false = true ↔ j ∈ rest
    rw [hflag, h.queued, hw, List.mem_cons]
    constructor
    · rintro ⟨hj, hne⟩
      exact hj.resolve_left hne
    · intro hj
      refine ⟨Or.inr hj, ?_⟩
      rintro rfl
      exact hnodup.1 hj

end Requeue

/-! ## The invariant of the loop -/

section Inv

variable {edges : List ε} {source target : ε → κ} {active : ε → Prop}
  {facts : σ → κ → Set φ} {ok : σ → Prop} {potential : σ → Nat} {apply : σ → ε → Bool × σ}

/-- `k` can be reached from `k'`: an active edge hands the facts of the one to the
other. -/
def Hands (edges : List ε) (source target : ε → κ) (active : ε → Prop) (k k' : κ) : Prop :=
  ∃ e ∈ edges, active e ∧ target e = k ∧ source e = k'

/-- What holds whenever the stack is looked at. -/
structure Inv (edges : List ε) (source target : ε → κ) (active : ε → Prop)
    (facts : σ → κ → Set φ) (ok : σ → Prop) (s₀ : σ) (st : Worklist σ) : Prop where
  flags : Flags edges.length st
  isOk : ok st.value
  keeps : ∀ k, facts s₀ k ⊆ facts st.value k
  sound : ∀ k, ∀ f ∈ facts st.value k, ∃ k',
    ReflTransGen (Hands edges source target active) k k' ∧ f ∈ facts s₀ k'
  settled : ∀ j e, edges[j]? = some e → active e → ¬st.IsQueued j →
    facts st.value (source e) ⊆ facts st.value (target e)

variable {s₀ : σ} {st st' : Worklist σ}

theorem inv_start (hok : ok s₀) :
    Inv edges source target active facts ok s₀ (start edges s₀) where
  flags := by
    refine ⟨List.length_replicate, ?_, ?_, ?_⟩
    · exact List.nodup_reverse.mpr List.nodup_range
    · intro i hi
      exact List.mem_range.mp (List.mem_reverse.mp hi)
    · intro i
      show (List.replicate edges.length true).getD i false = true ↔
        i ∈ (List.range edges.length).reverse
      rw [List.mem_reverse, List.mem_range, List.getD_eq_getElem?_getD,
        List.getElem?_replicate]
      split <;> simp [*]
  isOk := hok
  keeps _ := Set.Subset.refl _
  sound k _ hf := ⟨k, .refl, hf⟩
  settled j e hj _ hq := by
    obtain ⟨hlt, -⟩ := List.getElem?_eq_some_iff.mp hj
    refine absurd ?_ hq
    show (List.replicate edges.length true).getD j false = true
    rw [List.getD_eq_getElem?_getD, List.getElem?_replicate, if_pos hlt]
    rfl

variable [DecidableEq κ]

theorem mem_dependents {k : κ} {j : Nat} :
    j ∈ dependents edges source k ↔ ∃ e, edges[j]? = some e ∧ source e = k := by
  simp only [dependents, List.mem_filter, List.mem_range, Option.any_eq_true,
    decide_eq_true_eq]
  constructor
  · exact And.right
  · rintro ⟨e, he, hsrc⟩
    exact ⟨(List.getElem?_eq_some_iff.mp he).1, e, he, hsrc⟩

/-- What applying the top edge does to the facts and the flags. -/
theorem step_cases (h : Inv edges source target active facts ok s₀ st)
    (hstep : step edges source target apply st = some st') :
    ∃ i rest e, st.work = i :: rest ∧ edges[i]? = some e ∧
      st'.value = (apply st.value e).2 ∧ Flags edges.length st' ∧
      (∀ j, st'.IsQueued j ↔ (st.IsQueued j ∧ j ≠ i) ∨
        ((apply st.value e).1 = true ∧ j ∈ dependents edges source (target e))) ∧
      ((apply st.value e).1 = false → st'.work = rest) := by
  unfold step at hstep
  cases hw : st.work with
  | nil =>
    rw [hw] at hstep
    cases hstep
  | cons i rest =>
    have hi : i < edges.length := h.flags.bound i (by rw [hw]; exact List.mem_cons_self)
    have he : edges[i]? = some edges[i] := List.getElem?_eq_getElem hi
    rw [hw] at hstep
    dsimp only at hstep
    rw [he] at hstep
    dsimp only at hstep
    obtain ⟨hpop, hflag⟩ := flags_pop h.flags hw (apply st.value edges[i]).2
    refine ⟨i, rest, edges[i], rfl, he, ?_⟩
    cases hc : (apply st.value edges[i]).1 with
    | false =>
      rw [hc] at hstep
      cases hstep
      refine ⟨rfl, hpop, fun j => ?_, fun _ => rfl⟩
      simpa [IsQueued] using hflag j
    | true =>
      rw [hc] at hstep
      cases hstep
      have hdeps : ∀ j ∈ dependents edges source (target edges[i]), j < edges.length :=
        fun j hj => List.mem_range.mp (List.mem_filter.mp hj).1
      obtain ⟨h1, h2, h3⟩ := requeue_all _ hpop hdeps
      refine ⟨h2, h1, fun j => ?_, fun hfalse => nomatch hfalse⟩
      rw [h3, and_iff_right rfl]
      exact or_congr_left (hflag j)

variable (hm : Merges edges source target active facts ok potential apply)

include hm

/-- An applied edge adds the facts of its source to its target, and no other. -/
theorem mem_facts_apply {s : σ} (hok : ok s) {e : ε} (he : e ∈ edges) {k : κ} {f : φ} :
    f ∈ facts (apply s e).2 k ↔
      f ∈ facts s k ∨ (active e ∧ k = target e ∧ f ∈ facts s (source e)) := by
  by_cases hact : active e
  · by_cases hk : k = target e
    · rw [hk, hm.facts_target s hok e he hact]
      simp [hact]
    · rw [hm.facts_other s hok e he k hk]
      simp [hk]
  · rw [hm.inactive s hok e he hact]
    simp [hact]

theorem inv_step (h : Inv edges source target active facts ok s₀ st)
    (hstep : step edges source target apply st = some st') :
    Inv edges source target active facts ok s₀ st' := by
  obtain ⟨i, rest, e, hw, hi, hvalue, hflags, hqueued, -⟩ := step_cases h hstep
  have he : e ∈ edges := List.mem_of_getElem? hi
  have hfacts : ∀ {k : κ} {f : φ}, f ∈ facts st'.value k ↔
      f ∈ facts st.value k ∨ (active e ∧ k = target e ∧ f ∈ facts st.value (source e)) := by
    intro k f
    rw [hvalue]
    exact mem_facts_apply hm h.isOk he
  refine ⟨hflags, ?_, ?_, ?_, ?_⟩
  · rw [hvalue]
    exact hm.ok_apply _ h.isOk e he
  · intro k f hf
    exact hfacts.mpr (Or.inl (h.keeps k hf))
  · intro k f hf
    rcases hfacts.mp hf with hold | ⟨hact, rfl, hsource⟩
    · exact h.sound k f hold
    · obtain ⟨k', hreach, hf'⟩ := h.sound _ f hsource
      exact ⟨k', .head ⟨e, he, hact, rfl, rfl⟩ hreach, hf'⟩
  · intro j e' hj hact hq f hf
    have hnot : ¬(st.IsQueued j ∧ j ≠ i) ∧
        ¬((apply st.value e).1 = true ∧ j ∈ dependents edges source (target e)) := by
      rw [← not_or, ← hqueued]
      exact hq
    -- the facts of an edge that is off the stack have reached its target
    have hsource : f ∈ facts st.value (source e') := by
      rcases hfacts.mp hf with hf | ⟨hacte, hsrc, hf⟩
      · exact hf
      · have hsame : (apply st.value e).1 ≠ true :=
          fun hc => hnot.2 ⟨hc, mem_dependents.mpr ⟨e', hj, hsrc⟩⟩
        rw [ne_eq, hm.changed _ h.isOk e he hacte, not_not] at hsame
        rw [hsrc]
        exact hsame hf
    by_cases hji : j = i
    · have hee : e' = e := by
        rw [hji, hi] at hj
        exact (Option.some.inj hj).symm
      subst hee
      exact hfacts.mpr (Or.inr ⟨hact, rfl, hsource⟩)
    · have hold : ¬st.IsQueued j := fun hqj => hnot.1 ⟨hqj, hji⟩
      exact hfacts.mpr (Or.inl (h.settled j e' hj hact hold hsource))

/-! ## The run -/

/-- Every step leaves less growth, or a shorter stack. -/
theorem workLeft_step (h : Inv edges source target active facts ok s₀ st)
    (hstep : step edges source target apply st = some st') :
    potential st'.value * (edges.length + 1) + st'.work.length <
      potential st.value * (edges.length + 1) + st.work.length := by
  obtain ⟨i, rest, e, hw, hi, hvalue, hflags, -, hrest⟩ := step_cases h hstep
  have he : e ∈ edges := List.mem_of_getElem? hi
  cases hc : (apply st.value e).1 with
  | false =>
    have hle := hm.potential_same _ h.isOk e he
    have hmul := Nat.mul_le_mul_right (edges.length + 1) hle
    rw [hvalue, hrest hc, hw, List.length_cons]
    omega
  | true =>
    have hlt := hm.potential_changed _ h.isOk e he hc
    have hmul := Nat.mul_le_mul_right (edges.length + 1) (Nat.succ_le_of_lt hlt)
    -- the stack holds every edge at most once
    have hlen : st'.work.length ≤ edges.length := by
      have hsub : st'.work ⊆ List.range edges.length :=
        fun j hj => List.mem_range.mpr (hflags.bound j hj)
      have hle := (hflags.nodup.subperm hsub).length_le
      rwa [List.length_range] at hle
    rw [hvalue, Nat.succ_mul] at *
    omega

variable {fuel : Nat}

/-- With enough fuel for the growth that is left, the stack runs empty. -/
theorem worklist_rest (hok : ok s₀)
    (hfuel : potential s₀ * (edges.length + 1) + edges.length ≤ fuel) :
    (run edges source target apply fuel s₀).work = [] := by
  have hstart : potential (start edges s₀).value * (edges.length + 1) +
      (start edges s₀).work.length ≤ fuel := by
    show potential s₀ * _ + (List.range edges.length).reverse.length ≤ fuel
    rw [List.length_reverse, List.length_range]
    exact hfuel
  have hrest := runRounds_stable_of_inv
    (P := Inv edges source target active facts ok s₀)
    (fun st : Worklist σ => potential st.value * (edges.length + 1) + st.work.length)
    (fun _ _ h hstep => ⟨inv_step hm h hstep, workLeft_step hm h hstep⟩)
    (inv_start hok) hstart
  unfold run
  generalize runRounds (step edges source target apply) fuel (start edges s₀) = st at hrest ⊢
  unfold step at hrest
  cases hw : st.work with
  | nil => rfl
  | cons i rest =>
    rw [hw] at hrest
    dsimp only at hrest
    split at hrest
    · cases hrest
    · split at hrest <;> cases hrest

theorem inv_run (fuel : Nat) (hok : ok s₀) :
    Inv edges source target active facts ok s₀ (run edges source target apply fuel s₀) :=
  runRounds_inv (fun _ _ h hstep => inv_step hm h hstep) fuel (inv_start hok)

/-- Every node ends with the facts of the nodes it can be reached from. -/
theorem facts_worklist (hok : ok s₀)
    (hfuel : potential s₀ * (edges.length + 1) + edges.length ≤ fuel) (k : κ) (f : φ) :
    f ∈ facts (run edges source target apply fuel s₀).value k ↔
      ∃ k', ReflTransGen (Hands edges source target active) k k' ∧ f ∈ facts s₀ k' := by
  have h := inv_run hm fuel hok
  have hrest := worklist_rest hm hok hfuel
  refine ⟨h.sound k f, ?_⟩
  rintro ⟨k', hreach, hf⟩
  induction hreach using ReflTransGen.head_induction_on with
  | refl => exact h.keeps _ hf
  | head hab _ ih =>
    obtain ⟨e, he, hact, rfl, rfl⟩ := hab
    obtain ⟨j, hj⟩ := List.mem_iff_getElem?.mp he
    refine h.settled j e hj hact ?_ ih
    rw [h.flags.queued, hrest]
    exact List.not_mem_nil

end Inv

end Worklist

end Lib
