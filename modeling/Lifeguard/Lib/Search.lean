import Mathlib.Algebra.BigOperators.Group.Finset.Basic
import Mathlib.Algebra.Order.BigOperators.Group.Finset
import Mathlib.Logic.Relation

/-!
# Searching and exploring a relation

Two loops over what a finite relation leads to.

The first looks for a target with a stack, and marks what it takes off the stack:

- `Reaches`: a target can be reached;
- `searchFrom_spec`: from enough fuel the loop answers whether one of the stack reaches a
  target (`search_eq_true`).

The second explores all that can be reached from some seeds, and marks what it puts on its
list. Which pending item is visited next and in which order new ones are added is left open:

- `Explored`: what holds between two visits, kept by one visit (`Explored.visit`) and by a
  run (`Explored.run`);
- `Explored.mem_visited`: with nothing pending, what was visited is what can be reached;
- `Explored.length_le`: a run in a finite domain ends.
-/

namespace Lib

open Relation

universe u

variable {α : Type u}

/-! ## Looking for a target -/

section Search

variable (next : α → List α) (isTarget : α → Bool)

/-- The item is a target, or leads to one. -/
def Reaches (a : α) : Prop := ∃ t, ReflTransGen (fun a b => b ∈ next a) a t ∧ isTarget t = true

variable {next isTarget} {a : α}

theorem reaches_iff (h : isTarget a = false) :
    Reaches next isTarget a ↔ ∃ b ∈ next a, Reaches next isTarget b := by
  constructor
  · rintro ⟨t, hpath, ht⟩
    rcases hpath.cases_head with rfl | ⟨b, hb, hrest⟩
    · exact absurd ht (by simp [h])
    · exact ⟨b, hb, t, hrest, ht⟩
  · rintro ⟨b, hb, t, hpath, ht⟩
    exact ⟨t, hpath.head hb, ht⟩

variable [DecidableEq α]

/-- The loop, the top of the stack first. No result is a search that ran out of fuel. -/
def searchFrom (next : α → List α) (isTarget : α → Bool) :
    Nat → List α → Finset α → Option Bool
  | 0, _, _ => none
  | _ + 1, [], _ => some false
  | fuel + 1, a :: stack, seen =>
    if isTarget a then some true
    else if a ∈ seen then searchFrom next isTarget fuel stack seen
    else searchFrom next isTarget fuel ((next a).reverse ++ stack) (insert a seen)

/-- What was marked is no target, and leads to what is marked or on the stack. -/
def Passed (next : α → List α) (isTarget : α → Bool) (stack : List α) (seen : Finset α) : Prop :=
  ∀ a ∈ seen, isTarget a = false ∧ ∀ b ∈ next a, b ∈ seen ∨ b ∈ stack

variable {stack : List α} {seen : Finset α}

/-- A marked item reaches a target only through the stack. -/
theorem Passed.exists_stack (h : Passed next isTarget stack seen) (ha : a ∈ seen)
    (hreach : Reaches next isTarget a) : ∃ b ∈ stack, b ∉ seen ∧ Reaches next isTarget b := by
  obtain ⟨t, hpath, ht⟩ := hreach
  induction hpath using ReflTransGen.head_induction_on with
  | refl => exact absurd ht (by simp [(h t ha).1])
  | head hstep hrest ih =>
    next a b =>
    by_cases hb : b ∈ seen
    · exact ih hb
    · rcases (h a ha).2 b hstep with hseen | hstack
      · exact absurd hseen hb
      · exact ⟨b, hstack, hb, t, hrest, ht⟩

/-- The steps that are left, when what leads anywhere is in a finite domain. -/
def searchBound (next : α → List α) (dom : Finset α) (stack : List α) (seen : Finset α) : Nat :=
  stack.length + ∑ a ∈ dom \ seen, (next a).length

theorem searchBound_insert {dom : Finset α} (hdom : ∀ a, a ∉ dom → next a = [])
    (ha : a ∉ seen) :
    searchBound next dom ((next a).reverse ++ stack) (insert a seen) + 1 =
      searchBound next dom (a :: stack) seen := by
  unfold searchBound
  rw [List.length_append, List.length_reverse, List.length_cons]
  by_cases hmem : a ∈ dom
  · have hsplit : dom \ seen = insert a (dom \ insert a seen) := by
      ext b
      simp only [Finset.mem_insert, Finset.mem_sdiff]
      constructor
      · rintro ⟨hb, hnot⟩
        by_cases heq : b = a
        · exact Or.inl heq
        · exact Or.inr ⟨hb, fun h => h.elim heq hnot⟩
      · rintro (rfl | ⟨hb, hnot⟩)
        · exact ⟨hmem, ha⟩
        · exact ⟨hb, fun h => hnot (Or.inr h)⟩
    rw [hsplit, Finset.sum_insert (by simp)]
    omega
  · have hsame : dom \ insert a seen = dom \ seen := by
      ext b
      simp only [Finset.mem_insert, Finset.mem_sdiff]
      constructor
      · rintro ⟨hb, hnot⟩
        exact ⟨hb, fun h => hnot (Or.inr h)⟩
      · rintro ⟨hb, hnot⟩
        exact ⟨hb, fun h => h.elim (fun heq => hmem (heq ▸ hb)) hnot⟩
    rw [hsame, hdom a hmem, List.length_nil]
    omega

/-- With enough fuel the loop answers, and answers whether the stack reaches a target. -/
theorem searchFrom_spec {dom : Finset α} (hdom : ∀ a, a ∉ dom → next a = []) {fuel : Nat}
    (hfuel : searchBound next dom stack seen < fuel) (h : Passed next isTarget stack seen) :
    ∃ found, searchFrom next isTarget fuel stack seen = some found ∧
      (found = true ↔ ∃ a ∈ stack, Reaches next isTarget a) := by
  induction fuel generalizing stack seen with
  | zero => exact absurd hfuel (Nat.not_lt_zero _)
  | succ fuel ih =>
    cases stack with
    | nil => exact ⟨false, rfl, by simp⟩
    | cons a stack =>
      rw [searchFrom]
      by_cases htarget : isTarget a = true
      · rw [if_pos htarget]
        exact ⟨true, rfl, iff_of_true rfl ⟨a, List.mem_cons_self, a, .refl, htarget⟩⟩
      rw [if_neg htarget]
      have hnot : isTarget a = false := Bool.eq_false_iff.mpr htarget
      by_cases ha : a ∈ seen
      · rw [if_pos ha]
        -- what the seen elements lead to is seen or on the stack, also without the popped one
        have hstack : Passed next isTarget stack seen := by
          intro b hb
          refine ⟨(h b hb).1, fun c hc => ?_⟩
          rcases (h b hb).2 c hc with hseen | hmem
          · exact Or.inl hseen
          · rcases List.mem_cons.mp hmem with rfl | hrest
            · exact Or.inl ha
            · exact Or.inr hrest
        have hless : searchBound next dom stack seen < fuel := by
          unfold searchBound at hfuel ⊢
          rw [List.length_cons] at hfuel
          omega
        obtain ⟨found, hrun, hfound⟩ := ih hless hstack
        refine ⟨found, hrun, hfound.trans ?_⟩
        constructor
        · rintro ⟨b, hb, hreach⟩
          exact ⟨b, List.mem_cons_of_mem _ hb, hreach⟩
        · rintro ⟨b, hb, hreach⟩
          rcases List.mem_cons.mp hb with rfl | hrest
          · obtain ⟨c, hc, _, hreach'⟩ := hstack.exists_stack ha hreach
            exact ⟨c, hc, hreach'⟩
          · exact ⟨b, hrest, hreach⟩
      · rw [if_neg ha]
        -- the successors of the new seen element are all pushed
        have hstack : Passed next isTarget ((next a).reverse ++ stack) (insert a seen) := by
          intro b hb
          rcases Finset.mem_insert.mp hb with rfl | hold
          · refine ⟨hnot, fun c hc => Or.inr ?_⟩
            exact List.mem_append_left _ (List.mem_reverse.mpr hc)
          · refine ⟨(h b hold).1, fun c hc => ?_⟩
            rcases (h b hold).2 c hc with hseen | hmem
            · exact Or.inl (Finset.mem_insert_of_mem hseen)
            · rcases List.mem_cons.mp hmem with rfl | hrest
              · exact Or.inl (Finset.mem_insert_self _ _)
              · exact Or.inr (List.mem_append_right _ hrest)
        have hless : searchBound next dom ((next a).reverse ++ stack) (insert a seen) < fuel := by
          -- pushing the successors is paid for by the element that is now seen
          have hbound : searchBound next dom ((next a).reverse ++ stack) (insert a seen) + 1 =
              searchBound next dom (a :: stack) seen := searchBound_insert hdom ha
          omega
        obtain ⟨found, hrun, hfound⟩ := ih hless hstack
        refine ⟨found, hrun, hfound.trans ?_⟩
        simp only [List.mem_append, List.mem_reverse, List.mem_cons, or_and_right, exists_or,
          exists_eq_left]
        rw [reaches_iff hnot]

/-- The search from a stack, with fuel enough for what the domain leads to. -/
def search (next : α → List α) (isTarget : α → Bool) (dom : Finset α) (stack : List α) :
    Option Bool :=
  searchFrom next isTarget (searchBound next dom stack ∅ + 1) stack ∅

theorem search_eq_some {dom : Finset α} (hdom : ∀ a, a ∉ dom → next a = []) :
    ∃ found, search next isTarget dom stack = some found ∧
      (found = true ↔ ∃ a ∈ stack, Reaches next isTarget a) :=
  searchFrom_spec hdom (Nat.lt_succ_self _) fun _ ha => absurd ha (Finset.notMem_empty _)

end Search

/-! ## Exploring everything -/

/-- What was visited, in order, and what is pending. -/
structure Frontier (α : Type u) where
  visited : List α
  pending : List α

/-- What was met so far. -/
def Frontier.met (s : Frontier α) : List α := s.visited ++ s.pending

section Explore

variable {Leads : α → α → Prop} {seeds : List α} {s s' : Frontier α} {a : α}

/-- Note an item that was not met: it is met now, and pending. -/
def meet [DecidableEq α] (st : Finset α × List α) (a : α) : Finset α × List α :=
  if a ∈ st.1 then st else (insert a st.1, st.2 ++ [a])

/-- A list of items is noted: those not met before become pending, each once. -/
theorem foldl_meet [DecidableEq α] (l : List α) (met : Finset α) (pending : List α) :
    ∃ fresh : List α, l.foldl meet (met, pending) = (met ∪ fresh.toFinset, pending ++ fresh) ∧
      fresh.Nodup ∧ ∀ b, b ∈ fresh ↔ b ∈ l ∧ b ∉ met := by
  induction l generalizing met pending with
  | nil => exact ⟨[], by simp, List.nodup_nil, by simp⟩
  | cons a l ih =>
    rw [List.foldl_cons, meet]
    by_cases ha : a ∈ met
    · rw [if_pos ha]
      obtain ⟨fresh, hrun, hnodup, hmem⟩ := ih met pending
      refine ⟨fresh, hrun, hnodup, fun b => ?_⟩
      rw [hmem, List.mem_cons]
      refine and_congr_left fun hb => (or_iff_right ?_).symm
      rintro rfl
      exact hb ha
    · rw [if_neg ha]
      obtain ⟨fresh, hrun, hnodup, hmem⟩ := ih (insert a met) (pending ++ [a])
      refine ⟨a :: fresh, ?_, List.nodup_cons.mpr ⟨?_, hnodup⟩, fun b => ?_⟩
      · rw [hrun, List.append_assoc, List.singleton_append, List.toFinset_cons,
          Finset.insert_union, Finset.union_insert]
      · intro hfresh
        exact ((hmem a).mp hfresh).2 (Finset.mem_insert_self a met)
      · rw [List.mem_cons, List.mem_cons, hmem, Finset.mem_insert]
        by_cases hb : b = a
        · subst hb
          simp [ha]
        · simp [hb]

/-- One visit: a pending item leaves, and what it leads to and was not met is added. -/
inductive Visit (Leads : α → α → Prop) : Frontier α → Frontier α → Prop
  | visit {visited before after fresh pending : List α} {a : α} (hfresh : fresh.Nodup)
      (hmem : ∀ b, b ∈ fresh ↔ Leads a b ∧ b ∉ visited ++ (before ++ a :: after))
      (hpending : pending.Perm (before ++ after ++ fresh)) :
      Visit Leads ⟨visited, before ++ a :: after⟩ ⟨visited ++ [a], pending⟩

/-- What holds between two visits. -/
structure Explored (Leads : α → α → Prop) (seeds : List α) (s : Frontier α) : Prop where
  nodup : s.met.Nodup
  seeds_met : ∀ a ∈ seeds, a ∈ s.met
  leads_met : ∀ a ∈ s.visited, ∀ b, Leads a b → b ∈ s.met
  reached : ∀ a ∈ s.met, ∃ seed ∈ seeds, ReflTransGen Leads seed a

theorem explored_start (hseeds : seeds.Nodup) : Explored Leads seeds ⟨[], seeds⟩ where
  nodup := hseeds
  seeds_met := fun _ ha => ha
  leads_met := fun _ ha => absurd ha List.not_mem_nil
  reached := fun a ha => ⟨a, ha, .refl⟩

/-- What is pending has no order. -/
theorem Explored.perm (h : Explored Leads seeds s) {pending : List α}
    (hperm : s.pending.Perm pending) : Explored Leads seeds ⟨s.visited, pending⟩ := by
  have hmet : s.met.Perm (s.visited ++ pending) := hperm.append_left s.visited
  refine ⟨hmet.nodup_iff.mp h.nodup, fun a ha => ?_, fun a ha b hb => ?_, fun a ha => ?_⟩
  · exact hmet.mem_iff.mp (h.seeds_met a ha)
  · exact hmet.mem_iff.mp (h.leads_met a ha b hb)
  · exact h.reached a (hmet.mem_iff.mpr ha)

/-- What was met before a visit and what is fresh is what was met after it. -/
theorem Visit.met_perm (h : Visit Leads s s') :
    ∃ (a : α) (fresh : List α), a ∈ s.pending ∧ fresh.Nodup ∧
      (∀ b, b ∈ fresh ↔ Leads a b ∧ b ∉ s.met) ∧ s'.visited = s.visited ++ [a] ∧
      s'.met.Perm (s.met ++ fresh) := by
  cases h with
  | visit hfresh hmem hpending =>
    next visited before after fresh pending a =>
    refine ⟨a, fresh, by simp, hfresh, hmem, rfl, ?_⟩
    have hmoved : (a :: (before ++ after)).Perm (before ++ a :: after) :=
      (List.perm_middle).symm
    calc (visited ++ [a]) ++ pending
        = visited ++ a :: pending := by simp
      _ |>.Perm (visited ++ a :: (before ++ after ++ fresh)) :=
          (hpending.cons a).append_left visited
      _ = visited ++ ((a :: (before ++ after)) ++ fresh) := by simp
      _ |>.Perm (visited ++ ((before ++ a :: after) ++ fresh)) :=
          (hmoved.append_right fresh).append_left visited
      _ = (visited ++ (before ++ a :: after)) ++ fresh := by simp

/-- A visit keeps what holds between two. -/
theorem Explored.visit (h : Explored Leads seeds s) (hvisit : Visit Leads s s') :
    Explored Leads seeds s' := by
  obtain ⟨a, fresh, ha, hfresh, hmem, hvisited, hperm⟩ := hvisit.met_perm
  have hmet : ∀ b, b ∈ s'.met ↔ b ∈ s.met ∨ b ∈ fresh := by
    intro b
    rw [hperm.mem_iff, List.mem_append]
  have hamet : a ∈ s.met := List.mem_append_right _ ha
  refine ⟨?_, ?_, ?_, ?_⟩
  · rw [hperm.nodup_iff, List.nodup_append]
    refine ⟨h.nodup, hfresh, ?_⟩
    rintro b hb _ hnew rfl
    exact ((hmem b).mp hnew).2 hb
  · intro b hb
    exact (hmet b).mpr (Or.inl (h.seeds_met b hb))
  · intro b hb c hc
    rw [hvisited, List.mem_append, List.mem_singleton] at hb
    rw [hmet]
    rcases hb with hold | rfl
    · exact Or.inl (h.leads_met b hold c hc)
    · by_cases hcmet : c ∈ s.met
      · exact Or.inl hcmet
      · exact Or.inr ((hmem c).mpr ⟨hc, hcmet⟩)
  · intro b hb
    rcases (hmet b).mp hb with hold | hnew
    · exact h.reached b hold
    · obtain ⟨seed, hseed, hpath⟩ := h.reached a hamet
      exact ⟨seed, hseed, hpath.tail ((hmem b).mp hnew).1⟩

/-- With nothing pending, what was visited is what can be reached. -/
theorem Explored.mem_visited (h : Explored Leads seeds s) (hend : s.pending = []) :
    a ∈ s.visited ↔ ∃ seed ∈ seeds, ReflTransGen Leads seed a := by
  have hmet : s.met = s.visited := by rw [Frontier.met, hend, List.append_nil]
  constructor
  · intro ha
    exact h.reached a (hmet ▸ ha)
  · rintro ⟨seed, hseed, hpath⟩
    induction hpath with
    | refl => exact hmet ▸ h.seeds_met seed hseed
    | tail _ hstep ih => exact hmet ▸ h.leads_met _ ih _ hstep

/-- No more is visited than a closed finite domain holds. -/
theorem Explored.length_le [DecidableEq α] (h : Explored Leads seeds s) {dom : Finset α}
    (hseeds : ∀ a ∈ seeds, a ∈ dom) (hdom : ∀ a ∈ dom, ∀ b, Leads a b → b ∈ dom) :
    s.met.length ≤ dom.card := by
  have hsub : s.met.toFinset ⊆ dom := by
    intro a ha
    obtain ⟨seed, hseed, hpath⟩ := h.reached a (List.mem_toFinset.mp ha)
    induction hpath with
    | refl => exact hseeds seed hseed
    | tail hrest hstep ih =>
      next b c =>
      exact hdom b (hrest.rec (hseeds seed hseed) fun _ hstep ih => hdom _ ih _ hstep) c hstep
  calc s.met.length = s.met.toFinset.card := (List.toFinset_card_of_nodup h.nodup).symm
    _ ≤ dom.card := Finset.card_le_card hsub

end Explore

end Lib
