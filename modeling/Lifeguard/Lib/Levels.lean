import Lifeguard.Lib.Chain
import Lifeguard.Lib.Table

/-!
# Breadth-first levels

The search that visits the things a step away from the last level, and stops once every
thing it was asked for is visited. `AtLevel` says what a level is without the search: a
thing is at the level of its shortest walk from the start. The search and its state are
those of a loop over a frontier with a table of the levels found, a thing that is already
in the table being skipped.

- `AtLevel.pred`, `AtLevel.lower`, `AtLevel.lt_card`: a level has the one below it, and
  there are no more levels than things;
- `SearchInv`: what holds at the head of the loop;
- `levels_eq_some`: the search finds the levels up to the first at which every wanted
  thing is visited, whatever the order and the repetitions of the frontiers.
-/

namespace Lib

universe u

variable {α : Type u}

/-- A walk of so many steps from the start to the thing. -/
inductive ReachIn (start : α → Prop) (step : α → α → Prop) : Nat → α → Prop
  | start {a : α} : start a → ReachIn start step 0 a
  | step {n : Nat} {a b : α} : ReachIn start step n a → step a b → ReachIn start step (n + 1) b

/-- The shortest walk to the thing has so many steps. -/
def AtLevel (start : α → Prop) (step : α → α → Prop) (k : Nat) (a : α) : Prop :=
  ReachIn start step k a ∧ ∀ j < k, ¬ReachIn start step j a

section Level

variable {start start' : α → Prop} {step step' : α → α → Prop} {k : Nat} {a : α}

theorem AtLevel.unique {j : Nat} (h : AtLevel start step k a) (h' : AtLevel start step j a) :
    k = j := by
  rcases Nat.lt_trichotomy k j with hlt | heq | hgt
  · exact absurd h.1 (h'.2 k hlt)
  · exact heq
  · exact absurd h'.1 (h.2 j hgt)

/-- A thing with a walk is at the level of a walk that is no longer. -/
theorem ReachIn.exists_level (h : ReachIn start step k a) : ∃ j ≤ k, AtLevel start step j a := by
  induction k using Nat.strong_induction_on with
  | _ k ih =>
    by_cases hshort : ∃ j < k, ReachIn start step j a
    · obtain ⟨j, hj, hreach⟩ := hshort
      obtain ⟨i, hi, hlevel⟩ := ih j hj hreach
      exact ⟨i, Nat.le_trans hi (Nat.le_of_lt hj), hlevel⟩
    · exact ⟨k, Nat.le_refl k, h, fun j hj hreach => hshort ⟨j, hj, hreach⟩⟩

/-- The walk to a thing of a level comes from the level below. -/
theorem AtLevel.pred (h : AtLevel start step (k + 1) a) :
    ∃ b, AtLevel start step k b ∧ step b a := by
  obtain ⟨hreach, hshort⟩ := h
  cases hreach with
  | step hb hstep =>
    refine ⟨_, ⟨hb, ?_⟩, hstep⟩
    intro j hj hreach
    exact hshort (j + 1) (Nat.succ_lt_succ hj) (.step hreach hstep)

/-- A step leads at most one level up. -/
theorem AtLevel.succ_le {j : Nat} {b : α} (h : AtLevel start step j b) (hstep : step b a)
    (ha : AtLevel start step k a) : k ≤ j + 1 := by
  by_contra hlt
  exact ha.2 (j + 1) (Nat.lt_of_not_le hlt) (.step h.1 hstep)

theorem AtLevel.lower (h : AtLevel start step k a) {j : Nat} (hj : j ≤ k) :
    ∃ b, AtLevel start step j b := by
  induction k generalizing a with
  | zero => exact ⟨a, Nat.le_zero.mp hj ▸ h⟩
  | succ k ih =>
    rcases Nat.lt_or_eq_of_le hj with hlt | heq
    · obtain ⟨b, hb, _⟩ := h.pred
      exact ih hb (Nat.le_of_lt_succ hlt)
    · exact ⟨a, heq ▸ h⟩

/-- There are fewer levels below one than there are things. -/
theorem AtLevel.lt_card (h : AtLevel start step k a) {s : Finset α}
    (hs : ∀ j b, AtLevel start step j b → b ∈ s) : k < s.card := by
  refine lt_card_of_ranks (R := fun j b => AtLevel start step j b) ?_ ?_
  · intro j hj
    obtain ⟨b, hb⟩ := h.lower hj
    exact ⟨b, hs j b hb, hb⟩
  · intro i j b hi hj
    exact hi.unique hj

theorem AtLevel.congr (hstart : ∀ a, start a ↔ start' a) (hstep : ∀ a b, step a b ↔ step' a b) :
    AtLevel start step k a ↔ AtLevel start' step' k a := by
  rw [funext fun a => propext (hstart a), funext fun a => funext fun b => propext (hstep a b)]

end Level

/-! ## The search -/

variable [DecidableEq α]

/-- What the search holds while it goes through a frontier. -/
structure SearchState (α : Type u) [DecidableEq α] where
  /-- The level of each thing visited. -/
  found : Table α Nat
  /-- The wanted things not visited yet. -/
  unreached : List α
  /-- The next frontier. -/
  next : List α

/-- Visit a thing of the frontier, unless it was visited. -/
def visit (successors : α → List α) (depth : Nat) (st : SearchState α) (a : α) :
    SearchState α :=
  if (st.found.get? a).isSome then st
  else
    let found := st.found.insert a depth
    { found
      unreached := st.unreached.filter (· ≠ a)
      next := st.next ++ (successors a).filter fun b => (found.get? b).isNone }

/-- The search from a frontier, level by level. -/
def levels (successors : α → List α) : Nat → Table α Nat → List α → List α → Nat → Table α Nat
  | 0, found, _, _, _ => found
  | fuel + 1, found, unreached, frontier, depth =>
    if frontier = [] ∨ unreached = [] then found
    else
      let st := frontier.foldl (visit successors depth) { found, unreached, next := [] }
      levels successors fuel st.found st.unreached st.next (depth + 1)

variable {successors : α → List α} {wanted : List α} {start : α → Prop}

/-- One thing leads to the other. -/
def Follows (successors : α → List α) (a b : α) : Prop := b ∈ successors a

/-- What holds at the head of the loop. -/
structure SearchInv (successors : α → List α) (start : α → Prop) (wanted : List α)
    (found : Table α Nat) (unreached frontier : List α) (depth : Nat) : Prop where
  found_iff : ∀ a k, found.get? a = some k ↔ k < depth ∧ AtLevel start (Follows successors) k a
  frontier_level : ∀ a ∈ frontier,
    AtLevel start (Follows successors) depth a ∨ (found.get? a).isSome
  level_frontier : ∀ a, AtLevel start (Follows successors) depth a → a ∈ frontier
  unreached_iff : ∀ a, a ∈ unreached ↔ a ∈ wanted ∧ found.get? a = none
  awake : ∀ j < depth, ∃ c ∈ wanted, ∀ i < j, ¬AtLevel start (Follows successors) i c

/-- What holds within a level: the frontier is split into what was visited and what was
not, and the levels below are final. -/
structure VisitInv (successors : α → List α) (start : α → Prop) (wanted : List α)
    (depth : Nat) (done : List α) (st : SearchState α) : Prop where
  found_iff : ∀ a k, st.found.get? a = some k ↔
    (k < depth ∧ AtLevel start (Follows successors) k a) ∨
      (k = depth ∧ AtLevel start (Follows successors) k a ∧ a ∈ done)
  next_level : ∀ a ∈ st.next,
    AtLevel start (Follows successors) (depth + 1) a ∨
      AtLevel start (Follows successors) depth a ∨ (st.found.get? a).isSome
  level_next : ∀ b, AtLevel start (Follows successors) (depth + 1) b →
    ∀ a ∈ done, AtLevel start (Follows successors) depth a → b ∈ successors a → b ∈ st.next
  unreached_iff : ∀ a, a ∈ st.unreached ↔ a ∈ wanted ∧ st.found.get? a = none

omit [DecidableEq α] in
/-- A thing reached in one step from a level is at the next one, at the same one or below. -/
theorem AtLevel.step_cases {k : Nat} {a b : α} (ha : AtLevel start (Follows successors) k a)
    (hb : b ∈ successors a) : ∃ j ≤ k + 1, AtLevel start (Follows successors) j b :=
  (ReachIn.step ha.1 hb).exists_level

theorem VisitInv.visit {depth : Nat} {done : List α} {st : SearchState α} {a : α}
    (hinv : VisitInv successors start wanted depth done st)
    (ha : AtLevel start (Follows successors) depth a ∨ (st.found.get? a).isSome) :
    VisitInv successors start wanted depth (done ++ [a]) (visit successors depth st a) := by
  rw [Lib.visit]
  by_cases hseen : (st.found.get? a).isSome
  · rw [if_pos hseen]
    -- found at this depth means visited before in this turn
    have hdone : ∀ k, AtLevel start (Follows successors) depth a → k = depth → a ∈ done := by
      intro k hlevel _
      obtain ⟨j, hj⟩ := Option.isSome_iff_exists.mp hseen
      rcases (hinv.found_iff a j).mp hj with ⟨hlt, hlevel'⟩ | ⟨_, _, hmem⟩
      · exact absurd (hlevel.unique hlevel') (Nat.ne_of_gt hlt)
      · exact hmem
    refine ⟨?_, hinv.next_level, ?_, hinv.unreached_iff⟩
    · intro b k
      rw [hinv.found_iff]
      refine or_congr_right (and_congr_right fun hk => and_congr_right fun hlevel => ?_)
      rw [List.mem_append, List.mem_singleton]
      exact ⟨Or.inl, fun h => h.elim id fun hb => hb ▸ hdone k (hk ▸ hb ▸ hlevel) hk⟩
    · intro b hb c hc hlevel hstep
      rcases List.mem_append.mp hc with hold | hnew
      · exact hinv.level_next b hb c hold hlevel hstep
      · have heq := List.mem_singleton.mp hnew
        exact hinv.level_next b hb c (heq ▸ hdone depth (heq ▸ hlevel) rfl) hlevel hstep
  · rw [if_neg hseen]
    -- found nowhere yet, so this is its level
    have hlevel : AtLevel start (Follows successors) depth a := ha.resolve_right hseen
    have hfound : ∀ b, (st.found.insert a depth).get? b =
        if b = a then some depth else st.found.get? b := fun b => Table.get?_insert ..
    refine ⟨?_, ?_, ?_, ?_⟩
    · intro b k
      show (st.found.insert a depth).get? b = some k ↔ _
      rw [hfound]
      by_cases hb : b = a
      · rw [if_pos hb, hb]
        constructor
        · intro h
          have hk := Option.some.inj h
          exact Or.inr ⟨hk.symm, hk ▸ hlevel, by simp⟩
        · rintro (⟨_, h⟩ | ⟨hk, _, _⟩)
          · exact congrArg some (hlevel.unique h)
          · rw [hk]
      · rw [if_neg hb, hinv.found_iff]
        simp [hb]
    · intro b hb
      show AtLevel start (Follows successors) (depth + 1) b ∨ _ ∨ ((st.found.insert a depth).get? b).isSome
      rw [hfound]
      rcases List.mem_append.mp hb with hold | hnew
      · rcases hinv.next_level b hold with h | h | h
        · exact Or.inl h
        · exact Or.inr (Or.inl h)
        · refine Or.inr (Or.inr ?_)
          split
          · rfl
          · exact h
      · obtain ⟨hstep, hnone⟩ := List.mem_filter.mp hnew
        obtain ⟨j, hj, hb⟩ := hlevel.step_cases hstep
        -- a successor has its level found already, or is at this one or at the next
        rcases Nat.lt_trichotomy j depth with hlt | heq | hgt
        · have := (hinv.found_iff b j).mpr (Or.inl ⟨hlt, hb⟩)
          refine Or.inr (Or.inr ?_)
          split
          · rfl
          · rw [this]
            rfl
        · exact Or.inr (Or.inl (heq ▸ hb))
        · exact Or.inl ((Nat.le_antisymm hj hgt) ▸ hb)
    · intro b hb c hc hclevel hstep
      show b ∈ st.next ++ _
      rw [List.mem_append]
      rcases List.mem_append.mp hc with hold | hnew
      · exact Or.inl (hinv.level_next b hb c hold hclevel hstep)
      · refine Or.inr (List.mem_filter.mpr ⟨List.mem_singleton.mp hnew ▸ hstep, ?_⟩)
        rw [hfound]
        have hne : b ≠ a := fun h => absurd ((h ▸ hb).unique hlevel) (Nat.succ_ne_self depth)
        rw [if_neg hne]
        cases hget : st.found.get? b with
        | none => rfl
        | some k =>
          rcases (hinv.found_iff b k).mp hget with ⟨hlt, h⟩ | ⟨hk, h, _⟩
          · exact absurd (hb.unique h) (by omega)
          · exact absurd (hb.unique h) (by omega)
    · intro b
      show b ∈ st.unreached.filter _ ↔ b ∈ wanted ∧ (st.found.insert a depth).get? b = none
      rw [List.mem_filter, hinv.unreached_iff, hfound]
      by_cases hb : b = a
      · simp [hb]
      · simp [hb]

theorem VisitInv.foldl {depth : Nat} {done frontier : List α} {st : SearchState α}
    (hinv : VisitInv successors start wanted depth done st)
    (hfrontier : ∀ a ∈ frontier,
      AtLevel start (Follows successors) depth a ∨ (st.found.get? a).isSome) :
    VisitInv successors start wanted depth (done ++ frontier)
      (frontier.foldl (Lib.visit successors depth) st) := by
  induction frontier generalizing done st with
  | nil => rwa [List.append_nil]
  | cons a rest ih =>
    have hstep := hinv.visit (hfrontier a List.mem_cons_self)
    rw [List.append_cons]
    refine ih hstep ?_
    intro b hb
    refine (hfrontier b (List.mem_cons_of_mem a hb)).imp_right fun hsome => ?_
    rw [Lib.visit]
    split
    · exact hsome
    · show ((st.found.insert a depth).get? b).isSome
      rw [Table.get?_insert]
      split
      · rfl
      · exact hsome

/-- One level of the loop keeps the invariant. -/
theorem SearchInv.step {found : Table α Nat} {unreached frontier : List α} {depth : Nat}
    (hinv : SearchInv successors start wanted found unreached frontier depth)
    (hunreached : unreached ≠ []) {st : SearchState α}
    (hst : st = frontier.foldl (visit successors depth) { found, unreached, next := [] }) :
    SearchInv successors start wanted st.found st.unreached st.next (depth + 1) := by
  -- the turn starts with nothing done and nothing next
  have hbegin : VisitInv successors start wanted depth [] { found, unreached, next := [] } := by
    refine ⟨?_, ?_, ?_, hinv.unreached_iff⟩
    · intro a k
      simp [hinv.found_iff]
    · intro a ha
      exact absurd ha List.not_mem_nil
    · intro b _ a ha
      exact absurd ha List.not_mem_nil
  have hend := hbegin.foldl hinv.frontier_level
  rw [← hst, List.nil_append] at hend
  have hfound : ∀ a k, st.found.get? a = some k ↔
      k < depth + 1 ∧ AtLevel start (Follows successors) k a := by
    intro a k
    rw [hend.found_iff]
    constructor
    · rintro (⟨hk, h⟩ | ⟨hk, h, _⟩)
      · exact ⟨Nat.lt_succ_of_lt hk, h⟩
      · exact ⟨hk ▸ Nat.lt_succ_self depth, h⟩
    · rintro ⟨hk, h⟩
      rcases Nat.lt_succ_iff_lt_or_eq.mp hk with hlt | heq
      · exact Or.inl ⟨hlt, h⟩
      · exact Or.inr ⟨heq, h, hinv.level_frontier a (heq ▸ h)⟩
  refine ⟨hfound, ?_, ?_, hend.unreached_iff, ?_⟩
  · intro a ha
    rcases hend.next_level a ha with h | h | h
    · exact Or.inl h
    · exact Or.inr (by rw [(hfound a depth).mpr ⟨Nat.lt_succ_self depth, h⟩]; rfl)
    · exact Or.inr h
  · intro b hb
    obtain ⟨a, ha, hstep⟩ := hb.pred
    exact hend.level_next b hb a (hinv.level_frontier a ha) ha hstep
  · intro j hj
    rcases Nat.lt_succ_iff_lt_or_eq.mp hj with hlt | heq
    · exact hinv.awake j hlt
    · -- who is still wanted has no level up to this depth
      obtain ⟨c, hc⟩ := List.exists_mem_of_ne_nil unreached hunreached
      obtain ⟨hwanted, hnone⟩ := (hinv.unreached_iff c).mp hc
      refine ⟨c, hwanted, ?_⟩
      intro i hi hlevel
      have := (hinv.found_iff c i).mpr ⟨heq ▸ hi, hlevel⟩
      exact absurd (hnone.symm.trans this) (by simp)

/-- When no level is left up to which someone is still wanted, the table is the answer. -/
theorem SearchInv.found_eq_some {found : Table α Nat} {unreached frontier : List α}
    {depth : Nat} (hinv : SearchInv successors start wanted found unreached frontier depth)
    (hlast : ∀ k a, AtLevel start (Follows successors) k a →
      (∃ c ∈ wanted, ∀ j < k, ¬AtLevel start (Follows successors) j c) → k < depth)
    (a : α) (k : Nat) :
    found.get? a = some k ↔ AtLevel start (Follows successors) k a ∧
      ∃ c ∈ wanted, ∀ j < k, ¬AtLevel start (Follows successors) j c := by
  rw [hinv.found_iff]
  constructor
  · rintro ⟨hk, hlevel⟩
    exact ⟨hlevel, hinv.awake k hk⟩
  · rintro ⟨hlevel, hawake⟩
    exact ⟨hlast k a hlevel hawake, hlevel⟩

/-- What the search finds from a state of the loop, with rounds for all the levels left. -/
theorem SearchInv.levels_eq_some {fuel : Nat} {found : Table α Nat}
    {unreached frontier : List α} {depth : Nat}
    (hinv : SearchInv successors start wanted found unreached frontier depth)
    (hfuel : ∀ k a, AtLevel start (Follows successors) k a → k < depth + fuel) (a : α) (k : Nat) :
    (levels successors fuel found unreached frontier depth).get? a = some k ↔
      AtLevel start (Follows successors) k a ∧
        ∃ c ∈ wanted, ∀ j < k, ¬AtLevel start (Follows successors) j c := by
  induction fuel generalizing found unreached frontier depth with
  | zero => exact hinv.found_eq_some (fun k a hlevel _ => hfuel k a hlevel) a k
  | succ fuel ih =>
    rw [levels]
    split
    · next hstop =>
      refine hinv.found_eq_some (fun k a hlevel hneeded => ?_) a k
      obtain ⟨c, hc, hawake⟩ := hneeded
      by_contra hge
      rcases hstop with hempty | hempty
      · obtain ⟨b, hb⟩ := hlevel.lower (Nat.le_of_not_lt hge)
        exact absurd (hinv.level_frontier b hb) (by simp [hempty])
      · -- everything wanted was visited at a lower level
        have hmem : c ∉ unreached := by simp [hempty]
        have hsome : found.get? c ≠ none := fun hnone =>
          hmem ((hinv.unreached_iff c).mpr ⟨hc, hnone⟩)
        obtain ⟨j, hj⟩ := Option.ne_none_iff_exists'.mp hsome
        obtain ⟨hlt, hlevel'⟩ := (hinv.found_iff c j).mp hj
        exact hawake j (Nat.lt_of_lt_of_le hlt (Nat.le_of_not_lt hge)) hlevel'
    · next hgo =>
      refine ih (hinv.step (fun h => hgo (Or.inr h)) rfl) (fun k a h => ?_)
      have := hfuel k a h
      omega

/-- The search from a start, for the wanted things, over things of a finite set. -/
theorem levels_eq_some {fuel : Nat} {frontier : List α} {s : Finset α}
    (hs : ∀ k a, AtLevel (· ∈ frontier) (Follows successors) k a → a ∈ s)
    (hfuel : s.card ≤ fuel) (a : α) (k : Nat) :
    (levels successors fuel Table.empty wanted frontier 0).get? a = some k ↔
      AtLevel (· ∈ frontier) (Follows successors) k a ∧
        ∃ c ∈ wanted, ∀ j < k, ¬AtLevel (· ∈ frontier) (Follows successors) j c := by
  have hbegin : SearchInv successors (· ∈ frontier) wanted Table.empty wanted frontier 0 := by
    refine ⟨?_, ?_, ?_, ?_, ?_⟩
    · intro a k
      simp
    · intro a ha
      exact Or.inl ⟨.start ha, fun j hj => absurd hj (Nat.not_lt_zero j)⟩
    · rintro a ⟨hreach, _⟩
      cases hreach with
      | start ha => exact ha
    · intro a
      simp
    · intro j hj
      exact absurd hj (Nat.not_lt_zero j)
  refine hbegin.levels_eq_some ?_ a k
  intro k a hlevel
  have := hlevel.lt_card hs
  omega

end Lib
