import Mathlib.Data.Finset.Card
import Mathlib.Data.Fintype.Card
import Mathlib.Logic.Relation

/-!
# Chains of a partial function

Following a partial function from a start until it is undefined. A chain either ends
(`EndsIn n a b`: after `n` steps, at `b`) or goes on for ever, which over a finite domain
means that it enters a cycle.

- `EndsIn.unique`: a chain has one end and one length;
- `EndsIn.le_card`: it is no longer than the domain is large;
- `not_endsAt_of_cycle`: a chain through a cycle has no end, and `endsAt_or_cycle`: one that
  has no end enters a cycle;
- `lt_card_of_ranks`: what is found at every rank up to `k` is more than `k` things;
- `follow`: the loop that stops at a name it has seen; `follow_eq_some` says it finds
  exactly the ends.
-/

namespace Lib

universe u

variable {α : Type u}

/-- Things of every rank up to `k` in a finite set, no thing of two ranks, are more than
`k` things. -/
theorem lt_card_of_ranks {s : Finset α} {R : Nat → α → Prop} {k : Nat}
    (hex : ∀ j ≤ k, ∃ a ∈ s, R j a) (huniq : ∀ i j a, R i a → R j a → i = j) :
    k < s.card := by
  have hrank : ∀ j : Fin (k + 1), ∃ a ∈ s, R j a := fun j => hex j (Nat.lt_succ_iff.mp j.2)
  choose pick hmem hpick using hrank
  have hinj : Function.Injective fun j => (⟨pick j, hmem j⟩ : s) := by
    intro i j hij
    have heq : pick i = pick j := congrArg Subtype.val hij
    exact Fin.ext (huniq _ _ _ (hpick i) (heq ▸ hpick j))
  have hcard := Fintype.card_le_of_injective _ hinj
  rw [Fintype.card_fin, Fintype.card_coe] at hcard
  exact hcard

variable {next : α → Option α}

/-- The chain from the first name ends at the second after so many steps. -/
inductive EndsIn (next : α → Option α) : Nat → α → α → Prop
  | stop {a : α} : next a = none → EndsIn next 0 a a
  | step {n : Nat} {a b c : α} : next a = some b → EndsIn next n b c → EndsIn next (n + 1) a c

/-- The chain from the first name ends at the second. -/
def EndsAt (next : α → Option α) (a b : α) : Prop := ∃ n, EndsIn next n a b

theorem EndsIn.unique {n m : Nat} {a b c : α} (h : EndsIn next n a b)
    (h' : EndsIn next m a c) : n = m ∧ b = c := by
  induction h generalizing m c with
  | stop hstop =>
    cases h' with
    | stop => exact ⟨rfl, rfl⟩
    | step hstep => exact absurd (hstop.symm.trans hstep) (by simp)
  | step hstep _ ih =>
    cases h' with
    | stop hstop => exact absurd (hstop.symm.trans hstep) (by simp)
    | step hstep' hrest =>
      have hnext := Option.some.inj (hstep.symm.trans hstep')
      obtain ⟨hlen, hend⟩ := ih (hnext ▸ hrest)
      exact ⟨congrArg (· + 1) hlen, hend⟩

theorem endsAt_stop {a b : α} (h : next a = none) : EndsAt next a b ↔ a = b := by
  constructor
  · rintro ⟨_, hends⟩
    exact (EndsIn.stop h).unique hends |>.2
  · rintro rfl
    exact ⟨0, .stop h⟩

theorem endsAt_step {a b c : α} (h : next a = some b) :
    EndsAt next a c ↔ EndsAt next b c := by
  constructor
  · rintro ⟨_, hends⟩
    cases hends with
    | stop hstop => exact absurd (hstop.symm.trans h) (by simp)
    | step hstep hrest => exact ⟨_, Option.some.inj (h.symm.trans hstep) ▸ hrest⟩
  · rintro ⟨n, hrest⟩
    exact ⟨n + 1, .step h hrest⟩

/-- Every length up to its own occurs on a chain. -/
theorem EndsIn.exists_of_lt {n : Nat} {a b : α} (h : EndsIn next n a b) {j : Nat} (hj : j < n) :
    ∃ c d, next c = some d ∧ EndsIn next (j + 1) c b := by
  induction h with
  | stop => exact absurd hj (Nat.not_lt_zero j)
  | step hstep hrest ih =>
    rcases Nat.lt_succ_iff_lt_or_eq.mp hj with hlt | heq
    · exact ih hlt
    · exact ⟨_, _, hstep, heq ▸ .step hstep hrest⟩

/-- A chain is no longer than there are names to step from. -/
theorem EndsIn.le_card {n : Nat} {a b : α} (h : EndsIn next n a b) {s : Finset α}
    (hdom : ∀ c d, next c = some d → c ∈ s) : n ≤ s.card := by
  cases n with
  | zero => exact Nat.zero_le _
  | succ k =>
    refine lt_card_of_ranks (R := fun j c => EndsIn next (j + 1) c b) ?_ ?_
    · intro j hj
      obtain ⟨c, d, hstep, hends⟩ := h.exists_of_lt (Nat.lt_succ_of_le hj)
      exact ⟨c, hdom c d hstep, hends⟩
    · intro i j c hi hj
      exact Nat.succ.inj (hi.unique hj).1

/-- A name leads to the next. -/
def Leads (next : α → Option α) (a b : α) : Prop := next a = some b

/-- A chain goes through what its start leads to, with fewer steps left. -/
theorem EndsIn.of_transGen {a c : α} (h : Relation.TransGen (Leads next) a c) {n : Nat} {b : α}
    (hends : EndsIn next n a b) : ∃ m < n, EndsIn next m c b := by
  have hone : ∀ {c d : α} {n : Nat}, Leads next c d → EndsIn next n c b →
      ∃ m < n, EndsIn next m d b := by
    intro c d n hstep hends
    cases hends with
    | stop hstop => exact absurd (hstop.symm.trans hstep) (by simp)
    | step hstep' hrest =>
      exact ⟨_, Nat.lt_succ_self _, Option.some.inj (hstep'.symm.trans hstep) ▸ hrest⟩
  induction h with
  | single hstep => exact hone hstep hends
  | tail _ hstep ih =>
    obtain ⟨m, hm, hrest⟩ := ih
    obtain ⟨k, hk, hlast⟩ := hone hstep hrest
    exact ⟨k, Nat.lt_trans hk hm, hlast⟩

theorem endsAt_of_leads {a b c : α} (h : Relation.ReflTransGen (Leads next) a c) :
    EndsAt next a b ↔ EndsAt next c b := by
  induction h with
  | refl => exact Iff.rfl
  | tail _ hstep ih => exact ih.trans (endsAt_step hstep)

/-- A name that comes back to itself has no end. -/
theorem not_endsAt_of_cycle {a b : α} (h : Relation.TransGen (Leads next) a a) :
    ¬EndsAt next a b := by
  rintro ⟨n, hends⟩
  obtain ⟨m, hm, hends'⟩ := hends.of_transGen h
  exact absurd (hends'.unique hends).1 (Nat.ne_of_lt hm)

/-- Over a finite domain, a chain that has no end enters a cycle. -/
theorem endsAt_or_cycle {s : Finset α} (hdom : ∀ c d, next c = some d → c ∈ s) (a : α) :
    (∃ b, EndsAt next a b) ∨
      ∃ c, Relation.ReflTransGen (Leads next) a c ∧ Relation.TransGen (Leads next) c c := by
  classical
  -- the names stepped from, each of which leads to the current one, are in the domain
  have hwalk : ∀ (fuel : Nat) (seen : Finset α) (current : α), seen ⊆ s →
      s.card < seen.card + fuel → (∀ x ∈ seen, Relation.TransGen (Leads next) x current) →
      Relation.ReflTransGen (Leads next) a current →
      (∃ b, EndsAt next a b) ∨
        ∃ c, Relation.ReflTransGen (Leads next) a c ∧ Relation.TransGen (Leads next) c c := by
    intro fuel
    induction fuel with
    | zero =>
      intro seen current hsub hfuel _ _
      have hcard := Finset.card_le_card hsub
      omega
    | succ fuel ih =>
      intro seen current hsub hfuel hseen hreach
      cases hnext : next current with
      | none => exact Or.inl ⟨current, (endsAt_of_leads hreach).mpr ⟨0, .stop hnext⟩⟩
      | some b =>
        by_cases hmem : current ∈ seen
        · exact Or.inr ⟨current, hreach, hseen current hmem⟩
        · refine ih (insert current seen) b ?_ ?_ ?_ (hreach.tail hnext)
          · exact Finset.insert_subset (hdom current b hnext) hsub
          · rw [Finset.card_insert_of_notMem hmem]
            omega
          · intro x hx
            rcases Finset.mem_insert.mp hx with rfl | hold
            · exact .single hnext
            · exact (hseen x hold).tail hnext
  exact hwalk (s.card + 1) ∅ a (Finset.empty_subset s) (by rw [Finset.card_empty]; omega)
    (fun x hx => absurd hx (Finset.notMem_empty x)) .refl

/-- A chain that leads into a cycle has no end. -/
theorem not_endsAt_of_enters {a b c : α} (hreach : Relation.ReflTransGen (Leads next) a c)
    (hcycle : Relation.TransGen (Leads next) c c) : ¬EndsAt next a b := by
  rw [endsAt_of_leads hreach]
  exact not_endsAt_of_cycle hcycle

/-! ## The loop -/

variable [DecidableEq α]

/-- Follow the function, giving up at a name that was stepped from before. -/
def follow (next : α → Option α) : Nat → Finset α → α → Option α
  | 0, _, _ => none
  | fuel + 1, seen, current =>
    match next current with
    | none => some current
    | some b => if b ∈ seen then none else follow next fuel (insert current seen) b

/-- What the loop answers is the end of the chain. -/
theorem endsAt_of_follow {fuel : Nat} {seen : Finset α} {a b : α}
    (h : follow next fuel seen a = some b) : EndsAt next a b := by
  induction fuel generalizing seen a with
  | zero => exact absurd h (by simp [follow])
  | succ fuel ih =>
    rw [follow] at h
    cases hnext : next a with
    | none =>
      rw [hnext] at h
      exact (endsAt_stop hnext).mpr (Option.some.inj h)
    | some c =>
      simp only [hnext] at h
      split at h
      · exact absurd h (by simp)
      · exact (endsAt_step hnext).mpr (ih h)

/-- The loop answers the end of a chain that has one: what it has seen ends later. -/
theorem follow_of_endsIn {fuel n : Nat} {seen : Finset α} {a b : α}
    (h : EndsIn next n a b) (hfuel : n < fuel)
    (hseen : ∀ s ∈ seen, ∃ m > n, EndsIn next m s b) : follow next fuel seen a = some b := by
  induction h generalizing fuel seen with
  | stop hstop =>
    obtain ⟨fuel, rfl⟩ := Nat.exists_eq_succ_of_ne_zero (Nat.ne_of_gt hfuel)
    rw [follow, hstop]
  | @step n a c b hstep hrest ih =>
    obtain ⟨fuel, rfl⟩ := Nat.exists_eq_succ_of_ne_zero (Nat.ne_zero_of_lt hfuel)
    have hnew : c ∉ seen := by
      intro hmem
      obtain ⟨m, hm, hends⟩ := hseen c hmem
      have hlen := (hends.unique hrest).1
      omega
    simp only [follow, hstep, if_neg hnew]
    refine ih (Nat.lt_of_succ_lt_succ hfuel) ?_
    intro s hs
    rcases Finset.mem_insert.mp hs with rfl | hold
    · exact ⟨n + 1, Nat.lt_succ_self n, .step hstep hrest⟩
    · obtain ⟨m, hm, hends⟩ := hseen s hold
      exact ⟨m, Nat.lt_of_succ_lt hm, hends⟩

/-- The loop, with as many rounds as there are names to step from and one more, answers
exactly the ends of chains. -/
theorem follow_eq_some {fuel : Nat} {s : Finset α} (hdom : ∀ c d, next c = some d → c ∈ s)
    (hfuel : s.card < fuel) {a b : α} : follow next fuel ∅ a = some b ↔ EndsAt next a b := by
  constructor
  · exact endsAt_of_follow
  · rintro ⟨n, hends⟩
    refine follow_of_endsIn hends (Nat.lt_of_le_of_lt (hends.le_card hdom) hfuel) ?_
    intro s hs
    exact absurd hs (Finset.notMem_empty s)

end Lib
