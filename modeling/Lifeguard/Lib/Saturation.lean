import Lifeguard.Lib.Rounds
import Mathlib.Data.Finset.Card

/-!
# Saturation with a worklist

A set that grows until it is closed: the seeds are added to the set and put on a stack;
an item is taken off the stack and what it leads to is added, and put on the stack where
it was new. The set is a parameter, given by its `insert`, which answers `none` for an
item that is already in it (`Inserts`).

- `saturate_rest`: with as much fuel as there are items, the stack runs empty;
- `mem_saturate`: what is then in the set is the least set with the seeds that is closed
  (`Reach`). The order of the seeds and of what an item leads to decides nothing.
-/

namespace Lib

universe u v

variable {σ : Type u} {α : Type v}

/-- The least set that holds the seeds and what its items lead to. -/
inductive Reach (seed : α → Prop) (next : α → α → Prop) : α → Prop
  | seed {a : α} (h : seed a) : Reach seed next a
  | next {a b : α} (h : Reach seed next a) (hab : next a b) : Reach seed next b

/-- A set given by its insertion: `none` when the item is there already. -/
structure Inserts (mem : σ → α → Prop) (insert : σ → α → Option σ) : Prop where
  none_iff : ∀ s a, insert s a = none ↔ mem s a
  some_mem : ∀ s a s', insert s a = some s' → ∀ b, mem s' b ↔ mem s b ∨ b = a

/-- The set found so far, and the stack of what is still to be followed. -/
structure Saturation (σ : Type u) (α : Type v) where
  found : σ
  work : List α

namespace Saturation

variable (insert : σ → α → Option σ) (next : α → List α)

/-- Add an item, and push it where it is new. -/
def add (st : Saturation σ α) (a : α) : Saturation σ α :=
  match insert st.found a with
  | none => st
  | some found => { found, work := a :: st.work }

/-- Add the items of a list, one after the other. -/
def addAll (st : Saturation σ α) (items : List α) : Saturation σ α :=
  items.foldl (add insert) st

/-- Follow the item on top of the stack. -/
def step (st : Saturation σ α) : Option (Saturation σ α) :=
  match st.work with
  | [] => none
  | a :: rest => some (addAll insert { st with work := rest } (next a))

/-- Add the seeds to an empty set and follow at most `fuel` items. -/
def saturate (fuel : Nat) (empty : σ) (seeds : List α) : Saturation σ α :=
  runRounds (step insert next) fuel (addAll insert ⟨empty, []⟩ seeds)

variable {insert next} {mem : σ → α → Prop} {st st' : Saturation σ α} {a b : α}

/-! ## Adding -/

theorem mem_add (hins : Inserts mem insert) :
    mem (add insert st a).found b ↔ mem st.found b ∨ b = a := by
  unfold add
  cases h : insert st.found a with
  | none =>
    have hmem := (hins.none_iff _ _).mp h
    refine (or_iff_left_of_imp ?_).symm
    rintro rfl
    exact hmem
  | some found => exact hins.some_mem _ _ _ h b

theorem mem_addAll (hins : Inserts mem insert) {items : List α} :
    mem (addAll insert st items).found b ↔ mem st.found b ∨ b ∈ items := by
  induction items generalizing st with
  | nil => simp [addAll]
  | cons a items ih =>
    show mem (addAll insert (add insert st a) items).found b ↔ _
    rw [ih, mem_add hins, List.mem_cons, or_assoc]

/-- What is put on the stack is in the set, and what was there stays. -/
theorem mem_work_addAll {items : List α} :
    (∀ b ∈ st.work, b ∈ (addAll insert st items).work) ∧
      ∀ b ∈ (addAll insert st items).work, b ∈ st.work ∨ b ∈ items := by
  induction items generalizing st with
  | nil => exact ⟨fun _ h => h, fun _ h => Or.inl h⟩
  | cons a items ih =>
    obtain ⟨h1, h2⟩ := @ih (add insert st a)
    have hadd : (∀ b ∈ st.work, b ∈ (add insert st a).work) ∧
        ∀ b ∈ (add insert st a).work, b ∈ st.work ∨ b = a := by
      unfold add
      cases insert st.found a with
      | none => exact ⟨fun _ h => h, fun _ h => Or.inl h⟩
      | some found =>
        refine ⟨fun _ h => List.mem_cons_of_mem _ h, ?_⟩
        intro b hb
        rcases List.mem_cons.mp hb with rfl | hb
        · exact Or.inr rfl
        · exact Or.inl hb
    refine ⟨fun b hb => h1 b (hadd.1 b hb), ?_⟩
    intro b hb
    rcases h2 b hb with hb | hb
    · rcases hadd.2 b hb with hb | rfl
      · exact Or.inl hb
      · exact Or.inr List.mem_cons_self
    · exact Or.inr (List.mem_cons_of_mem _ hb)

/-- A new item is put on the stack. -/
theorem mem_work_of_new (hins : Inserts mem insert) {items : List α}
    (hnew : ¬mem st.found b) (hb : b ∈ items) : b ∈ (addAll insert st items).work := by
  induction items generalizing st with
  | nil => cases hb
  | cons a items ih =>
    show b ∈ (addAll insert (add insert st a) items).work
    by_cases hba : b = a
    · subst hba
      refine mem_work_addAll.1 b ?_
      unfold add
      cases h : insert st.found b with
      | none => exact absurd ((hins.none_iff _ _).mp h) hnew
      | some found => exact List.mem_cons_self
    · refine ih ?_ ((List.mem_cons.mp hb).resolve_left hba)
      rw [mem_add hins, not_or]
      exact ⟨hnew, hba⟩

/-! ## The measure -/

/-- The stack, and the items of `bound` that are not found yet. -/
def workLeft [DecidableEq α] (mem : σ → α → Prop) [∀ s a, Decidable (mem s a)]
    (bound : Finset α) (st : Saturation σ α) : Nat :=
  st.work.length + (bound.filter fun a => ¬mem st.found a).card

section Measure

variable [DecidableEq α] [∀ s a, Decidable (mem s a)] {bound : Finset α}

theorem workLeft_add (hins : Inserts mem insert) (ha : a ∈ bound) :
    workLeft mem bound (add insert st a) = workLeft mem bound st := by
  unfold workLeft
  have hset : (bound.filter fun b => ¬mem (add insert st a).found b) =
      (bound.filter fun b => ¬mem st.found b).erase a := by
    ext b
    simp only [Finset.mem_filter, Finset.mem_erase, mem_add hins, not_or]
    tauto
  rw [hset]
  cases h : insert st.found a with
  | none =>
    have hmem := (hins.none_iff _ _).mp h
    rw [Finset.erase_eq_of_notMem (by simp [hmem])]
    simp [add, h]
  | some found =>
    have hnew : ¬mem st.found a := by
      rw [← hins.none_iff, h]
      simp
    have hin : a ∈ bound.filter fun b => ¬mem st.found b :=
      Finset.mem_filter.mpr ⟨ha, hnew⟩
    have hpos := Finset.card_pos.mpr ⟨a, hin⟩
    rw [Finset.card_erase_of_mem hin]
    simp only [add, h, List.length_cons]
    omega

theorem workLeft_addAll (hins : Inserts mem insert) {items : List α}
    (hitems : ∀ a ∈ items, a ∈ bound) :
    workLeft mem bound (addAll insert st items) = workLeft mem bound st := by
  induction items generalizing st with
  | nil => rfl
  | cons a items ih =>
    show workLeft mem bound (addAll insert (add insert st a) items) = _
    rw [ih fun b hb => hitems b (List.mem_cons_of_mem _ hb),
      workLeft_add hins (hitems a List.mem_cons_self)]

end Measure

/-! ## The run -/

/-- What holds whenever the stack is looked at: the set is within the least closed one,
holds the seeds, and is closed but for the items on the stack. -/
structure Inv (mem : σ → α → Prop) (next : α → List α) (seeds : List α)
    (st : Saturation σ α) : Prop where
  sound : ∀ a, mem st.found a → Reach (· ∈ seeds) (fun a b => b ∈ next a) a
  seeds : ∀ a ∈ seeds, mem st.found a
  workFound : ∀ a ∈ st.work, mem st.found a
  closed : ∀ a, mem st.found a → a ∉ st.work → ∀ b ∈ next a, mem st.found b

section Run

variable {empty : σ} {seeds : List α}

theorem inv_start (hins : Inserts mem insert) (hempty : ∀ a, ¬mem empty a) :
    Inv mem next seeds (addAll insert ⟨empty, []⟩ seeds) where
  sound a ha := by
    rcases (mem_addAll hins).mp ha with h | h
    · exact absurd h (hempty a)
    · exact .seed h
  seeds a ha := (mem_addAll hins).mpr (Or.inr ha)
  workFound a ha := by
    rcases mem_work_addAll.2 a ha with h | h
    · cases h
    · exact (mem_addAll hins).mpr (Or.inr h)
  closed a ha hwork := by
    -- every item found so far was new, so it is on the stack
    rcases (mem_addAll hins).mp ha with h | h
    · exact absurd h (hempty a)
    · exact absurd (mem_work_of_new hins (hempty a) h) hwork

theorem inv_step (hins : Inserts mem insert) (h : Inv mem next seeds st)
    (hstep : step insert next st = some st') : Inv mem next seeds st' := by
  unfold step at hstep
  cases hw : st.work with
  | nil =>
    rw [hw] at hstep
    cases hstep
  | cons a rest =>
    rw [hw] at hstep
    cases hstep
    have ha : mem st.found a := h.workFound a (by rw [hw]; exact List.mem_cons_self)
    have hmem : ∀ b, mem (addAll insert { st with work := rest } (next a)).found b ↔
        mem st.found b ∨ b ∈ next a := fun b => mem_addAll hins
    refine ⟨?_, ?_, ?_, ?_⟩
    · intro b hb
      rcases (hmem b).mp hb with hb | hb
      · exact h.sound b hb
      · exact .next (h.sound a ha) hb
    · intro b hb
      exact (hmem b).mpr (Or.inl (h.seeds b hb))
    · intro b hb
      rcases mem_work_addAll.2 b hb with hb | hb
      · refine (hmem b).mpr (Or.inl (h.workFound b ?_))
        rw [hw]
        exact List.mem_cons_of_mem _ hb
      · exact (hmem b).mpr (Or.inr hb)
    · intro b hb hwork c hc
      rw [hmem]
      by_cases hba : b = a
      · rw [hba] at hc
        exact Or.inr hc
      by_cases hold : mem st.found b
      · refine Or.inl (h.closed b hold ?_ c hc)
        rw [hw]
        intro hin
        rcases List.mem_cons.mp hin with hin | hin
        · exact hba hin
        · exact hwork (mem_work_addAll.1 b hin)
      · have hnew : b ∈ next a := ((hmem b).mp hb).resolve_left hold
        have hrest : ¬mem ({ st with work := rest } : Saturation σ α).found b := hold
        exact absurd (mem_work_of_new hins hrest hnew) hwork

variable [DecidableEq α] {bound : Finset α} {fuel : Nat}

/-- With as much fuel as there are items, the stack runs empty. -/
theorem saturate_rest (hins : Inserts mem insert) (hseeds : ∀ a ∈ seeds, a ∈ bound)
    (hnext : ∀ a, ∀ b ∈ next a, b ∈ bound) (hfuel : bound.card ≤ fuel) :
    (saturate insert next fuel empty seeds).work = [] := by
  classical
  have hless : ∀ s s' : Saturation σ α, step insert next s = some s' →
      workLeft mem bound s' < workLeft mem bound s := by
    intro s s' hstep
    unfold step at hstep
    cases hw : s.work with
    | nil =>
      rw [hw] at hstep
      cases hstep
    | cons a rest =>
      rw [hw] at hstep
      cases hstep
      rw [workLeft_addAll hins (hnext a)]
      refine Nat.add_lt_add_right ?_ _
      rw [hw]
      exact Nat.lt_succ_self _
  have hstart : workLeft mem bound (addAll insert ⟨empty, []⟩ seeds) ≤ fuel := by
    rw [workLeft_addAll hins hseeds, workLeft, List.length_nil, Nat.zero_add]
    exact (Finset.card_filter_le _ _).trans hfuel
  have hrest := runRounds_stable (workLeft mem bound) hless hstart
  unfold step at hrest
  unfold saturate
  split at hrest
  · next hwork => exact hwork
  · cases hrest

/-- What is found is the least set that holds the seeds and what its items lead to. -/
theorem mem_saturate (hins : Inserts mem insert) (hempty : ∀ a, ¬mem empty a)
    (hseeds : ∀ a ∈ seeds, a ∈ bound) (hnext : ∀ a, ∀ b ∈ next a, b ∈ bound)
    (hfuel : bound.card ≤ fuel) :
    mem (saturate insert next fuel empty seeds).found a ↔
      Reach (· ∈ seeds) (fun a b => b ∈ next a) a := by
  have hinv : Inv mem next seeds (saturate insert next fuel empty seeds) :=
    runRounds_inv (fun _ _ h hstep => inv_step hins h hstep) fuel (inv_start hins hempty)
  have hrest : (saturate insert next fuel empty seeds).work = [] :=
    saturate_rest hins hseeds hnext hfuel
  refine ⟨hinv.sound a, fun h => ?_⟩
  induction h with
  | seed h => exact hinv.seeds _ h
  | next _ hab ih =>
    refine hinv.closed _ ih ?_ _ hab
    rw [hrest]
    exact List.not_mem_nil

end Run

end Saturation

end Lib
