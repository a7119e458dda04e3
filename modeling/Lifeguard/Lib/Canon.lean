import Mathlib.Data.List.Sort
import Mathlib.Data.Multiset.Basic
import Mathlib.Order.Basic

/-!
# Canonical orders

Sorting a collection whose order carries no meaning, so that equal collections become equal
lists. A sort that is not promised to be stable answers one list only where the key tells
the elements apart; where it does not, all that can be used is that the result is sorted,
and that a list sorted already stays as it is.

- `UnstableSort`: such a sort, with what it promises.
- `sortOn`: sorting by a key; `map_sortOn_congr` is the canonicity rule: a view that the
  key tells apart comes out the same for every arrangement.
- `map_perm_of_forall`: two arrangements of one collection stay such under any function
  that the elements' shared view determines.
- `exists_map_of_perm`: an arrangement of the images comes from one of the elements.
- `exists_mapM_ok`, `mapM_ok`: a fallible map whose steps all succeed.
-/

namespace Lib

open scoped List

/-- A sort that may reorder elements which compare as equal. -/
structure UnstableSort where
  sort : {α : Type} → (α → α → Bool) → List α → List α
  perm : ∀ {α : Type} (le : α → α → Bool) (l : List α), (sort le l).Perm l
  pairwise : ∀ {α : Type} {r : α → α → Bool}, (∀ a b c, r a b → r b c → r a c) →
    (∀ a b, (r a b || r b a) = true) → ∀ l : List α, (sort r l).Pairwise fun a b => r a b
  of_pairwise : ∀ {α : Type} {le : α → α → Bool} {l : List α},
    (l.Pairwise fun a b => le a b) → sort le l = l

/-- Insertion sort, which keeps elements that compare as equal in their order. -/
def insertionSort : UnstableSort where
  sort le l := l.insertionSort fun a b => le a b
  perm le l := List.perm_insertionSort _ l
  pairwise {α le} htrans htotal l := by
    have hTotal : Std.Total fun a b : α => (le a b : Prop) :=
      ⟨fun a b => by
        have h := htotal a b
        rwa [Bool.or_eq_true] at h⟩
    have hTrans : IsTrans α fun a b => (le a b : Prop) := ⟨htrans⟩
    exact List.pairwise_insertionSort _ l
  of_pairwise h := h.insertionSort_eq

namespace UnstableSort

variable {α β κ : Type} [LinearOrder κ] (S : UnstableSort) {k : α → κ} {l l' : List α}

/-- Sort by a key. -/
def sortOn (k : α → κ) (l : List α) : List α :=
  S.sort (fun a b => decide (k a ≤ k b)) l

theorem sortOn_perm (k : α → κ) (l : List α) : (S.sortOn k l).Perm l :=
  S.perm _ l

theorem mem_sortOn {a : α} : a ∈ S.sortOn k l ↔ a ∈ l :=
  (S.sortOn_perm k l).mem_iff

theorem pairwise_sortOn (k : α → κ) (l : List α) :
    (S.sortOn k l).Pairwise fun a b => k a ≤ k b := by
  have h := S.pairwise (r := fun a b : α => decide (k a ≤ k b))
    (fun a b c hab hbc => decide_eq_true (le_trans (of_decide_eq_true hab)
      (of_decide_eq_true hbc)))
    (fun a b => by
      rcases le_total (k a) (k b) with hle | hle <;> simp [hle]) l
  exact h.imp of_decide_eq_true

theorem sortOn_of_pairwise (h : l.Pairwise fun a b => k a ≤ k b) :
    S.sortOn k l = l :=
  S.of_pairwise (h.imp decide_eq_true)

/-- What is sorted already is not sorted again. -/
theorem sortOn_sortOn (k : α → κ) (l : List α) :
    S.sortOn k (S.sortOn k l) = S.sortOn k l :=
  S.sortOn_of_pairwise (S.pairwise_sortOn k l)

/-- A view that the key is read off, and that it tells apart across the two lists, comes out
the same for every arrangement of the same views. -/
theorem map_sortOn_congr {f : α → β} {q : β → κ} (hq : ∀ a, k a = q (f a))
    (hinj : ∀ a ∈ l, ∀ b ∈ l', q (f a) = q (f b) → f a = f b)
    (h : (l.map f).Perm (l'.map f)) : (S.sortOn k l).map f = (S.sortOn k l').map f := by
  have hsorted : ∀ l : List α, ((S.sortOn k l).map f).Pairwise fun x y => q x ≤ q y := by
    intro l
    refine List.pairwise_map.mpr ((S.pairwise_sortOn k l).imp fun {a b} hab => ?_)
    rwa [hq, hq] at hab
  refine List.Perm.eq_of_pairwise (fun x y hx hy hxy hyx => ?_) (hsorted l) (hsorted l') ?_
  · obtain ⟨a, ha, rfl⟩ := List.mem_map.mp hx
    obtain ⟨b, hb, rfl⟩ := List.mem_map.mp hy
    exact hinj a (S.mem_sortOn.mp ha) b (S.mem_sortOn.mp hb) (le_antisymm hxy hyx)
  · calc (S.sortOn k l).map f
      _ ~ l.map f := (S.sortOn_perm k l).map f
      _ ~ l'.map f := h
      _ ~ (S.sortOn k l').map f := ((S.sortOn_perm k l').map f).symm

/-- A key that tells the elements apart makes the sorted list canonical. -/
theorem sortOn_eq_of_perm (hk : Function.Injective k) (h : l.Perm l') :
    S.sortOn k l = S.sortOn k l' :=
  List.map_injective_iff.mpr hk
    (S.map_sortOn_congr (q := id) (fun _ => rfl) (fun _ _ _ _ hab => hab) (h.map k))

end UnstableSort

/-! ## Arrangements under a function -/

/-- Two lists with the same views, in any order, have the same images under a function
that the view determines across them. -/
theorem map_perm_of_forall {α α' β γ : Type*} {f : α → β} {p : α' → β} {g : α → γ}
    {q : α' → γ} {l : List α} {l' : List α'} (h : (l.map f).Perm (l'.map p))
    (hg : ∀ a ∈ l, ∀ b ∈ l', f a = p b → g a = q b) : (l.map g).Perm (l'.map q) := by
  induction l generalizing l' with
  | nil =>
    have hnil : l' = [] := by simpa using h.symm.eq_nil
    rw [hnil]
    rfl
  | cons a l ih =>
    have hmem : f a ∈ l'.map p := h.subset (List.mem_cons_self ..)
    obtain ⟨b, hb, hab⟩ := List.mem_map.mp hmem
    obtain ⟨before, after, rfl⟩ := List.append_of_mem hb
    -- take the element with the view of `a` to the front, and go on with the rest
    have hfront : (before ++ b :: after).Perm (b :: (before ++ after)) := List.perm_middle
    have hrest : (l.map f).Perm ((before ++ after).map p) := by
      have h' := h.trans (hfront.map p)
      rw [List.map_cons, List.map_cons, hab] at h'
      exact h'.cons_inv
    have hih := ih hrest fun a' ha' b' hb' =>
      hg a' (List.mem_cons_of_mem _ ha') b' (hfront.symm.subset (List.mem_cons_of_mem _ hb'))
    calc (a :: l).map g
      _ = q b :: l.map g := by rw [List.map_cons, hg a (List.mem_cons_self ..) b hb hab.symm]
      _ ~ q b :: (before ++ after).map q := hih.cons _
      _ ~ (before ++ b :: after).map q := (hfront.map q).symm

/-- Two lists with the same views in the same order have the same images under a function
that the view determines across them. -/
theorem map_eq_map_of_forall {α β γ : Type*} {f : α → β} {g : α → γ} {l l' : List α}
    (h : l.map f = l'.map f) (hg : ∀ a ∈ l, ∀ b ∈ l', f a = f b → g a = g b) :
    l.map g = l'.map g := by
  induction l generalizing l' with
  | nil =>
    rw [List.map_eq_nil_iff.mp h.symm]
  | cons a l ih =>
    cases l' with
    | nil => cases h
    | cons b l' =>
      obtain ⟨hab, hrest⟩ := List.cons.inj h
      rw [List.map_cons, List.map_cons, hg a (List.mem_cons_self ..) b (List.mem_cons_self ..) hab,
        ih hrest fun a' ha' b' hb' =>
          hg a' (List.mem_cons_of_mem _ ha') b' (List.mem_cons_of_mem _ hb')]

/-- An arrangement of the images is the image of an arrangement. -/
theorem exists_map_of_perm {α β : Type*} {f : α → β} {l : List β} {as : List α}
    (h : l.Perm (as.map f)) : ∃ bs : List α, bs.Perm as ∧ l = bs.map f := by
  induction l generalizing as with
  | nil =>
    have hnil : as = [] := by simpa using h.symm.eq_nil
    exact ⟨[], hnil ▸ List.Perm.nil, rfl⟩
  | cons b l ih =>
    obtain ⟨a, ha, rfl⟩ := List.mem_map.mp (h.subset (List.mem_cons_self ..))
    obtain ⟨before, after, rfl⟩ := List.append_of_mem ha
    have hfront : (before ++ a :: after).Perm (a :: (before ++ after)) := List.perm_middle
    have hrest : l.Perm ((before ++ after).map f) := by
      have h' := h.trans (hfront.map f)
      rw [List.map_cons] at h'
      exact h'.cons_inv
    obtain ⟨bs, hbs, rfl⟩ := ih hrest
    exact ⟨a :: bs, (hbs.cons a).trans hfront.symm, rfl⟩

/-- Two arrangements that differ in one element do not differ. -/
theorem eq_of_append_cons_perm {α : Type*} {l r : List α} {a b : α}
    (h : (l ++ a :: r).Perm (l ++ b :: r)) : a = b := by
  have hcons : (a :: (l ++ r)).Perm (b :: (l ++ r)) :=
    (List.perm_middle.symm.trans h).trans List.perm_middle
  have hmulti : a ::ₘ (l ++ r : List α) = b ::ₘ (l ++ r : List α) := Multiset.coe_eq_coe.mpr hcons
  exact (Multiset.cons_inj_left _).mp hmulti

/-! ## Fallible maps -/

/-- A fallible map over encoded elements succeeds when every step does, and its results
have the views that the steps' results have. -/
theorem exists_mapM_ok {ε α β γ δ : Type} {f : β → Except ε γ} {e : α → β} {v : γ → δ}
    {w : α → δ} {l : List α} (h : ∀ a ∈ l, ∃ b, f (e a) = .ok b ∧ v b = w a) :
    ∃ bs, (l.map e).mapM f = .ok bs ∧ bs.map v = l.map w := by
  induction l with
  | nil => exact ⟨[], rfl, rfl⟩
  | cons a l ih =>
    obtain ⟨b, hb, hview⟩ := h a (List.mem_cons_self ..)
    obtain ⟨bs, hbs, hviews⟩ := ih fun a' ha' => h a' (List.mem_cons_of_mem _ ha')
    refine ⟨b :: bs, ?_, ?_⟩
    · rw [List.map_cons, List.mapM_cons, hb, hbs]
      rfl
    · rw [List.map_cons, List.map_cons, hview, hviews]

/-- A fallible map over encoded elements whose step takes the encoding back. -/
theorem mapM_ok {ε α β : Type} {f : β → Except ε α} {enc : α → β} {l : List α}
    (h : ∀ a ∈ l, f (enc a) = .ok a) : (l.map enc).mapM f = .ok l := by
  obtain ⟨bs, hbs, hviews⟩ := exists_mapM_ok (v := id) (w := id) fun a ha => ⟨a, h a ha, rfl⟩
  rw [List.map_id, List.map_id] at hviews
  rw [hbs, hviews]

/-- As `exists_mapM_ok`, with the encoded elements sorted first: the results are an
arrangement of what they would have been. -/
theorem UnstableSort.exists_mapM_sortOn {ε α β γ δ κ : Type} [LinearOrder κ] (S : UnstableSort)
    {k : β → κ} {f : β → Except ε γ} {e : α → β} {v : γ → δ} {w : α → δ} {l : List α}
    (h : ∀ a ∈ l, ∃ b, f (e a) = .ok b ∧ v b = w a) :
    ∃ bs, (S.sortOn k (l.map e)).mapM f = .ok bs ∧ (bs.map v).Perm (l.map w) := by
  obtain ⟨l', hperm, heq⟩ := exists_map_of_perm (S.sortOn_perm k (l.map e))
  obtain ⟨bs, hbs, hviews⟩ := exists_mapM_ok fun a ha => h a (hperm.subset ha)
  refine ⟨bs, by rw [heq, hbs], ?_⟩
  rw [hviews]
  exact hperm.map w

end Lib
