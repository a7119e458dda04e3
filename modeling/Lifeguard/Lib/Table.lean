import Mathlib.Data.List.Nodup
import Mathlib.Data.List.Basic
import Mathlib.Data.Finset.Basic

/-!
# Association tables

A finite map kept as its list of entries, in the order a walk over the map meets
them. The absence of a repeated key is a field, so an entry of the list *is* the
value the map holds for its key (`mem_entries`), and a walk over the list reads
every value once. Two tables are compared by what they answer (`get?`), never by
the order of their entries.

The operations are the ones a hash map offers: lookup, in-place modification,
insertion with replacement, removal, and insert-or-modify. Each comes with its
reading lemma, `get?_…`, so that later proofs never unfold it.
-/

namespace Lib

universe u v w

/-- A finite map as the list of its entries. -/
structure Table (κ : Type u) (α : Type v) where
  entries : List (κ × α)
  nodup : (entries.map Prod.fst).Nodup
  deriving DecidableEq

namespace Table

variable {κ : Type u} {α : Type v} {β : Type w} [DecidableEq κ]

/-- The first value stored under `k`. -/
def find : List (κ × α) → κ → Option α
  | [], _ => none
  | (k', a) :: rest, k => if k' = k then some a else find rest k

/-- The value stored under `k`. -/
def get? (t : Table κ α) (k : κ) : Option α :=
  find t.entries k

/-- The keys, in the order of the entries. -/
def keys (t : Table κ α) : List κ :=
  t.entries.map Prod.fst

omit [DecidableEq κ] in
theorem keys_nodup (t : Table κ α) : t.keys.Nodup :=
  t.nodup

theorem find_eq_none_iff {l : List (κ × α)} {k : κ} :
    find l k = none ↔ k ∉ l.map Prod.fst := by
  induction l with
  | nil => simp [find]
  | cons e rest ih =>
    obtain ⟨k', a⟩ := e
    by_cases h : k' = k
    · simp [find, h]
    · simp [find, h, ih, Ne.symm h]

theorem mem_of_find {l : List (κ × α)} {k : κ} {a : α} (h : find l k = some a) :
    (k, a) ∈ l := by
  induction l with
  | nil => simp [find] at h
  | cons e rest ih =>
    obtain ⟨k', a'⟩ := e
    rw [find] at h
    split at h
    · next hk =>
      cases h
      rw [hk]
      exact List.mem_cons_self ..
    · exact List.mem_cons_of_mem _ (ih h)

theorem find_of_mem {l : List (κ × α)} {k : κ} {a : α}
    (hl : (l.map Prod.fst).Nodup) (h : (k, a) ∈ l) : find l k = some a := by
  induction l with
  | nil => cases h
  | cons e rest ih =>
    obtain ⟨k', a'⟩ := e
    rw [List.map_cons, List.nodup_cons] at hl
    rcases List.mem_cons.mp h with heq | hrest
    · cases heq
      simp [find]
    · have hne : k' ≠ k := by
        rintro rfl
        exact hl.1 (List.mem_map.mpr ⟨_, hrest, rfl⟩)
      rw [find, if_neg hne]
      exact ih hl.2 hrest

/-- An entry of the list is exactly an answer of the lookup. -/
theorem mem_entries {t : Table κ α} {k : κ} {a : α} :
    (k, a) ∈ t.entries ↔ t.get? k = some a :=
  ⟨find_of_mem t.nodup, mem_of_find⟩

theorem mem_keys {t : Table κ α} {k : κ} : k ∈ t.keys ↔ (t.get? k).isSome := by
  rw [Option.isSome_iff_ne_none, ne_eq, get?, find_eq_none_iff, not_not]
  rfl

/-! ## Building and editing -/

/-- The table with no entry. -/
def empty : Table κ α where
  entries := []
  nodup := List.nodup_nil

@[simp] theorem get?_empty (k : κ) : (empty : Table κ α).get? k = none := rfl

/-- Apply `f` to every value, under its key. -/
def mapVals (t : Table κ α) (f : κ → α → β) : Table κ β where
  entries := t.entries.map fun e => (e.1, f e.1 e.2)
  nodup := by
    rw [List.map_map]
    exact t.nodup

theorem find_map (f : κ → α → β) (l : List (κ × α)) (k : κ) :
    find (l.map fun e => (e.1, f e.1 e.2)) k = (find l k).map (f k) := by
  induction l with
  | nil => rfl
  | cons e rest ih =>
    obtain ⟨k', a⟩ := e
    by_cases h : k' = k
    · simp [find, h]
    · simp [find, h, ih]

@[simp] theorem get?_mapVals (t : Table κ α) (f : κ → α → β) (k : κ) :
    (t.mapVals f).get? k = (t.get? k).map (f k) :=
  find_map f t.entries k

/-- Apply `f` to the value under `k`, if there is one. -/
def modify (t : Table κ α) (k : κ) (f : α → α) : Table κ α :=
  t.mapVals fun k' a => if k' = k then f a else a

theorem get?_modify (t : Table κ α) (k k' : κ) (f : α → α) :
    (t.modify k f).get? k' = if k' = k then (t.get? k').map f else t.get? k' := by
  rw [modify, get?_mapVals]
  split
  · rfl
  · cases t.get? k' <;> rfl

/-- Two edits commute when they are of different keys, or commute on every value. -/
theorem modify_comm (t : Table κ α) {k k' : κ} {f g : α → α}
    (h : k = k' → ∀ a, f (g a) = g (f a)) :
    (t.modify k f).modify k' g = (t.modify k' g).modify k f := by
  unfold modify mapVals
  simp only [List.map_map, mk.injEq]
  refine List.map_congr_left fun e _ => ?_
  show (e.1, _) = (e.1, _)
  dsimp only [Function.comp_apply]
  by_cases hk : e.1 = k
  · by_cases hk' : e.1 = k'
    · rw [if_pos hk', if_pos hk, if_pos hk, if_pos hk', h (hk.symm.trans hk')]
    · rw [if_neg hk', if_pos hk, if_pos hk, if_neg hk']
  · by_cases hk' : e.1 = k'
    · rw [if_pos hk', if_neg hk, if_neg hk, if_pos hk']
    · rw [if_neg hk', if_neg hk, if_neg hk, if_neg hk']

/-- The entry that is modified stays where it is. -/
theorem entries_modify {t : Table κ α} {k : κ} {a : α} {f : α → α} {before after : List (κ × α)}
    (h : t.entries = before ++ (k, a) :: after) :
    (t.modify k f).entries = before ++ (k, f a) :: after := by
  have hnodup := t.nodup
  rw [h, List.map_append, List.map_cons] at hnodup
  obtain ⟨-, hafter, hbefore⟩ := List.nodup_append.mp hnodup
  have hsame : ∀ l : List (κ × α), k ∉ l.map Prod.fst →
      l.map (fun e => (e.1, if e.1 = k then f e.2 else e.2)) = l := by
    intro l hk
    refine (List.map_congr_left fun e he => ?_).trans (List.map_id l)
    have hne : e.1 ≠ k := fun heq => hk (heq ▸ List.mem_map_of_mem he)
    rw [if_neg hne]
    rfl
  have hk : k ∉ before.map Prod.fst := fun hmem => hbefore k hmem k (List.mem_cons_self ..) rfl
  show t.entries.map (fun e => (e.1, if e.1 = k then f e.2 else e.2)) = _
  rw [h, List.map_append, List.map_cons, hsame before hk, hsame after (List.nodup_cons.mp hafter).1,
    if_pos rfl]

/-- Store `a` under `k`, replacing what was there. -/
def insert (t : Table κ α) (k : κ) (a : α) : Table κ α :=
  if h : k ∈ t.entries.map Prod.fst then t.modify k fun _ => a
  else
    { entries := t.entries ++ [(k, a)]
      nodup := by
        rw [List.map_append, List.map_cons, List.map_nil, List.nodup_append]
        refine ⟨t.nodup, List.nodup_singleton k, ?_⟩
        intro x hx y hy hxy
        have hyk : y = k := List.mem_singleton.mp hy
        rw [hxy, hyk] at hx
        exact h hx }

theorem find_append (l₁ l₂ : List (κ × α)) (k : κ) :
    find (l₁ ++ l₂) k = (find l₁ k).or (find l₂ k) := by
  induction l₁ with
  | nil => rfl
  | cons e rest ih =>
    obtain ⟨k', a⟩ := e
    by_cases h : k' = k
    · simp [find, h]
    · simp [find, h, ih]

theorem get?_insert (t : Table κ α) (k k' : κ) (a : α) :
    (t.insert k a).get? k' = if k' = k then some a else t.get? k' := by
  rw [insert]
  split
  · next h =>
    rw [get?_modify]
    split
    · next hk =>
      rw [hk]
      have hsome : (t.get? k).isSome := mem_keys.mp h
      obtain ⟨b, hb⟩ := Option.isSome_iff_exists.mp hsome
      rw [hb]
      rfl
    · rfl
  · next h =>
    show find (t.entries ++ [(k, a)]) k' = _
    rw [find_append]
    split
    · next hk =>
      rw [hk, find_eq_none_iff.mpr h]
      simp [find]
    · next hk =>
      have : find [(k, a)] k' = none := by simp [find, Ne.symm hk]
      rw [this, Option.or_none]
      rfl

@[simp] theorem get?_insert_self (t : Table κ α) (k : κ) (a : α) :
    (t.insert k a).get? k = some a := by
  rw [get?_insert, if_pos rfl]

theorem get?_insert_of_ne (t : Table κ α) {k k' : κ} (a : α) (h : k' ≠ k) :
    (t.insert k a).get? k' = t.get? k' := by
  rw [get?_insert, if_neg h]

/-- Apply `f` to the value under `k`, or store `a` there when there is none. -/
def upsert (t : Table κ α) (k : κ) (f : α → α) (a : α) : Table κ α :=
  t.insert k (((t.get? k).map f).getD a)

theorem get?_upsert (t : Table κ α) (k k' : κ) (f : α → α) (a : α) :
    (t.upsert k f a).get? k'
      = if k' = k then some (((t.get? k').map f).getD a) else t.get? k' := by
  rw [upsert, get?_insert]
  by_cases h : k' = k
  · rw [if_pos h, if_pos h, h]
  · rw [if_neg h, if_neg h]

/-- Map the values, and leave out the keys that get none. -/
def filterMapVals (t : Table κ α) (f : κ → α → Option β) : Table κ β where
  entries := t.entries.filterMap fun e => (f e.1 e.2).map fun b => (e.1, b)
  nodup := by
    refine t.nodup.sublist ?_
    generalize t.entries = l
    induction l with
    | nil => exact List.Sublist.refl _
    | cons e l ih =>
      rw [List.filterMap_cons]
      cases f e.1 e.2 with
      | none => exact ih.cons _
      | some b => exact ih.cons_cons _

theorem get?_filterMapVals (t : Table κ α) (f : κ → α → Option β) (k : κ) :
    (t.filterMapVals f).get? k = (t.get? k).bind (f k) := by
  refine Option.ext fun b => ?_
  rw [← mem_entries, Option.bind_eq_some_iff]
  constructor
  · intro h
    obtain ⟨⟨k', a⟩, ha, hb⟩ := List.mem_filterMap.mp h
    obtain ⟨b', hb', heq⟩ := Option.map_eq_some_iff.mp hb
    cases heq
    exact ⟨a, mem_entries.mp ha, hb'⟩
  · rintro ⟨a, ha, hb⟩
    exact List.mem_filterMap.mpr ⟨(k, a), mem_entries.mpr ha, by rw [hb]; rfl⟩

/-- Remove the entry under `k`. -/
def erase (t : Table κ α) (k : κ) : Table κ α where
  entries := t.entries.filter fun e => e.1 ≠ k
  nodup := t.nodup.sublist (List.filter_sublist.map Prod.fst)

theorem get?_erase (t : Table κ α) (k k' : κ) :
    (t.erase k).get? k' = if k' = k then none else t.get? k' := by
  have key : ∀ l : List (κ × α),
      find (l.filter fun e => e.1 ≠ k) k' = if k' = k then none else find l k' := by
    intro l
    induction l with
    | nil => simp [find]
    | cons e rest ih =>
      obtain ⟨k₀, a⟩ := e
      by_cases hk : k' = k
      · by_cases h₀ : k₀ = k
        · rw [List.filter_cons_of_neg (by simpa using h₀), ih]
          simp [hk]
        · rw [List.filter_cons_of_pos (by simpa using h₀), find, ih]
          simp [hk, h₀]
      · by_cases h₀ : k₀ = k
        · have hne : k₀ ≠ k' := by
            rw [h₀]
            exact Ne.symm hk
          rw [List.filter_cons_of_neg (by simpa using h₀), ih]
          simp [hk, find, hne]
        · rw [List.filter_cons_of_pos (by simpa using h₀), find, ih]
          simp [hk, find]
  exact key t.entries

/-- The table of a list of entries, a later entry replacing an earlier one. -/
def ofList (l : List (κ × α)) : Table κ α :=
  l.foldl (fun t e => t.insert e.1 e.2) empty

theorem get?_foldl_insert {l : List (κ × α)} (hl : (l.map Prod.fst).Nodup) (t : Table κ α)
    {k : κ} {a : α} :
    (l.foldl (fun t e => t.insert e.1 e.2) t).get? k = some a ↔
      (k, a) ∈ l ∨ (k ∉ l.map Prod.fst ∧ t.get? k = some a) := by
  induction l generalizing t with
  | nil => simp
  | cons e rest ih =>
    rw [List.map_cons, List.nodup_cons] at hl
    rw [List.foldl_cons, ih hl.2, get?_insert, List.mem_cons, List.map_cons, List.mem_cons]
    by_cases hk : k = e.1
    · subst hk
      rw [if_pos rfl]
      constructor
      · rintro (hrest | ⟨-, hval⟩)
        · exact Or.inl (Or.inr hrest)
        · exact Or.inl (Or.inl (Prod.ext rfl (Option.some.inj hval).symm))
      · rintro ((heq | hrest) | ⟨hno, -⟩)
        · exact Or.inr ⟨hl.1, congrArg (fun e => some e.2) heq.symm⟩
        · exact Or.inl hrest
        · exact absurd (Or.inl rfl) hno
    · rw [if_neg hk]
      have hne : (k, a) ≠ e := fun heq => hk (congrArg Prod.fst heq)
      rw [or_iff_right hne, or_iff_right hk]

/-- With no repeated key, the table holds exactly the entries of the list. -/
theorem get?_ofList {l : List (κ × α)} (hl : (l.map Prod.fst).Nodup) {k : κ} {a : α} :
    (ofList l).get? k = some a ↔ (k, a) ∈ l := by
  unfold ofList
  rw [get?_foldl_insert hl, get?_empty]
  simp

/-- With no repeated key, the entries are those of the list, in its order. -/
theorem entries_foldl_insert {l : List (κ × α)} (t : Table κ α)
    (hl : (t.entries.map Prod.fst ++ l.map Prod.fst).Nodup) :
    (l.foldl (fun t e => t.insert e.1 e.2) t).entries = t.entries ++ l := by
  induction l generalizing t with
  | nil => simp
  | cons e rest ih =>
    have hnew : e.1 ∉ t.entries.map Prod.fst := fun hmem =>
      (List.nodup_append.mp hl).2.2 e.1 hmem e.1 (List.mem_cons_self ..) rfl
    have hinsert : (t.insert e.1 e.2).entries = t.entries ++ [e] := by
      rw [insert, dif_neg hnew]
    rw [List.foldl_cons, ih, hinsert, List.append_assoc, List.singleton_append]
    rwa [hinsert, List.map_append, List.append_assoc]

theorem entries_ofList {l : List (κ × α)} (hl : (l.map Prod.fst).Nodup) :
    (ofList l).entries = l :=
  entries_foldl_insert empty hl

/-- The table of the keys of a list that have a value. -/
def ofOptions (l : List (κ × Option α)) : Table κ α :=
  ofList (l.filterMap fun e => e.2.map fun a => (e.1, a))

omit [DecidableEq κ] in
theorem sublist_filterMap_options (l : List (κ × Option α)) :
    ((l.filterMap fun e => e.2.map fun a => (e.1, a)).map Prod.fst).Sublist
      (l.map Prod.fst) := by
  induction l with
  | nil => exact List.Sublist.refl _
  | cons e l ih =>
    obtain ⟨k, o⟩ := e
    cases o with
    | none => exact ih.cons _
    | some a => exact ih.cons_cons _

/-- With no repeated key, each key finds its own value, or none when it has none. -/
theorem get?_ofOptions {l : List (κ × Option α)} (hl : (l.map Prod.fst).Nodup) {k : κ}
    {o : Option α} (h : (k, o) ∈ l) : (ofOptions l).get? k = o := by
  refine Option.ext fun a => ?_
  rw [ofOptions, get?_ofList (hl.sublist (sublist_filterMap_options l)), List.mem_filterMap]
  constructor
  · rintro ⟨e, he, hval⟩
    obtain ⟨a', ha', heq⟩ := Option.map_eq_some_iff.mp hval
    cases heq
    have hsame : (e.1, o) = e := List.inj_on_of_nodup_map hl h he rfl
    rw [← ha', ← hsame]
  · rintro rfl
    exact ⟨_, h, rfl⟩

end Table

end Lib
