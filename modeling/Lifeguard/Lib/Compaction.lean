import Mathlib.Data.List.Pairwise
import Mathlib.Order.Lattice

/-!
# Compaction in place

A vector sorted by key is compacted in place: one index writes, the other reads ahead. An
item with the key of the last one written is joined into it, another is moved next to it.

- `Compacts.step`: what has been read is written or joined, after one more index;
- `Grouping`: the vector cut into the stretches of one key;
- `compact_eq_groups`: the vector ends as its stretches, each joined from left to right, and
  no index on the way is out of range.
-/

namespace Lib

universe u v

variable {α : Type u} {κ : Type v}

section Compact

variable [DecidableEq κ] (key : α → κ) (join : α → α → α) (husk : κ → α)

/-- The body of the loop, at one index to read. The first component is the index last
written; no result is an index out of range. -/
def compactStep (st : Nat × List α) (read : Nat) : Option (Nat × List α) := do
  let kept ← st.2[st.1]?
  let next ← st.2[read]?
  if key kept = key next then
    -- the item is taken out before the one written last is touched
    let items := st.2.set read (husk (key next))
    let target ← items[st.1]?
    some (st.1, items.set st.1 (join target next))
  else if st.1 + 1 = read then some (read, st.2)
  else
    let passed ← st.2[st.1 + 1]?
    some (st.1 + 1, (st.2.set (st.1 + 1) next).set read passed)

/-- The loop, and the cut after the index last written. -/
def compact (items : List α) : Option (List α) :=
  if items.length < 2 then some items
  else do
    let st ← (List.range' 1 (items.length - 1)).foldlM (compactStep key join husk) (0, items)
    some (st.2.take (st.1 + 1))

/-- The items joined stretch by stretch, the one at hand joined with what follows it. -/
def joinInto (kept : α) : List α → List α
  | [] => [kept]
  | next :: rest =>
    if key kept = key next then joinInto (join kept next) rest
    else kept :: joinInto next rest

/-- Between two steps: what was written, the item last written, what was passed over, and
what is still to be read. -/
structure Compacts (written passed rest : List α) (kept : α) (st : Nat × List α) : Prop where
  index : st.1 = written.length
  items : st.2 = written ++ kept :: (passed ++ rest)

variable {written passed rest : List α} {kept next : α} {st : Nat × List α}

/-- One step reads the next item, which it joins or moves. -/
theorem Compacts.step (h : Compacts written passed (next :: rest) kept st) :
    ∃ st', compactStep key join husk st (written.length + 1 + passed.length) = some st' ∧
      if key kept = key next then
        ∃ passed', passed'.length = passed.length + 1 ∧
          Compacts written passed' rest (join kept next) st'
      else
        ∃ passed', passed'.length = passed.length ∧
          Compacts (written ++ [kept]) passed' rest next st' := by
  obtain ⟨write, items⟩ := st
  obtain ⟨rfl, hitems⟩ := h
  change items = _ at hitems
  have hkept : items[written.length]? = some kept := by
    rw [hitems, List.getElem?_append_right (Nat.le_refl _), Nat.sub_self]
    rfl
  have hsplit : items = (written ++ kept :: passed) ++ next :: rest := by
    rw [hitems]
    simp
  have hread : (written ++ kept :: passed).length = written.length + 1 + passed.length := by
    simp
    omega
  have hnext : items[written.length + 1 + passed.length]? = some next := by
    rw [hsplit, ← hread, List.getElem?_append_right (Nat.le_refl _), Nat.sub_self]
    rfl
  have hset : ∀ item : α, items.set (written.length + 1 + passed.length) item =
      written ++ kept :: (passed ++ item :: rest) := by
    intro item
    rw [hsplit, ← hread, List.set_append_right _ _ (Nat.le_refl _), Nat.sub_self]
    simp
  unfold compactStep
  simp only [hkept, hnext, Option.bind_eq_bind, Option.bind_some]
  by_cases hkey : key kept = key next
  · simp only [if_pos hkey]
    rw [hset]
    have htarget : (written ++ kept :: (passed ++ husk (key next) :: rest))[written.length]? =
        some kept := by
      rw [List.getElem?_append_right (Nat.le_refl _), Nat.sub_self]
      rfl
    rw [htarget, Option.bind_some]
    refine ⟨_, rfl, passed ++ [husk (key next)], by simp, rfl, ?_⟩
    show (written ++ kept :: (passed ++ husk (key next) :: rest)).set _ _ = _
    rw [List.set_append_right _ _ (Nat.le_refl _), Nat.sub_self]
    simp
  · simp only [if_neg hkey]
    cases passed with
    | nil =>
      rw [if_pos (by simp)]
      refine ⟨_, rfl, [], rfl, by simp, ?_⟩
      rw [hitems]
      simp
    | cons first more =>
      -- the item read changes places with the first that was passed over
      rw [if_neg (by simp)]
      have hfirst : items[written.length + 1]? = some first := by
        rw [hitems, List.getElem?_append_right (by omega)]
        simp
      rw [hfirst, Option.bind_some]
      refine ⟨_, rfl, more ++ [first], by simp, by simp, ?_⟩
      have hwrite : items.set (written.length + 1) next =
          ((written ++ [kept]) ++ next :: more) ++ next :: rest := by
        rw [hitems, List.set_append_right _ _ (by omega)]
        simp
      have hlen : ((written ++ [kept]) ++ next :: more).length =
          written.length + 1 + (first :: more).length := by
        simp
        omega
      show (items.set (written.length + 1) next).set _ first = _
      rw [hwrite, ← hlen, List.set_append_right _ _ (Nat.le_refl _), Nat.sub_self]
      simp

/-- The loop leaves what was written and, joined, what was still to be read. -/
theorem Compacts.run (h : Compacts written passed rest kept st) :
    ∃ st', (List.range' (written.length + 1 + passed.length) rest.length).foldlM
        (compactStep key join husk) st = some st' ∧
      st'.2.take (st'.1 + 1) = written ++ joinInto key join kept rest := by
  induction rest generalizing written passed kept st with
  | nil =>
    refine ⟨st, rfl, ?_⟩
    rw [h.index, h.items, joinInto, List.take_append, List.take_of_length_le (Nat.le_succ _),
      Nat.add_sub_cancel_left]
    rfl
  | cons next rest ih =>
    obtain ⟨st', hstep, hnext⟩ := h.step key join husk
    rw [List.length_cons, List.range'_succ, List.foldlM_cons, hstep, joinInto]
    show ∃ st'', List.foldlM _ st' _ = some st'' ∧ _
    by_cases hkey : key kept = key next
    · rw [if_pos hkey] at hnext ⊢
      obtain ⟨passed', hlen, hinv⟩ := hnext
      obtain ⟨final, hrun, hfinal⟩ := ih hinv
      exact ⟨final, by rw [← hrun, hlen]; rfl, hfinal⟩
    · rw [if_neg hkey] at hnext ⊢
      obtain ⟨passed', hlen, hinv⟩ := hnext
      obtain ⟨final, hrun, hfinal⟩ := ih hinv
      refine ⟨final, ?_, by rw [hfinal]; simp⟩
      rw [← hrun, hlen, List.length_append, List.length_singleton]
      congr 2
      omega

theorem compact_cons (first : α) (rest : List α) :
    compact key join husk (first :: rest) = some (joinInto key join first rest) := by
  unfold compact
  by_cases hlen : (first :: rest).length < 2
  · have hnil : rest = [] := List.eq_nil_of_length_eq_zero (by
      rw [List.length_cons] at hlen
      omega)
    rw [if_pos hlen, hnil, joinInto]
  · rw [if_neg hlen]
    have hstart : Compacts [] [] rest first (0, first :: rest) := ⟨rfl, rfl⟩
    obtain ⟨final, hrun, hfinal⟩ := hstart.run key join husk
    show (List.foldlM (compactStep key join husk) (0, first :: rest) _).bind _ = _
    rw [show (first :: rest).length - 1 = rest.length from rfl]
    rw [show ([] : List α).length + 1 + ([] : List α).length = 1 from rfl] at hrun
    rw [hrun, Option.bind_some, hfinal]
    rfl

end Compact

/-! ## The stretches -/

/-- A vector cut into stretches of one key, the stretches in the order of their keys. -/
structure Grouping [LinearOrder κ] (key : α → κ) (items : List α)
    (groups : List (α × List α)) : Prop where
  /-- Each item is in one stretch, once. -/
  covers : groups.flatMap (fun g => g.1 :: g.2) = items
  uniform : ∀ g ∈ groups, ∀ item ∈ g.2, key item = key g.1
  increasing : groups.Pairwise fun g g' => key g.1 < key g'.1

section Groups

variable [LinearOrder κ] [DecidableEq κ] {key : α → κ} {join : α → α → α} {items : List α}

/-- A stretch holds all the items of its key. -/
theorem Grouping.group_eq {groups : List (α × List α)} (h : Grouping key items groups)
    {g : α × List α} (hg : g ∈ groups) :
    g.1 :: g.2 = items.filter fun item => decide (key item = key g.1) := by
  obtain ⟨hcovers, huniform, hincreasing⟩ := h
  have hkey : ∀ g ∈ groups, ∀ item ∈ g.1 :: g.2, key item = key g.1 := by
    intro g hg item hitem
    rcases List.mem_cons.mp hitem with rfl | hmem
    · rfl
    · exact huniform g hg item hmem
  obtain ⟨before, after, rfl⟩ := List.append_of_mem hg
  obtain ⟨_, hafter, hacross⟩ := List.pairwise_append.mp hincreasing
  have hbefore : ∀ g' ∈ before, (g'.1 :: g'.2).filter (fun item => decide (key item = key g.1)) =
      [] := by
    intro g' hg'
    refine List.filter_eq_nil_iff.mpr fun item hitem => ?_
    rw [hkey g' (List.mem_append_left _ hg') item hitem]
    simpa using ne_of_lt (hacross g' hg' g List.mem_cons_self)
  have hlater : ∀ g' ∈ after, (g'.1 :: g'.2).filter (fun item => decide (key item = key g.1)) =
      [] := by
    intro g' hg'
    refine List.filter_eq_nil_iff.mpr fun item hitem => ?_
    rw [hkey g' (List.mem_append_right _ (List.mem_cons_of_mem _ hg')) item hitem]
    simpa using ne_of_gt ((List.pairwise_cons.mp hafter).1 g' hg')
  have hown : (g.1 :: g.2).filter (fun item => decide (key item = key g.1)) = g.1 :: g.2 :=
    List.filter_eq_self.mpr fun item hitem =>
      decide_eq_true (hkey g (List.mem_append_right _ List.mem_cons_self) item hitem)
  rw [← hcovers, List.flatMap_append, List.flatMap_cons, List.filter_append, List.filter_append,
    List.filter_flatMap, List.filter_flatMap, hown, List.flatMap_eq_nil_iff.mpr hbefore,
    List.flatMap_eq_nil_iff.mpr hlater, List.nil_append, List.append_nil]

/-- What follows an item in a sorted vector: the rest of its stretch, then stretches of
greater keys. -/
theorem joinInto_groups (hjoin : ∀ a b, key (join a b) = key a) {kept : α} {rest : List α}
    (hle : ∀ item ∈ rest, key kept ≤ key item)
    (hsorted : rest.Pairwise fun a b => key a ≤ key b) :
    ∃ (own : List α) (more : List (α × List α)),
      joinInto key join kept rest =
        own.foldl join kept :: more.map (fun g => g.2.foldl join g.1) ∧
      own ++ more.flatMap (fun g => g.1 :: g.2) = rest ∧
      (∀ item ∈ own, key item = key kept) ∧
      (∀ g ∈ more, (∀ item ∈ g.2, key item = key g.1) ∧ key kept < key g.1) ∧
      more.Pairwise fun g g' => key g.1 < key g'.1 := by
  induction rest generalizing kept with
  | nil => exact ⟨[], [], rfl, rfl, by simp, by simp, List.Pairwise.nil⟩
  | cons next rest ih =>
    obtain ⟨hnext, hsorted⟩ := List.pairwise_cons.mp hsorted
    rw [joinInto]
    by_cases hkey : key kept = key next
    · rw [if_pos hkey]
      -- the joined item has the key of its stretch, so it meets the next as before
      have hjoined : key (join kept next) = key kept := hjoin kept next
      have hle' : ∀ item ∈ rest, key (join kept next) ≤ key item :=
        fun item hitem => hjoined ▸ hkey ▸ hnext item hitem
      obtain ⟨own, more, hjoins, hcovers, hown, hmore, hincreasing⟩ := ih hle' hsorted
      rw [hjoined] at hown hmore
      refine ⟨next :: own, more, hjoins, congrArg (next :: ·) hcovers, ?_, hmore, hincreasing⟩
      intro item hitem
      rcases List.mem_cons.mp hitem with rfl | hmem
      · exact hkey.symm
      · exact hown item hmem
    · rw [if_neg hkey]
      have hle' : ∀ item ∈ rest, key next ≤ key item := hnext
      obtain ⟨own, more, hjoins, hcovers, hown, hmore, hincreasing⟩ := ih hle' hsorted
      have hlt : key kept < key next := lt_of_le_of_ne (hle next List.mem_cons_self) hkey
      refine ⟨[], (next, own) :: more, by rw [hjoins]; rfl, by simp [hcovers], by simp, ?_, ?_⟩
      · intro g hg
        rcases List.mem_cons.mp hg with rfl | hmem
        · exact ⟨hown, hlt⟩
        · exact ⟨(hmore g hmem).1, lt_trans hlt (hmore g hmem).2⟩
      · exact List.pairwise_cons.mpr ⟨fun g hg => (hmore g hg).2, hincreasing⟩

/-- A sorted vector ends as its stretches, each joined from left to right. -/
theorem compact_eq_groups (husk : κ → α) (hjoin : ∀ a b, key (join a b) = key a)
    (hsorted : items.Pairwise fun a b => key a ≤ key b) :
    ∃ groups, Grouping key items groups ∧
      compact key join husk items = some (groups.map fun g => g.2.foldl join g.1) := by
  cases items with
  | nil => exact ⟨[], ⟨rfl, by simp, List.Pairwise.nil⟩, rfl⟩
  | cons first rest =>
    obtain ⟨hfirst, hrest⟩ := List.pairwise_cons.mp hsorted
    obtain ⟨own, more, hjoins, hcovers, hown, hmore, hincreasing⟩ :=
      joinInto_groups hjoin hfirst hrest
    refine ⟨(first, own) :: more, ⟨by simp [hcovers], ?_, ?_⟩, ?_⟩
    · intro g hg
      rcases List.mem_cons.mp hg with rfl | hmem
      · exact hown
      · exact (hmore g hmem).1
    · exact List.pairwise_cons.mpr ⟨fun g hg => (hmore g hg).2, hincreasing⟩
    · rw [compact_cons, hjoins]
      rfl

end Groups

end Lib
