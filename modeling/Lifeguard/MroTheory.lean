import Lifeguard.Lib.C3
import Lifeguard.Mro
import Mathlib.Logic.Relation

/-!
# The linearization is the C3 order

What `c3Linearize` answers, on hierarchies of every kind (`Mro`).

- `BaseOf`, `C3Order`: the base edges, and the C3 order of a class, which has one only when
  the merge of its bases' orders and its base list never gets stuck;
- `Explored`: what one call of the recursion does, with cycles cut at the classes on the
  path; the answer at the root lists every class that can be reached (`mem_c3Linearize`);
- `linearize_c3`: where there is a C3 order, it is the answer;
- `c3_linearization`: all of it.

A memo entry made below a cut may lack classes, but the class the path was cut at is still
being linearized then, and its own answer has them: what is open is listed by `Handled`.
-/

namespace Lifeguard

open Lib Relation

/-- The class lists the base. -/
def BaseOf (classBases : ClassBases) (cls base : ModuleName) : Prop :=
  ∃ bases, classBases.get? cls = some bases ∧ base ∈ bases

/-- The C3 order of a class: itself, and then the merge of the C3 orders of its bases and the
list of the bases. -/
inductive C3Order (classBases : ClassBases) : ModuleName → List ModuleName → Prop
  | leaf {cls : ModuleName} : classBases.get? cls = none → C3Order classBases cls [cls]
  | node {cls : ModuleName} {bases rest : List ModuleName}
      {orders : ModuleName → List ModuleName} : classBases.get? cls = some bases →
      (∀ base ∈ bases, C3Order classBases base (orders base)) →
      Merged (bases.map orders ++ [bases]) rest → C3Order classBases cls (cls :: rest)

/-! ## The merge -/

section Merge

variable {sequences : List (List ModuleName)} {head x : ModuleName}

theorem c3Head_eq_none (h : c3Head sequences = none) : ∀ seq ∈ sequences, seq = [] := by
  intro seq hseq
  have hnone := (Option.or_eq_none_iff.mp h).2
  rw [List.head?_eq_none_iff, List.filterMap_eq_nil_iff] at hnone
  exact List.head?_eq_none_iff.mp (hnone seq hseq)

/-- A round with the empty sequences dropped first takes as much. -/
theorem filter_map_pop (sequences : List (List ModuleName)) (head : ModuleName) :
    (((sequences.filter fun seq => !seq.isEmpty).map (dropHead head)).filter
        fun seq => !seq.isEmpty) =
      (sequences.map (dropHead head)).filter fun seq => !seq.isEmpty := by
  induction sequences with
  | nil => rfl
  | cons seq rest ih =>
    cases seq with
    | nil => exact ih
    | cons a tail =>
      rw [List.filter_cons_of_pos rfl, List.map_cons, List.map_cons, List.filter_cons,
        List.filter_cons, ih]

theorem mem_filter_nonempty : (∃ seq ∈ sequences.filter fun seq => !seq.isEmpty, x ∈ seq) ↔
    ∃ seq ∈ sequences, x ∈ seq := by
  constructor
  · rintro ⟨seq, hseq, hx⟩
    exact ⟨seq, (List.mem_filter.mp hseq).1, hx⟩
  · rintro ⟨seq, hseq, hx⟩
    refine ⟨seq, List.mem_filter.mpr ⟨hseq, ?_⟩, hx⟩
    cases seq with
    | nil => cases hx
    | cons a tail => rfl

/-- The merge loses nothing, forced rounds included, and adds nothing. -/
theorem mem_c3MergeFrom {fuel : Nat} (h : (sequences.map List.length).sum ≤ fuel) :
    x ∈ c3MergeFrom fuel sequences ↔ ∃ seq ∈ sequences, x ∈ seq := by
  induction fuel generalizing sequences with
  | zero =>
    constructor
    · exact fun hx => absurd hx List.not_mem_nil
    · rintro ⟨seq, hseq, hx⟩
      have hle : seq.length ≤ (sequences.map List.length).sum :=
        List.single_le_sum (fun _ _ => Nat.zero_le _) _ (List.mem_map.mpr ⟨seq, hseq, rfl⟩)
      have hpos : 0 < seq.length := List.length_pos_of_mem hx
      omega
  | succ fuel ih =>
    rw [c3MergeFrom, ← mem_filter_nonempty]
    generalize hseqs : (sequences.filter fun seq => !seq.isEmpty) = seqs
    have hsum := sum_length_filter_le sequences
    rw [hseqs] at hsum
    cases hhead : c3Head seqs with
    | none =>
      dsimp only
      constructor
      · exact fun hx => absurd hx List.not_mem_nil
      · rintro ⟨seq, hseq, hx⟩
        rw [c3Head_eq_none hhead seq hseq] at hx
        cases hx
    | some head =>
      dsimp only
      -- a round takes one element at least, so the fuel suffices for the rest
      have hlt := sum_length_pop_lt (mem_heads_of_c3Head hhead)
      rw [List.mem_cons, ih (by omega)]
      constructor
      · rintro (rfl | ⟨seq, hseq, hx⟩)
        · obtain ⟨seq, hseq, hfirst⟩ := mem_heads_of_c3Head hhead
          exact ⟨seq, hseq, List.mem_of_head? hfirst⟩
        · obtain ⟨whole, hwhole, rfl⟩ := List.mem_map.mp hseq
          exact ⟨whole, hwhole, mem_of_mem_dropHead hx⟩
      · rintro ⟨seq, hseq, hx⟩
        exact (mem_dropHead_or hx).imp_right fun hdrop =>
          ⟨dropHead head seq, List.mem_map.mpr ⟨seq, hseq, rfl⟩, hdrop⟩

theorem mem_c3Merge : x ∈ c3Merge sequences ↔ ∃ seq ∈ sequences, x ∈ seq :=
  mem_c3MergeFrom (Nat.le_refl _)

/-- The head the source takes is the first good one, when there is one. -/
theorem c3Head_of_firstGood (h : FirstGood sequences head) :
    c3Head (sequences.filter fun seq => !seq.isEmpty) = some head := by
  obtain ⟨before, tail, after, heq, hbefore⟩ := h.isHead
  -- dropping the empty sequences changes no tail
  have hgood : ∀ a, (!(sequences.filter fun seq => !seq.isEmpty).any
      fun seq => seq.tail.contains a) = true ↔ ∀ seq ∈ sequences, a ∉ seq.tail := by
    intro a
    rw [Bool.not_eq_true', List.any_eq_false]
    simp only [List.contains_iff_mem, List.mem_filter, and_imp]
    constructor
    · intro hall seq hseq hmem
      cases seq with
      | nil => cases hmem
      | cons b tail => exact hall (b :: tail) hseq rfl hmem
    · intro hall seq hseq _
      exact hall seq hseq
  unfold c3Head
  refine Option.or_eq_some_iff.mpr (Or.inl ?_)
  rw [List.find?_eq_some_iff_append]
  refine ⟨(hgood head).mpr h.good, ?_⟩
  refine ⟨(before.filter fun seq => !seq.isEmpty).filterMap List.head?,
    (after.filter fun seq => !seq.isEmpty).filterMap List.head?, ?_, ?_⟩
  · rw [heq, List.filter_append, List.filterMap_append, List.filter_cons_of_pos rfl,
      List.filterMap_cons]
    rfl
  · intro a ha
    obtain ⟨seq, hseq, hfirst⟩ := List.mem_filterMap.mp ha
    cases seq with
    | nil => cases hfirst
    | cons b tail =>
      obtain rfl := Option.some.inj hfirst
      obtain ⟨seq', hseq', htail⟩ := hbefore b tail (List.mem_filter.mp hseq).1
      rw [Bool.not_eq_true', Bool.eq_false_iff]
      exact fun hall => (hgood b).mp hall seq' hseq' htail

/-- The merge of the source is the C3 merge, when there is one. -/
theorem c3MergeFrom_of_merged {order : List ModuleName} (h : Merged sequences order)
    {fuel : Nat} {given : List (List ModuleName)}
    (hgiven : (given.filter fun seq => !seq.isEmpty) = sequences.filter fun seq => !seq.isEmpty)
    (hfuel : (given.map List.length).sum ≤ fuel) : c3MergeFrom fuel given = order := by
  -- one more round than the fuel needs can be unfolded
  have hround : c3MergeFrom fuel given = c3MergeFrom (fuel + 1) given :=
    c3MergeFrom_fuel hfuel (Nat.le_succ_of_le hfuel)
  induction h generalizing fuel given with
  | @done sequences hnil =>
    have hnone : (sequences.filter fun seq => !seq.isEmpty) = [] := by
      refine List.filter_eq_nil_iff.mpr fun seq hseq => ?_
      rw [hnil seq hseq]
      exact Bool.false_ne_true
    rw [hround, c3MergeFrom, hgiven, hnone]
    rfl
  | @take sequences head rest hgood _ ih =>
    have hhead := c3Head_of_firstGood hgood
    have hlt := sum_length_pop_lt (mem_heads_of_c3Head hhead)
    have hle := sum_length_filter_le given
    rw [hgiven] at hle
    rw [hround, c3MergeFrom, hgiven]
    simp only [hhead]
    refine congrArg (head :: ·) ?_
    have hsum : ((((sequences.filter fun seq => !seq.isEmpty).map (dropHead head))).map
        List.length).sum ≤ fuel := by
      have : (((sequences.filter fun seq => !seq.isEmpty).map (dropHead head)).map
        List.length).sum < _ := hlt
      omega
    exact ih (filter_map_pop sequences head) hsum
      (c3MergeFrom_fuel hsum (Nat.le_succ_of_le hsum))

theorem c3Merge_of_merged {order : List ModuleName} (h : Merged sequences order) :
    c3Merge sequences = order :=
  c3MergeFrom_of_merged h rfl (Nat.le_refl _)

end Merge

/-! ## The recursion, on any hierarchy -/

variable {classBases : ClassBases}

/-- The class is reached along base edges. -/
abbrev Inherits (classBases : ClassBases) (cls x : ModuleName) : Prop :=
  ReflTransGen (BaseOf classBases) cls x

/-- The path is one of distinct classes with recorded bases, and there is fuel for the rest of
these. -/
structure OnPath (classBases : ClassBases) (fuel : Nat) (path : List ModuleName) : Prop where
  nodup : path.Nodup
  recorded : path ⊆ classBases.keys
  fuel : classBases.keys.length + 1 ≤ fuel + path.length

theorem OnPath.pos {path : List ModuleName} (h : OnPath classBases 0 path) : False := by
  have := (List.subperm_of_subset h.nodup h.recorded).length_le
  have := h.fuel
  omega

theorem OnPath.push {fuel : Nat} {path : List ModuleName} {cls : ModuleName}
    {bases : List ModuleName} (h : OnPath classBases (fuel + 1) path) (hcls : cls ∉ path)
    (hget : classBases.get? cls = some bases) : OnPath classBases fuel (path ++ [cls]) where
  nodup := by
    refine List.Nodup.append h.nodup (List.nodup_singleton cls) ?_
    intro x hx hx'
    exact hcls (List.mem_singleton.mp hx' ▸ hx)
  recorded := List.append_subset.mpr ⟨h.recorded, List.cons_subset.mpr
    ⟨Table.mem_keys.mpr (by rw [hget]; rfl), List.nil_subset _⟩⟩
  fuel := by
    have := h.fuel
    rw [List.length_append, List.length_singleton]
    omega

/-- The class needs no more work than what is open: it has no recorded bases, it is in the
memo, or it is being linearized. -/
def Handled (classBases memo : ClassBases) (path : List ModuleName) (cls : ModuleName) : Prop :=
  (∀ base, ¬BaseOf classBases cls base) ∨ (memo.get? cls).isSome ∨ cls ∈ path

/-- The answer lists the class first, then classes it inherits from, none of them twice. -/
structure Ordered (classBases : ClassBases) (cls : ModuleName) (order : List ModuleName) :
    Prop where
  first : order.head? = some cls
  nodup : order.Nodup
  sound : ∀ x ∈ order, Inherits classBases cls x

theorem Ordered.self_mem {cls : ModuleName} {order : List ModuleName}
    (h : Ordered classBases cls order) : cls ∈ order :=
  List.mem_of_head? h.first

theorem ordered_self (cls : ModuleName) : Ordered classBases cls [cls] where
  first := rfl
  nodup := List.nodup_singleton cls
  sound _ hx := List.mem_singleton.mp hx ▸ .refl

/-- What holds of the memo: its orders list the bases of their class, each of which has been
handled. -/
def MemoInv (classBases memo : ClassBases) (path : List ModuleName) : Prop :=
  ∀ cls order, memo.get? cls = some order → Ordered classBases cls order ∧
    ∀ base, BaseOf classBases cls base → base ∈ order ∧ Handled classBases memo path base

/-- The memo has only grown. -/
def Grown (memo memo' : ClassBases) : Prop :=
  ∀ cls order, memo.get? cls = some order → memo'.get? cls = some order

theorem Handled.grown {memo memo' : ClassBases} {path : List ModuleName} {cls : ModuleName}
    (h : Handled classBases memo path cls) (hgrown : Grown memo memo') :
    Handled classBases memo' path cls := by
  refine h.imp_right (Or.imp_left fun hsome => ?_)
  obtain ⟨order, horder⟩ := Option.isSome_iff_exists.mp hsome
  rw [hgrown cls order horder]
  rfl

/-- What a call of the recursion does. -/
structure Explored (classBases memo : ClassBases) (path : List ModuleName) (cls : ModuleName)
    (out : List ModuleName × ClassBases) : Prop where
  ordered : Ordered classBases cls out.1
  inv : MemoInv classBases out.2 path
  grown : Grown memo out.2
  handled : Handled classBases out.2 path cls
  listed : ∀ c order, out.2.get? c = some order → memo.get? c = none → order ⊆ out.1

/-- What going through some bases does: their orders, and the memo after them. -/
structure Walked (classBases memo : ClassBases) (path bases : List ModuleName)
    (orders : List (List ModuleName)) (memo' : ClassBases) : Prop where
  sound : ∀ order ∈ orders, ∃ base ∈ bases, ∀ x ∈ order, Inherits classBases base x
  inv : MemoInv classBases memo' path
  grown : Grown memo memo'
  handled : ∀ base ∈ bases, Handled classBases memo' path base
  listed : ∀ c order, memo'.get? c = some order → memo.get? c = none →
    ∃ seq ∈ orders, order ⊆ seq

theorem walked_nil {memo : ClassBases} {path : List ModuleName}
    (h : MemoInv classBases memo path) : Walked classBases memo path [] [] memo where
  sound _ hmem := nomatch hmem
  inv := h
  grown _ _ h := h
  handled _ hmem := nomatch hmem
  listed c order hsome hnone := absurd (hnone.symm.trans hsome) (by simp)

theorem Walked.cons {memo memo' : ClassBases} {path bases : List ModuleName}
    {base : ModuleName} {orders : List (List ModuleName)} {out : List ModuleName × ClassBases}
    (hout : Explored classBases memo path base out)
    (h : Walked classBases out.2 path bases orders memo') :
    Walked classBases memo path (base :: bases) (out.1 :: orders) memo' where
  sound order hmem := by
    rcases List.mem_cons.mp hmem with rfl | hrest
    · exact ⟨base, List.mem_cons_self, hout.ordered.sound⟩
    · obtain ⟨b, hb, hsound⟩ := h.sound order hrest
      exact ⟨b, List.mem_cons_of_mem base hb, hsound⟩
  inv := h.inv
  grown c order horder := h.grown c order (hout.grown c order horder)
  handled b hb := by
    rcases List.mem_cons.mp hb with rfl | hrest
    · exact hout.handled.grown h.grown
    · exact h.handled b hrest
  listed c order hsome hnone := by
    cases hmid : out.2.get? c with
    | none =>
      obtain ⟨seq, hseq, hsub⟩ := h.listed c order hsome hmid
      exact ⟨seq, List.mem_cons_of_mem _ hseq, hsub⟩
    | some order' =>
      have heq := Option.some.inj (hsome.symm.trans (h.grown c order' hmid))
      exact ⟨out.1, List.mem_cons_self, heq ▸ hout.listed c order' hmid hnone⟩

/-- The bases are gone through one after another, the memo of each passed to the next. -/
theorem walked_foldl {walk : ModuleName → ClassBases → List ModuleName × ClassBases}
    {path : List ModuleName}
    (hwalk : ∀ base memo, MemoInv classBases memo path →
      Explored classBases memo path base (walk base memo))
    (bases : List ModuleName) (before : List (List ModuleName)) {memo : ClassBases}
    (hmemo : MemoInv classBases memo path) :
    ∃ orders, (bases.foldl (fun acc base =>
        (acc.1 ++ [(walk base acc.2).1], (walk base acc.2).2)) (before, memo)).1 =
          before ++ orders ∧
      Walked classBases memo path bases orders (bases.foldl (fun acc base =>
        (acc.1 ++ [(walk base acc.2).1], (walk base acc.2).2)) (before, memo)).2 := by
  induction bases generalizing before memo with
  | nil => exact ⟨[], (List.append_nil before).symm, walked_nil hmemo⟩
  | cons base bases ih =>
    have hout := hwalk base memo hmemo
    obtain ⟨orders, horders, hwalked⟩ := ih (before ++ [(walk base memo).1]) hout.inv
    refine ⟨(walk base memo).1 :: orders, ?_, hwalked.cons hout⟩
    rw [List.foldl_cons, horders, List.append_assoc]
    rfl

/-- Candidates not listed yet are added at the end. -/
theorem foldl_candidates {candidates order : List ModuleName} {cls : ModuleName}
    (hfirst : order.head? = some cls) (hnodup : order.Nodup) :
    let out := candidates.foldl
      (fun acc candidate => if candidate ∈ acc then acc else acc ++ [candidate]) order
    out.head? = some cls ∧ out.Nodup ∧ ∀ x, x ∈ out ↔ x ∈ order ∨ x ∈ candidates := by
  induction candidates generalizing order with
  | nil => exact ⟨hfirst, hnodup, fun x => by simp⟩
  | cons c candidates ih =>
    rw [List.foldl_cons]
    by_cases hc : c ∈ order
    · rw [if_pos hc]
      obtain ⟨h1, h2, h3⟩ := ih hfirst hnodup
      refine ⟨h1, h2, fun x => ?_⟩
      rw [h3, List.mem_cons]
      constructor
      · exact Or.imp_right Or.inr
      · rintro (hx | rfl | hx)
        · exact Or.inl hx
        · exact Or.inl hc
        · exact Or.inr hx
    · rw [if_neg hc]
      have hfirst' : (order ++ [c]).head? = some cls := by
        rw [List.head?_append, hfirst]
        rfl
      obtain ⟨h1, h2, h3⟩ := ih hfirst' (List.Nodup.append hnodup (List.nodup_singleton c)
        fun x hx hx' => hc (List.mem_singleton.mp hx' ▸ hx))
      refine ⟨h1, h2, fun x => ?_⟩
      rw [h3, List.mem_append, List.mem_singleton, List.mem_cons, or_assoc]

/-- The step at a class with bases: the merge of what was walked lists all of it. -/
theorem Walked.explored {memo memo' : ClassBases} {path bases : List ModuleName}
    {cls : ModuleName} {orders : List (List ModuleName)}
    (hget : classBases.get? cls = some bases) (hmemo : memo.get? cls = none)
    (h : Walked classBases memo (path ++ [cls]) bases orders memo') :
    let result := (c3Merge (orders ++ [bases])).foldl
      (fun acc candidate => if candidate ∈ acc then acc else acc ++ [candidate]) [cls]
    Explored classBases memo path cls (result, memo'.insert cls result) := by
  intro result
  obtain ⟨hfirst, hnodup, hmem⟩ := @foldl_candidates (c3Merge (orders ++ [bases])) [cls] cls rfl
    (List.nodup_singleton cls)
  have hmem' : ∀ x, x ∈ result ↔ x = cls ∨ (∃ seq ∈ orders, x ∈ seq) ∨ x ∈ bases := by
    intro x
    rw [hmem, List.mem_singleton, mem_c3Merge]
    simp only [List.mem_append, List.mem_singleton, or_and_right, exists_or, exists_eq_left]
  have hbase : ∀ {base}, base ∈ bases ↔ BaseOf classBases cls base := by
    intro base
    constructor
    · exact fun hb => ⟨bases, hget, hb⟩
    · rintro ⟨bases', hget', hb⟩
      exact Option.some.inj (hget.symm.trans hget') ▸ hb
  have hordered : Ordered classBases cls result := by
    refine ⟨hfirst, hnodup, ?_⟩
    intro x hx
    rcases (hmem' x).mp hx with rfl | ⟨seq, hseq, hxseq⟩ | hxb
    · exact .refl
    · obtain ⟨base, hb, hsound⟩ := h.sound seq hseq
      exact .head (hbase.mp hb) (hsound x hxseq)
    · exact .single (hbase.mp hxb)
  -- the class is no longer on the path, but in the memo
  have hhandled : ∀ {c}, Handled classBases memo' (path ++ [cls]) c →
      Handled classBases (memo'.insert cls result) path c := by
    rintro c (hleaf | hsome | hpath)
    · exact Or.inl hleaf
    · refine Or.inr (Or.inl ?_)
      rw [Table.get?_insert]
      split
      · rfl
      · exact hsome
    · rcases List.mem_append.mp hpath with hold | hnew
      · exact Or.inr (Or.inr hold)
      · refine Or.inr (Or.inl ?_)
        rw [List.mem_singleton.mp hnew, Table.get?_insert_self]
        rfl
  refine ⟨hordered, ?_, ?_, Or.inr (Or.inl (by rw [Table.get?_insert_self]; rfl)), ?_⟩
  · intro c order horder
    rw [Table.get?_insert] at horder
    split at horder
    · next heq =>
      obtain rfl := Option.some.inj horder
      rw [heq]
      exact ⟨hordered, fun base hb => ⟨(hmem' base).mpr (Or.inr (Or.inr (hbase.mpr hb))),
        hhandled (h.handled base (hbase.mpr hb))⟩⟩
    · obtain ⟨hord, hbases⟩ := h.inv c order horder
      exact ⟨hord, fun base hb => ⟨(hbases base hb).1, hhandled (hbases base hb).2⟩⟩
  · intro c order horder
    rw [Table.get?_insert]
    split
    · next heq =>
      rw [heq, hmemo] at horder
      cases horder
    · exact h.grown c order horder
  · intro c order horder hnone
    rw [Table.get?_insert] at horder
    split at horder
    · exact Option.some.inj horder ▸ List.Subset.refl _
    · obtain ⟨seq, hseq, hsub⟩ := h.listed c order horder hnone
      exact fun x hx => (hmem' x).mpr (Or.inr (Or.inl ⟨seq, hseq, hsub hx⟩))

/-- A call that adds nothing to the memo. -/
theorem explored_self {memo : ClassBases} {path : List ModuleName} {cls : ModuleName}
    (hmemo : MemoInv classBases memo path) (hhandled : Handled classBases memo path cls) :
    Explored classBases memo path cls ([cls], memo) where
  ordered := ordered_self cls
  inv := hmemo
  grown _ _ h := h
  handled := hhandled
  listed _ _ hsome hnone := absurd (hnone.symm.trans hsome) (by simp)

/-- A memo entry made on a path is one made on a longer path. -/
theorem MemoInv.push {memo : ClassBases} {path : List ModuleName} {cls : ModuleName}
    (h : MemoInv classBases memo path) : MemoInv classBases memo (path ++ [cls]) := by
  intro c order horder
  obtain ⟨hordered, hbases⟩ := h c order horder
  exact ⟨hordered, fun base hb => ⟨(hbases base hb).1,
    (hbases base hb).2.imp_right (Or.imp_right (List.mem_append_left _))⟩⟩

/-- What every call of the recursion does, cycles or not. -/
theorem explored_linearize {fuel : Nat} {cls : ModuleName} {memo : ClassBases}
    {path : List ModuleName} (hpath : OnPath classBases fuel path)
    (hmemo : MemoInv classBases memo path) :
    Explored classBases memo path cls (linearize classBases fuel cls memo path) := by
  induction fuel generalizing cls memo path with
  | zero => exact hpath.pos.elim
  | succ fuel ih =>
    rw [linearize]
    cases hcached : memo.get? cls with
    -- a class that was answered before is answered from the memo
    | some order =>
      refine ⟨(hmemo cls order hcached).1, hmemo, fun _ _ h => h,
        Or.inr (Or.inl (by rw [hcached]; rfl)), ?_⟩
      intro c order' hsome hnone
      exact absurd (hnone.symm.trans hsome) (by simp)
    | none =>
      dsimp only
      split
      · next hmem => exact explored_self hmemo (Or.inr (Or.inr hmem))
      · next hmem =>
        cases hget : classBases.get? cls with
        | none =>
          refine explored_self hmemo (Or.inl ?_)
          rintro base ⟨bases, hbases, _⟩
          exact absurd (hget.symm.trans hbases) (by simp)
        | some bases =>
          cases bases with
          | nil =>
            refine explored_self hmemo (Or.inl ?_)
            rintro base ⟨bases, hbases, hbase⟩
            rw [← Option.some.inj (hget.symm.trans hbases)] at hbase
            cases hbase
          | cons base bases =>
            have hwalk : ∀ base memo, MemoInv classBases memo (path ++ [cls]) →
                Explored classBases memo (path ++ [cls]) base
                  (linearize classBases fuel base memo (path ++ [cls])) :=
              fun base memo h => ih (hpath.push hmem hget) h
            obtain ⟨orders, horders, hwalked⟩ :=
              walked_foldl hwalk (base :: bases) [] hmemo.push
            dsimp only
            rw [horders, List.nil_append]
            exact hwalked.explored hget hcached

theorem onPath_nil (classBases : ClassBases) {fuel : Nat}
    (hfuel : classBases.keys.length + 1 ≤ fuel) : OnPath classBases fuel [] :=
  ⟨List.nodup_nil, List.nil_subset _, by rw [List.length_nil]; omega⟩

theorem memoInv_empty (classBases : ClassBases) (path : List ModuleName) :
    MemoInv classBases Table.empty path := by
  intro cls order h
  exact absurd h (by simp)

theorem explored_c3Linearize (classBases : ClassBases) (cls : ModuleName) :
    Explored classBases Table.empty [] cls
      (linearize classBases (classBases.keys.length + 1) cls Table.empty []) :=
  explored_linearize (onPath_nil classBases (Nat.le_refl _)) (memoInv_empty classBases [])

/-- The order lists exactly the classes that are reached along base edges. -/
theorem mem_c3Linearize {cls x : ModuleName} :
    x ∈ c3Linearize classBases cls ↔ Inherits classBases cls x := by
  have hout := explored_c3Linearize classBases cls
  refine ⟨hout.ordered.sound x, ?_⟩
  intro hreach
  -- whatever is reached is listed, and nothing is left open at the root
  have hboth : x ∈ c3Linearize classBases cls ∧ Handled classBases
      (linearize classBases (classBases.keys.length + 1) cls Table.empty []).2 [] x := by
    induction hreach with
    | refl => exact ⟨hout.ordered.self_mem, hout.handled⟩
    | tail _ hbase ih =>
      rcases ih.2 with hleaf | hsome | hpath
      · exact absurd hbase (hleaf _)
      · obtain ⟨order, horder⟩ := Option.isSome_iff_exists.mp hsome
        obtain ⟨hmem, hhandled⟩ := (hout.inv _ order horder).2 _ hbase
        exact ⟨hout.listed _ order horder rfl hmem, hhandled⟩
      · exact absurd hpath List.not_mem_nil
  exact hboth.1

/-! ## The recursion, where there is a C3 order -/

namespace C3Order

variable {cls : ModuleName} {order : List ModuleName}

theorem sound (h : C3Order classBases cls order) :
    ∀ x ∈ order, Inherits classBases cls x := by
  induction h with
  | leaf => exact fun x hx => List.mem_singleton.mp hx ▸ .refl
  | @node cls bases rest orders hget _ hmerge ih =>
    intro x hx
    rcases List.mem_cons.mp hx with rfl | hrest
    · exact .refl
    obtain ⟨seq, hseq, hxseq⟩ := hmerge.mem_iff.mp hrest
    rcases List.mem_append.mp hseq with horders | hlist
    · obtain ⟨base, hb, rfl⟩ := List.mem_map.mp horders
      exact .head ⟨bases, hget, hb⟩ (ih base hb x hxseq)
    · rw [List.mem_singleton.mp hlist] at hxseq
      exact .single ⟨bases, hget, hxseq⟩

/-- A class with a C3 order does not inherit from itself. -/
theorem acc (h : C3Order classBases cls order) :
    Acc (fun base cls => BaseOf classBases cls base) cls := by
  induction h with
  | leaf hget =>
    refine ⟨_, ?_⟩
    rintro base ⟨bases, hbases, _⟩
    exact absurd (hget.symm.trans hbases) (by simp)
  | node hget _ _ ih =>
    refine ⟨_, ?_⟩
    rintro base ⟨bases, hbases, hb⟩
    exact ih base (Option.some.inj (hget.symm.trans hbases) ▸ hb)

theorem not_transGen (h : C3Order classBases cls order) :
    ¬TransGen (BaseOf classBases) cls cls := by
  have hirrefl : ∀ {x}, Acc (TransGen fun base cls => BaseOf classBases cls base) x →
      ¬TransGen (fun base cls => BaseOf classBases cls base) x x := by
    intro x hx
    induction hx with
    | intro x _ ih => exact fun hcycle => ih x hcycle hcycle
  exact fun hcycle => hirrefl h.acc.transGen (transGen_swap.mp hcycle)

theorem unique {order' : List ModuleName} (h : C3Order classBases cls order)
    (h' : C3Order classBases cls order') : order = order' := by
  induction h generalizing order' with
  | leaf hget =>
    cases h' with
    | leaf => rfl
    | node hget' => exact absurd (hget.symm.trans hget') (by simp)
  | @node cls bases rest orders hget _ hmerge ih =>
    cases h' with
    | leaf hget' => exact absurd (hget.symm.trans hget') (by simp)
    | @node _ bases' rest' orders' hget' horders' hmerge' =>
      obtain rfl := Option.some.inj (hget.symm.trans hget')
      have hmap : bases.map orders = bases.map orders' :=
        List.map_congr_left fun base hb => ih base hb (horders' base hb)
      rw [hmap] at hmerge
      rw [hmerge.unique hmerge']

end C3Order

/-- Every order in the memo is a C3 order. -/
def MemoC3 (classBases memo : ClassBases) : Prop :=
  ∀ cls order, memo.get? cls = some order → C3Order classBases cls order

/-- Adding the merge to the class drops nothing. -/
theorem foldl_candidates_nodup {candidates order : List ModuleName}
    (h : (order ++ candidates).Nodup) :
    candidates.foldl
      (fun acc candidate => if candidate ∈ acc then acc else acc ++ [candidate]) order =
      order ++ candidates := by
  induction candidates generalizing order with
  | nil => exact (List.append_nil order).symm
  | cons c candidates ih =>
    have hc : c ∉ order := by
      intro hmem
      exact (List.nodup_append.mp h).2.2 c hmem c List.mem_cons_self rfl
    rw [List.foldl_cons, if_neg hc, ih (by rwa [← List.append_cons]), ← List.append_cons]

/-- Going through bases that have C3 orders gives these. -/
theorem foldl_c3 {walk : ModuleName → ClassBases → List ModuleName × ClassBases}
    {orders : ModuleName → List ModuleName} {bases : List ModuleName}
    (hwalk : ∀ base ∈ bases, ∀ memo, MemoC3 classBases memo →
      (walk base memo).1 = orders base ∧ MemoC3 classBases (walk base memo).2)
    (before : List (List ModuleName)) {memo : ClassBases} (hmemo : MemoC3 classBases memo) :
    (bases.foldl (fun acc base =>
        (acc.1 ++ [(walk base acc.2).1], (walk base acc.2).2)) (before, memo)).1 =
      before ++ bases.map orders ∧
    MemoC3 classBases (bases.foldl (fun acc base =>
        (acc.1 ++ [(walk base acc.2).1], (walk base acc.2).2)) (before, memo)).2 := by
  induction bases generalizing before memo with
  | nil => exact ⟨(List.append_nil before).symm, hmemo⟩
  | cons base bases ih =>
    obtain ⟨horder, hmemo'⟩ := hwalk base List.mem_cons_self memo hmemo
    obtain ⟨horders, hlast⟩ := ih (fun b hb => hwalk b (List.mem_cons_of_mem base hb))
      (before ++ [(walk base memo).1]) hmemo'
    refine ⟨?_, hlast⟩
    rw [List.foldl_cons, horders, horder, List.append_assoc]
    rfl

/-- A class that has a C3 order is answered it. -/
theorem linearize_c3 {cls : ModuleName} {order : List ModuleName}
    (h : C3Order classBases cls order) {fuel : Nat} {memo : ClassBases}
    {path : List ModuleName} (hpath : OnPath classBases fuel path)
    (habove : ∀ p ∈ path, TransGen (BaseOf classBases) p cls) (hmemo : MemoC3 classBases memo) :
    (linearize classBases fuel cls memo path).1 = order ∧
      MemoC3 classBases (linearize classBases fuel cls memo path).2 := by
  induction h generalizing fuel memo path with
  | @leaf cls hget =>
    cases fuel with
    | zero => exact hpath.pos.elim
    | succ fuel =>
      rw [linearize]
      cases hcached : memo.get? cls with
      | some order => exact ⟨(hmemo cls order hcached).unique (.leaf hget), hmemo⟩
      | none =>
        simp only [hget]
        split
        · exact ⟨rfl, hmemo⟩
        · exact ⟨rfl, hmemo⟩
  | @node cls bases rest orders hget horders hmerge ih =>
    have hnode : C3Order classBases cls (cls :: rest) := .node hget horders hmerge
    cases fuel with
    | zero => exact hpath.pos.elim
    | succ fuel =>
      rw [linearize]
      cases hcached : memo.get? cls with
      | some order => exact ⟨(hmemo cls order hcached).unique hnode, hmemo⟩
      | none =>
        -- a class above itself has no C3 order, so the path does not stop here
        have hmem : cls ∉ path := fun hin => hnode.not_transGen (habove cls hin)
        dsimp only
        rw [if_neg hmem, hget]
        cases bases with
        | nil =>
          cases hmerge with
          | done => exact ⟨rfl, hmemo⟩
          | take hgood => exact absurd (by simp) hgood.ne_nil
        | cons base bases =>
          have hwalk : ∀ b ∈ base :: bases, ∀ memo, MemoC3 classBases memo →
              (linearize classBases fuel b memo (path ++ [cls])).1 = orders b ∧
                MemoC3 classBases (linearize classBases fuel b memo (path ++ [cls])).2 := by
            intro b hb memo hmemo
            refine ih b hb (hpath.push hmem hget) ?_ hmemo
            intro p hp
            rcases List.mem_append.mp hp with hold | hnew
            · exact (habove p hold).tail ⟨_, hget, hb⟩
            · rw [List.mem_singleton.mp hnew]
              exact .single ⟨_, hget, hb⟩
          obtain ⟨hwalked, hlast⟩ := foldl_c3 hwalk [] hmemo
          -- the class is not in the merge of its bases, or it would inherit from itself
          have hnodup : ([cls] ++ rest).Nodup := by
            refine List.nodup_cons.mpr ⟨?_, hmerge.nodup⟩
            intro hin
            obtain ⟨seq, hseq, hclsseq⟩ := hmerge.mem_iff.mp hin
            have hstep : ∃ b, BaseOf classBases cls b ∧ Inherits classBases b cls := by
              rcases List.mem_append.mp hseq with hord | hlist
              · obtain ⟨b, hb, rfl⟩ := List.mem_map.mp hord
                exact ⟨b, ⟨_, hget, hb⟩, (horders b hb).sound cls hclsseq⟩
              · rw [List.mem_singleton.mp hlist] at hclsseq
                exact ⟨cls, ⟨_, hget, hclsseq⟩, .refl⟩
            obtain ⟨b, hb, hreach⟩ := hstep
            exact hnode.not_transGen (.head' hb hreach)
          dsimp only
          rw [hwalked, List.nil_append, c3Merge_of_merged hmerge, foldl_candidates_nodup hnodup]
          refine ⟨rfl, ?_⟩
          intro c order horder
          rw [Table.get?_insert] at horder
          split at horder
          · next heq => exact heq ▸ Option.some.inj horder ▸ hnode
          · exact hlast c order horder

theorem c3Linearize_of_c3Order {cls : ModuleName} {order : List ModuleName}
    (h : C3Order classBases cls order) : c3Linearize classBases cls = order := by
  refine (linearize_c3 h (onPath_nil classBases (Nat.le_refl _)) ?_ ?_).1
  · exact fun p hp => absurd hp List.not_mem_nil
  · exact fun c order h => absurd h (by simp)

/-! ## What a C3 order keeps -/

namespace C3Order

variable {cls : ModuleName} {order : List ModuleName}

/-- The bases stand in the order they are listed in. -/
theorem bases_sublist (h : C3Order classBases cls order) {bases : List ModuleName}
    (hget : classBases.get? cls = some bases) : bases.Sublist order := by
  cases h with
  | leaf hget' => exact absurd (hget.symm.trans hget') (by simp)
  | @node _ bases' rest _ hget' _ hmerge =>
    obtain rfl := Option.some.inj (hget.symm.trans hget')
    exact (hmerge.sublist (by simp)).cons cls

/-- A base has a C3 order too, which the class keeps. -/
theorem of_base (h : C3Order classBases cls order) {base : ModuleName}
    (hbase : BaseOf classBases cls base) :
    ∃ order', C3Order classBases base order' ∧ order'.Sublist order := by
  obtain ⟨bases, hget, hb⟩ := hbase
  cases h with
  | leaf hget' => exact absurd (hget.symm.trans hget') (by simp)
  | @node _ bases' rest orders hget' horders hmerge =>
    obtain rfl := Option.some.inj (hget.symm.trans hget')
    refine ⟨orders base, horders base hb, ?_⟩
    exact (hmerge.sublist (List.mem_append_left _ (List.mem_map_of_mem hb))).cons cls

/-- So has every class it inherits from. -/
theorem of_inherits (h : C3Order classBases cls order) {x : ModuleName}
    (hx : Inherits classBases cls x) :
    ∃ order', C3Order classBases x order' ∧ order'.Sublist order := by
  induction hx with
  | refl => exact ⟨order, h, List.Sublist.refl order⟩
  | tail _ hbase ih =>
    obtain ⟨order₁, h₁, hsub₁⟩ := ih
    obtain ⟨order₂, h₂, hsub₂⟩ := h₁.of_base hbase
    exact ⟨order₂, h₂, hsub₂.trans hsub₁⟩

end C3Order

/-- On every map of bases, cyclic and inconsistent ones included, the linearization comes to
its end, begins with the class and lists each class reached along base edges once. Where the
class has a C3 order, and so do its ancestors then, this is the answer; it keeps the order of
the bases, and the answer for every ancestor. -/
theorem c3_linearization (classBases : ClassBases) (cls : ModuleName) :
    (∀ fuel, classBases.keys.length < fuel →
      (linearize classBases fuel cls Table.empty []).1 = c3Linearize classBases cls) ∧
    (∀ sequences fuel, (sequences.map List.length).sum ≤ fuel →
      c3MergeFrom fuel sequences = c3Merge sequences) ∧
    ((c3Linearize classBases cls).head? = some cls ∧ (c3Linearize classBases cls).Nodup ∧
      ∀ x, x ∈ c3Linearize classBases cls ↔ ReflTransGen (BaseOf classBases) cls x) ∧
    ∀ order, C3Order classBases cls order →
      c3Linearize classBases cls = order ∧
      (∀ bases, classBases.get? cls = some bases → bases.Sublist order) ∧
      ∀ x, ReflTransGen (BaseOf classBases) cls x →
        C3Order classBases x (c3Linearize classBases x) ∧
          (c3Linearize classBases x).Sublist order := by
  have hordered := (explored_c3Linearize classBases cls).ordered
  refine ⟨?_, ?_, ⟨hordered.first, hordered.nodup, fun x => mem_c3Linearize⟩, ?_⟩
  · intro fuel hfuel
    have hsame : linearize classBases fuel cls Table.empty [] =
        linearize classBases (classBases.keys.length + 1) cls Table.empty [] :=
      linearize_fuel classBases List.nodup_nil (List.nil_subset _) hfuel (Nat.le_refl _)
    rw [hsame]
    rfl
  · intro sequences fuel hfuel
    exact c3MergeFrom_fuel hfuel (Nat.le_refl _)
  · intro order horder
    refine ⟨c3Linearize_of_c3Order horder, fun bases => horder.bases_sublist, ?_⟩
    intro x hx
    obtain ⟨order', horder', hsub⟩ := horder.of_inherits hx
    rw [c3Linearize_of_c3Order horder']
    exact ⟨horder', hsub⟩

/-- A diamond: the left and the right class inherit from one base. -/
def diamond : ClassBases :=
  Table.ofList [(fromStr "D", [fromStr "B", fromStr "C"]), (fromStr "B", [fromStr "A"]),
    (fromStr "C", [fromStr "A"])]

example : C3Order diamond (fromStr "D")
    [fromStr "D", fromStr "B", fromStr "C", fromStr "A"] := by
  have hleaf : C3Order diamond (fromStr "A") [fromStr "A"] := .leaf rfl
  have hside : ∀ side, diamond.get? side = some [fromStr "A"] →
      C3Order diamond side [side, fromStr "A"] := by
    intro side hget
    refine @C3Order.node _ _ _ _ (fun _ => [fromStr "A"]) hget ?_ ?_
    · exact fun base hb => List.mem_singleton.mp hb ▸ hleaf
    · exact .take ⟨⟨[], [], _, rfl, by simp⟩, by decide⟩ (.done (by decide))
  refine @C3Order.node _ _ [fromStr "B", fromStr "C"] _ (fun side => [side, fromStr "A"]) rfl ?_ ?_
  · intro base hb
    rcases List.mem_cons.mp hb with rfl | hb
    · exact hside _ rfl
    · exact hside _ (List.mem_singleton.mp hb ▸ rfl)
  · refine .take ⟨⟨[], _, _, rfl, by simp⟩, by decide⟩ ?_
    -- the base of both waits until it heads every sequence
    refine .take ⟨⟨[[fromStr "A"]], [fromStr "A"], [[fromStr "C"]], by decide, ?_⟩, by decide⟩ ?_
    · intro h t hmem
      obtain ⟨rfl, rfl⟩ := List.cons.inj (List.mem_singleton.mp hmem)
      exact ⟨[fromStr "C", fromStr "A"], by decide, by decide⟩
    · refine .take ⟨⟨[], [], [[fromStr "A"], []], by decide, by simp⟩, by decide⟩ ?_
      exact .done (by decide)

end Lifeguard
