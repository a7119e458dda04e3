import Lifeguard.Names
import Lifeguard.Lib.Table
import Mathlib.Algebra.GroupWithZero.Nat
import Mathlib.Algebra.Order.BigOperators.Group.List
import Mathlib.Algebra.Order.Group.Nat
import Mathlib.Data.List.Perm.Subperm

/-!
# C3 linearization

The method resolution order of a class over the recorded base lists (`mro.rs`). The
recursion over the bases shares one memo and breaks inheritance cycles at the classes
already on the current path; `linearize_fuel` says that the fuel `c3Linearize` starts
with is enough, since only a class with recorded bases is ever put on the path.
-/

namespace Lifeguard

open Lib

/-- Class FQN to its direct base FQNs. -/
abbrev ClassBases := Table ModuleName (List ModuleName)

/-! ## The merge -/

/-- The head the C3 rule takes: the first that stands in no sequence's tail, or the
first of all when the hierarchy is inconsistent. -/
def c3Head (sequences : List (List ModuleName)) : Option ModuleName :=
  ((sequences.filterMap List.head?).find? fun head =>
    !sequences.any fun seq => seq.tail.contains head).or
      (sequences.filterMap List.head?).head?

/-- The rounds of `c3_merge`. -/
def c3MergeFrom : Nat → List (List ModuleName) → List ModuleName
  | 0, _ => []
  | fuel + 1, sequences =>
    let sequences := sequences.filter fun seq => !seq.isEmpty
    match c3Head sequences with
    | none => []
    | some head =>
      head :: c3MergeFrom fuel (sequences.map fun seq =>
        if seq.head? = some head then seq.tail else seq)

/-- `c3_merge`. Each round takes the head off at least one sequence, so the joint
length bounds the rounds. -/
def c3Merge (sequences : List (List ModuleName)) : List ModuleName :=
  c3MergeFrom (sequences.map List.length).sum sequences

/-! ## The recursion over the bases -/

/-- `linearize`, with the memo threaded through the bases. -/
def linearize (classBases : ClassBases) :
    Nat → ModuleName → ClassBases → List ModuleName → List ModuleName × ClassBases
  | 0, cls, memo, _ => ([cls], memo)
  | fuel + 1, cls, memo, onPath =>
    match memo.get? cls with
    | some cached => (cached, memo)
    | none =>
      if cls ∈ onPath then ([cls], memo)
      else
        match classBases.get? cls with
        | none => ([cls], memo)
        | some [] => ([cls], memo)
        | some (base :: bases) =>
          let walked := (base :: bases).foldl
            (fun acc base =>
              let r := linearize classBases fuel base acc.2 (onPath ++ [cls])
              (acc.1 ++ [r.1], r.2)) ([], memo)
          let result := (c3Merge (walked.1 ++ [base :: bases])).foldl
            (fun acc candidate => if candidate ∈ acc then acc else acc ++ [candidate]) [cls]
          (result, walked.2.insert cls result)

/-- `c3_linearize`: the method resolution order, most derived first. -/
def c3Linearize (classBases : ClassBases) (classFqn : ModuleName) : List ModuleName :=
  (linearize classBases (classBases.keys.length + 1) classFqn Table.empty []).1

/-! ## The fuel is enough -/

/-- What is taken is the head of some sequence. -/
theorem mem_heads_of_c3Head {sequences : List (List ModuleName)} {head : ModuleName}
    (h : c3Head sequences = some head) : ∃ seq ∈ sequences, seq.head? = some head := by
  have hmem : head ∈ sequences.filterMap List.head? := by
    unfold c3Head at h
    rcases Option.or_eq_some_iff.mp h with h | ⟨-, h⟩
    · exact List.mem_of_find?_eq_some h
    · exact List.mem_of_head? h
  obtain ⟨seq, hseq, hhead⟩ := List.mem_filterMap.mp hmem
  exact ⟨seq, hseq, hhead⟩

/-- Taking a head off shortens the sequences by at least one. -/
theorem sum_length_pop_lt {sequences : List (List ModuleName)} {head : ModuleName}
    (h : ∃ seq ∈ sequences, seq.head? = some head) :
    ((sequences.map fun seq => if seq.head? = some head then seq.tail else seq).map
      List.length).sum < (sequences.map List.length).sum := by
  rw [List.map_map]
  refine List.sum_lt_sum _ _ ?_ ?_
  · intro seq _
    show (if seq.head? = some head then seq.tail else seq).length ≤ seq.length
    split
    · rw [List.length_tail]
      omega
    · exact Nat.le_refl _
  · obtain ⟨seq, hseq, hhead⟩ := h
    refine ⟨seq, hseq, ?_⟩
    show (if seq.head? = some head then seq.tail else seq).length < seq.length
    rw [if_pos hhead, List.length_tail]
    cases seq with
    | nil => cases hhead
    | cons a rest => simp

theorem sum_length_filter_le (sequences : List (List ModuleName)) :
    ((sequences.filter fun seq => !seq.isEmpty).map List.length).sum ≤
      (sequences.map List.length).sum :=
  (List.filter_sublist.map List.length).sum_le_sum fun _ _ => Nat.zero_le _

/-- With the joint length as fuel, the merge runs until every sequence is empty: more
fuel gives the same order. -/
theorem c3MergeFrom_fuel {fuel fuel' : Nat} {sequences : List (List ModuleName)}
    (h : (sequences.map List.length).sum ≤ fuel)
    (h' : (sequences.map List.length).sum ≤ fuel') :
    c3MergeFrom fuel sequences = c3MergeFrom fuel' sequences := by
  have hempty : ∀ {seqs : List (List ModuleName)}, (seqs.map List.length).sum = 0 →
      c3Head (seqs.filter fun seq => !seq.isEmpty) = none := by
    intro seqs hsum
    cases hh : c3Head (seqs.filter fun seq => !seq.isEmpty) with
    | none => rfl
    | some head =>
      have h1 := sum_length_pop_lt (mem_heads_of_c3Head hh)
      have h2 := sum_length_filter_le seqs
      omega
  induction fuel generalizing fuel' sequences with
  | zero =>
    cases fuel' with
    | zero => rfl
    | succ fuel' => rw [c3MergeFrom, c3MergeFrom, hempty (Nat.le_zero.mp h)]
  | succ fuel ih =>
    cases fuel' with
    | zero => rw [c3MergeFrom, c3MergeFrom, hempty (Nat.le_zero.mp h')]
    | succ fuel' =>
      rw [c3MergeFrom, c3MergeFrom]
      cases hh : c3Head (sequences.filter fun seq => !seq.isEmpty) with
      | none => rfl
      | some head =>
        have h1 := sum_length_pop_lt (mem_heads_of_c3Head hh)
        have h2 := sum_length_filter_le sequences
        exact congrArg (head :: ·) (ih (by omega) (by omega))

/-- As long as the fuel exceeds the classes that are not on the path, more fuel gives the
same linearization. -/
theorem linearize_fuel (classBases : ClassBases) {fuel fuel' : Nat} {cls : ModuleName}
    {memo : ClassBases} {onPath : List ModuleName} (hnodup : onPath.Nodup)
    (hsub : onPath ⊆ classBases.keys)
    (h : classBases.keys.length + 1 ≤ fuel + onPath.length)
    (h' : classBases.keys.length + 1 ≤ fuel' + onPath.length) :
    linearize classBases fuel cls memo onPath =
      linearize classBases fuel' cls memo onPath := by
  have hle : ∀ {path : List ModuleName}, path.Nodup → path ⊆ classBases.keys →
      path.length ≤ classBases.keys.length :=
    fun hn hs => (List.subperm_of_subset hn hs).length_le
  induction fuel generalizing fuel' cls memo onPath with
  | zero =>
    have := hle hnodup hsub
    omega
  | succ fuel ih =>
    cases fuel' with
    | zero =>
      have := hle hnodup hsub
      omega
    | succ fuel' =>
      rw [linearize, linearize]
      cases memo.get? cls with
      | some cached => rfl
      | none =>
        dsimp only
        split
        · rfl
        · next hpath =>
          cases hb : classBases.get? cls with
          | none => rfl
          | some bases =>
            cases bases with
            | nil => rfl
            | cons base bases =>
              have hkey : cls ∈ classBases.keys := Table.mem_keys.mpr (by rw [hb]; rfl)
              have hnodup' : (onPath ++ [cls]).Nodup := by
                refine List.Nodup.append hnodup (List.nodup_singleton cls) ?_
                intro x hx hx'
                rw [List.mem_singleton.mp hx'] at hx
                exact hpath hx
              have hsub' : onPath ++ [cls] ⊆ classBases.keys :=
                List.append_subset.mpr ⟨hsub, List.cons_subset.mpr ⟨hkey, List.nil_subset _⟩⟩
              have hlen : (onPath ++ [cls]).length = onPath.length + 1 := by simp
              have hrec : ∀ (b : ModuleName) (memo : ClassBases),
                  linearize classBases fuel b memo (onPath ++ [cls]) =
                    linearize classBases fuel' b memo (onPath ++ [cls]) :=
                fun b memo => ih hnodup' hsub' (by omega) (by omega)
              dsimp only
              simp only [hrec]

end Lifeguard
