import Lifeguard.CallArgs
import Lifeguard.Calls

/-!
# Argument binding

What the record of a call's arguments says about the parameters of its callee, against
the binding rules of the language:

- `Signature`, `bindCall`: the parameters of a callee, and which value each of them gets;
- `Layout`: how long the unpacked iterables of a call are, and the keys of its mappings;
- `BindsImported`: some layout binds an imported argument to the parameter;
- `Displaced`: an imported argument that follows an unpacked iterable can stand in a slot
  other than its own;
- `arg_binding_iff`: a bound imported argument is always reported exactly when no argument
  is displaced into a slot that nothing else reports (`Overlooked`).
-/

namespace Lifeguard

open Lib

/-! ## Signatures -/

/-- The parameters of a function. Their names differ from each other. -/
structure Signature where
  posOnly : List Str := []
  args : List Str := []
  kwOnly : List Str := []
  /-- `*args`. -/
  vararg : Bool := false
  /-- `**kwargs`. -/
  kwarg : Bool := false
  /-- The parameters with a default value. -/
  defaults : List Str := []
  nodup : (posOnly ++ args ++ kwOnly).Nodup

namespace Signature

variable (sig : Signature)

/-- `iter_non_variadic_params`: what `extract_function_params` records of a function. -/
def nonVariadic : List Str := sig.posOnly ++ sig.args ++ sig.kwOnly

/-- The parameters that a positional argument can fill. -/
def positional : List Str := sig.posOnly ++ sig.args

/-- The parameters that a keyword argument can name. -/
def keywordable : List Str := sig.args ++ sig.kwOnly

/-- The parameters filled by position: those of the receiver, and one for each value. -/
def filled (offset count : Nat) : List Str := sig.positional.take (offset + count)

/-- A call with so many positional values and with keywords of these names is accepted. -/
structure Accepts (offset count : Nat) (names : List Str) : Prop where
  surplus : offset + count ≤ sig.positional.length ∨ sig.vararg = true
  distinct : names.Nodup
  /-- A keyword names a parameter that is not filled, or goes to `**kwargs`. -/
  named : ∀ name ∈ names,
    if name ∈ sig.keywordable then name ∉ sig.filled offset count else sig.kwarg = true
  /-- No parameter without a default is left out. -/
  required : ∀ p ∈ sig.nonVariadic, p ∈ sig.defaults ∨ p ∈ sig.filled offset count ∨
    (p ∈ sig.keywordable ∧ p ∈ names)

instance (offset count : Nat) (names : List Str) :
    Decidable (sig.Accepts offset count names) :=
  decidable_of_iff
    ((offset + count ≤ sig.positional.length ∨ sig.vararg = true) ∧ names.Nodup ∧
      (∀ name ∈ names,
        if name ∈ sig.keywordable then name ∉ sig.filled offset count
        else sig.kwarg = true) ∧
      ∀ p ∈ sig.nonVariadic, p ∈ sig.defaults ∨ p ∈ sig.filled offset count ∨
        (p ∈ sig.keywordable ∧ p ∈ names))
    ⟨fun ⟨h₁, h₂, h₃, h₄⟩ => ⟨h₁, h₂, h₃, h₄⟩, fun ⟨h₁, h₂, h₃, h₄⟩ => ⟨h₁, h₂, h₃, h₄⟩⟩

/-- The parameters and the values they get, the receiver's included; `none` when the call
is not accepted. A value is known by whether it is imported. -/
def bindCall (offset : Nat) (values : List Bool) (named : List (Str × Bool)) :
    Option (List (Str × Bool)) :=
  if sig.Accepts offset values.length (named.map Prod.fst) then
    some (sig.positional.zip (List.replicate offset false ++ values) ++
      named.filter fun kw => decide (kw.1 ∈ sig.keywordable))
  else none

end Signature

/-! ## Layouts -/

/-- How long the iterable of each starred argument is, and the keys of each mapping. -/
structure Layout (args : List PosArg) (keywords : List KwArg) where
  lens : List Nat
  keys : List (List Str)
  lens_length : lens.length = args.length
  keys_length : keys.length = keywords.length

/-- The values an argument stands for. -/
def PosArg.values (arg : PosArg) (len : Nat) : List Bool :=
  if arg.starred then List.replicate len arg.isImported else [arg.isImported]

/-- The positional values of a call. -/
def positionalValues (args : List PosArg) (lens : List Nat) : List Bool :=
  (args.zip lens).flatMap fun p => p.1.values p.2

/-- The keywords an argument stands for. -/
def KwArg.values (arg : KwArg) (keys : List Str) : List (Str × Bool) :=
  match arg.name with
  | some name => [(name, arg.isImported)]
  | none => keys.map fun key => (key, arg.isImported)

/-- The keywords of a call. -/
def keywordValues (keywords : List KwArg) (keys : List (List Str)) : List (Str × Bool) :=
  (keywords.zip keys).flatMap fun p => p.1.values p.2

/-- Some layout of the call binds an imported argument, or an element of an imported
iterable or mapping, to the parameter. -/
def Signature.BindsImported (sig : Signature) (offset : Nat) (args : List PosArg)
    (keywords : List KwArg) (p : Str) : Prop :=
  ∃ layout : Layout args keywords, ∃ bound,
    sig.bindCall offset (positionalValues args layout.lens)
        (keywordValues keywords layout.keys) = some bound ∧
      (p, true) ∈ bound

/-! ## Where positional values come from -/

/-- The arguments that are not unpacked. -/
def plainCount (args : List PosArg) : Nat := args.countP fun arg => !arg.starred

/-- Some argument is unpacked. -/
def HasStar (args : List PosArg) : Prop := ∃ arg ∈ args, arg.starred = true

theorem positionalValues_append {pre post : List PosArg} {lpre lpost : List Nat}
    (h : lpre.length = pre.length) :
    positionalValues (pre ++ post) (lpre ++ lpost) =
      positionalValues pre lpre ++ positionalValues post lpost := by
  unfold positionalValues
  rw [List.zip_append h.symm, List.flatMap_append]

theorem positionalValues_cons (arg : PosArg) (args : List PosArg) (len : Nat)
    (lens : List Nat) :
    positionalValues (arg :: args) (len :: lens) =
      arg.values len ++ positionalValues args lens := by
  rw [positionalValues, List.zip_cons_cons, List.flatMap_cons]
  rfl

theorem length_values (arg : PosArg) (len : Nat) :
    (arg.values len).length = if arg.starred then len else 1 := by
  unfold PosArg.values
  split
  · rw [List.length_replicate]
  · rfl

theorem mem_values {arg : PosArg} {len : Nat} {v : Bool} (h : v ∈ arg.values len) :
    v = arg.isImported := by
  unfold PosArg.values at h
  split at h
  · exact List.eq_of_mem_replicate h
  · exact List.mem_singleton.mp h

theorem plainCount_cons (arg : PosArg) (args : List PosArg) :
    plainCount (arg :: args) = plainCount args + if arg.starred then 0 else 1 := by
  unfold plainCount
  rw [List.countP_cons]
  cases arg.starred <;> rfl

theorem hasStar_cons {arg : PosArg} {args : List PosArg} :
    HasStar (arg :: args) ↔ arg.starred = true ∨ HasStar args := by
  unfold HasStar
  rw [List.exists_mem_cons_iff]

/-- There are at least as many values as plain arguments, and no more when nothing is
unpacked. -/
theorem plainCount_le (args : List PosArg) {lens : List Nat} (h : lens.length = args.length) :
    plainCount args ≤ (positionalValues args lens).length ∧
      (¬HasStar args → (positionalValues args lens).length = plainCount args ∧
        plainCount args = args.length) := by
  induction args generalizing lens with
  | nil => exact ⟨Nat.zero_le _, fun _ => ⟨by simp [positionalValues, plainCount], rfl⟩⟩
  | cons arg args ih =>
    obtain ⟨len, lens, rfl⟩ := List.exists_cons_of_length_eq_add_one h
    obtain ⟨hle, heq⟩ := ih (Nat.succ.inj h)
    rw [positionalValues_cons, List.length_append, length_values, plainCount_cons, hasStar_cons,
      List.length_cons]
    cases hstar : arg.starred with
    | true =>
      rw [if_pos rfl, if_pos rfl]
      exact ⟨by omega, fun hno => absurd (Or.inl rfl) hno⟩
    | false =>
      rw [if_neg Bool.false_ne_true, if_neg Bool.false_ne_true]
      refine ⟨by omega, fun hno => ?_⟩
      obtain ⟨h₁, h₂⟩ := heq fun hstar => hno (Or.inr hstar)
      omega

/-- With an unpacked iterable, every larger number of values is possible. -/
theorem exists_lens (args : List PosArg) {count : Nat} (h : plainCount args ≤ count)
    (hstar : HasStar args ∨ count = plainCount args) :
    ∃ lens : List Nat, lens.length = args.length ∧
      (positionalValues args lens).length = count := by
  induction args generalizing count with
  | nil =>
    refine ⟨[], rfl, ?_⟩
    rcases hstar with ⟨arg, hmem, -⟩ | rfl
    · cases hmem
    · rfl
  | cons arg args ih =>
    rw [plainCount_cons] at h hstar
    cases hs : arg.starred with
    | true =>
      -- the first iterable takes what the plain arguments leave
      rw [hs, if_pos rfl] at h
      obtain ⟨lens, hlens, hcount⟩ := ih (Nat.le_refl _) (Or.inr rfl)
      refine ⟨(count - plainCount args) :: lens, by rw [List.length_cons, hlens]; rfl, ?_⟩
      rw [positionalValues_cons, List.length_append, length_values, hs, if_pos rfl, hcount]
      omega
    | false =>
      rw [hs, if_neg Bool.false_ne_true] at h hstar
      obtain ⟨count, rfl⟩ : ∃ c, count = c + 1 := ⟨count - 1, by omega⟩
      obtain ⟨lens, hlens, hcount⟩ := ih (Nat.le_of_succ_le_succ h) (by
        rw [hasStar_cons, hs] at hstar
        rcases hstar with (hno | hstar) | heq
        · cases hno
        · exact Or.inl hstar
        · exact Or.inr (Nat.succ.inj heq))
      refine ⟨0 :: lens, by rw [List.length_cons, hlens]; rfl, ?_⟩
      rw [positionalValues_cons, List.length_append, length_values, hs,
        if_neg Bool.false_ne_true, hcount]
      omega

/-- An imported argument stands in the slot of `count` positional values. -/
structure Stands (args : List PosArg) (slot count : Nat) (pre : List PosArg) (arg : PosArg)
    (post : List PosArg) : Prop where
  split : args = pre ++ arg :: post
  imported : arg.isImported = true
  /-- It is moved only by the iterables before it. -/
  before : plainCount pre ≤ slot ∧
    (¬HasStar pre → if arg.starred then pre.length ≤ slot else slot = pre.length)
  after : slot + 1 + plainCount post ≤ count ∧
    (arg.starred = true ∨ HasStar post ∨ count = slot + 1 + plainCount post)

/-- Every imported value belongs to an argument that stands in its slot. -/
theorem exists_stands (args : List PosArg) {lens : List Nat} {slot : Nat}
    (h : lens.length = args.length)
    (hslot : (positionalValues args lens)[slot]? = some true) :
    ∃ pre arg post, Stands args slot (positionalValues args lens).length pre arg post := by
  induction args generalizing lens slot with
  | nil => simp [positionalValues] at hslot
  | cons arg args ih =>
    obtain ⟨len, lens, rfl⟩ := List.exists_cons_of_length_eq_add_one h
    have hlens := Nat.succ.inj h
    rw [positionalValues_cons] at hslot ⊢
    have hlen := length_values arg len
    rw [List.length_append]
    -- the slot is one of those of the first argument, or of the rest
    by_cases hin : slot < (arg.values len).length
    · rw [List.getElem?_append_left hin] at hslot
      have himp := mem_values (List.mem_of_getElem? hslot)
      obtain ⟨hle, heq⟩ := plainCount_le args hlens
      refine ⟨[], arg, args, rfl, himp.symm, ⟨Nat.zero_le _, fun _ => ?_⟩, by omega, ?_⟩
      · split
        · exact Nat.zero_le _
        · next hs =>
          rw [if_neg hs] at hlen
          show slot = 0
          omega
      · cases hs : arg.starred with
        | true => exact Or.inl rfl
        | false =>
          by_cases hpost : HasStar args
          · exact Or.inr (Or.inl hpost)
          · have := (heq hpost).1
            rw [hs, if_neg Bool.false_ne_true] at hlen
            exact Or.inr (Or.inr (by omega))
    · rw [List.getElem?_append_right (Nat.le_of_not_lt hin)] at hslot
      obtain ⟨pre, a, post, hst⟩ := ih hlens hslot
      obtain ⟨hplain, hfixed⟩ := hst.before
      obtain ⟨hafter, hmore⟩ := hst.after
      refine ⟨arg :: pre, a, post, by rw [hst.split]; rfl, hst.imported, ⟨?_, fun hno => ?_⟩,
        by omega, ?_⟩
      · rw [plainCount_cons]
        rw [hlen] at hplain hin
        split at hplain <;> rename_i hs
        · rw [if_pos hs]
          omega
        · rw [if_neg hs]
          rw [if_neg hs] at hin
          omega
      · rw [hasStar_cons] at hno
        have hone : (arg.values len).length = 1 := by
          rw [hlen, if_neg fun hs => hno (Or.inl hs)]
        have := hfixed fun hs => hno (Or.inr hs)
        rw [hone] at this hin
        rw [List.length_cons]
        split at this <;> rename_i hs
        · rw [if_pos hs]
          omega
        · rw [if_neg hs]
          omega
      · exact hmore.imp_right fun hpost => hpost.imp_right fun heq => by omega

/-- Wherever an argument stands, some layout puts it. -/
theorem exists_lens_of_stands {args pre post : List PosArg} {arg : PosArg} {slot count : Nat}
    (h : Stands args slot count pre arg post) (hpre : HasStar pre) :
    ∃ lens : List Nat, lens.length = args.length ∧
      (positionalValues args lens).length = count ∧
      (positionalValues args lens)[slot]? = some true := by
  obtain ⟨lpre, hlpre, hcpre⟩ := exists_lens pre h.before.1 (Or.inl hpre)
  obtain ⟨hafter, hmore⟩ := h.after
  have hvalues : ∀ len lpost, (positionalValues args (lpre ++ len :: lpost)) =
      positionalValues pre lpre ++ (arg.values len ++ positionalValues post lpost) := by
    intro len lpost
    rw [h.split, positionalValues_append hlpre, positionalValues_cons]
  have hlength : ∀ len (lpost : List Nat), lpost.length = post.length →
      (lpre ++ len :: lpost).length = args.length := by
    intro len lpost hlpost
    rw [h.split, List.length_append, List.length_append, List.length_cons, List.length_cons,
      hlpre, hlpost]
  have hslot : ∀ len lpost, 0 < (arg.values len).length →
      (positionalValues args (lpre ++ len :: lpost))[slot]? = some true := by
    intro len lpost hpos
    rw [hvalues, List.getElem?_append_right (Nat.le_of_eq hcpre), hcpre, Nat.sub_self,
      List.getElem?_append_left hpos, List.getElem?_eq_getElem hpos]
    exact congrArg some ((mem_values (List.getElem_mem hpos)).trans h.imported)
  cases hs : arg.starred with
  | true =>
    -- the argument's own iterable takes what is left
    obtain ⟨lpost, hlpost, hcpost⟩ := exists_lens post (Nat.le_refl _) (Or.inr rfl)
    have hlen : (arg.values (count - slot - plainCount post)).length =
        count - slot - plainCount post := by
      rw [length_values, hs, if_pos rfl]
    refine ⟨lpre ++ (count - slot - plainCount post) :: lpost, hlength _ _ hlpost, ?_,
      hslot _ _ (by omega)⟩
    rw [hvalues, List.length_append, List.length_append, hlen, hcpre, hcpost]
    omega
  | false =>
    have hlen : (arg.values 0).length = 1 := by
      rw [length_values, hs, if_neg Bool.false_ne_true]
    obtain ⟨lpost, hlpost, hcpost⟩ :=
      exists_lens post (show plainCount post ≤ count - slot - 1 by omega) (by
        rcases hmore with hstar | hstar | heq
        · rw [hs] at hstar
          cases hstar
        · exact Or.inl hstar
        · exact Or.inr (by omega))
    refine ⟨lpre ++ 0 :: lpost, hlength _ _ hlpost, ?_, hslot _ _ (by omega)⟩
    rw [hvalues, List.length_append, List.length_append, hlen, hcpre, hcpost]
    omega

/-! ## What keywords a call can have -/

/-- The names written in the call. -/
def explicitNames (keywords : List KwArg) : List Str := keywords.filterMap KwArg.name

/-- Some mapping is unpacked. -/
def HasMapping (keywords : List KwArg) : Prop := ∃ arg ∈ keywords, arg.name = none

theorem hasMapping_cons {arg : KwArg} {keywords : List KwArg} :
    HasMapping (arg :: keywords) ↔ arg.name = none ∨ HasMapping keywords := by
  unfold HasMapping
  rw [List.exists_mem_cons_iff]

theorem keywordValues_cons (arg : KwArg) (keywords : List KwArg) (keys : List Str)
    (rest : List (List Str)) :
    keywordValues (arg :: keywords) (keys :: rest) =
      arg.values keys ++ keywordValues keywords rest := by
  rw [keywordValues, List.zip_cons_cons, List.flatMap_cons]
  rfl

/-- A keyword of the call stands in it, or is the key of a mapping. -/
theorem mem_keywordValues {keywords : List KwArg} {keys : List (List Str)} {name : Str}
    {v : Bool} (h : (name, v) ∈ keywordValues keywords keys) :
    ∃ arg ∈ keywords, (arg.name = some name ∨ arg.name = none) ∧ arg.isImported = v := by
  unfold keywordValues at h
  obtain ⟨⟨arg, ks⟩, hzip, hmem⟩ := List.mem_flatMap.mp h
  refine ⟨arg, (List.of_mem_zip hzip).1, ?_⟩
  unfold KwArg.values at hmem
  dsimp only at hmem
  cases hname : arg.name with
  | some written =>
    rw [hname] at hmem
    cases List.mem_singleton.mp hmem
    exact ⟨Or.inl rfl, rfl⟩
  | none =>
    rw [hname] at hmem
    obtain ⟨key, -, heq⟩ := List.mem_map.mp hmem
    cases heq
    exact ⟨Or.inr rfl, rfl⟩

theorem explicitNames_sublist (keywords : List KwArg) {keys : List (List Str)}
    (h : keys.length = keywords.length) :
    (explicitNames keywords).Sublist ((keywordValues keywords keys).map Prod.fst) := by
  induction keywords generalizing keys with
  | nil => exact List.nil_sublist _
  | cons arg keywords ih =>
    obtain ⟨ks, keys, rfl⟩ := List.exists_cons_of_length_eq_add_one h
    have hrest := ih (Nat.succ.inj h)
    rw [keywordValues_cons, List.map_append]
    unfold explicitNames at hrest ⊢
    rw [List.filterMap_cons]
    unfold KwArg.values
    cases arg.name with
    | some name => exact hrest.cons_cons name
    | none => exact hrest.trans (List.sublist_append_right _ _)

/-- A mapping can supply any further names. -/
theorem exists_keys (keywords : List KwArg) {extra : List Str}
    (h : HasMapping keywords ∨ extra = []) :
    ∃ keys : List (List Str), keys.length = keywords.length ∧
      ((keywordValues keywords keys).map Prod.fst).Perm (explicitNames keywords ++ extra) := by
  induction keywords generalizing extra with
  | nil =>
    rcases h with ⟨arg, hmem, -⟩ | rfl
    · cases hmem
    · exact ⟨[], rfl, List.Perm.refl _⟩
  | cons arg keywords ih =>
    rw [hasMapping_cons] at h
    cases hname : arg.name with
    | some name =>
      obtain ⟨keys, hkeys, hperm⟩ := ih (h.imp_left fun hm => hm.resolve_left (by simp [hname]))
      refine ⟨[] :: keys, by rw [List.length_cons, hkeys]; rfl, ?_⟩
      rw [keywordValues_cons, List.map_append]
      unfold KwArg.values explicitNames
      rw [List.filterMap_cons, hname]
      exact hperm.cons name
    | none =>
      -- the first mapping supplies them all
      obtain ⟨keys, hkeys, hperm⟩ := ih (Or.inr rfl)
      refine ⟨extra :: keys, by rw [List.length_cons, hkeys]; rfl, ?_⟩
      have hvalues : (arg.values extra).map Prod.fst = extra := by
        unfold KwArg.values
        rw [hname]
        dsimp only
        rw [List.map_map]
        exact List.map_id _
      have hexplicit : explicitNames (arg :: keywords) = explicitNames keywords := by
        unfold explicitNames
        rw [List.filterMap_cons, hname]
      rw [keywordValues_cons, List.map_append, hvalues, hexplicit]
      rw [List.append_nil] at hperm
      exact (hperm.append_left extra).trans List.perm_append_comm

namespace Signature

variable (sig : Signature)

/-- A call with so many positional values is accepted with its written keywords, if its
mappings supply the parameters that are still missing. -/
structure Admits (offset count : Nat) (keywords : List KwArg) : Prop where
  surplus : offset + count ≤ sig.positional.length ∨ sig.vararg = true
  distinct : (explicitNames keywords).Nodup
  named : ∀ name ∈ explicitNames keywords,
    if name ∈ sig.keywordable then name ∉ sig.filled offset count else sig.kwarg = true
  required : ∀ p ∈ sig.nonVariadic, p ∈ sig.defaults ∨ p ∈ sig.filled offset count ∨
    (p ∈ sig.keywordable ∧ (p ∈ explicitNames keywords ∨ HasMapping keywords))

variable {sig} {offset count : Nat} {keywords : List KwArg}

theorem keywordable_nodup (sig : Signature) : sig.keywordable.Nodup := by
  have h := sig.nodup
  rw [List.append_assoc] at h
  exact (List.nodup_append.mp h).2.1

/-- A call is accepted under some keys of its mappings exactly when the signature admits
it. -/
theorem admits_iff : sig.Admits offset count keywords ↔
    ∃ keys : List (List Str), keys.length = keywords.length ∧
      sig.Accepts offset count ((keywordValues keywords keys).map Prod.fst) := by
  constructor
  · intro h
    -- the mappings supply what is neither filled nor written
    obtain ⟨extra, hextra, hnodup, hfree, hall⟩ : ∃ extra : List Str,
        (HasMapping keywords ∨ extra = []) ∧ extra.Nodup ∧
        (∀ p ∈ extra, p ∈ sig.keywordable ∧ p ∉ sig.filled offset count ∧
          p ∉ explicitNames keywords) ∧
        (HasMapping keywords → ∀ p ∈ sig.keywordable, p ∉ sig.filled offset count →
          p ∉ explicitNames keywords → p ∈ extra) := by
      by_cases hmapping : HasMapping keywords
      · refine ⟨sig.keywordable.filter fun p =>
          decide (p ∉ sig.filled offset count ∧ p ∉ explicitNames keywords), Or.inl hmapping,
          sig.keywordable_nodup.filter _, fun p hp => ?_, fun _ p hp hf he => ?_⟩
        · obtain ⟨hkw, hp⟩ := List.mem_filter.mp hp
          exact ⟨hkw, of_decide_eq_true hp⟩
        · exact List.mem_filter.mpr ⟨hp, decide_eq_true ⟨hf, he⟩⟩
      · exact ⟨[], Or.inr rfl, List.nodup_nil, fun p hp => absurd hp List.not_mem_nil,
          fun hm => absurd hm hmapping⟩
    obtain ⟨keys, hkeys, hperm⟩ := exists_keys keywords hextra
    have hmem : ∀ p, p ∈ (keywordValues keywords keys).map Prod.fst ↔
        p ∈ explicitNames keywords ∨ p ∈ extra := fun p =>
      hperm.mem_iff.trans List.mem_append
    refine ⟨keys, hkeys, h.surplus, ?_, fun name hname => ?_, fun p hp => ?_⟩
    · refine hperm.nodup_iff.mpr (List.nodup_append.mpr ⟨h.distinct, hnodup, ?_⟩)
      rintro p hp _ hp' rfl
      exact (hfree p hp').2.2 hp
    · rcases (hmem name).mp hname with hwritten | hmapped
      · exact h.named name hwritten
      · rw [if_pos (hfree name hmapped).1]
        exact (hfree name hmapped).2.1
    · by_cases hfilled : p ∈ sig.filled offset count
      · exact Or.inr (Or.inl hfilled)
      · refine (h.required p hp).imp_right (Or.imp_right fun hkw => ⟨hkw.1, ?_⟩)
        rw [hmem]
        by_cases hwritten : p ∈ explicitNames keywords
        · exact Or.inl hwritten
        · exact Or.inr (hall (hkw.2.resolve_left hwritten) p hkw.1 hfilled hwritten)
  · rintro ⟨keys, hkeys, h⟩
    have hsub := explicitNames_sublist keywords hkeys
    refine ⟨h.surplus, hsub.nodup h.distinct, fun name hname => h.named name (hsub.subset hname),
      fun p hp => (h.required p hp).imp_right (Or.imp_right fun hkw => ⟨hkw.1, ?_⟩)⟩
    obtain ⟨⟨name, v⟩, hmem, rfl⟩ := List.mem_map.mp hkw.2
    obtain ⟨arg, harg, hname | hnone, -⟩ := mem_keywordValues hmem
    · exact Or.inl (List.mem_filterMap.mpr ⟨arg, harg, hname⟩)
    · exact Or.inr ⟨arg, harg, hnone⟩

end Signature

/-! ## What the record says of a parameter -/

section HitsParam

variable {args : List PosArg} {keywords : List KwArg} {a : ImportedArgs}

/-- A slot is reported for a plain imported argument in it, or an imported iterable at or
before it. -/
theorem Recorded.hasUnsafeArgIndex_iff (h : Recorded args keywords a)
    (hlen : args.length ≤ maxArgs) (j : Nat) :
    a.hasUnsafeArgIndex j = true ↔
      (∃ i ≤ j, ∃ arg, args[i]? = some arg ∧ arg.starred = true ∧ arg.isImported = true) ∨
        ∃ arg, args[j]? = some arg ∧ arg.starred = false ∧ arg.isImported = true := by
  unfold ImportedArgs.hasUnsafeArgIndex
  rw [Bool.or_eq_true, h.expansion j, Bool.and_eq_true, decide_eq_true_eq]
  refine or_congr_right ⟨fun ⟨hj, hbit⟩ => (h.index j hj).mp hbit, ?_⟩
  rintro ⟨arg, harg, hrest⟩
  have hj : j < maxArgs := (List.getElem?_eq_some_iff.mp harg).1.trans_le hlen
  exact ⟨hj, (h.index j hj).mpr ⟨arg, harg, hrest⟩⟩

/-- A name is reported for an imported keyword of that name, or an imported mapping. -/
theorem Recorded.hasUnsafeKeyword_iff (h : Recorded args keywords a) (name : Str) :
    a.hasUnsafeKeyword name = true ↔
      ∃ arg ∈ keywords, (arg.name = some name ∨ arg.name = none) ∧ arg.isImported = true := by
  unfold ImportedArgs.hasUnsafeKeyword
  rw [Bool.or_eq_true, h.mapping, List.any_eq_true]
  constructor
  · rintro (⟨arg, harg, hnone, himp⟩ | ⟨kw, hkw, heq⟩)
    · exact ⟨arg, harg, Or.inr hnone, himp⟩
    · obtain rfl := of_decide_eq_true heq
      obtain ⟨arg, harg, hname, himp⟩ := (h.keyword kw).mp hkw
      exact ⟨arg, harg, Or.inl hname, himp⟩
  · rintro ⟨arg, harg, hname | hnone, himp⟩
    · exact Or.inr ⟨name, (h.keyword name).mpr ⟨arg, harg, hname, himp⟩, decide_eq_true rfl⟩
    · exact Or.inl ⟨arg, harg, hnone, himp⟩

/-- No imported argument goes unrecorded. -/
theorem Recorded.hasAnyTrackedArgs (h : Recorded args keywords a)
    (hlen : args.length ≤ maxArgs)
    (himp : (∃ arg ∈ args, arg.isImported = true) ∨ ∃ arg ∈ keywords, arg.isImported = true) :
    a.hasAnyTrackedArgs = true := by
  unfold ImportedArgs.hasAnyTrackedArgs
  rcases himp with ⟨arg, hmem, himp⟩ | ⟨arg, hmem, himp⟩
  · obtain ⟨i, hi⟩ := List.mem_iff_getElem?.mp hmem
    cases hs : arg.starred with
    | true =>
      have hsome := (h.expansion i).mpr ⟨i, Nat.le_refl i, arg, hi, hs, himp⟩
      cases hmin : a.unsafeArgsExpansionMin with
      | none =>
        rw [hmin] at hsome
        cases hsome
      | some lo => simp
    | false =>
      -- only the first arguments have a bit
      have hlt : i < maxArgs := (List.getElem?_eq_some_iff.mp hi).1.trans_le hlen
      have hbit := (h.index i hlt).mpr ⟨arg, hi, hs, himp⟩
      have hne : a.unsafeArgIndices ≠ 0 := by
        intro hzero
        rw [hzero, BitVec.ofNat_eq_ofNat, BitVec.getLsbD_zero] at hbit
        cases hbit
      rw [decide_eq_true hne, Bool.true_or, Bool.true_or, Bool.true_or]
  · cases hname : arg.name with
    | some name =>
      have hkw := (h.keyword name).mpr ⟨arg, hmem, hname, himp⟩
      have hne : a.unsafeKeywordNames.isEmpty = false := by
        rw [List.isEmpty_eq_false_iff]
        exact List.ne_nil_of_mem hkw
      rw [hne, Bool.not_false, Bool.or_true, Bool.true_or, Bool.true_or]
    | none => simp [h.mapping.mpr ⟨arg, hmem, hname, himp⟩]

/-- A parameter of known position is hit when its slot or its name is reported, and a call
that tracks anything hits no other slot. -/
theorem hitsParam_positional_iff {p : Str} {idx offset : Nat} (hexplicit : offset ≤ idx)
    (htracked : a.hasAnyTrackedArgs = true) :
    a.hitsParam p (.positional idx) offset = true ↔
      a.hasUnsafeArgIndex (idx - offset) = true ∨ a.hasUnsafeKeyword p = true := by
  unfold ImportedArgs.hitsParam
  rw [if_neg (by simp)]
  simp only [ImportedArgs.resolvedIdx, if_pos hexplicit, Option.any_some, Option.isNone_some,
    htracked, Bool.false_and, Bool.not_true, Bool.or_false, ite_self]
  by_cases hslot : a.hasUnsafeArgIndex (idx - offset) = true
  · simp [hslot]
  · by_cases hname : a.hasUnsafeKeyword p = true <;> simp [hslot, hname]

theorem hitsParam_of_keyword {p : Str} {position : ParamPosition} {offset : Nat}
    (h : a.hasUnsafeKeyword p = true) (htracked : a.hasAnyTrackedArgs = true) :
    a.hitsParam p position offset = true := by
  unfold ImportedArgs.hitsParam
  split
  · exact htracked
  · split
    · rfl
    · rfl

end HitsParam

/-! ## Arguments out of their slot -/

/-- An imported argument that follows an unpacked iterable stands in the slot of `count`
positional values. -/
def Displaced (args : List PosArg) (slot count : Nat) : Prop :=
  ∃ pre arg post, Stands args slot count pre arg post ∧ HasStar pre

/-- An imported argument can be displaced into the slot of the parameter, in a call that
the callee accepts, and nothing that is recorded reports the parameter. -/
structure Overlooked (sig : Signature) (offset : Nat) (args : List PosArg)
    (keywords : List KwArg) (p : Str) (idx : Nat) : Prop where
  position : sig.positional[idx]? = some p
  explicit : offset ≤ idx
  /-- The argument written in the slot is not imported. -/
  slot : ∀ arg, args[idx - offset]? = some arg → arg.starred = false → arg.isImported = false
  /-- No iterable unpacked up to there is imported. -/
  stars : ∀ i ≤ idx - offset, ∀ arg, args[i]? = some arg → arg.starred = true →
    arg.isImported = false
  /-- Neither a keyword of its name nor a mapping is imported. -/
  byName : ∀ arg ∈ keywords, arg.name = some p ∨ arg.name = none → arg.isImported = false
  displaced : ∃ count, Displaced args (idx - offset) count ∧ sig.Admits offset count keywords

section Binding

variable {sig : Signature} {offset : Nat} {args : List PosArg} {keywords : List KwArg}
  {p : Str} {idx : Nat} {defs : Table ModuleName (List Str)} {func : ModuleName}

theorem getElem?_nonVariadic (h : sig.positional[idx]? = some p) :
    sig.nonVariadic[idx]? = some p := by
  have hlt : idx < sig.positional.length := (List.getElem?_eq_some_iff.mp h).1
  exact (List.getElem?_append_left hlt).trans h

/-- The parameter is classified under its place among the recorded names. -/
theorem classifyParam_eq (hdefs : defs.get? func = some sig.nonVariadic)
    (h : sig.nonVariadic[idx]? = some p) :
    classifyParam defs func p = .positional idx := by
  obtain ⟨hlt, hget⟩ := List.getElem?_eq_some_iff.mp h
  have hfind : sig.nonVariadic.findIdx? (fun name => decide (name = p)) = some idx := by
    rw [List.findIdx?_eq_some_iff_getElem]
    refine ⟨hlt, decide_eq_true hget, fun j hj hname => ?_⟩
    have heq := of_decide_eq_true hname
    have hnodup : sig.nonVariadic.Nodup := sig.nodup
    have := (List.Nodup.getElem_inj_iff hnodup).mp (heq.trans hget.symm)
    omega
  unfold classifyParam
  rw [hdefs]
  dsimp only
  rw [hfind]

/-- What is bound to a parameter is a positional value in its slot or a keyword. -/
theorem bound_cases {layout : Layout args keywords} {bound : List (Str × Bool)}
    (h : sig.bindCall offset (positionalValues args layout.lens)
      (keywordValues keywords layout.keys) = some bound) (hp : (p, true) ∈ bound) :
    (sig.Admits offset (positionalValues args layout.lens).length keywords ∧
      ∃ idx, sig.positional[idx]? = some p ∧ offset ≤ idx ∧
        (positionalValues args layout.lens)[idx - offset]? = some true) ∨
      ∃ arg ∈ keywords, (arg.name = some p ∨ arg.name = none) ∧ arg.isImported = true := by
  unfold Signature.bindCall at h
  split at h
  · next haccepts =>
    cases h
    rcases List.mem_append.mp hp with hfilled | hkw
    · refine Or.inl ⟨Signature.admits_iff.mpr ⟨_, layout.keys_length, haccepts⟩, ?_⟩
      obtain ⟨idx, hidx⟩ := List.mem_iff_getElem?.mp hfilled
      obtain ⟨hpos, hvalue⟩ := List.getElem?_zip_eq_some.mp hidx
      -- the receiver is no imported argument
      have hle : offset ≤ idx := by
        by_contra hlt
        rw [List.getElem?_append_left (by rw [List.length_replicate]; omega),
          List.getElem?_replicate, if_pos (by omega)] at hvalue
        cases hvalue
      rw [List.getElem?_append_right (by rw [List.length_replicate]; exact hle),
        List.length_replicate] at hvalue
      exact ⟨idx, hpos, hle, hvalue⟩
    · exact Or.inr (mem_keywordValues (List.mem_filter.mp hkw).1)
  · cases h

/-- A displaced argument is bound to the parameter of its slot. -/
theorem bindsImported_of_overlooked (h : Overlooked sig offset args keywords p idx) :
    sig.BindsImported offset args keywords p := by
  obtain ⟨count, ⟨pre, arg, post, hstands, hpre⟩, hadmits⟩ := h.displaced
  obtain ⟨lens, hlens, hcount, hslot⟩ := exists_lens_of_stands hstands hpre
  obtain ⟨keys, hkeys, haccepts⟩ := Signature.admits_iff.mp hadmits
  refine ⟨⟨lens, keys, hlens, hkeys⟩, _, if_pos ?_, List.mem_append_left _ ?_⟩
  · rw [hcount]
    exact haccepts
  · refine List.mem_of_getElem? (i := idx) (List.getElem?_zip_eq_some.mpr ⟨h.position, ?_⟩)
    rw [List.getElem?_append_right (by rw [List.length_replicate]; exact h.explicit),
      List.length_replicate]
    exact hslot

/-- The record misses an overlooked parameter. -/
theorem not_hits_of_overlooked (hlen : args.length ≤ maxArgs)
    (hdefs : defs.get? func = some sig.nonVariadic)
    (h : Overlooked sig offset args keywords p idx) :
    (checkCallArgs args keywords).importedArgs.hitsParam p (classifyParam defs func p) offset ≠
      true := by
  have hrec := recorded_checkCallArgs args keywords
  obtain ⟨count, ⟨pre, arg, post, hstands, -⟩, -⟩ := h.displaced
  have htracked := hrec.hasAnyTrackedArgs hlen (Or.inl ⟨arg, by
    rw [hstands.split]
    exact List.mem_append_right _ List.mem_cons_self, hstands.imported⟩)
  rw [classifyParam_eq hdefs (getElem?_nonVariadic h.position), Ne,
    hitsParam_positional_iff h.explicit htracked, hrec.hasUnsafeArgIndex_iff hlen,
    hrec.hasUnsafeKeyword_iff]
  rintro ((⟨i, hi, a, ha, hs, himp⟩ | ⟨a, ha, hs, himp⟩) | ⟨a, ha, hname, himp⟩)
  · rw [h.stars i hi a ha hs] at himp
    cases himp
  · rw [h.slot a ha hs] at himp
    cases himp
  · rw [h.byName a ha hname] at himp
    cases himp

/-- Where nothing is overlooked, the record reports what is bound. -/
theorem hits_of_bound (hlen : args.length ≤ maxArgs)
    (hdefs : defs.get? func = some sig.nonVariadic)
    (hover : ∀ idx, ¬Overlooked sig offset args keywords p idx)
    (hbound : sig.BindsImported offset args keywords p) :
    (checkCallArgs args keywords).importedArgs.hitsParam p (classifyParam defs func p) offset =
      true := by
  have hrec := recorded_checkCallArgs args keywords
  obtain ⟨layout, bound, hbind, hp⟩ := hbound
  rcases bound_cases hbind hp with ⟨hadmits, idx, hpos, hle, hvalue⟩ | ⟨arg, harg, hname, himp⟩
  · obtain ⟨pre, arg, post, hstands⟩ := exists_stands args layout.lens_length hvalue
    have hget : args[pre.length]? = some arg := by
      rw [hstands.split, List.getElem?_append_right (Nat.le_refl _), Nat.sub_self]
      rfl
    -- the call tracks something, so an unreported slot is a real miss
    have htracked := hrec.hasAnyTrackedArgs hlen
      (Or.inl ⟨arg, List.mem_of_getElem? hget, hstands.imported⟩)
    rw [classifyParam_eq hdefs (getElem?_nonVariadic hpos), hitsParam_positional_iff hle htracked]
    by_contra hmiss
    rw [hrec.hasUnsafeArgIndex_iff hlen, hrec.hasUnsafeKeyword_iff] at hmiss
    refine hover idx ⟨hpos, hle, fun a ha hs => ?_, fun i hi a ha hs => ?_, fun a ha hname => ?_,
      _, ⟨pre, arg, post, hstands, ?_⟩, hadmits⟩
    · exact Bool.eq_false_iff.mpr fun himp => hmiss (Or.inl (Or.inr ⟨a, ha, hs, himp⟩))
    · exact Bool.eq_false_iff.mpr fun himp => hmiss (Or.inl (Or.inl ⟨i, hi, a, ha, hs, himp⟩))
    · exact Bool.eq_false_iff.mpr fun himp => hmiss (Or.inr ⟨a, ha, hname, himp⟩)
    · -- an argument that no iterable moves is reported where it stands
      by_contra hno
      have hfixed := hstands.before.2 hno
      split at hfixed
      · next hs => exact hmiss (Or.inl (Or.inl ⟨_, hfixed, arg, hget, hs, hstands.imported⟩))
      · next hs =>
        refine hmiss (Or.inl (Or.inr ⟨arg, ?_, Bool.eq_false_iff.mpr hs, hstands.imported⟩))
        rwa [hfixed]
  · exact hitsParam_of_keyword ((hrec.hasUnsafeKeyword_iff p).mpr ⟨arg, harg, hname, himp⟩)
      (hrec.hasAnyTrackedArgs hlen (Or.inr ⟨arg, harg, himp⟩))

/-- A callee whose signature is not recorded is hit by every call that binds an imported
argument. -/
theorem hits_of_unresolved (hlen : args.length ≤ maxArgs) (hdefs : defs.get? func = none)
    (hbound : sig.BindsImported offset args keywords p) :
    (checkCallArgs args keywords).importedArgs.hitsParam p (classifyParam defs func p) offset =
      true := by
  have hrec := recorded_checkCallArgs args keywords
  obtain ⟨layout, bound, hbind, hp⟩ := hbound
  have htracked : (checkCallArgs args keywords).importedArgs.hasAnyTrackedArgs = true := by
    refine hrec.hasAnyTrackedArgs hlen ?_
    rcases bound_cases hbind hp with ⟨-, idx, -, -, hvalue⟩ | ⟨arg, harg, -, himp⟩
    · obtain ⟨pre, arg, post, hstands⟩ := exists_stands args layout.lens_length hvalue
      refine Or.inl ⟨arg, ?_, hstands.imported⟩
      rw [hstands.split]
      exact List.mem_append_right _ List.mem_cons_self
    · exact Or.inr ⟨arg, harg, himp⟩
  unfold classifyParam ImportedArgs.hitsParam
  rw [hdefs]
  exact htracked

/-- An imported argument that the call can bind to the parameter is reported, exactly when
the signature is not recorded or no displaced argument is overlooked. -/
theorem arg_binding_iff (hlen : args.length ≤ maxArgs)
    (hdefs : ∀ names, defs.get? func = some names → names = sig.nonVariadic) :
    (sig.BindsImported offset args keywords p →
      (checkCallArgs args keywords).importedArgs.hitsParam p (classifyParam defs func p)
        offset = true) ↔
      (defs.get? func = none ∨ ∀ idx, ¬Overlooked sig offset args keywords p idx) := by
  cases hget : defs.get? func with
  | none => exact iff_of_true (hits_of_unresolved hlen hget) (Or.inl rfl)
  | some names =>
    obtain rfl := hdefs names hget
    constructor
    · intro h
      refine Or.inr fun idx hover => ?_
      exact not_hits_of_overlooked hlen hget hover (h (bindsImported_of_overlooked hover))
    · rintro (hnone | hover) hbound
      · cases hnone
      · exact hits_of_bound hlen hget hover hbound

end Binding

/-! ## An iterable before an imported argument -/

/-- `def f(a, b, c)`. -/
def threeArgs : Signature where
  args := ["a".toList, "b".toList, "c".toList]
  nodup := by decide

/-- The definitions of a module with that function. -/
def threeArgsDefs : Table ModuleName (List Str) :=
  Table.ofList [(fromStr "m.f", threeArgs.nonVariadic)]

/-- The arguments of `f(*xs, sys.path)`. -/
def starThenImported : List PosArg :=
  [{ starred := true, cls := .other }, { cls := .imported }]

theorem arg_binding_iff_plain :
    (threeArgs.BindsImported 0 [{ cls := .imported }] [] "a".toList →
      (checkCallArgs [{ cls := .imported }] []).importedArgs.hitsParam "a".toList
        (classifyParam threeArgsDefs (fromStr "m.f") "a".toList) 0 = true) ↔
      (threeArgsDefs.get? (fromStr "m.f") = none ∨
        ∀ idx, ¬Overlooked threeArgs 0 [{ cls := .imported }] [] "a".toList idx) :=
  arg_binding_iff (by decide) fun names h => by
    have hget : threeArgsDefs.get? (fromStr "m.f") = some threeArgs.nonVariadic := by decide
    exact Option.some.inj (h.symm.trans hget)

/-- With two elements in `xs`, the imported value is bound to `c`, and only the second slot
is reported. -/
theorem imported_after_star_missed :
    threeArgs.BindsImported 0 starThenImported [] "c".toList ∧
      (checkCallArgs starThenImported []).importedArgs.hitsParam "c".toList
        (classifyParam threeArgsDefs (fromStr "m.f") "c".toList) 0 = false := by
  refine ⟨⟨⟨[2, 0], [], rfl, rfl⟩, _, if_pos ?_, ?_⟩, by decide⟩
  · decide
  · decide

end Lifeguard
