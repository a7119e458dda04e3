import Mathlib.Data.Char
import Mathlib.Data.List.Lex
import Mathlib.Data.List.TakeDrop

/-!
# Dotted names

Every name of the program, of a module, a class or a function, is one interned
string in which dots separate the parts (`ModuleName`). Here a string is the list
of its characters. The module collects what the source does to such names:

- joining and splitting: `appendStr`, `splitAttr`, `iterParents`;
- the enclosing module of a name, its longest proper dotted prefix that names a
  module, found through the interner (`enclosingModule`) or by probing string
  slices (`enclosingModuleStr`);
- the rendering of a call as `name()`, stripped again by `trimCalls`.

`enclosingModule_eq_some` and `enclosingModule_eq_none` say what the search
answers; everything later is proved from these two.
-/

namespace Lifeguard

/-- A string, as its characters. -/
abbrev Str := List Char

/-- An interned dotted name. -/
abbrev ModuleName := Str

/-- Names are equal when their characters are. -/
instance lawfulBEqModuleName : LawfulBEq ModuleName := inferInstance

/-- Names are sorted by their characters. -/
instance transModuleName : IsTrans ModuleName (· ≤ ·) := inferInstance

instance antisymmModuleName : Std.Antisymm fun a b : ModuleName => a ≤ b := inferInstance

instance totalModuleName : Std.Total fun a b : ModuleName => a ≤ b := inferInstance

/-- `ModuleName::from_str`. -/
def fromStr (s : String) : ModuleName := s.toList

/-- `ModuleNameExt::append_str`: the two names joined by a dot. -/
def appendStr (m other : Str) : ModuleName := m ++ '.' :: other

/-- The parents found by walking the dots of `name[..end]` from right to left. -/
def parentsFrom (name : Str) : Nat → List (ModuleName × Nat)
  | 0 => []
  | pos + 1 =>
    if name[pos]? = some '.' then (name.take pos, pos) :: parentsFrom name pos
    else parentsFrom name pos

/-- `ModuleNameExt::iter_parents`: the proper dotted prefixes of a name, longest
first, each with the position of the dot that ends it. -/
def iterParents (name : Str) : List (ModuleName × Nat) :=
  parentsFrom name name.length

/-- `ModuleNameExt::split_attr`: what stands before and after the last dot. -/
def splitAttr (name : Str) : Option (ModuleName × Str) :=
  (iterParents name).head?.map fun p => (p.1, name.drop (p.2 + 1))

/-- `enclosing_module`: the longest proper prefix `isModule` accepts, with the
rest of the name. -/
def enclosingModule (name : Str) (isModule : ModuleName → Bool) :
    Option (ModuleName × Str) :=
  ((iterParents name).find? fun p => isModule p.1).map
    fun p => (p.1, name.drop (p.2 + 1))

/-- The slice-probing loop of `enclosing_module_str`, below position `end`. -/
def enclosingStrFrom (name : Str) (isModule : Str → Bool) :
    Nat → Option (ModuleName × Str)
  | 0 => none
  | pos + 1 =>
    if name[pos]? = some '.' then
      if isModule (name.take pos) then some (name.take pos, name.drop (pos + 1))
      else enclosingStrFrom name isModule pos
    else enclosingStrFrom name isModule pos

/-- `enclosing_module_str`: as `enclosingModule`, testing string slices. -/
def enclosingModuleStr (name : Str) (isModule : Str → Bool) :
    Option (ModuleName × Str) :=
  enclosingStrFrom name isModule name.length

/-- `resolve_to_known_module`: the name itself when it is known, else its longest
known proper prefix. -/
def resolveToKnownModule (name : ModuleName) (known : ModuleName → Bool) :
    Option ModuleName :=
  if known name then some name
  else ((iterParents name).find? fun p => known p.1).map Prod.fst

/-- `metadata.trim_end_matches("()")`, on the reversed string. -/
def trimCallsRev : Str → Str
  | ')' :: '(' :: rest => trimCallsRev rest
  | s => s

/-- `metadata.trim_end_matches("()")`: every trailing `()` removed. -/
def trimCalls (s : Str) : Str := (trimCallsRev s.reverse).reverse

/-! ## Splits of a name at a dot -/

/-- A dot at position `pos` is where a split `m` `.` `r` of the name puts it. -/
theorem getElem?_dot_iff {name : Str} {pos : Nat} :
    name[pos]? = some '.' ↔
      name = appendStr (name.take pos) (name.drop (pos + 1)) ∧ pos < name.length := by
  constructor
  · intro h
    obtain ⟨hlt, hget⟩ := List.getElem?_eq_some_iff.mp h
    refine ⟨?_, hlt⟩
    have hdrop : name.drop pos = '.' :: name.drop (pos + 1) := by
      rw [List.drop_eq_getElem_cons hlt, hget]
    rw [appendStr, ← hdrop, List.take_append_drop]
  · rintro ⟨h, hlt⟩
    have hlen : (name.take pos).length = pos := by
      rw [List.length_take, Nat.min_eq_left (Nat.le_of_lt hlt)]
    rw [h, appendStr, List.getElem?_append_right (by omega), hlen, Nat.sub_self]
    rfl

theorem take_appendStr (m r : Str) : (appendStr m r).take m.length = m :=
  List.take_left' rfl

theorem length_appendStr (m r : Str) :
    (appendStr m r).length = m.length + 1 + r.length := by
  simp [appendStr]
  omega

/-- Two splits of one name with left parts of one length are the same split. -/
theorem appendStr_inj_length {m m' r r' : Str} (h : appendStr m r = appendStr m' r')
    (hlen : m.length = m'.length) : m = m' ∧ r = r' := by
  obtain ⟨hm, hr⟩ := List.append_inj h hlen
  exact ⟨hm, (List.cons.inj hr).2⟩

theorem appendStr_assoc (a b c : Str) :
    appendStr (appendStr a b) c = appendStr a (appendStr b c) := by
  simp [appendStr]

/-- A dot of the name is a split of it, with the left part as long as the dot is far. -/
theorem getElem?_dot_of_split (m r : Str) : (appendStr m r)[m.length]? = some '.' := by
  rw [appendStr, List.getElem?_append_right (Nat.le_refl _), Nat.sub_self]
  rfl

/-! ## The parents -/

theorem mem_parentsFrom {name m : Str} {pos k : Nat} :
    (m, k) ∈ parentsFrom name pos ↔
      k < pos ∧ name[k]? = some '.' ∧ m = name.take k := by
  induction pos with
  | zero => simp [parentsFrom]
  | succ pos ih =>
    rw [parentsFrom]
    split
    · next hdot =>
      rw [List.mem_cons, ih]
      constructor
      · rintro (heq | ⟨hlt, hk, hm⟩)
        · cases heq
          exact ⟨Nat.lt_succ_self _, hdot, rfl⟩
        · exact ⟨Nat.lt_succ_of_lt hlt, hk, hm⟩
      · rintro ⟨hlt, hk, hm⟩
        rcases Nat.lt_succ_iff_lt_or_eq.mp hlt with h | h
        · exact Or.inr ⟨h, hk, hm⟩
        · rw [hm, h]
          exact Or.inl rfl
    · next hdot =>
      rw [ih]
      constructor
      · rintro ⟨hlt, hk, hm⟩
        exact ⟨Nat.lt_succ_of_lt hlt, hk, hm⟩
      · rintro ⟨hlt, hk, hm⟩
        rcases Nat.lt_succ_iff_lt_or_eq.mp hlt with h | h
        · exact ⟨h, hk, hm⟩
        · exact absurd (h ▸ hk) hdot

/-- The slice-probing loop and the search over the parents are one search. -/
theorem enclosingStrFrom_eq (name : Str) (isModule : Str → Bool) (pos : Nat) :
    enclosingStrFrom name isModule pos =
      ((parentsFrom name pos).find? fun p => isModule p.1).map
        fun p => (p.1, name.drop (p.2 + 1)) := by
  induction pos with
  | zero => rfl
  | succ pos ih =>
    rw [enclosingStrFrom, parentsFrom]
    split
    · split
      · next hmod => simp [hmod]
      · next hmod => simp [hmod, ih]
    · exact ih

theorem enclosingModuleStr_eq (name : Str) (isModule : Str → Bool) :
    enclosingModuleStr name isModule = enclosingModule name isModule :=
  enclosingStrFrom_eq name isModule name.length

/-! ## What the search answers -/

theorem enclosingStrFrom_eq_some {name m r : Str} {isModule : Str → Bool} {pos : Nat}
    (hpos : pos ≤ name.length) :
    enclosingStrFrom name isModule pos = some (m, r) ↔
      name = appendStr m r ∧ m.length < pos ∧ isModule m = true ∧
        ∀ m' r', name = appendStr m' r' → m'.length < pos → isModule m' = true →
          m'.length ≤ m.length := by
  induction pos with
  | zero => simp [enclosingStrFrom]
  | succ pos ih =>
    have ih := ih (Nat.le_of_succ_le hpos)
    rw [enclosingStrFrom]
    by_cases hdot : name[pos]? = some '.'
    · rw [if_pos hdot]
      have hsplit := (getElem?_dot_iff.mp hdot).1
      -- a dot here splits the name, and the prefix ends right before it
      have hlen : (name.take pos).length = pos := by
        rw [List.length_take]
        omega
      -- the prefix is a module and longer than all that follow, or it is not one
      by_cases hmod : isModule (name.take pos) = true
      · rw [if_pos hmod]
        constructor
        · intro h
          cases h
          refine ⟨hsplit, by omega, hmod, ?_⟩
          intro m' r' _ hlt _
          omega
        · rintro ⟨hname, hlt, hm, hmax⟩
          have hle := hmax _ _ hsplit (by omega) hmod
          have heq : m.length = (name.take pos).length := by omega
          have hboth : appendStr m r = appendStr (name.take pos) (name.drop (pos + 1)) :=
            hname.symm.trans hsplit
          obtain ⟨hm', hr'⟩ := appendStr_inj_length hboth heq
          rw [← hm', ← hr']
      · rw [if_neg hmod, ih]
        constructor
        · rintro ⟨hname, hlt, hm, hmax⟩
          refine ⟨hname, Nat.lt_succ_of_lt hlt, hm, ?_⟩
          intro m' r' hname' hlt' hm'
          rcases Nat.lt_succ_iff_lt_or_eq.mp hlt' with h | h
          · exact hmax m' r' hname' h hm'
          · rw [hname', ← h, take_appendStr] at hmod
            exact absurd hm' hmod
        · rintro ⟨hname, hlt, hm, hmax⟩
          refine ⟨hname, ?_, hm, ?_⟩
          · rcases Nat.lt_succ_iff_lt_or_eq.mp hlt with h | h
            · exact h
            · rw [hname, ← h, take_appendStr] at hmod
              exact absurd hm hmod
          · intro m' r' hname' hlt' hm'
            exact hmax m' r' hname' (Nat.lt_succ_of_lt hlt') hm'
    · -- no dot at this position, so no split ends here
      rw [if_neg hdot, ih]
      have hno : ∀ m' r', name = appendStr m' r' → m'.length ≠ pos := by
        intro m' r' hname' h
        rw [hname', ← h] at hdot
        exact hdot (getElem?_dot_of_split m' r')
      constructor
      · rintro ⟨hname, hlt, hm, hmax⟩
        refine ⟨hname, Nat.lt_succ_of_lt hlt, hm, ?_⟩
        intro m' r' hname' hlt' hm'
        have := hno m' r' hname'
        exact hmax m' r' hname' (by omega) hm'
      · rintro ⟨hname, hlt, hm, hmax⟩
        have := hno m r hname
        refine ⟨hname, by omega, hm, ?_⟩
        intro m' r' hname' hlt' hm'
        exact hmax m' r' hname' (Nat.lt_succ_of_lt hlt') hm'

/-- The enclosing module is the longest proper dotted prefix that is a module. -/
theorem enclosingModule_eq_some {name m r : Str} {isModule : ModuleName → Bool} :
    enclosingModule name isModule = some (m, r) ↔
      name = appendStr m r ∧ isModule m = true ∧
        ∀ m' r', name = appendStr m' r' → isModule m' = true →
          m'.length ≤ m.length := by
  rw [← enclosingModuleStr_eq, enclosingModuleStr,
    enclosingStrFrom_eq_some (Nat.le_refl _)]
  have hlt : ∀ m' r', name = appendStr m' r' → m'.length < name.length := by
    intro m' r' h
    rw [h, length_appendStr]
    omega
  constructor
  · rintro ⟨hname, -, hm, hmax⟩
    exact ⟨hname, hm, fun m' r' h hm' => hmax m' r' h (hlt m' r' h) hm'⟩
  · rintro ⟨hname, hm, hmax⟩
    exact ⟨hname, hlt m r hname, hm, fun m' r' h _ hm' => hmax m' r' h hm'⟩

/-- No enclosing module: no proper dotted prefix is a module. -/
theorem enclosingModule_eq_none {name : Str} {isModule : ModuleName → Bool} :
    enclosingModule name isModule = none ↔
      ∀ m r, name = appendStr m r → isModule m = false := by
  rw [enclosingModule, Option.map_eq_none_iff, List.find?_eq_none]
  constructor
  · intro h m r hname
    have hmem : (m, m.length) ∈ iterParents name := by
      rw [iterParents, mem_parentsFrom, hname]
      refine ⟨?_, getElem?_dot_of_split m r, (take_appendStr m r).symm⟩
      rw [length_appendStr]
      omega
    simpa using h _ hmem
  · rintro h ⟨m, k⟩ hmem
    rw [iterParents, mem_parentsFrom] at hmem
    obtain ⟨-, hdot, hm⟩ := hmem
    rw [hm]
    simpa using h _ _ (getElem?_dot_iff.mp hdot).1

/-! ## A name right below another -/

theorem parentsFrom_appendStr (name child : Str) {pos : Nat} (h : pos ≤ name.length) :
    parentsFrom (appendStr name child) pos = parentsFrom name pos := by
  induction pos with
  | zero => rfl
  | succ pos ih =>
    have hget : (appendStr name child)[pos]? = name[pos]? :=
      List.getElem?_append_left (Nat.lt_of_succ_le h)
    have htake : (appendStr name child).take pos = name.take pos :=
      List.take_append_of_le_length (Nat.le_of_succ_le h)
    rw [parentsFrom, parentsFrom, hget, htake, ih (Nat.le_of_succ_le h)]

/-- The names above it: the name itself, then those above that. -/
theorem iterParents_child {name child : Str} (hchild : '.' ∉ child) :
    iterParents (appendStr name child) = (name, name.length) :: iterParents name := by
  have hskip : ∀ k ≤ child.length, parentsFrom (appendStr name child) (name.length + 1 + k) =
      (name, name.length) :: iterParents name := by
    intro k
    induction k with
    | zero =>
      intro _
      rw [Nat.add_zero, parentsFrom, if_pos (getElem?_dot_of_split name child), take_appendStr,
        parentsFrom_appendStr name child le_rfl]
      rfl
    | succ k ih =>
      intro hk
      have hget : (appendStr name child)[name.length + 1 + k]? = child[k]? := by
        rw [appendStr, List.getElem?_append_right (by omega),
          show name.length + 1 + k - name.length = k + 1 by omega, List.getElem?_cons_succ]
      rw [← Nat.add_assoc, parentsFrom, hget,
        if_neg fun h => hchild (List.mem_of_getElem? h), ih (Nat.le_of_succ_le hk)]
  rw [iterParents, length_appendStr, hskip child.length le_rfl]

/-- A name right below another is in the module that names it, and else where the other is. -/
theorem enclosingModule_child {name child : Str} (hchild : '.' ∉ child)
    (isModule : ModuleName → Bool) :
    enclosingModule (appendStr name child) isModule =
      if isModule name then some (name, child)
      else (enclosingModule name isModule).map fun p => (p.1, appendStr p.2 child) := by
  rw [enclosingModule, iterParents_child hchild, List.find?_cons]
  cases hname : isModule name with
  | true =>
    rw [if_pos rfl]
    show some (name, (appendStr name child).drop (name.length + 1)) = _
    rw [appendStr, List.drop_append, List.drop_eq_nil_of_le (Nat.le_succ _), List.nil_append,
      show name.length + 1 - name.length = 1 by omega]
    rfl
  | false =>
    rw [if_neg Bool.false_ne_true, enclosingModule, Option.map_map]
    refine Option.map_congr fun p hp => ?_
    have hlt : p.2 < name.length := (mem_parentsFrom.mp (List.mem_of_find?_eq_some hp)).1
    show (p.1, (appendStr name child).drop (p.2 + 1)) = _
    rw [appendStr, List.drop_append_of_le_length hlt]
    rfl

end Lifeguard
