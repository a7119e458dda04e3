import Lifeguard.Names
import Mathlib.Data.List.Pairwise

/-!
# Packages

A module sits under the packages its dotted name begins with. Here is what the source
asks about them: whether one is above a module (`isAncestorOf`), which is right above it
(`parent`), all of them from the nearest to the farthest (`iterParents`), and which of a
set of modules is the farthest (`outermostMemberAncestor`).

- `isAncestorOf_iff`, `mem_ancestors`: both ways to ask are about the name beginning with
  the package and a dot;
- `isAncestorOf_total`: the packages of one module are above one another;
- `ancestors_pairwise`: the order of the walk, each name above those before it;
- `outermostMemberAncestor_eq_some`: what the search through the prefixes finds.
-/

namespace Lifeguard

/-- `ModuleNameExt::is_ancestor_of`: `a.b` is an ancestor of `a.b.c`, not of `a.bc`. -/
def isAncestorOf (pkg name : ModuleName) : Bool :=
  match pkg.isPrefixOf? name with
  | some rest => rest.head? == some '.'
  | none => false

/-- The names of `iter_parents`. -/
def ancestors (name : ModuleName) : List ModuleName := (iterParents name).map Prod.fst

/-- `ModuleName::parent`: the package right above. -/
def parent (name : ModuleName) : Option ModuleName := (ancestors name).head?

/-- `outermost_member_ancestor`: the shortest dotted prefix of the name that is a member. -/
def outermostMemberAncestor (name : ModuleName) (members : List ModuleName) :
    Option ModuleName :=
  (ancestors name).reverse.find? fun pkg => decide (pkg ∈ members)

theorem isAncestorOf_iff {pkg name : ModuleName} :
    isAncestorOf pkg name = true ↔ ∃ r, name = appendStr pkg r := by
  rw [isAncestorOf]
  cases h : pkg.isPrefixOf? name with
  | none =>
    constructor
    · intro hfalse
      exact absurd hfalse (by simp)
    · rintro ⟨r, hr⟩
      have hsome : pkg.isPrefixOf? name = some ('.' :: r) :=
        List.isPrefixOf?_eq_some_iff_append_eq.mpr hr.symm
      exact absurd (h.symm.trans hsome) (by simp)
  | some rest =>
    have happ := List.isPrefixOf?_eq_some_iff_append_eq.mp h
    show (rest.head? == some '.') = true ↔ _
    rw [beq_iff_eq]
    constructor
    · intro hdot
      obtain ⟨r, hr⟩ := List.head?_eq_some_iff.mp hdot
      exact ⟨r, happ.symm.trans (by rw [hr, appendStr])⟩
    · rintro ⟨r, hr⟩
      have hrest : rest = '.' :: r := List.append_cancel_left (happ.trans hr)
      rw [hrest]
      rfl

theorem isAncestorOf_length {pkg name : ModuleName} (h : isAncestorOf pkg name = true) :
    pkg.length < name.length := by
  obtain ⟨r, rfl⟩ := isAncestorOf_iff.mp h
  rw [length_appendStr]
  omega

theorem isAncestorOf_ne {pkg name : ModuleName} (h : isAncestorOf pkg name = true) :
    pkg ≠ name := by
  intro heq
  exact absurd (isAncestorOf_length h) (by simp [heq])

theorem isAncestorOf_trans {a b c : ModuleName} (hab : isAncestorOf a b = true)
    (hbc : isAncestorOf b c = true) : isAncestorOf a c = true := by
  obtain ⟨r, rfl⟩ := isAncestorOf_iff.mp hab
  obtain ⟨r', rfl⟩ := isAncestorOf_iff.mp hbc
  exact isAncestorOf_iff.mpr ⟨_, appendStr_assoc a r r'⟩

theorem mem_iterParents {name pkg : ModuleName} {pos : Nat} :
    (pkg, pos) ∈ iterParents name ↔
      pos < name.length ∧ name[pos]? = some '.' ∧ pkg = name.take pos :=
  mem_parentsFrom

theorem mem_ancestors {name pkg : ModuleName} :
    pkg ∈ ancestors name ↔ isAncestorOf pkg name = true := by
  rw [ancestors, isAncestorOf_iff, List.mem_map]
  constructor
  · rintro ⟨⟨p, pos⟩, hmem, rfl⟩
    obtain ⟨_, hdot, rfl⟩ := mem_iterParents.mp hmem
    exact ⟨_, (getElem?_dot_iff.mp hdot).1⟩
  · rintro ⟨r, rfl⟩
    refine ⟨(pkg, pkg.length), mem_iterParents.mpr ⟨?_, ?_, ?_⟩, rfl⟩
    · rw [length_appendStr]
      omega
    · exact getElem?_dot_of_split pkg r
    · exact (take_appendStr pkg r).symm

/-- Of two names that begin a third, each up to a dot, the shorter begins the longer. -/
theorem isAncestorOf_of_length {a b name : ModuleName} (ha : isAncestorOf a name = true)
    (hb : isAncestorOf b name = true) (hlen : a.length < b.length) : isAncestorOf a b = true := by
  obtain ⟨r, hr⟩ := isAncestorOf_iff.mp ha
  obtain ⟨r', hr'⟩ := isAncestorOf_iff.mp hb
  have hdot : b[a.length]? = some '.' := by
    rw [← getElem?_dot_of_split a r, ← hr, hr', appendStr, List.getElem?_append_left hlen]
  have htake : b.take a.length = a := by
    rw [← take_appendStr a r, ← hr, hr', appendStr, List.take_append_of_le_length (Nat.le_of_lt hlen)]
    simp
  exact isAncestorOf_iff.mpr ⟨_, htake ▸ (getElem?_dot_iff.mp hdot).1⟩

/-! ## The walk up the packages -/

theorem parentsFrom_pairwise (name : Str) (pos : Nat) :
    (parentsFrom name pos).Pairwise fun p q => q.2 < p.2 := by
  induction pos with
  | zero => exact List.Pairwise.nil
  | succ pos ih =>
    rw [parentsFrom]
    split
    · refine List.pairwise_cons.mpr ⟨?_, ih⟩
      rintro ⟨p, k⟩ hmem
      exact (mem_parentsFrom.mp hmem).1
    · exact ih

/-- The walk goes up: each name is above those before it. -/
theorem ancestors_pairwise (name : ModuleName) :
    (ancestors name).Pairwise fun a b => isAncestorOf b a = true := by
  refine List.pairwise_map.mpr ((parentsFrom_pairwise name name.length).imp_of_mem ?_)
  rintro ⟨a, i⟩ ⟨b, j⟩ ha hb hlt
  have hname : ∀ {p : ModuleName} {k : Nat}, (p, k) ∈ iterParents name →
      isAncestorOf p name = true ∧ p.length = k := by
    intro p k hmem
    refine ⟨mem_ancestors.mp (List.mem_map_of_mem (f := Prod.fst) hmem), ?_⟩
    obtain ⟨hk, _, rfl⟩ := mem_iterParents.mp hmem
    rw [List.length_take, Nat.min_eq_left (Nat.le_of_lt hk)]
  obtain ⟨ha, halen⟩ := hname ha
  obtain ⟨hb, hblen⟩ := hname hb
  exact isAncestorOf_of_length hb ha (by rw [halen, hblen]; exact hlt)

theorem ancestors_nodup (name : ModuleName) : (ancestors name).Nodup :=
  (ancestors_pairwise name).imp fun h => (isAncestorOf_ne h).symm

theorem isAncestorOf_of_parent {name pkg : ModuleName} (h : parent name = some pkg) :
    isAncestorOf pkg name = true :=
  mem_ancestors.mp (List.mem_of_head? h)

/-- Past the parent: the packages above the parent. -/
theorem mem_ancestors_tail {name pkg : ModuleName} :
    pkg ∈ (ancestors name).tail ↔ isAncestorOf pkg name = true ∧ parent name ≠ some pkg := by
  have hwalk := ancestors_pairwise name
  rw [← mem_ancestors, parent]
  cases h : ancestors name with
  | nil => simp
  | cons first rest =>
    rw [h] at hwalk
    have hfirst : ∀ b ∈ rest, first ≠ b := fun b hb =>
      (isAncestorOf_ne ((List.pairwise_cons.mp hwalk).1 b hb)).symm
    show pkg ∈ rest ↔ pkg ∈ first :: rest ∧ some first ≠ some pkg
    rw [List.mem_cons]
    constructor
    · intro hmem
      exact ⟨Or.inr hmem, fun heq => hfirst pkg hmem (Option.some.inj heq)⟩
    · rintro ⟨heq | hmem, hne⟩
      · exact absurd (congrArg some heq.symm) hne
      · exact hmem

/-! ## The outermost member above a module -/

theorem outermostMemberAncestor_eq_none {name : ModuleName} {members : List ModuleName} :
    outermostMemberAncestor name members = none ↔
      ∀ b ∈ members, isAncestorOf b name = false := by
  rw [outermostMemberAncestor, List.find?_eq_none]
  constructor
  · intro h b hb
    refine Bool.eq_false_iff.mpr fun habove => ?_
    exact h b (List.mem_reverse.mpr (mem_ancestors.mpr habove)) (decide_eq_true hb)
  · intro h b hb hmem
    have habove := mem_ancestors.mp (List.mem_reverse.mp hb)
    exact absurd (habove.symm.trans (h b (of_decide_eq_true hmem))) (by simp)

/-- The search finds the member above the module that is above all the others. -/
theorem outermostMemberAncestor_eq_some {name a : ModuleName} {members : List ModuleName} :
    outermostMemberAncestor name members = some a ↔
      a ∈ members ∧ isAncestorOf a name = true ∧
        ∀ b ∈ members, isAncestorOf b name = true → b = a ∨ isAncestorOf a b = true := by
  -- two members with nothing above them are each above the other
  have hunique : ∀ {a b : ModuleName}, a ∈ members → isAncestorOf a name = true →
      (∀ c ∈ members, isAncestorOf c name = true → c = a ∨ isAncestorOf a c = true) →
      b ∈ members → isAncestorOf b name = true →
      (∀ c ∈ members, isAncestorOf c name = true → c = b ∨ isAncestorOf b c = true) → a = b := by
    intro a b ha habove hamax hb hbbove hbmax
    rcases hamax b hb hbbove with heq | hab
    · exact heq.symm
    · rcases hbmax a ha habove with heq | hba
      · exact heq
      · have h1 := isAncestorOf_length hab
        have h2 := isAncestorOf_length hba
        omega
  have hfound : ∀ {a}, outermostMemberAncestor name members = some a →
      a ∈ members ∧ isAncestorOf a name = true ∧
        ∀ b ∈ members, isAncestorOf b name = true → b = a ∨ isAncestorOf a b = true := by
    intro a h
    obtain ⟨hmem, before, after, hsplit, hbefore⟩ := List.find?_eq_some_iff_append.mp h
    -- the search walks down from the root, so what it has not met is below
    have hwalk : (before ++ a :: after).Pairwise fun a b => isAncestorOf a b = true := by
      rw [← hsplit]
      exact List.pairwise_reverse.mpr (ancestors_pairwise name)
    have ha : a ∈ ancestors name := by
      rw [← List.mem_reverse, hsplit]
      simp
    refine ⟨of_decide_eq_true hmem, mem_ancestors.mp ha, ?_⟩
    intro b hb hbbove
    have hmemb := List.mem_reverse.mpr (mem_ancestors.mpr hbbove)
    rw [hsplit, List.mem_append, List.mem_cons] at hmemb
    rcases hmemb with hearly | heq | hlate
    · exact absurd (decide_eq_true hb) (by simpa using hbefore b hearly)
    · exact Or.inl heq
    · exact Or.inr ((List.pairwise_cons.mp (List.pairwise_append.mp hwalk).2.1).1 b hlate)
  constructor
  · exact hfound
  · rintro ⟨hmem, habove, hmax⟩
    cases h : outermostMemberAncestor name members with
    | none => exact absurd (habove.symm.trans (outermostMemberAncestor_eq_none.mp h a hmem)) (by simp)
    | some b =>
      obtain ⟨hb, hbbove, hbmax⟩ := hfound h
      exact congrArg some (hunique hb hbbove hbmax hmem habove hmax)

end Lifeguard
