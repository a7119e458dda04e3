import Lifeguard.ModuleMerge

/-!
# What becomes of an import

A library holds an import of a module as an edge, as a missing import, or as an ambiguous
one, by what it can see. The records of a module are joined, and the reduce then resolves
the ambiguous and the missing imports against all the merged modules (`cache/reduce.rs`).

- `LongestMerged`: the longest dotted prefix of a target that is a merged module;
- `mem_imports_resolveImports`, `mem_missingImports_resolveImports`: the edges and the
  missing imports of a record after both passes;
- `imports_conserved`: where every target of a group of records ends.
-/

namespace Lifeguard

open Lib

/-! ## The passes -/

/-- `resolve_and_add_import_edge`, with the edges after it. -/
def resolveAndAddImportEdge (imports : Finset ModuleName) (source name : ModuleName)
    (moduleNames : Finset ModuleName) : Option ModuleName × Finset ModuleName :=
  match resolveToKnownModule name fun m => decide (m ∈ moduleNames) with
  | none => (none, imports)
  | some resolved =>
    (some resolved, if resolved ≠ source then insert resolved imports else imports)

/-- The body of the loop over the ambiguous or the missing imports of a module. -/
structure Resolving where
  imports : Finset ModuleName
  /-- What the drained imports resolved to. -/
  resolved : Finset ModuleName := ∅
  /-- The drained imports that did not resolve. -/
  unresolved : Finset ModuleName := ∅

/-- Take one drained import. -/
def Resolving.drain (moduleNames : Finset ModuleName) (source : ModuleName) (st : Resolving)
    (name : ModuleName) : Resolving :=
  match resolveAndAddImportEdge st.imports source name moduleNames with
  | (some target, imports) => { st with imports, resolved := insert target st.resolved }
  | (none, imports) => { st with imports, unresolved := insert name st.unresolved }

/-- `resolve_ambiguous_imports`, for one module: an ambiguous import that does not resolve
is an attribute, and goes. Answers what the others resolved to. -/
def CachedModule.resolveAmbiguousImports (moduleNames : Finset ModuleName)
    (m : CachedModule) : Finset ModuleName × CachedModule :=
  let drained := (elems m.ambiguousImports).foldl (Resolving.drain moduleNames m.name)
    { imports := m.imports }
  (drained.resolved, { m with imports := drained.imports, ambiguousImports := ∅ })

/-- The missing-import resolution of `resolve_cross_library_errors`, for one module, but for
the errors it clears. Answers what the module's imports newly resolved to, when there were
any to resolve. -/
def CachedModule.resolveMissingImports (moduleNames fromAmbiguous : Finset ModuleName)
    (m : CachedModule) : Option (Finset ModuleName) × CachedModule :=
  if m.missingImports = ∅ ∧ fromAmbiguous = ∅ then (none, m)
  else
    let drained := (elems m.missingImports).foldl (Resolving.drain moduleNames m.name)
      { imports := m.imports, resolved := fromAmbiguous }
    (some drained.resolved,
      { m with imports := drained.imports, missingImports := drained.unresolved })

/-- Both passes over a module. -/
def CachedModule.resolveImports (moduleNames : Finset ModuleName) (m : CachedModule) :
    CachedModule :=
  let (fromAmbiguous, resolved) := m.resolveAmbiguousImports moduleNames
  (resolved.resolveMissingImports moduleNames fromAmbiguous).2

/-! ## Where a name resolves -/

/-- `p` is `t`, or a prefix of it that ends before a dot. -/
def DottedPrefix (p t : ModuleName) : Prop := p = t ∨ ∃ rest, t = appendStr p rest

/-- `p` is the longest dotted prefix of `t` that is a merged module. -/
structure LongestMerged (moduleNames : Finset ModuleName) (t p : ModuleName) : Prop where
  merged : p ∈ moduleNames
  isPrefix : DottedPrefix p t
  longest : ∀ q ∈ moduleNames, DottedPrefix q t → q.length ≤ p.length

variable {moduleNames : Finset ModuleName} {t p : ModuleName}

theorem resolveToKnownModule_eq {known : ModuleName → Bool} :
    resolveToKnownModule t known =
      if known t then some t else (enclosingModule t known).map Prod.fst := by
  rw [resolveToKnownModule, enclosingModule, Option.map_map]
  rfl

theorem resolveToKnownModule_eq_some :
    resolveToKnownModule t (fun m => decide (m ∈ moduleNames)) = some p ↔
      LongestMerged moduleNames t p := by
  rw [resolveToKnownModule_eq]
  by_cases ht : t ∈ moduleNames
  · rw [if_pos (decide_eq_true ht), Option.some.injEq]
    constructor
    · rintro rfl
      refine ⟨ht, Or.inl rfl, fun q _ hq => ?_⟩
      rcases hq with rfl | ⟨rest, hrest⟩
      · exact Nat.le_refl _
      · rw [hrest, length_appendStr]
        omega
    · rintro ⟨-, hp, hlongest⟩
      rcases hp with rfl | ⟨rest, hrest⟩
      · rfl
      · -- a proper prefix is shorter than the name itself
        have hle := hlongest t ht (Or.inl rfl)
        rw [hrest, length_appendStr] at hle
        omega
  · rw [if_neg (by simpa using ht), Option.map_eq_some_iff]
    constructor
    · rintro ⟨⟨m, rest⟩, h, rfl⟩
      obtain ⟨hname, hm, hmax⟩ := enclosingModule_eq_some.mp h
      refine ⟨of_decide_eq_true hm, Or.inr ⟨rest, hname⟩, fun q hqm hq => ?_⟩
      rcases hq with rfl | ⟨rest', hrest'⟩
      · exact absurd hqm ht
      · exact hmax q rest' hrest' (decide_eq_true hqm)
    · rintro ⟨hp, hprefix, hlongest⟩
      rcases hprefix with rfl | ⟨rest, hrest⟩
      · exact absurd hp ht
      · refine ⟨(p, rest), enclosingModule_eq_some.mpr ⟨hrest, decide_eq_true hp, ?_⟩, rfl⟩
        intro m' r' hname' hm'
        exact hlongest m' (of_decide_eq_true hm') (Or.inr ⟨r', hname'⟩)

/-- No dotted prefix of the name is a merged module. -/
theorem resolveToKnownModule_eq_none :
    resolveToKnownModule t (fun m => decide (m ∈ moduleNames)) = none ↔
      ∀ p ∈ moduleNames, ¬DottedPrefix p t := by
  rw [resolveToKnownModule_eq]
  by_cases ht : t ∈ moduleNames
  · rw [if_pos (decide_eq_true ht)]
    exact iff_of_false nofun fun h => h t ht (Or.inl rfl)
  · rw [if_neg (by simpa using ht), Option.map_eq_none_iff, enclosingModule_eq_none]
    constructor
    · rintro h p hp (rfl | ⟨rest, hrest⟩)
      · exact ht hp
      · exact of_decide_eq_false (h p rest hrest) hp
    · intro h m r hname
      exact decide_eq_false fun hm => h m hm (Or.inr ⟨r, hname⟩)

/-- A merged module is its own longest merged prefix. -/
theorem LongestMerged.self (h : t ∈ moduleNames) : LongestMerged moduleNames t t :=
  resolveToKnownModule_eq_some.mp (if_pos (decide_eq_true h))

/-- The longest merged prefix of a name is one module. -/
theorem LongestMerged.unique {p' : ModuleName} (h : LongestMerged moduleNames t p)
    (h' : LongestMerged moduleNames t p') : p = p' :=
  Option.some.inj ((resolveToKnownModule_eq_some.mpr h).symm.trans
    (resolveToKnownModule_eq_some.mpr h'))

/-! ## What the passes leave -/

section Drain

variable {source : ModuleName} {st : Resolving} {names : List ModuleName} {n : ModuleName}

theorem mem_drain_imports :
    n ∈ (names.foldl (Resolving.drain moduleNames source) st).imports ↔
      n ∈ st.imports ∨ n ≠ source ∧ ∃ t ∈ names, LongestMerged moduleNames t n := by
  induction names generalizing st with
  | nil => simp
  | cons name names ih =>
    rw [List.foldl_cons, ih, List.exists_mem_cons_iff]
    have hone : n ∈ (st.drain moduleNames source name).imports ↔
        n ∈ st.imports ∨ n ≠ source ∧ LongestMerged moduleNames name n := by
      rw [← resolveToKnownModule_eq_some]
      unfold Resolving.drain resolveAndAddImportEdge
      cases resolveToKnownModule name fun m => decide (m ∈ moduleNames) with
      | none => simp
      | some resolved =>
        dsimp only
        split
        · next hne =>
          rw [Finset.mem_insert, Option.some.injEq, or_comm]
          refine or_congr_right ?_
          constructor
          · rintro rfl
            exact ⟨hne, rfl⟩
          · rintro ⟨-, rfl⟩
            rfl
        · next heq =>
          refine (or_iff_left ?_).symm
          rintro ⟨hne, hresolved⟩
          cases hresolved
          exact heq hne
    rw [hone, and_or_left, or_assoc]

theorem mem_drain_unresolved :
    n ∈ (names.foldl (Resolving.drain moduleNames source) st).unresolved ↔
      n ∈ st.unresolved ∨ n ∈ names ∧ ∀ p ∈ moduleNames, ¬DottedPrefix p n := by
  induction names generalizing st with
  | nil => simp
  | cons name names ih =>
    rw [List.foldl_cons, ih, List.mem_cons]
    have hone : n ∈ (st.drain moduleNames source name).unresolved ↔
        n ∈ st.unresolved ∨ n = name ∧ ∀ p ∈ moduleNames, ¬DottedPrefix p n := by
      unfold Resolving.drain resolveAndAddImportEdge
      cases hres : resolveToKnownModule name fun m => decide (m ∈ moduleNames) with
      | none =>
        have hno := resolveToKnownModule_eq_none.mp hres
        dsimp only
        rw [Finset.mem_insert, or_comm]
        refine or_congr_right (Iff.symm (and_iff_left_of_imp ?_))
        rintro rfl
        exact hno
      | some resolved =>
        obtain ⟨hmerged, hprefix, -⟩ := resolveToKnownModule_eq_some.mp hres
        refine (or_iff_left ?_).symm
        rintro ⟨rfl, hno⟩
        exact hno resolved hmerged hprefix
    rw [hone, or_and_right, or_assoc]

end Drain

section Resolve

variable {m : CachedModule} {n : ModuleName}

theorem imports_resolveAmbiguousImports :
    n ∈ (m.resolveAmbiguousImports moduleNames).2.imports ↔
      n ∈ m.imports ∨ n ≠ m.name ∧ ∃ t ∈ m.ambiguousImports, LongestMerged moduleNames t n := by
  refine mem_drain_imports.trans ?_
  simp only [mem_elems]

/-- The edges after both passes: those of the record, and what its ambiguous and missing
imports resolve to, but for the module itself. -/
theorem mem_imports_resolveImports :
    n ∈ (m.resolveImports moduleNames).imports ↔
      n ∈ m.imports ∨ n ≠ m.name ∧
        ∃ t, (t ∈ m.ambiguousImports ∨ t ∈ m.missingImports) ∧ LongestMerged moduleNames t n := by
  have hmissing : ∀ fromAmbiguous, ∀ m' : CachedModule,
      n ∈ (m'.resolveMissingImports moduleNames fromAmbiguous).2.imports ↔
        n ∈ m'.imports ∨ n ≠ m'.name ∧
          ∃ t ∈ m'.missingImports, LongestMerged moduleNames t n := by
    intro fromAmbiguous m'
    unfold CachedModule.resolveMissingImports
    split
    · next hempty => simp [hempty.1]
    · refine mem_drain_imports.trans ?_
      simp only [mem_elems]
  refine (hmissing _ _).trans ?_
  show n ∈ (m.resolveAmbiguousImports moduleNames).2.imports ∨ _ ↔ _
  rw [imports_resolveAmbiguousImports, or_assoc]
  refine or_congr_right ?_
  show (n ≠ m.name ∧ _) ∨ (n ≠ m.name ∧ ∃ t ∈ m.missingImports, _) ↔ _
  rw [← and_or_left]
  refine and_congr_right fun _ => ?_
  simp only [or_and_right, exists_or]

/-- The missing imports after both passes: those without a merged prefix. -/
theorem mem_missingImports_resolveImports :
    n ∈ (m.resolveImports moduleNames).missingImports ↔
      n ∈ m.missingImports ∧ ∀ p ∈ moduleNames, ¬DottedPrefix p n := by
  have hmissing : ∀ fromAmbiguous, ∀ m' : CachedModule,
      n ∈ (m'.resolveMissingImports moduleNames fromAmbiguous).2.missingImports ↔
        n ∈ m'.missingImports ∧ ∀ p ∈ moduleNames, ¬DottedPrefix p n := by
    intro fromAmbiguous m'
    unfold CachedModule.resolveMissingImports
    split
    · next hempty => simp [hempty.1]
    · refine mem_drain_unresolved.trans ?_
      simp
  exact hmissing _ _

theorem ambiguousImports_resolveImports :
    (m.resolveImports moduleNames).ambiguousImports = ∅ := by
  have hmissing : ∀ fromAmbiguous, ∀ m' : CachedModule,
      (m'.resolveMissingImports moduleNames fromAmbiguous).2.ambiguousImports =
        m'.ambiguousImports := by
    intro fromAmbiguous m'
    unfold CachedModule.resolveMissingImports
    split <;> rfl
  exact hmissing _ _

end Resolve

/-! ## Conservation -/

/-- The targets a record names, as whatever kind of import. -/
def CachedModule.targets (m : CachedModule) : Finset ModuleName :=
  m.imports ∪ m.missingImports ∪ m.ambiguousImports

/-- The records are those of libraries whose modules are all merged: an edge goes to a
merged module other than the module itself, and what an ambiguous import is imported from
is merged. -/
structure FromMergedLibraries (moduleNames : Finset ModuleName)
    (records : List CachedModule) : Prop where
  edges : ∀ r ∈ records, ∀ t ∈ r.imports, t ∈ moduleNames ∧ t ≠ r.name
  ambiguous : ∀ r ∈ records, ∀ t ∈ r.ambiguousImports, ∃ p ∈ moduleNames, DottedPrefix p t

variable (S : UnstableSort) {first : CachedModule} {rest : List CachedModule}
  {targets : Finset ModuleName}

/-- Where the targets of a group of records of one module end, when every record names the
same ones.

A target that no record has as an edge ends as an edge to its longest merged prefix, unless
that is the module itself; when it has none, it ends as a missing import if every record has it
as missing, and goes when some record has it as ambiguous only. A target that some record
has as an edge is an edge. Nothing else is an edge or a missing import.

When the records are those of libraries whose modules are all merged, every target ends as
an edge to its longest merged prefix or as a missing import, however the records split the
targets. -/
theorem imports_conserved (moduleNames : Finset ModuleName)
    (hname : ∀ r ∈ first :: rest, r.name = first.name)
    (htargets : ∀ r ∈ first :: rest, r.targets = targets) :
    let final := (mergeRecords S first rest).resolveImports moduleNames
    (∀ t ∈ targets, (∀ r ∈ first :: rest, t ∉ r.imports) →
      (∀ p, LongestMerged moduleNames t p → p ≠ first.name → p ∈ final.imports) ∧
      ((∀ p ∈ moduleNames, ¬DottedPrefix p t) →
        (t ∈ final.missingImports ↔ ∀ r ∈ first :: rest, t ∈ r.missingImports))) ∧
    (∀ t, (∃ r ∈ first :: rest, t ∈ r.imports) → t ∈ final.imports) ∧
    (∀ p ∈ final.imports, (∃ r ∈ first :: rest, p ∈ r.imports) ∨
      p ≠ first.name ∧ ∃ t ∈ targets, LongestMerged moduleNames t p) ∧
    (∀ t ∈ final.missingImports, t ∈ targets ∧ ∀ p ∈ moduleNames, ¬DottedPrefix p t) ∧
    final.ambiguousImports = ∅ ∧
    (FromMergedLibraries moduleNames (first :: rest) →
      (∀ p, p ∈ final.imports ↔
        p ≠ first.name ∧ ∃ t ∈ targets, LongestMerged moduleNames t p) ∧
      ∀ t, t ∈ final.missingImports ↔
        t ∈ targets ∧ ∀ p ∈ moduleNames, ¬DottedPrefix p t) := by
  intro final
  have himports : ∀ p, p ∈ final.imports ↔ (∃ r ∈ first :: rest, p ∈ r.imports) ∨
      p ≠ first.name ∧ ∃ t, ((∃ r ∈ first :: rest, t ∈ r.ambiguousImports) ∨
        ∀ r ∈ first :: rest, t ∈ r.missingImports) ∧ LongestMerged moduleNames t p := by
    intro p
    refine mem_imports_resolveImports.trans ?_
    simp only [name_mergeRecords, mem_imports_mergeRecords, mem_ambiguousImports_mergeRecords,
      mem_missingImports_mergeRecords]
  have hmissing : ∀ t, t ∈ final.missingImports ↔
      (∀ r ∈ first :: rest, t ∈ r.missingImports) ∧ ∀ p ∈ moduleNames, ¬DottedPrefix p t := by
    intro t
    refine mem_missingImports_resolveImports.trans ?_
    rw [mem_missingImports_mergeRecords]
  have htarget : ∀ t, ∀ r ∈ first :: rest,
      (t ∈ targets ↔ t ∈ r.imports ∨ t ∈ r.missingImports ∨ t ∈ r.ambiguousImports) := by
    intro t r hr
    rw [← htargets r hr, CachedModule.targets, Finset.mem_union, Finset.mem_union, or_assoc]
  have hfirst : first ∈ first :: rest := List.mem_cons_self
  -- a target that is no edge is ambiguous somewhere or missing everywhere
  have hkind : ∀ t ∈ targets, (∀ r ∈ first :: rest, t ∉ r.imports) →
      (∃ r ∈ first :: rest, t ∈ r.ambiguousImports) ∨
        ∀ r ∈ first :: rest, t ∈ r.missingImports := by
    intro t ht hedge
    by_cases hamb : ∃ r ∈ first :: rest, t ∈ r.ambiguousImports
    · exact Or.inl hamb
    · refine Or.inr fun r hr => ?_
      rcases (htarget t r hr).mp ht with himp | hmiss | hambr
      · exact absurd himp (hedge r hr)
      · exact hmiss
      · exact absurd ⟨r, hr, hambr⟩ hamb
  have hnamed : ∀ t, ((∃ r ∈ first :: rest, t ∈ r.ambiguousImports) ∨
      ∀ r ∈ first :: rest, t ∈ r.missingImports) → t ∈ targets := by
    rintro t (⟨r, hr, ht⟩ | hall)
    · exact (htarget t r hr).mpr (Or.inr (Or.inr ht))
    · exact (htarget t first hfirst).mpr (Or.inr (Or.inl (hall first hfirst)))
  have hedges : ∀ p ∈ final.imports, (∃ r ∈ first :: rest, p ∈ r.imports) ∨
      p ≠ first.name ∧ ∃ t ∈ targets, LongestMerged moduleNames t p := by
    intro p hp
    refine ((himports p).mp hp).imp_right ?_
    rintro ⟨hne, t, hk, hlong⟩
    exact ⟨hne, t, hnamed t hk, hlong⟩
  refine ⟨fun t ht hedge => ⟨fun p hp hne => ?_, fun hno => ?_⟩, fun t ht => ?_, hedges,
    fun t ht => ?_, ambiguousImports_resolveImports, fun hlibs => ⟨fun p => ?_, fun t => ?_⟩⟩
  · exact (himports p).mpr (Or.inr ⟨hne, t, hkind t ht hedge, hp⟩)
  · rw [hmissing, and_iff_left hno]
  · exact (himports t).mpr (Or.inl ht)
  · obtain ⟨hall, hno⟩ := (hmissing t).mp ht
    exact ⟨hnamed t (Or.inr hall), hno⟩
  · refine ⟨fun hp => ?_, ?_⟩
    · rcases hedges p hp with ⟨r, hr, hpr⟩ | hp
      · obtain ⟨hmerged, hne⟩ := hlibs.edges r hr p hpr
        rw [hname r hr] at hne
        exact ⟨hne, p, (htarget p r hr).mpr (Or.inl hpr), LongestMerged.self hmerged⟩
      · exact hp
    · rintro ⟨hne, t, ht, hlong⟩
      by_cases hedge : ∃ r ∈ first :: rest, t ∈ r.imports
      · -- an edge goes to a merged module, which is its own longest prefix
        obtain ⟨r, hr, htr⟩ := hedge
        have hself := LongestMerged.self (hlibs.edges r hr t htr).1
        rw [hlong.unique hself]
        exact (himports t).mpr (Or.inl ⟨r, hr, htr⟩)
      · have hnone : ∀ r ∈ first :: rest, t ∉ r.imports := fun r hr h => hedge ⟨r, hr, h⟩
        exact (himports p).mpr (Or.inr ⟨hne, t, hkind t ht hnone, hlong⟩)
  · rw [hmissing]
    constructor
    · rintro ⟨hall, hno⟩
      exact ⟨hnamed t (Or.inr hall), hno⟩
    · rintro ⟨ht, hno⟩
      refine ⟨fun r hr => ?_, hno⟩
      rcases (htarget t r hr).mp ht with himp | hmiss | hamb
      · exact absurd (Or.inl rfl) (hno t (hlibs.edges r hr t himp).1)
      · exact hmiss
      · obtain ⟨p, hp, hprefix⟩ := hlibs.ambiguous r hr t hamb
        exact absurd hprefix (hno p hp)

/-! ## An attribute of a module that is not merged -/

/-- A record of module `m` with the imports `x`, as missing, and `x.y`, as missing or as
ambiguous. -/
def recordOfImport (isAmbiguous : Bool) : CachedModule where
  name := fromStr "m"
  missingImports := if isAmbiguous then {fromStr "x"} else {fromStr "x", fromStr "x.y"}
  ambiguousImports := if isAmbiguous then {fromStr "x.y"} else ∅

/-- One library has `x.y` as missing and the other as ambiguous, and neither `x` nor `x.y`
is merged: the import of `x.y` is neither an edge nor missing in the end. -/
theorem ambiguous_import_vanishes :
    (∀ r ∈ [recordOfImport false, recordOfImport true],
      r.targets = {fromStr "x", fromStr "x.y"}) ∧
    (∀ p ∈ ({fromStr "m"} : Finset ModuleName), ¬DottedPrefix p (fromStr "x.y")) ∧
    (∀ p, p ∉ ((mergeRecords insertionSort (recordOfImport false)
      [recordOfImport true]).resolveImports {fromStr "m"}).imports) ∧
    fromStr "x.y" ∉ ((mergeRecords insertionSort (recordOfImport false)
      [recordOfImport true]).resolveImports {fromStr "m"}).missingImports := by
  have hno : ∀ t ∈ [fromStr "x", fromStr "x.y"], ∀ p ∈ ({fromStr "m"} : Finset ModuleName),
      ¬DottedPrefix p t := by
    intro t ht
    refine resolveToKnownModule_eq_none.mp ?_
    revert t
    decide
  have hnames : ∀ r ∈ [recordOfImport false, recordOfImport true], ∀ t,
      t ∉ r.imports ∧
        (t ∈ r.ambiguousImports ∨ t ∈ r.missingImports → t ∈ [fromStr "x", fromStr "x.y"]) := by
    intro r hr t
    simp only [List.mem_cons, List.not_mem_nil, or_false] at hr
    obtain rfl | rfl := hr
    · simp [recordOfImport]
    · simp [recordOfImport, or_comm]
  refine ⟨by decide, hno _ (by simp), fun p hp => ?_, fun hmissing => ?_⟩
  · rcases mem_imports_resolveImports.mp hp with himp | ⟨-, t, ht, hlong⟩
    · obtain ⟨r, hr, hpr⟩ := mem_imports_mergeRecords.mp himp
      exact (hnames r hr p).1 hpr
    · have hmem : t ∈ [fromStr "x", fromStr "x.y"] := by
        rcases ht with hamb | hmiss
        · obtain ⟨r, hr, htr⟩ := mem_ambiguousImports_mergeRecords.mp hamb
          exact (hnames r hr t).2 (Or.inl htr)
        · have hfirst := mem_missingImports_mergeRecords.mp hmiss _ List.mem_cons_self
          exact (hnames _ List.mem_cons_self t).2 (Or.inr hfirst)
      exact hno t hmem p hlong.merged hlong.isPrefix
  · have hall := mem_missingImports_mergeRecords.mp (mem_missingImports_resolveImports.mp hmissing).1
    have hamb := hall (recordOfImport true) (by simp)
    revert hamb
    decide

theorem imports_conserved_split :
    fromStr "x.y" ∈ ((mergeRecords insertionSort
        { name := fromStr "m", imports := {fromStr "x.y"} }
        [{ name := fromStr "m", missingImports := {fromStr "x.y"} }]).resolveImports
          {fromStr "m", fromStr "x.y"}).imports ↔
      fromStr "x.y" ≠ fromStr "m" ∧ ∃ t ∈ ({fromStr "x.y"} : Finset ModuleName),
        LongestMerged {fromStr "m", fromStr "x.y"} t (fromStr "x.y") := by
  refine ((imports_conserved insertionSort {fromStr "m", fromStr "x.y"} ?_ ?_).2.2.2.2.2
    ⟨?_, ?_⟩).1 (fromStr "x.y")
  · simp
  · simp [CachedModule.targets]
  · simp
    decide
  · simp

end Lifeguard
