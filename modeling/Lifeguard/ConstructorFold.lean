import Lifeguard.ConstructorRecords
import Lifeguard.SafetyResolver

/-!
# Folding the constructor records of a class

`fold_constructor_callees` (`cache/merge.rs`) joins what several libraries recorded about
one class, and `merged_with` (`cache/artifact.rs`) joins two records. Records that name
two metaclasses lose the metaclass bits, by design, so a joined record can clear a call
that one of them would have refused.

- `Folded`: the values the fold of a list of records can take, however it is bracketed;
- `folded_own`, `folded_names`, `folded_wellFormed`: what such a value names of what the
  records name;
- `fold_constructor_callees_conservative`: the class's own callees and the extra ones are
  never lost, and nothing is lost or depends on the order of the fold when at most one
  metaclass is named.
-/

namespace Lifeguard

open Lib
open scoped List

/-! ## The fold -/

/-- The body of the loop of `fold_constructor_callees`: a record that becomes empty leaves
the map. -/
def foldConstructorCallee (merged : ConstructorTable) (classFqn : ModuleName)
    (recorded : ConstructorCallees) : ConstructorTable :=
  match merged.get? classFqn with
  | some existing =>
    let combined := existing.mergedWith recorded
    if combined.isEmpty then merged.erase classFqn else merged.insert classFqn combined
  | none => if recorded.isEmpty then merged else merged.insert classFqn recorded

/-- `fold_constructor_callees`. -/
def foldConstructorCallees (merged : ConstructorTable)
    (entries : List (ModuleName × ConstructorCallees)) : ConstructorTable :=
  entries.foldl (fun merged e => foldConstructorCallee merged e.1 e.2) merged

/-- A bracketing of the fold: libraries are folded in their order, and what two groups of
them fold to is folded in turn. -/
inductive Bracketing
  | libraries (entries : List (ModuleName × ConstructorCallees))
  | merge (left right : Bracketing)

namespace Bracketing

/-- The entries of all the libraries, in order. -/
def entries : Bracketing → List (ModuleName × ConstructorCallees)
  | libraries entries => entries
  | merge left right => left.entries ++ right.entries

/-- What the bracketing folds to. -/
def fold : Bracketing → ConstructorTable
  | libraries entries => foldConstructorCallees Table.empty entries
  | merge left right => foldConstructorCallees left.fold right.fold.entries

end Bracketing

/-! ## The fold of one class -/

/-- What the fold does to the record of one class. -/
def foldRecord (existing : Option ConstructorCallees) (recorded : ConstructorCallees) :
    Option ConstructorCallees :=
  match existing with
  | some existing =>
    if (existing.mergedWith recorded).isEmpty then none else some (existing.mergedWith recorded)
  | none => if recorded.isEmpty then none else some recorded

/-- The records of a class among the entries of the libraries. -/
def recordsOf (cls : ModuleName) (entries : List (ModuleName × ConstructorCallees)) :
    List ConstructorCallees :=
  (entries.filter fun e => decide (e.1 = cls)).map Prod.snd

theorem mem_recordsOf {cls : ModuleName} {entries : List (ModuleName × ConstructorCallees)}
    {r : ConstructorCallees} : r ∈ recordsOf cls entries ↔ (cls, r) ∈ entries := by
  simp [recordsOf]

theorem get?_foldConstructorCallee (merged : ConstructorTable) (classFqn : ModuleName)
    (recorded : ConstructorCallees) (cls : ModuleName) :
    (foldConstructorCallee merged classFqn recorded).get? cls =
      if cls = classFqn then foldRecord (merged.get? classFqn) recorded
      else merged.get? cls := by
  unfold foldConstructorCallee foldRecord
  cases hget : merged.get? classFqn with
  | none =>
    dsimp only
    split
    · split
      · next hc => rw [hc, hget]
      · rfl
    · rw [Table.get?_insert]
  | some existing =>
    dsimp only
    split
    · rw [Table.get?_erase]
    · rw [Table.get?_insert]

theorem get?_foldConstructorCallees (merged : ConstructorTable)
    (entries : List (ModuleName × ConstructorCallees)) (cls : ModuleName) :
    (foldConstructorCallees merged entries).get? cls =
      (recordsOf cls entries).foldl foldRecord (merged.get? cls) := by
  induction entries generalizing merged with
  | nil => rfl
  | cons e entries ih =>
    obtain ⟨classFqn, recorded⟩ := e
    refine (ih _).trans ?_
    rw [get?_foldConstructorCallee]
    by_cases hc : cls = classFqn
    · subst hc
      simp [recordsOf]
    · have hne : ¬classFqn = cls := Ne.symm hc
      simp [recordsOf, hc, hne]

theorem recordsOf_entries (t : ConstructorTable) (cls : ModuleName) :
    recordsOf cls t.entries = (t.get? cls).toList := by
  have hkeys : ∀ l : List (ModuleName × ConstructorCallees), (l.map Prod.fst).Nodup →
      recordsOf cls l = (Table.find l cls).toList := by
    intro l hl
    induction l with
    | nil => rfl
    | cons e l ih =>
      obtain ⟨k, r⟩ := e
      rw [List.map_cons, List.nodup_cons] at hl
      by_cases hk : k = cls
      · subst hk
        have hrest : recordsOf k l = [] := by
          refine List.eq_nil_iff_forall_not_mem.mpr fun r' hr' => ?_
          exact hl.1 (List.mem_map.mpr ⟨(k, r'), mem_recordsOf.mp hr', rfl⟩)
        have hhead : recordsOf k ((k, r) :: l) = r :: recordsOf k l := by simp [recordsOf]
        rw [hhead, hrest]
        simp [Table.find]
      · have hskip : recordsOf cls ((k, r) :: l) = recordsOf cls l := by simp [recordsOf, hk]
        rw [hskip, ih hl.2]
        simp [Table.find, hk]
  exact hkeys t.entries t.nodup

/-- The values a fold of records can take: a record is folded in, or what other records
fold to is. -/
inductive Folded : List ConstructorCallees → Option ConstructorCallees → Prop
  | nil : Folded [] none
  | record {records o} (r : ConstructorCallees) :
      Folded records o → Folded (records ++ [r]) (foldRecord o r)
  | merge {records records' o o'} : Folded records o → Folded records' o' →
      Folded (records ++ records') (o'.elim o (foldRecord o))

theorem Folded.foldl {records : List ConstructorCallees} {o : Option ConstructorCallees}
    (h : Folded records o) (rest : List ConstructorCallees) :
    Folded (records ++ rest) (rest.foldl foldRecord o) := by
  induction rest generalizing records o with
  | nil => rwa [List.append_nil]
  | cons r rest ih =>
    have hrest := ih (h.record r)
    rwa [List.append_assoc, List.singleton_append] at hrest

/-- Every bracketing folds the records of a class. -/
theorem folded_bracketing (t : Bracketing) (cls : ModuleName) :
    Folded (recordsOf cls t.entries) (t.fold.get? cls) := by
  induction t with
  | libraries entries =>
    show Folded (recordsOf cls entries) ((foldConstructorCallees Table.empty entries).get? cls)
    rw [get?_foldConstructorCallees]
    exact Folded.nil.foldl _
  | merge left right ihl ihr =>
    show Folded (recordsOf cls (left.entries ++ right.entries))
      ((foldConstructorCallees left.fold right.fold.entries).get? cls)
    rw [get?_foldConstructorCallees, recordsOf_entries, recordsOf, List.filter_append,
      List.map_append]
    have hmerge := ihl.merge ihr
    cases hright : right.fold.get? cls with
    | none =>
      rw [hright] at hmerge
      exact hmerge
    | some c =>
      rw [hright] at hmerge
      exact hmerge

/-! ## What the fold names -/

/-- There is a record, and it names the callee. -/
def NamedBy (o : Option ConstructorCallees) (f : RecordedCallee) : Prop :=
  ∃ c ∈ o, c.Names f

section Folded

variable {o o' : Option ConstructorCallees} {r : ConstructorCallees} {f : RecordedCallee}
  {records : List ConstructorCallees}

theorem namedBy_foldRecord
    (hmerge : ∀ e ∈ o, e.Names f ∨ r.Names f → (e.mergedWith r).Names f) :
    NamedBy o f ∨ r.Names f → NamedBy (foldRecord o r) f := by
  intro hf
  cases o with
  | none =>
    have hr : r.Names f := hf.resolve_left nofun
    have hne : ¬r.isEmpty = true := fun h => ConstructorCallees.not_names_of_isEmpty h hr
    exact ⟨r, if_neg hne, hr⟩
  | some e =>
    have hnames : (e.mergedWith r).Names f := by
      refine hmerge e rfl (hf.imp_left ?_)
      rintro ⟨c, hc, hcf⟩
      cases hc
      exact hcf
    have hne : ¬(e.mergedWith r).isEmpty = true :=
      fun h => ConstructorCallees.not_names_of_isEmpty h hnames
    exact ⟨_, if_neg hne, hnames⟩

/-- The fold of a record is that record, or a join with it; it is never empty. -/
theorem foldRecord_eq_some {c : ConstructorCallees} (h : foldRecord o r = some c) :
    c.isEmpty = false ∧ ((o = none ∧ c = r) ∨ ∃ e ∈ o, c = e.mergedWith r) := by
  cases o with
  | none =>
    dsimp only [foldRecord] at h
    split at h
    · cases h
    · next hne =>
      cases h
      exact ⟨Bool.eq_false_iff.mpr hne, Or.inl ⟨rfl, rfl⟩⟩
  | some e =>
    dsimp only [foldRecord] at h
    split at h
    · cases h
    · next hne =>
      cases h
      exact ⟨Bool.eq_false_iff.mpr hne, Or.inr ⟨e, rfl, rfl⟩⟩

theorem of_namedBy_foldRecord
    (hmerge : ∀ e ∈ o, (e.mergedWith r).Names f → e.Names f ∨ r.Names f) :
    NamedBy (foldRecord o r) f → NamedBy o f ∨ r.Names f := by
  rintro ⟨c, hc, hf⟩
  obtain ⟨-, ⟨-, rfl⟩ | ⟨e, he, rfl⟩⟩ := foldRecord_eq_some hc
  · exact Or.inr hf
  · exact (hmerge e he hf).imp_left fun hef => ⟨e, he, hef⟩

theorem exists_mem_concat {p : ConstructorCallees → Prop} :
    (∃ c ∈ records ++ [r], p c) ↔ (∃ c ∈ records, p c) ∨ p r := by
  simp [or_and_right, exists_or]

/-- The class's own callees and the extra ones: the fold names what the records name. -/
theorem folded_own (h : Folded records o) (hf : f.IsOwn) :
    NamedBy o f ↔ ∃ r ∈ records, r.Names f := by
  have hstep : ∀ (o : Option ConstructorCallees) (r : ConstructorCallees),
      NamedBy (foldRecord o r) f ↔ NamedBy o f ∨ r.Names f := fun o r =>
    ⟨of_namedBy_foldRecord fun e _ => (ConstructorCallees.names_mergedWith_own hf).mp,
      namedBy_foldRecord fun e _ => (ConstructorCallees.names_mergedWith_own hf).mpr⟩
  induction h with
  | nil => simp [NamedBy]
  | record r _ ih => exact (hstep _ r).trans ((or_congr_left ih).trans exists_mem_concat.symm)
  | @merge records records' o o' _ _ ih ih' =>
    have hsplit : (∃ r ∈ records ++ records', r.Names f) ↔ NamedBy o f ∨ NamedBy o' f := by
      refine Iff.trans ?_ (or_congr ih ih').symm
      simp [or_and_right, exists_or]
    rw [hsplit]
    cases o' with
    | none => simp [NamedBy]
    | some c =>
      show NamedBy (foldRecord o c) f ↔ _
      rw [hstep]
      simp [NamedBy]

/-- No two of the records name different metaclasses. -/
def AllAgree (records : List ConstructorCallees) : Prop :=
  ∀ r ∈ records, ∀ r' ∈ records, r.Agree r'

theorem AllAgree.left {records' : List ConstructorCallees}
    (h : AllAgree (records ++ records')) : AllAgree records := fun r hr r' hr' =>
  h r (List.mem_append_left _ hr) r' (List.mem_append_left _ hr')

theorem AllAgree.right {records' : List ConstructorCallees}
    (h : AllAgree (records ++ records')) : AllAgree records' := fun r hr r' hr' =>
  h r (List.mem_append_right _ hr) r' (List.mem_append_right _ hr')

/-- A metaclass of the fold is one of a record. -/
def MetaclassFrom (records : List ConstructorCallees) (o : Option ConstructorCallees) :
    Prop :=
  ∀ c ∈ o, ∀ m ∈ c.metaclass, ∃ r ∈ records, r.metaclass = some m

theorem MetaclassFrom.agree {records' : List ConstructorCallees} {c c' : ConstructorCallees}
    (hagree : AllAgree (records ++ records')) (h : MetaclassFrom records (some c))
    (h' : MetaclassFrom records' (some c')) : c.Agree c' := by
  intro m hm m' hm'
  obtain ⟨r, hr, hrm⟩ := h c rfl m hm
  obtain ⟨r', hr', hrm'⟩ := h' c' rfl m' hm'
  exact hagree r (List.mem_append_left _ hr) r' (List.mem_append_right _ hr') m hrm m' hrm'

theorem MetaclassFrom.foldRecord {records' : List ConstructorCallees}
    (hagree : AllAgree (records ++ records')) (h : MetaclassFrom records o)
    (h' : MetaclassFrom records' (some r)) :
    MetaclassFrom (records ++ records') (foldRecord o r) := by
  intro c hc m hm
  obtain ⟨-, ⟨-, rfl⟩ | ⟨e, he, rfl⟩⟩ := foldRecord_eq_some hc
  · obtain ⟨p, hp, hpm⟩ := h' c rfl m hm
    exact ⟨p, List.mem_append_right _ hp, hpm⟩
  · cases he
    rcases (ConstructorCallees.metaclass_mergedWith (h.agree hagree h') m).mp hm with hm | hm
    · obtain ⟨p, hp, hpm⟩ := h e rfl m hm
      exact ⟨p, List.mem_append_left _ hp, hpm⟩
    · obtain ⟨p, hp, hpm⟩ := h' r rfl m hm
      exact ⟨p, List.mem_append_right _ hp, hpm⟩

theorem metaclassFrom_singleton : MetaclassFrom [r] (some r) := by
  intro c hc m hm
  cases hc
  exact ⟨r, List.mem_singleton_self r, hm⟩

theorem folded_metaclass (h : Folded records o) (hagree : AllAgree records) :
    MetaclassFrom records o := by
  induction h with
  | nil => exact nofun
  | record r _ ih => exact (ih hagree.left).foldRecord hagree metaclassFrom_singleton
  | @merge records records' o o' _ _ ih ih' =>
    cases o' with
    | none =>
      intro c hc m hm
      obtain ⟨r, hr, hrm⟩ := ih hagree.left c hc m hm
      exact ⟨r, List.mem_append_left _ hr, hrm⟩
    | some c => exact (ih hagree.left).foldRecord hagree (ih' hagree.right)

/-- Records that agree on the metaclass lose nothing in the fold. -/
theorem folded_names (h : Folded records o) (hagree : AllAgree records)
    (hf : ∃ r ∈ records, r.Names f) : NamedBy o f := by
  induction h with
  | nil => simp at hf
  | @record records o r hfold ih =>
    have hfrom := folded_metaclass hfold hagree.left
    refine namedBy_foldRecord (fun e he => ?_) ?_
    · cases he
      exact ConstructorCallees.names_mergedWith_of_agree
        (hfrom.agree hagree metaclassFrom_singleton)
    · exact (exists_mem_concat.mp hf).imp_left (ih hagree.left)
  | @merge records records' o o' hfold hfold' ih ih' =>
    have hsplit : NamedBy o f ∨ NamedBy o' f := by
      obtain ⟨r, hr, hrf⟩ := hf
      rcases List.mem_append.mp hr with hr | hr
      · exact Or.inl (ih hagree.left ⟨r, hr, hrf⟩)
      · exact Or.inr (ih' hagree.right ⟨r, hr, hrf⟩)
    cases o' with
    | none => exact hsplit.resolve_right fun ⟨_, hc, _⟩ => nomatch hc
    | some c =>
      have hfrom := folded_metaclass hfold hagree.left
      have hfrom' := folded_metaclass hfold' hagree.right
      refine namedBy_foldRecord (fun e he => ?_) (hsplit.imp_right ?_)
      · cases he
        exact ConstructorCallees.names_mergedWith_of_agree (hfrom.agree hagree hfrom')
      · rintro ⟨c', hc', hf'⟩
        cases hc'
        exact hf'

/-- The record of a fold of well-formed records that agree: well formed, not empty, and
naming no more than the records. -/
structure FoldedWell (records : List ConstructorCallees) (c : ConstructorCallees) : Prop where
  wellFormed : c.WellFormed
  isEmpty : c.isEmpty = false
  names : ∀ f, c.Names f → ∃ r ∈ records, r.Names f

theorem FoldedWell.foldRecord {records' : List ConstructorCallees} {c : ConstructorCallees}
    (ho : ∀ e ∈ o, FoldedWell records e ∧ e.Agree r) (hr : r.WellFormed)
    (hnames : ∀ f, r.Names f → ∃ r' ∈ records', r'.Names f) (hc : foldRecord o r = some c) :
    FoldedWell (records ++ records') c := by
  obtain ⟨hne, ⟨-, rfl⟩ | ⟨e, he, rfl⟩⟩ := foldRecord_eq_some hc
  · refine ⟨hr, hne, fun f hf => ?_⟩
    obtain ⟨r', hr', hrf⟩ := hnames f hf
    exact ⟨r', List.mem_append_right _ hr', hrf⟩
  · obtain ⟨hwell, hagree⟩ := ho e he
    refine ⟨hwell.wellFormed.mergedWith hr hagree, hne, fun f hf => ?_⟩
    rcases (hwell.wellFormed.names_mergedWith hr hagree).mp hf with hf | hf
    · obtain ⟨r', hr', hrf⟩ := hwell.names f hf
      exact ⟨r', List.mem_append_left _ hr', hrf⟩
    · obtain ⟨r', hr', hrf⟩ := hnames f hf
      exact ⟨r', List.mem_append_right _ hr', hrf⟩

theorem folded_wellFormed (h : Folded records o) (hagree : AllAgree records)
    (hwell : ∀ r ∈ records, r.WellFormed) : ∀ c ∈ o, FoldedWell records c := by
  induction h with
  | nil => exact nofun
  | @record records o r hfold ih =>
    intro c hc
    have hfrom := folded_metaclass hfold hagree.left
    refine FoldedWell.foldRecord (fun e he => ⟨?_, ?_⟩) (hwell r (by simp)) ?_ hc
    · exact ih hagree.left (fun r hr => hwell r (List.mem_append_left _ hr)) e he
    · cases he
      exact hfrom.agree hagree metaclassFrom_singleton
    · intro f hf
      exact ⟨r, List.mem_singleton_self r, hf⟩
  | @merge records records' o o' hfold hfold' ih ih' =>
    intro c hc
    have hleft := ih hagree.left fun r hr => hwell r (List.mem_append_left _ hr)
    have hright := ih' hagree.right fun r hr => hwell r (List.mem_append_right _ hr)
    cases o' with
    | none =>
      obtain ⟨hcwell, hne, hnames⟩ := hleft c hc
      refine ⟨hcwell, hne, fun f hf => ?_⟩
      obtain ⟨r, hr, hrf⟩ := hnames f hf
      exact ⟨r, List.mem_append_left _ hr, hrf⟩
    | some c' =>
      have hfrom := folded_metaclass hfold hagree.left
      have hfrom' := folded_metaclass hfold' hagree.right
      refine FoldedWell.foldRecord (fun e he => ⟨hleft e he, ?_⟩)
        (hright c' rfl).wellFormed (hright c' rfl).names hc
      cases he
      exact hfrom.agree hagree hfrom'

/-- The same record, up to the order of the extra callees and how often each is listed. -/
def SameRecord (o o' : Option ConstructorCallees) : Prop :=
  Option.Rel (fun a b => a.metaclass = b.metaclass ∧ a.mask = b.mask ∧
    ∀ callee, callee ∈ a.extra ↔ callee ∈ b.extra) o o'

/-- Folds of the same well-formed records that agree are the same record. -/
theorem folded_sameRecord {records' : List ConstructorCallees} (hperm : records' ~ records)
    (h : Folded records o) (h' : Folded records' o') (hagree : AllAgree records)
    (hwell : ∀ r ∈ records, r.WellFormed) : SameRecord o' o := by
  have hagree' : AllAgree records' := fun r hr r' hr' =>
    hagree r (hperm.mem_iff.mp hr) r' (hperm.mem_iff.mp hr')
  have hleft := folded_wellFormed h hagree hwell
  have hright := folded_wellFormed h' hagree' fun r hr => hwell r (hperm.mem_iff.mp hr)
  have hnames : ∀ f, NamedBy o f ↔ ∃ r ∈ records, r.Names f := fun f =>
    ⟨fun ⟨c, hc, hf⟩ => (hleft c hc).names f hf, folded_names h hagree⟩
  have hnames' : ∀ f, NamedBy o' f ↔ ∃ r ∈ records, r.Names f := by
    refine fun f => ⟨fun ⟨c, hc, hf⟩ => ?_, fun ⟨r, hr, hf⟩ => ?_⟩
    · obtain ⟨r, hr, hrf⟩ := (hright c hc).names f hf
      exact ⟨r, hperm.mem_iff.mp hr, hrf⟩
    · exact folded_names h' hagree' ⟨r, hperm.mem_iff.mpr hr, hf⟩
  have hsame : ∀ f, NamedBy o' f ↔ NamedBy o f := fun f => (hnames' f).trans (hnames f).symm
  cases o with
  | none =>
    cases o' with
    | none => exact .none
    | some c' =>
      obtain ⟨f, hf⟩ := (hright c' rfl).wellFormed.exists_names (hright c' rfl).isEmpty
      obtain ⟨_, hc, -⟩ := (hsame f).mp ⟨c', rfl, hf⟩
      cases hc
  | some c =>
    cases o' with
    | none =>
      obtain ⟨f, hf⟩ := (hleft c rfl).wellFormed.exists_names (hleft c rfl).isEmpty
      obtain ⟨_, hc, -⟩ := (hsame f).mpr ⟨c, rfl, hf⟩
      cases hc
    | some c' =>
      have hboth : ∀ f, c'.Names f ↔ c.Names f := by
        intro f
        have hf := hsame f
        simp only [NamedBy, Option.mem_def, Option.some.injEq, exists_eq_left'] at hf
        exact hf
      obtain ⟨hmeta, hmask⟩ :=
        (hright c' rfl).wellFormed.ext_of_names (hleft c rfl).wellFormed hboth
      exact .some ⟨hmeta, hmask, fun callee => hboth (.extra callee)⟩

end Folded

/-! ## Clearing a constructor call -/

namespace SafetyResolver

variable (self : SafetyResolver) (cls caller : ModuleName)

/-- The resolver with the constructor records of a table. -/
def withRecords (table : ConstructorTable) : SafetyResolver :=
  { self with constructorCallees := some table }

/-- The owner of a recorded callee, and its verdict. -/
def recordedVerdict : RecordedCallee → ModuleName × FunctionSafety
  | .onMetaclass m i => (m, self.calleeVerdict m (constructorMethods.getD i []))
  | .own i => (cls, self.calleeVerdict cls (constructorMethods.getD i []))
  | .extra callee => (callee, self.recordedCalleeVerdict callee)

/-- The verdict of a recorded callee lets the call clear. -/
def Clears (f : RecordedCallee) : Prop :=
  self.calleeVerdictClears (self.recordedVerdict cls f).2 caller
    (self.recordedVerdict cls f).1 = true

/-- The verdicts a record is decided by are those of the callees it names. -/
theorem mem_recordedVerdicts {r : ConstructorCallees} {p : ModuleName × FunctionSafety} :
    p ∈ self.recordedVerdicts cls r ↔ ∃ f, r.Names f ∧ self.recordedVerdict cls f = p := by
  unfold recordedVerdicts ConstructorCallees.iter
  rw [List.mem_append, List.mem_map, List.mem_map]
  constructor
  · rintro (⟨⟨owner, method⟩, hmem, rfl⟩ | ⟨callee, hcallee, rfl⟩)
    · rcases List.mem_append.mp hmem with hmem | hmem
      · obtain ⟨m, hm, hmethod⟩ := List.mem_flatMap.mp hmem
        obtain ⟨method', hsel, heq⟩ := List.mem_map.mp hmethod
        cases heq
        obtain ⟨i, hi, hbit, rfl⟩ := ConstructorCallees.mem_selected_iff.mp hsel
        rw [Nat.zero_add] at hbit
        exact ⟨.onMetaclass owner i, ⟨Option.mem_toList.mp hm, hi, hbit⟩, rfl⟩
      · obtain ⟨method', hsel, heq⟩ := List.mem_map.mp hmem
        cases heq
        obtain ⟨i, hi, hbit, rfl⟩ := ConstructorCallees.mem_selected_iff.mp hsel
        exact ⟨.own i, ⟨hi, hbit⟩, rfl⟩
    · exact ⟨.extra callee, hcallee, rfl⟩
  · rintro ⟨f, hf, rfl⟩
    cases f with
    | onMetaclass m i =>
      obtain ⟨hm, hi, hbit⟩ := hf
      refine Or.inl ⟨(m, constructorMethods.getD i []), List.mem_append_left _ ?_, rfl⟩
      refine List.mem_flatMap.mpr ⟨m, Option.mem_toList.mpr hm, List.mem_map.mpr ⟨_, ?_, rfl⟩⟩
      refine ConstructorCallees.mem_selected_iff.mpr ⟨i, hi, ?_, rfl⟩
      rw [Nat.zero_add]
      exact hbit
    | own i =>
      obtain ⟨hi, hbit⟩ := hf
      refine Or.inl ⟨(cls, constructorMethods.getD i []), List.mem_append_right _ ?_, rfl⟩
      exact List.mem_map.mpr ⟨_, ConstructorCallees.mem_selected_iff.mpr ⟨i, hi, hbit, rfl⟩, rfl⟩
    | extra callee => exact Or.inr ⟨callee, hf, rfl⟩

theorem recordedConstructorClearsAll_eq {table : ConstructorTable} {answer : Bool} :
    (self.withRecords table).recordedConstructorClearsAll cls caller = some answer ↔
      ∃ r ∈ table.get? cls, r.isEmpty = false ∧
        (answer = true ↔ ∀ f, r.Names f → self.Clears cls caller f) := by
  have hall : ∀ r : ConstructorCallees,
      ((self.withRecords table).recordedVerdicts cls r).all (fun p =>
        (self.withRecords table).calleeVerdictClears p.2 caller p.1) = true ↔
      ∀ f, r.Names f → self.Clears cls caller f := by
    intro r
    rw [List.all_eq_true]
    constructor
    · intro h f hf
      exact h _ ((self.mem_recordedVerdicts cls).mpr ⟨f, hf, rfl⟩)
    · intro h p hp
      obtain ⟨f, hf, rfl⟩ := (self.mem_recordedVerdicts cls).mp hp
      exact h f hf
  have hbind : (self.withRecords table).recordedConstructorClearsAll cls caller =
      (table.get? cls).bind fun r => if r.isEmpty then none else
        some (((self.withRecords table).recordedVerdicts cls r).all fun p =>
          (self.withRecords table).calleeVerdictClears p.2 caller p.1) := rfl
  rw [hbind, Option.bind_eq_some_iff]
  refine exists_congr fun r => and_congr_right fun _ => ?_
  cases hempty : r.isEmpty with
  | true => simp
  | false =>
    rw [if_neg Bool.false_ne_true, Option.some.injEq, ← hall, and_iff_right rfl, eq_comm,
      Bool.eq_iff_iff]

end SafetyResolver

/-! ## The fold is conservative -/

/-- What does not depend on a metaclass is the same in the two records. -/
def SameOwn (o o' : Option ConstructorCallees) : Prop :=
  ∀ f : RecordedCallee, f.IsOwn → (NamedBy o f ↔ NamedBy o' f)

/-- The answer for a constructor call when the only record of the class is `r`. -/
def SafetyResolver.answerAlone (self : SafetyResolver) (cls caller : ModuleName)
    (r : ConstructorCallees) : Option Bool :=
  (self.withRecords (foldConstructorCallees Table.empty [(cls, r)])).recordedConstructorClearsAll
    cls caller

theorem SafetyResolver.answerAlone_eq_false {self : SafetyResolver} {cls caller : ModuleName}
    {r : ConstructorCallees} (h : self.answerAlone cls caller r = some false) :
    ∃ f, r.Names f ∧ ¬self.Clears cls caller f := by
  obtain ⟨c, hc, -, hanswer⟩ := (self.recordedConstructorClearsAll_eq cls caller).mp h
  have halone : foldRecord none r = some c := by
    rw [← hc, get?_foldConstructorCallees]
    simp [recordsOf]
  obtain ⟨-, ⟨-, rfl⟩ | ⟨_, hnone, -⟩⟩ := foldRecord_eq_some halone
  · by_contra hno
    refine Bool.false_ne_true (hanswer.mpr fun f hf => ?_)
    by_contra hf'
    exact hno ⟨f, hf, hf'⟩
  · cases hnone

/-- However the records of a class are folded: when the result clears a constructor call,
no record refuses it for one of the class's own callees or an extra one, and these are the
same for every order and bracketing. When no two records name different metaclasses, no
record refuses the call at all, and every order and bracketing of well-formed records, as
those of the analysis are, gives the same record. -/
theorem fold_constructor_callees_conservative (self : SafetyResolver)
    (cls caller : ModuleName) (t : Bracketing) :
    ((self.withRecords t.fold).recordedConstructorClearsAll cls caller = some true →
      ∀ r ∈ recordsOf cls t.entries, self.answerAlone cls caller r.ownPart ≠ some false) ∧
    (∀ t' : Bracketing, t'.entries ~ t.entries →
      SameOwn (t'.fold.get? cls) (t.fold.get? cls)) ∧
    (AllAgree (recordsOf cls t.entries) →
      ((self.withRecords t.fold).recordedConstructorClearsAll cls caller = some true →
        ∀ r ∈ recordsOf cls t.entries, self.answerAlone cls caller r ≠ some false) ∧
      ((∀ r ∈ recordsOf cls t.entries, r.WellFormed) →
        ∀ t' : Bracketing, t'.entries ~ t.entries →
          SameRecord (t'.fold.get? cls) (t.fold.get? cls))) ∧
    ∀ (info : ProjectInfo) (c : ModuleName), (info.resolveConstructorCallees c).WellFormed := by
  have hfolded := folded_bracketing t cls
  have hrecords : ∀ t' : Bracketing, t'.entries ~ t.entries →
      recordsOf cls t'.entries ~ recordsOf cls t.entries := fun t' hperm =>
    (hperm.filter _).map _
  refine ⟨fun hclears r hr halone => ?_, fun t' hperm f hf => ?_, fun hagree =>
    ⟨fun hclears r hr halone => ?_, fun hwell t' hperm => ?_⟩,
    wellFormed_resolveConstructorCallees⟩
  · obtain ⟨f, hf, hnot⟩ := SafetyResolver.answerAlone_eq_false halone
    obtain ⟨c, hc, -, hall⟩ := (self.recordedConstructorClearsAll_eq cls caller).mp hclears
    have hown : f.IsOwn ∧ r.Names f := by
      cases f with
      | onMetaclass m i => exact nomatch hf.1
      | own i => exact ⟨trivial, hf⟩
      | extra callee => exact ⟨trivial, hf⟩
    obtain ⟨c', hc', hnames⟩ := (folded_own hfolded hown.1).mpr ⟨r, hr, hown.2⟩
    cases Option.mem_unique hc hc'
    exact hnot (hall.mp rfl f hnames)
  · rw [folded_own (folded_bracketing t' cls) hf, folded_own hfolded hf]
    exact exists_congr fun r => and_congr_left fun _ => (hrecords t' hperm).mem_iff
  · obtain ⟨f, hf, hnot⟩ := SafetyResolver.answerAlone_eq_false halone
    obtain ⟨c, hc, -, hall⟩ := (self.recordedConstructorClearsAll_eq cls caller).mp hclears
    obtain ⟨c', hc', hnames⟩ := folded_names hfolded hagree ⟨r, hr, hf⟩
    cases Option.mem_unique hc hc'
    exact hnot (hall.mp rfl f hnames)
  · exact folded_sameRecord (hrecords t' hperm) hfolded (folded_bracketing t' cls) hagree hwell

/-! ## A conflict of metaclasses -/

/-- Class `m.C` with a safe `__init__`, and a metaclass `m.M` whose `__new__` is unsafe. -/
def metaclassResolver : SafetyResolver where
  modules := {fromStr "m"}
  byModule := Table.empty.insert (fromStr "m")
    ((Table.empty.insert "C.__init__".toList ⟨∅, ∅, []⟩).insert "M.__new__".toList
      ⟨{.hardUnsafe}, ∅, []⟩)

/-- `__new__` of the metaclass, and the class's own `__init__`. -/
def recordUnder (metaclass : Str) : ConstructorCallees where
  metaclass := some metaclass
  mask := 0b010001

/-- Two libraries that name different metaclasses clear a call that each refuses. -/
theorem conflicting_metaclasses_clear :
    (metaclassResolver.withRecords (foldConstructorCallees Table.empty
        [(fromStr "m.C", recordUnder (fromStr "m.M")),
          (fromStr "m.C", recordUnder (fromStr "m.N"))])).recordedConstructorClearsAll
      (fromStr "m.C") (fromStr "caller") = some true ∧
    metaclassResolver.answerAlone (fromStr "m.C") (fromStr "caller")
      (recordUnder (fromStr "m.M")) = some false := by
  decide +kernel

/-- Another library's record: the same metaclass, its `__init__`, and an inherited callee. -/
def recordBeside (metaclass : Str) : ConstructorCallees where
  metaclass := some metaclass
  mask := 0b000010
  extra := [fromStr "n.B.__new__"]

/-- The records of two libraries that name one metaclass are folded to the same record in
either order. -/
theorem fold_constructor_callees_conservative_agree :
    SameRecord
      ((Bracketing.libraries [(fromStr "m.C", recordUnder (fromStr "m.M")),
        (fromStr "m.C", recordBeside (fromStr "m.M"))]).fold.get? (fromStr "m.C"))
      ((Bracketing.libraries [(fromStr "m.C", recordBeside (fromStr "m.M")),
        (fromStr "m.C", recordUnder (fromStr "m.M"))]).fold.get? (fromStr "m.C")) := by
  have hrecords : recordsOf (fromStr "m.C") [(fromStr "m.C", recordBeside (fromStr "m.M")),
      (fromStr "m.C", recordUnder (fromStr "m.M"))] =
        [recordBeside (fromStr "m.M"), recordUnder (fromStr "m.M")] := by decide +kernel
  have hmetaclass : ∀ r ∈ [recordBeside (fromStr "m.M"), recordUnder (fromStr "m.M")],
      r.metaclass = some (fromStr "m.M") := by decide
  refine ((fold_constructor_callees_conservative metaclassResolver (fromStr "m.C")
    (fromStr "caller") _).2.2.1 ?_).2 ?_ _ (List.Perm.swap _ _ _)
  · show AllAgree (recordsOf _ _)
    rw [Bracketing.entries, hrecords]
    intro r hr r' hr' m hm m' hm'
    rw [hmetaclass r hr] at hm
    rw [hmetaclass r' hr'] at hm'
    exact Option.mem_unique hm hm'
  · intro r hr
    rw [Bracketing.entries, hrecords] at hr
    -- the mask has six bits, and one of the metaclass's is set
    have hmask : ∀ r ∈ [recordBeside (fromStr "m.M"), recordUnder (fromStr "m.M")],
        r.mask.getLsbD 6 = false ∧ r.mask.getLsbD 7 = false ∧
          ∃ i, i < 3 ∧ r.mask.getLsbD i = true := by decide
    obtain ⟨hsix, hseven, hset⟩ := hmask r hr
    refine ⟨fun i hi => ?_, iff_of_true (by rw [hmetaclass r hr]; rfl) hset⟩
    by_cases hlt : i < 8
    · obtain rfl | rfl : i = 6 ∨ i = 7 := by omega
      · exact hsix
      · exact hseven
    · exact BitVec.getLsbD_of_ge _ _ (by omega)

end Lifeguard
