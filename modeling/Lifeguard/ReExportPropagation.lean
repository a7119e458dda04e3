import Lifeguard.Cache
import Lifeguard.RecordMerge
import Lifeguard.Lib.Propagation
import Mathlib.Data.Finset.Prod

/-!
# Verdicts along re-exports

`propagate_re_export_safety` (`cache/merge.rs`): a re-exported name inherits the union of
its source's concerns, along chains and cycles of re-exports, driven by a stack of the
edges whose source may have changed.

- `RecordFact`: what a verdict record says, as a set of facts; merging two records unions
  the sets (`factSet_mergeRef`), and reports a change exactly when a fact is new
  (`mergeRefChanged_iff`);
- `merges_applyReExport`: an edge between merged modules hands the facts of its source to
  its target, and changes no other entry;
- `propagate_least_fixpoint`: the run comes to rest, and every exported name then has the
  facts of all the entries it can be reached from.
-/

namespace Lifeguard

open Lib Relation
open scoped List

/-! ## The pass -/

/-- `merge_function_safety_entry_ref`: merge a record into an entry, or put it there.
Answers whether the entry changed. -/
def mergeFunctionSafetyEntryRef (fs : ModuleVerdicts) (attr : Str)
    (incoming : FunctionSafetyInfo) : Bool × ModuleVerdicts :=
  match fs.get? attr with
  | some existing =>
    (existing.mergeRefChanged incoming, fs.modify attr fun entry => entry.mergeRef incoming)
  | none => (true, fs.insert attr incoming)

/-- The body of the loop, for one edge: nothing is done unless both modules are merged and
the source has an entry. -/
def applyReExport (fs : FunctionSafetyMap) (re : CachedReExport) : Bool × FunctionSafetyMap :=
  match fs.get? re.importedModule, fs.get? re.exportedModule with
  | some src, some dst =>
    match src.get? re.importedAttr with
    | some safety =>
      let (changed, merged) := mergeFunctionSafetyEntryRef dst re.exportedAttr safety
      (changed, fs.modify re.exportedModule fun _ => merged)
    | none => (false, fs)
  | _, _ => (false, fs)

/-- What one record may say. -/
inductive RecordFact
  /-- There is a record. -/
  | present
  | concern (concern : Concern)
  | blocking (callee : ModuleName)
  | mutated (name : ModuleName)
  deriving DecidableEq

/-- What a record says; of a mutated parameter, its name. -/
def FunctionSafetyInfo.factSet (info : FunctionSafetyInfo) : Finset RecordFact :=
  {.present} ∪ info.verdict.image .concern ∪ info.missingDepCallees.image .blocking ∪
    (info.mutatedParams.map fun p => RecordFact.mutated p.name).toFinset

/-- The facts of all the records of a map. -/
def recordFacts (fs : FunctionSafetyMap) : Finset RecordFact :=
  (fs.entries.flatMap fun e =>
    e.2.entries.map fun f => f.2.factSet).foldl (· ∪ ·) ∅

/-- Turns enough for every exported name to gain every fact. -/
def propagationFuel (reExports : List CachedReExport) (fs : FunctionSafetyMap) : Nat :=
  reExports.length * (recordFacts fs).card * (reExports.length + 1) + reExports.length

/-- The loop of `propagate_re_export_safety`. -/
def propagation (reExports : List CachedReExport) (fs : FunctionSafetyMap) :
    Worklist FunctionSafetyMap :=
  Worklist.run reExports CachedReExport.imported CachedReExport.exported applyReExport
    (propagationFuel reExports fs) fs

namespace LibraryCache

/-- The verdicts of the modules, by module. -/
def functionSafety (cache : LibraryCache) : FunctionSafetyMap :=
  Table.ofList (cache.modules.map fun m => (m.name, m.functionSafety))

/-- Hand each module its verdicts back. -/
def withFunctionSafety (cache : LibraryCache) (fs : FunctionSafetyMap) : LibraryCache :=
  { cache with
    modules := cache.modules.map fun m =>
      { m with functionSafety := (fs.get? m.name).getD m.functionSafety } }

/-- `propagate_re_export_safety`. -/
def propagateReExportSafety (cache : LibraryCache) : LibraryCache :=
  cache.withFunctionSafety (propagation cache.exports.reExports cache.functionSafety).value

end LibraryCache

/-! ## Records as sets of facts -/

namespace FunctionSafetyInfo

theorem mem_factSet {info : FunctionSafetyInfo} {f : RecordFact} :
    f ∈ info.factSet ↔
      match f with
      | .present => True
      | .concern c => c ∈ info.verdict
      | .blocking d => d ∈ info.missingDepCallees
      | .mutated n => ∃ p ∈ info.mutatedParams, p.name = n := by
  cases f <;> simp [factSet]

/-- A record says at least that it is there, so its facts tell whether there is one. -/
theorem map_factSet_eq_of_getD {o o' : Option FunctionSafetyInfo}
    (h : (o.map factSet).getD ∅ = (o'.map factSet).getD ∅) :
    o.map factSet = o'.map factSet := by
  have hne : ∀ info : FunctionSafetyInfo, info.factSet ≠ ∅ := fun info =>
    Finset.ne_empty_of_mem (mem_factSet (f := .present).mpr trivial)
  cases o with
  | none =>
    cases o' with
    | none => rfl
    | some info => exact absurd h.symm (hne info)
  | some info =>
    cases o' with
    | none => exact absurd h (hne info)
    | some info' => exact congrArg some h

theorem exists_mem_extendMutatedParams {target params : List MutatedParam} {n : ModuleName} :
    (∃ p ∈ extendMutatedParams target params, p.name = n) ↔
      (∃ p ∈ target, p.name = n) ∨ ∃ p ∈ params, p.name = n := by
  constructor
  · rintro ⟨p, hp, hname⟩
    rcases mem_extendMutatedParams.mp hp with hp | ⟨hp, -⟩
    · exact Or.inl ⟨p, hp, hname⟩
    · exact Or.inr ⟨p, List.mem_of_find?_eq_some hp, hname⟩
  · rintro (⟨p, hp, hname⟩ | ⟨p, hp, hname⟩)
    · exact ⟨p, mem_extendMutatedParams.mpr (Or.inl hp), hname⟩
    · obtain ⟨q, hq, hqname⟩ := exists_name_extendMutatedParams target hp
      exact ⟨q, hq, hqname.trans hname⟩

/-- The append only appends. -/
theorem extendMutatedParams_eq_append (target params : List MutatedParam) :
    ∃ rest, extendMutatedParams target params = target ++ rest := by
  induction params generalizing target with
  | nil => exact ⟨[], (List.append_nil _).symm⟩
  | cons param params ih =>
    obtain ⟨rest, hrest⟩ := ih
      (if target.any (fun existing => decide (existing.name = param.name)) then target
        else target ++ [param])
    have hstep : extendMutatedParams target (param :: params) = _ ++ rest := hrest
    rw [hstep]
    split
    · exact ⟨rest, rfl⟩
    · exact ⟨param :: rest, by rw [List.append_assoc, List.singleton_append]⟩

/-- The append adds nothing exactly when every name is there. -/
theorem length_extendMutatedParams_eq_iff {target params : List MutatedParam} :
    (extendMutatedParams target params).length = target.length ↔
      ∀ p ∈ params, ∃ q ∈ target, q.name = p.name := by
  constructor
  · intro hlen p hp
    obtain ⟨rest, hrest⟩ := extendMutatedParams_eq_append target params
    rw [hrest, List.length_append, Nat.add_eq_left, List.length_eq_zero_iff] at hlen
    rw [hlen, List.append_nil] at hrest
    rw [← hrest]
    exact exists_name_extendMutatedParams _ hp
  · intro hall
    have heq : extendMutatedParams target params = target := by
      induction params with
      | nil => rfl
      | cons param params ih =>
        obtain ⟨q, hq, hname⟩ := hall param List.mem_cons_self
        have hany : target.any (fun existing => decide (existing.name = param.name)) = true :=
          List.any_eq_true.mpr ⟨q, hq, decide_eq_true hname⟩
        have hstep : extendMutatedParams target (param :: params) =
            extendMutatedParams
              (if target.any (fun existing => decide (existing.name = param.name)) then target
                else target ++ [param]) params := rfl
        rw [hstep, if_pos hany]
        exact ih fun p hp => hall p (List.mem_cons_of_mem _ hp)
    rw [heq]

variable (a b : FunctionSafetyInfo)

/-- A merged record says what the two records say. -/
theorem factSet_mergeRef : (a.mergeRef b).factSet = a.factSet ∪ b.factSet := by
  ext f
  rw [Finset.mem_union, mem_factSet, mem_factSet, mem_factSet]
  cases f with
  | present => simp
  | concern c => exact Finset.mem_union
  | blocking d => exact Finset.mem_union
  | mutated n => exact exists_mem_extendMutatedParams

/-- `merge_ref` reports a change exactly when the other record says something new. -/
theorem mergeRefChanged_iff :
    a.mergeRefChanged b = true ↔ ¬b.factSet ⊆ a.factSet := by
  have hunion : ∀ {α : Type} [DecidableEq α] {s t : Finset α}, s ∪ t ≠ s ↔ ¬t ⊆ s :=
    not_congr Finset.union_eq_left
  have hverdict : (a.mergeRef b).verdict ≠ a.verdict ↔ ¬b.verdict ⊆ a.verdict := hunion
  have hcallees : (a.mergeRef b).missingDepCallees.card ≠ a.missingDepCallees.card ↔
      ¬b.missingDepCallees ⊆ a.missingDepCallees := by
    rw [← hunion]
    refine not_congr ⟨fun hcard => ?_, fun heq => congrArg Finset.card heq⟩
    exact (Finset.eq_of_subset_of_card_le Finset.subset_union_left hcard.le).symm
  have hparams : (a.mergeRef b).mutatedParams.length ≠ a.mutatedParams.length ↔
      ¬∀ p ∈ b.mutatedParams, ∃ q ∈ a.mutatedParams, q.name = p.name :=
    not_congr length_extendMutatedParams_eq_iff
  have hsub : b.factSet ⊆ a.factSet ↔ b.verdict ⊆ a.verdict ∧
      b.missingDepCallees ⊆ a.missingDepCallees ∧
      ∀ p ∈ b.mutatedParams, ∃ q ∈ a.mutatedParams, q.name = p.name := by
    constructor
    · intro h
      refine ⟨fun c hc => ?_, fun d hd => ?_, fun p hp => ?_⟩
      · exact mem_factSet.mp (h (mem_factSet (f := .concern c).mpr hc))
      · exact mem_factSet.mp (h (mem_factSet (f := .blocking d).mpr hd))
      · exact mem_factSet.mp (h (mem_factSet (f := .mutated p.name).mpr ⟨p, hp, rfl⟩))
    · rintro ⟨h1, h2, h3⟩ f hf
      rw [mem_factSet] at hf ⊢
      cases f with
      | present => trivial
      | concern c => exact h1 hf
      | blocking d => exact h2 hf
      | mutated n =>
        obtain ⟨p, hp, rfl⟩ := hf
        exact h3 p hp
  rw [mergeRefChanged, Bool.or_eq_true, Bool.or_eq_true, decide_eq_true_iff,
    decide_eq_true_iff, decide_eq_true_iff, hverdict, hcallees, hparams, hsub]
  tauto

end FunctionSafetyInfo

/-! ## One edge -/

/-- What the entry of a name says; nothing, when there is none. -/
def entryFacts (fs : FunctionSafetyMap) (x : Attribute) : Finset RecordFact :=
  ((getFunctionSafety fs x.1 x.2).map FunctionSafetyInfo.factSet).getD ∅

theorem entryFacts_of_some {fs : FunctionSafetyMap} {x : Attribute}
    {info : FunctionSafetyInfo} (h : getFunctionSafety fs x.1 x.2 = some info) :
    entryFacts fs x = info.factSet := by
  rw [entryFacts, h]
  rfl

theorem entryFacts_of_none {fs : FunctionSafetyMap} {x : Attribute}
    (h : getFunctionSafety fs x.1 x.2 = none) : entryFacts fs x = ∅ := by
  rw [entryFacts, h]
  rfl

/-- What an edge between two merged modules leaves in its target. -/
def mergedEntry (existing : Option FunctionSafetyInfo) (incoming : FunctionSafetyInfo) :
    FunctionSafetyInfo :=
  match existing with
  | some existing => existing.mergeRef incoming
  | none => incoming

theorem factSet_mergedEntry (existing : Option FunctionSafetyInfo)
    (incoming : FunctionSafetyInfo) :
    (mergedEntry existing incoming).factSet =
      (existing.map FunctionSafetyInfo.factSet).getD ∅ ∪ incoming.factSet := by
  cases existing with
  | none => exact (Finset.empty_union _).symm
  | some existing => exact existing.factSet_mergeRef incoming

theorem mergeFunctionSafetyEntryRef_fst (fns : ModuleVerdicts) (attr : Str)
    (incoming : FunctionSafetyInfo) :
    (mergeFunctionSafetyEntryRef fns attr incoming).1 = true ↔
      ¬incoming.factSet ⊆ ((fns.get? attr).map FunctionSafetyInfo.factSet).getD ∅ := by
  unfold mergeFunctionSafetyEntryRef
  cases fns.get? attr with
  | some existing => exact existing.mergeRefChanged_iff incoming
  | none =>
    have hpresent : RecordFact.present ∈ incoming.factSet :=
      FunctionSafetyInfo.mem_factSet.mpr trivial
    refine iff_of_true rfl fun h => ?_
    exact absurd (h hpresent) (Finset.notMem_empty _)

theorem get?_mergeFunctionSafetyEntryRef (fns : ModuleVerdicts) (attr : Str)
    (incoming : FunctionSafetyInfo) (n : Str) :
    (mergeFunctionSafetyEntryRef fns attr incoming).2.get? n =
      if n = attr then some (mergedEntry (fns.get? attr) incoming) else fns.get? n := by
  unfold mergeFunctionSafetyEntryRef
  cases h : fns.get? attr with
  | some existing =>
    show (fns.modify attr _).get? n = _
    rw [Table.get?_modify]
    split
    · next hn =>
      rw [hn, h]
      rfl
    · rfl
  | none =>
    show (fns.insert attr incoming).get? n = _
    rw [Table.get?_insert]
    rfl

/-- An edge is applied, when its modules are merged and its source has an entry, or does
nothing. -/
theorem applyReExport_cases (fs : FunctionSafetyMap) (re : CachedReExport) :
    (applyReExport fs re = (false, fs) ∧
      ((fs.get? re.importedModule).isSome → (fs.get? re.exportedModule).isSome →
        getFunctionSafety fs re.importedModule re.importedAttr = none)) ∨
    ∃ safety, getFunctionSafety fs re.importedModule re.importedAttr = some safety ∧
      (fs.get? re.importedModule).isSome ∧ (fs.get? re.exportedModule).isSome ∧
      ((applyReExport fs re).1 = true ↔ ¬safety.factSet ⊆ entryFacts fs re.exported) ∧
      (∀ m, ((applyReExport fs re).2.get? m).isSome = (fs.get? m).isSome) ∧
      ∀ m n, getFunctionSafety (applyReExport fs re).2 m n =
        if (m, n) = re.exported then
          some (mergedEntry (getFunctionSafety fs re.exportedModule re.exportedAttr) safety)
        else getFunctionSafety fs m n := by
  unfold applyReExport
  cases hsrc : fs.get? re.importedModule with
  | none => exact Or.inl ⟨rfl, fun h => nomatch h⟩
  | some src =>
    cases hdst : fs.get? re.exportedModule with
    | none => exact Or.inl ⟨rfl, fun _ h => nomatch h⟩
    | some dst =>
      have hsource : getFunctionSafety fs re.importedModule re.importedAttr =
          src.get? re.importedAttr := by
        rw [getFunctionSafety, hsrc]
        rfl
      have htarget : getFunctionSafety fs re.exportedModule re.exportedAttr =
          dst.get? re.exportedAttr := by
        rw [getFunctionSafety, hdst]
        rfl
      dsimp only
      cases hentry : src.get? re.importedAttr with
      | none => exact Or.inl ⟨rfl, fun _ _ => hsource.trans hentry⟩
      | some safety =>
        refine Or.inr ⟨safety, hsource.trans hentry, rfl, rfl, ?_, fun m => ?_, fun m n => ?_⟩
        · have hfacts : entryFacts fs re.exported =
              ((dst.get? re.exportedAttr).map FunctionSafetyInfo.factSet).getD ∅ := by
            rw [← htarget]
            rfl
          rw [hfacts]
          exact mergeFunctionSafetyEntryRef_fst dst re.exportedAttr safety
        · show ((fs.modify re.exportedModule _).get? m).isSome = _
          rw [Table.get?_modify]
          split <;> simp
        · show getFunctionSafety (fs.modify re.exportedModule _) m n = _
          unfold getFunctionSafety
          rw [Table.get?_modify]
          -- only the map of the exporting module is written
          by_cases hm : m = re.exportedModule
          · subst hm
            rw [if_pos rfl, hdst]
            show (mergeFunctionSafetyEntryRef dst re.exportedAttr safety).2.get? n = _
            rw [get?_mergeFunctionSafetyEntryRef]
            refine if_congr ?_ rfl rfl
            exact ⟨fun h => Prod.ext rfl h, fun h => congrArg Prod.snd h⟩
          · rw [if_neg hm, if_neg fun h => hm (congrArg Prod.fst h)]

/-! ## The whole run -/

theorem mem_foldl_union {α : Type} [DecidableEq α] {l : List (Finset α)} {s : Finset α}
    {a : α} : a ∈ l.foldl (· ∪ ·) s ↔ a ∈ s ∨ ∃ t ∈ l, a ∈ t := by
  induction l generalizing s with
  | nil => simp
  | cons t l ih => rw [List.foldl_cons, ih, Finset.mem_union, List.exists_mem_cons_iff, or_assoc]

theorem entryFacts_subset_recordFacts (fs : FunctionSafetyMap) (x : Attribute) :
    entryFacts fs x ⊆ recordFacts fs := by
  intro f hf
  cases hget : getFunctionSafety fs x.1 x.2 with
  | none =>
    rw [entryFacts_of_none hget] at hf
    exact absurd hf (Finset.notMem_empty f)
  | some info =>
    rw [entryFacts_of_some hget] at hf
    obtain ⟨fns, hfns, hinfo⟩ := Option.bind_eq_some_iff.mp hget
    refine mem_foldl_union.mpr (Or.inr ⟨info.factSet, ?_, hf⟩)
    refine List.mem_flatMap.mpr ⟨(x.1, fns), Table.mem_entries.mpr hfns, ?_⟩
    exact List.mem_map.mpr ⟨(x.2, info), Table.mem_entries.mpr hinfo, rfl⟩

section Propagation

variable (reExports : List CachedReExport) (fs₀ : FunctionSafetyMap)

/-- An edge between two merged modules. -/
def JoinsMerged (re : CachedReExport) : Prop :=
  (fs₀.get? re.importedModule).isSome ∧ (fs₀.get? re.exportedModule).isSome

/-- What every state of the run shares with the first one: its modules, the entries that
no edge exports, and the facts there are. -/
structure PropagationOk (fs : FunctionSafetyMap) : Prop where
  modules : ∀ m, (fs.get? m).isSome = (fs₀.get? m).isSome
  unexported : ∀ x : Attribute, (∀ re ∈ reExports, re.exported ≠ x) →
    getFunctionSafety fs x.1 x.2 = getFunctionSafety fs₀ x.1 x.2
  bounded : ∀ x, entryFacts fs x ⊆ recordFacts fs₀

/-- The facts that exported names have yet to gain. -/
def growthLeft (fs : FunctionSafetyMap) : Nat :=
  (((reExports.map CachedReExport.exported).toFinset ×ˢ recordFacts fs₀).filter
    fun p => p.2 ∉ entryFacts fs p.1).card

variable {reExports fs₀} {fs : FunctionSafetyMap} {re : CachedReExport}

theorem entryFacts_applyReExport (fs : FunctionSafetyMap) (re : CachedReExport)
    (x : Attribute) :
    (entryFacts (applyReExport fs re).2 x = entryFacts fs x ∧ x ≠ re.exported) ∨
    (x = re.exported ∧ entryFacts (applyReExport fs re).2 x =
      entryFacts fs x ∪ entryFacts fs re.imported) ∨
    (x = re.exported ∧ applyReExport fs re = (false, fs)) := by
  rcases applyReExport_cases fs re with ⟨hsame, -⟩ | ⟨safety, hsource, -, -, -, -, hget⟩
  · by_cases hx : x = re.exported
    · exact Or.inr (Or.inr ⟨hx, hsame⟩)
    · refine Or.inl ⟨?_, hx⟩
      rw [hsame]
  · have hsafety : entryFacts fs re.imported = safety.factSet := entryFacts_of_some hsource
    have hx' := hget x.1 x.2
    by_cases hx : x = re.exported
    · refine Or.inr (Or.inl ⟨hx, ?_⟩)
      rw [if_pos hx] at hx'
      rw [entryFacts_of_some hx', factSet_mergedEntry, hsafety, hx]
      rfl
    · rw [if_neg hx] at hx'
      refine Or.inl ⟨?_, hx⟩
      rw [entryFacts, hx']
      rfl

theorem entryFacts_subset_apply (x : Attribute) :
    entryFacts fs x ⊆ entryFacts (applyReExport fs re).2 x := by
  rcases entryFacts_applyReExport fs re x with ⟨h, -⟩ | ⟨-, h⟩ | ⟨-, h⟩
  · rw [h]
  · rw [h]
    exact Finset.subset_union_left
  · rw [h]

theorem PropagationOk.apply (h : PropagationOk reExports fs₀ fs) (hre : re ∈ reExports) :
    PropagationOk reExports fs₀ (applyReExport fs re).2 := by
  rcases applyReExport_cases fs re with ⟨hsame, -⟩ | ⟨safety, hsource, -, -, -, hmodules, hget⟩
  · rw [hsame]
    exact h
  · refine ⟨fun m => (hmodules m).trans (h.modules m), fun x hx => ?_, fun x => ?_⟩
    · rw [hget, if_neg fun heq => hx re hre heq.symm]
      exact h.unexported x hx
    · rcases entryFacts_applyReExport fs re x with ⟨heq, -⟩ | ⟨-, heq⟩ | ⟨-, heq⟩
      · rw [heq]
        exact h.bounded x
      · rw [heq]
        exact Finset.union_subset (h.bounded x) (h.bounded _)
      · rw [heq]
        exact h.bounded x

/-- The loop is a propagation of facts. -/
theorem merges_applyReExport :
    Merges reExports CachedReExport.imported CachedReExport.exported (JoinsMerged fs₀)
      (fun fs x => (entryFacts fs x : Set RecordFact)) (PropagationOk reExports fs₀)
      (growthLeft reExports fs₀) applyReExport where
  ok_apply fs h re hre := h.apply hre
  inactive fs h re _ hnot := by
    rcases applyReExport_cases fs re with ⟨hsame, -⟩ | ⟨_, -, hsrc, hdst, -⟩
    · exact hsame
    · rw [h.modules] at hsrc hdst
      exact absurd ⟨hsrc, hdst⟩ hnot
  facts_target fs h re _ hact := by
    rw [← Finset.coe_union, Finset.coe_inj]
    rcases applyReExport_cases fs re with ⟨hsame, hnone⟩ | ⟨safety, hsource, -, -, -, -, hget⟩
    · obtain ⟨hsrc, hdst⟩ := hact
      rw [← h.modules] at hsrc hdst
      -- a source without an entry has no facts to pass on
      have hempty : entryFacts fs re.imported = ∅ := entryFacts_of_none (hnone hsrc hdst)
      rw [hsame, hempty, Finset.union_empty]
    · rcases entryFacts_applyReExport fs re re.exported with
        ⟨-, hne⟩ | ⟨-, heq⟩ | ⟨-, hsame⟩
      · exact absurd rfl hne
      · exact heq
      · -- an edge that is applied writes its target
        have hkey : (re.exportedModule, re.exportedAttr) = re.exported := rfl
        have hnow := hget re.exportedModule re.exportedAttr
        rw [if_pos hkey, hsame] at hnow
        have hsafety : entryFacts fs re.imported = safety.factSet := entryFacts_of_some hsource
        have hfacts : entryFacts fs re.exported = (mergedEntry _ safety).factSet :=
          entryFacts_of_some hnow
        have hold : entryFacts fs re.exported ∪ safety.factSet = entryFacts fs re.exported := by
          conv_rhs => rw [hfacts, factSet_mergedEntry]
          rfl
        rw [hsame, hsafety, hold]
  facts_other fs _ re _ x hx := by
    rcases entryFacts_applyReExport fs re x with ⟨heq, -⟩ | ⟨heq, -⟩ | ⟨heq, -⟩
    · rw [heq]
    · exact absurd heq hx
    · exact absurd heq hx
  changed fs h re _ hact := by
    rw [Finset.coe_subset]
    rcases applyReExport_cases fs re with ⟨hsame, hnone⟩ | ⟨safety, hsource, -, -, hchanged, -⟩
    · obtain ⟨hsrc, hdst⟩ := hact
      rw [← h.modules] at hsrc hdst
      have hempty : entryFacts fs re.imported = ∅ := entryFacts_of_none (hnone hsrc hdst)
      rw [hsame, hempty]
      simp
    · have hsafety : entryFacts fs re.imported = safety.factSet := entryFacts_of_some hsource
      rw [hchanged, hsafety]
  potential_changed fs h re hre hchanged := by
    rcases applyReExport_cases fs re with ⟨hsame, -⟩ | ⟨safety, hsource, -, -, hchange, -, hget⟩
    · rw [hsame] at hchanged
      cases hchanged
    · -- some fact of the source is new in the target
      obtain ⟨f, hf, hnew⟩ := Finset.not_subset.mp (hchange.mp hchanged)
      have hsafety : entryFacts fs re.imported = safety.factSet := entryFacts_of_some hsource
      have hin : f ∈ entryFacts (applyReExport fs re).2 re.exported := by
        have hkey : (re.exportedModule, re.exportedAttr) = re.exported := rfl
        have hnow := hget re.exportedModule re.exportedAttr
        rw [if_pos hkey] at hnow
        have hfacts : entryFacts (applyReExport fs re).2 re.exported =
            (mergedEntry _ safety).factSet := entryFacts_of_some hnow
        rw [hfacts, factSet_mergedEntry]
        exact Finset.mem_union_right _ hf
      -- the facts an entry misses go down, and by that one at least
      refine Finset.card_lt_card ⟨?_, ?_⟩
      · intro p hp
        rw [Finset.mem_filter] at hp ⊢
        exact ⟨hp.1, fun hmem => hp.2 (entryFacts_subset_apply _ hmem)⟩
      · intro hsub
        have hmem : (re.exported, f) ∈
            ((reExports.map CachedReExport.exported).toFinset ×ˢ recordFacts fs₀).filter
              fun p => p.2 ∉ entryFacts fs p.1 := by
          refine Finset.mem_filter.mpr ⟨Finset.mem_product.mpr ⟨?_, ?_⟩, hnew⟩
          · exact List.mem_toFinset.mpr (List.mem_map_of_mem hre)
          · rw [← hsafety] at hf
            exact h.bounded _ hf
        exact (Finset.mem_filter.mp (hsub hmem)).2 hin
  potential_same fs _ re _ := by
    refine Finset.card_le_card fun p hp => ?_
    rw [Finset.mem_filter] at hp ⊢
    exact ⟨hp.1, fun hmem => hp.2 (entryFacts_subset_apply _ hmem)⟩

theorem propagationOk_start : PropagationOk reExports fs₀ fs₀ where
  modules _ := rfl
  unexported _ _ := rfl
  bounded := entryFacts_subset_recordFacts fs₀

theorem growthLeft_le_fuel :
    growthLeft reExports fs₀ fs₀ * (reExports.length + 1) + reExports.length ≤
      propagationFuel reExports fs₀ := by
  have hcard : growthLeft reExports fs₀ fs₀ ≤
      reExports.length * (recordFacts fs₀).card := by
    refine (Finset.card_filter_le _ _).trans ?_
    rw [Finset.card_product]
    refine Nat.mul_le_mul_right _ ((List.toFinset_card_le _).trans ?_)
    rw [List.length_map]
  exact Nat.add_le_add_right (Nat.mul_le_mul_right _ hcard) _

/-- The stack runs empty. -/
theorem propagation_rest (reExports : List CachedReExport) (fs₀ : FunctionSafetyMap) :
    (propagation reExports fs₀).work = [] :=
  Worklist.worklist_rest merges_applyReExport propagationOk_start growthLeft_le_fuel

/-- `x` is re-exported from `y` by an edge between two merged modules. -/
def ReExportEdge (reExports : List CachedReExport) (fs₀ : FunctionSafetyMap)
    (x y : Attribute) : Prop :=
  ∃ re ∈ reExports, JoinsMerged fs₀ re ∧ re.exported = x ∧ re.imported = y

/-- Every name ends with the facts of the entries it can be reached from. -/
theorem mem_entryFacts_propagation {x : Attribute} {f : RecordFact} :
    f ∈ entryFacts (propagation reExports fs₀).value x ↔
      ∃ y, ReflTransGen (ReExportEdge reExports fs₀) x y ∧ f ∈ entryFacts fs₀ y :=
  Worklist.facts_worklist merges_applyReExport propagationOk_start growthLeft_le_fuel x f

/-- What the run shares with the map it started from. -/
theorem propagation_ok : PropagationOk reExports fs₀ (propagation reExports fs₀).value :=
  (Worklist.inv_run merges_applyReExport _ propagationOk_start).isOk

end Propagation

/-! ## The merged cache -/

namespace LibraryCache

/-- The modules of a merged cache have different names. -/
def Merged (cache : LibraryCache) : Prop := (cache.modules.map CachedModule.name).Nodup

/-- The entry of a name, when its module is merged and has one. -/
def entry (cache : LibraryCache) (x : Attribute) : Option FunctionSafetyInfo :=
  getFunctionSafety cache.functionSafety x.1 x.2

/-- `x` is re-exported from `y`, and both modules are merged. -/
def ReExportedFrom (cache : LibraryCache) (x y : Attribute) : Prop :=
  ∃ re ∈ cache.exports.reExports, re.exported = x ∧ re.imported = y ∧
    x.1 ∈ cache.modules.map CachedModule.name ∧ y.1 ∈ cache.modules.map CachedModule.name

/-- The cache with other edges. -/
def withReExports (cache : LibraryCache) (reExports : List CachedReExport) : LibraryCache :=
  { cache with exports := { cache.exports with reExports } }

/-- The entries a name can be reached from, its own included. -/
def reachableEntries (cache : LibraryCache) (x : Attribute) : Set FunctionSafetyInfo :=
  {e | ∃ y, ReflTransGen cache.ReExportedFrom x y ∧ cache.entry y = some e}

variable {cache : LibraryCache} (hmerged : cache.Merged)

include hmerged

theorem get?_functionSafety {m : ModuleName} {fns : ModuleVerdicts} :
    cache.functionSafety.get? m = some fns ↔
      ∃ cached ∈ cache.modules, cached.name = m ∧ cached.functionSafety = fns := by
  have hnodup : ((cache.modules.map fun m => (m.name, m.functionSafety)).map
      Prod.fst).Nodup := by
    rw [List.map_map]
    exact hmerged
  rw [functionSafety, Table.get?_ofList hnodup, List.mem_map]
  simp only [Prod.mk.injEq]

theorem isSome_functionSafety {m : ModuleName} :
    (cache.functionSafety.get? m).isSome ↔ m ∈ cache.modules.map CachedModule.name := by
  rw [Option.isSome_iff_exists, List.mem_map]
  constructor
  · rintro ⟨fns, hfns⟩
    obtain ⟨cached, hmem, hname, -⟩ := (get?_functionSafety hmerged).mp hfns
    exact ⟨cached, hmem, hname⟩
  · rintro ⟨cached, hmem, hname⟩
    exact ⟨_, (get?_functionSafety hmerged).mpr ⟨cached, hmem, hname, rfl⟩⟩

theorem reExportEdge_iff {x y : Attribute} :
    ReExportEdge cache.exports.reExports cache.functionSafety x y ↔
      cache.ReExportedFrom x y := by
  refine exists_congr fun re => and_congr_right fun _ => ?_
  rw [JoinsMerged, isSome_functionSafety hmerged, isSome_functionSafety hmerged]
  constructor
  · rintro ⟨⟨himported, hexported⟩, rfl, rfl⟩
    exact ⟨rfl, rfl, hexported, himported⟩
  · rintro ⟨rfl, rfl, hexported, himported⟩
    exact ⟨⟨himported, hexported⟩, rfl, rfl⟩

/-- The modules are handed the verdicts of the map. -/
theorem entry_withFunctionSafety {fs : FunctionSafetyMap}
    (hmodules : ∀ m, (fs.get? m).isSome = (cache.functionSafety.get? m).isSome)
    (x : Attribute) :
    (cache.withFunctionSafety fs).entry x = getFunctionSafety fs x.1 x.2 := by
  have hmerged' : (cache.withFunctionSafety fs).Merged := by
    show ((cache.modules.map fun m => { m with
      functionSafety := (fs.get? m.name).getD m.functionSafety }).map CachedModule.name).Nodup
    rw [List.map_map]
    exact hmerged
  have hget : (cache.withFunctionSafety fs).functionSafety.get? x.1 = fs.get? x.1 := by
    cases hfs : fs.get? x.1 with
    | some fns =>
      have hmem := hmodules x.1
      rw [hfs, Option.isSome_some, eq_comm, isSome_functionSafety hmerged] at hmem
      obtain ⟨cached, hcached, hname⟩ := List.mem_map.mp hmem
      refine (get?_functionSafety hmerged').mpr ⟨_, List.mem_map_of_mem hcached, hname, ?_⟩
      show (fs.get? cached.name).getD _ = fns
      rw [hname, hfs]
      rfl
    | none =>
      have hnot := hmodules x.1
      rw [hfs, Option.isSome_none, eq_comm, ← Bool.not_eq_true,
        isSome_functionSafety hmerged] at hnot
      rw [← Option.not_isSome_iff_eq_none, isSome_functionSafety hmerged']
      show ¬x.1 ∈ (cache.modules.map fun m => { m with
        functionSafety := (fs.get? m.name).getD m.functionSafety }).map CachedModule.name
      rw [List.map_map]
      exact hnot
  unfold entry getFunctionSafety
  rw [hget]

theorem entry_propagateReExportSafety (x : Attribute) :
    cache.propagateReExportSafety.entry x = getFunctionSafety
      (propagation cache.exports.reExports cache.functionSafety).value x.1 x.2 :=
  entry_withFunctionSafety hmerged propagation_ok.modules x

/-- After the pass, a name has the facts of the entries it can be reached from. -/
theorem mem_facts_propagateReExportSafety {x : Attribute} {f : RecordFact} :
    f ∈ ((cache.propagateReExportSafety.entry x).map FunctionSafetyInfo.factSet).getD ∅ ↔
      ∃ e ∈ cache.reachableEntries x, f ∈ e.factSet := by
  rw [entry_propagateReExportSafety hmerged]
  refine (mem_entryFacts_propagation (x := x)).trans ?_
  have hedges : ReExportEdge cache.exports.reExports cache.functionSafety =
      cache.ReExportedFrom := by
    funext x y
    exact propext (reExportEdge_iff hmerged)
  rw [hedges]
  constructor
  · rintro ⟨y, hreach, hf⟩
    cases he : cache.entry y with
    | none =>
      rw [entryFacts_of_none he] at hf
      exact absurd hf (Finset.notMem_empty f)
    | some e =>
      rw [entryFacts_of_some he] at hf
      exact ⟨e, ⟨y, hreach, he⟩, hf⟩
  · rintro ⟨e, ⟨y, hreach, he⟩, hf⟩
    refine ⟨y, hreach, ?_⟩
    rw [entryFacts_of_some he]
    exact hf

end LibraryCache

/-- `info` says what the records of a set say together; of mutated parameters, the names. -/
structure FunctionSafetyInfo.IsUnionOf (info : FunctionSafetyInfo)
    (entries : Set FunctionSafetyInfo) : Prop where
  verdict : ∀ c, c ∈ info.verdict ↔ ∃ e ∈ entries, c ∈ e.verdict
  missingDepCallees : ∀ d, d ∈ info.missingDepCallees ↔ ∃ e ∈ entries, d ∈ e.missingDepCallees
  mutatedParams : ∀ n, (∃ p ∈ info.mutatedParams, p.name = n) ↔
    ∃ e ∈ entries, ∃ p ∈ e.mutatedParams, p.name = n

/-- The pass comes to rest. Every name then has the union of the entries it can be reached
from, and no entry when there are none; a name that no edge exports keeps its entry; and
edges in another order leave the same facts. -/
theorem propagate_least_fixpoint {cache : LibraryCache} (hmerged : cache.Merged) :
    (propagation cache.exports.reExports cache.functionSafety).work = [] ∧
    (∀ x, (cache.propagateReExportSafety.entry x = none ↔ cache.reachableEntries x = ∅) ∧
      ∀ info, cache.propagateReExportSafety.entry x = some info →
        info.IsUnionOf (cache.reachableEntries x)) ∧
    (∀ x, (∀ re ∈ cache.exports.reExports, re.exported ≠ x) →
      cache.propagateReExportSafety.entry x = cache.entry x) ∧
    ∀ reExports, reExports ~ cache.exports.reExports → ∀ x,
      ((cache.withReExports reExports).propagateReExportSafety.entry x).map
          FunctionSafetyInfo.factSet =
        (cache.propagateReExportSafety.entry x).map FunctionSafetyInfo.factSet := by
  have hfacts : ∀ {x info}, cache.propagateReExportSafety.entry x = some info →
      ∀ f, f ∈ info.factSet ↔ ∃ e ∈ cache.reachableEntries x, f ∈ e.factSet := by
    intro x info hinfo f
    have h := LibraryCache.mem_facts_propagateReExportSafety hmerged (x := x) (f := f)
    rw [hinfo] at h
    exact h
  refine ⟨propagation_rest _ _, fun x => ⟨?_, fun info hinfo => ⟨?_, ?_, ?_⟩⟩, ?_, ?_⟩
  · have h := LibraryCache.mem_facts_propagateReExportSafety hmerged (x := x) (f := .present)
    rw [Set.eq_empty_iff_forall_notMem]
    cases hinfo : cache.propagateReExportSafety.entry x with
    | none =>
      refine iff_of_true rfl fun e he => ?_
      rw [hinfo] at h
      exact absurd (h.mpr ⟨e, he, FunctionSafetyInfo.mem_factSet.mpr trivial⟩)
        (Finset.notMem_empty _)
    | some info =>
      obtain ⟨e, he, -⟩ := (hfacts hinfo .present).mp (FunctionSafetyInfo.mem_factSet.mpr trivial)
      exact iff_of_false nofun fun hall => hall e he
  · intro c
    simpa only [FunctionSafetyInfo.mem_factSet] using hfacts hinfo (.concern c)
  · intro d
    simpa only [FunctionSafetyInfo.mem_factSet] using hfacts hinfo (.blocking d)
  · intro n
    simpa only [FunctionSafetyInfo.mem_factSet] using hfacts hinfo (.mutated n)
  · intro x hx
    rw [LibraryCache.entry_propagateReExportSafety hmerged]
    exact propagation_ok.unexported x hx
  · intro reExports hperm x
    -- reachability does not see the order of the edges
    have hreach : (cache.withReExports reExports).reachableEntries x =
        cache.reachableEntries x := by
      have hedges : (cache.withReExports reExports).ReExportedFrom = cache.ReExportedFrom := by
        funext x y
        exact propext (exists_congr fun re => and_congr_left fun _ => hperm.mem_iff)
      rw [LibraryCache.reachableEntries, hedges]
      rfl
    have hmerged' : (cache.withReExports reExports).Merged := hmerged
    refine FunctionSafetyInfo.map_factSet_eq_of_getD (Finset.ext fun f => ?_)
    rw [LibraryCache.mem_facts_propagateReExportSafety hmerged, ← hreach]
    exact LibraryCache.mem_facts_propagateReExportSafety hmerged'

/-- Two modules that re-export a name from each other. -/
def mutualReExports : LibraryCache where
  modules :=
    [{ name := fromStr "a",
       functionSafety := Table.empty.insert "f".toList ⟨{.hardUnsafe}, ∅, []⟩ },
     { name := fromStr "b" }]
  exports := { reExports := [⟨fromStr "b", "g".toList, fromStr "a", "f".toList⟩,
    ⟨fromStr "a", "f".toList, fromStr "b", "g".toList⟩] }

theorem propagate_least_fixpoint_mutual :
    mutualReExports.Merged ∧
    ∀ info, mutualReExports.propagateReExportSafety.entry (fromStr "b", "g".toList) =
      some info →
        info.IsUnionOf (mutualReExports.reachableEntries (fromStr "b", "g".toList)) := by
  have hmerged : mutualReExports.Merged := by
    unfold LibraryCache.Merged
    decide
  exact ⟨hmerged, ((propagate_least_fixpoint hmerged).2.1 _).2⟩

end Lifeguard
