import Lifeguard.Cache
import Lifeguard.ImportGraph
import Lifeguard.Lib.Search
import Lifeguard.Mro

/-!
# Registration from walked bases

A module that calls `__subclasses__()` on a base sees the classes that were defined by then.
A class defined elsewhere registers itself by being imported, so its definition is an error
unless the walker imports it (`resolution.rs`). The whole program settles this over the
project's state (`project/safety.rs`), the reduce over the merged caches
(`cache/reduce.rs`).

- `inheritsFrom_iff`: the search through the bases, which may be cyclic, ends and finds what
  can be reached along one base or more;
- `registrationErrors_eq`: an error is emitted for exactly the candidates that register
  (`Registers`);
- `registrations_exact_and_same`: both paths emit those errors, and over the same facts
  (`SameFacts`) the same set.
-/

namespace Lifeguard

open Lib Relation

/-- The bases of a class, none of a class that is not known. -/
def basesOf (classBases : ClassBases) (cls : ModuleName) : List ModuleName :=
  (classBases.get? cls).getD []

/-- `inherits_from`: whether a base of the class, or one further up, is a target. The last
base of a class is looked at first. -/
def inheritsFrom (classBases : ClassBases) (cls : ModuleName) (isTarget : ModuleName → Bool) :
    Bool :=
  (search (basesOf classBases) isTarget classBases.keys.toFinset
    (basesOf classBases cls).reverse).getD false

/-- `walked_base`: the base an override names, of `base.__subclasses__`. -/
def walkedBase (error : SafetyError) : Option ModuleName :=
  if error.kind = .subclassesAccess then
    (fromStr ".__subclasses__").isSuffixOf? error.metadata
  else none

/-- `WalkedBases`: each walked base, with the modules that walk it. -/
abbrev WalkedBases := Table ModuleName (Finset ModuleName)

namespace WalkedBases

/-- `WalkedBases::record`: the bases the module's overrides walk, and whether there were
any. -/
def record (walked : WalkedBases) (m : ModuleName) (overrides : List SafetyError) :
    WalkedBases × Bool :=
  (overrides.filterMap walkedBase).foldl (fun st base => (st.1.extend base {m}, true))
    (walked, false)

/-- `walked_elsewhere`: a module walks the base that neither is `m` nor imports it. -/
def walkedElsewhere (walked : WalkedBases) (m : ModuleName)
    (imports : ModuleName → ModuleName → Bool) (base : ModuleName) : Bool :=
  (walked.get? base).any fun walkers =>
    decide (∃ walker ∈ walkers, walker ≠ m ∧ imports walker m = false)

end WalkedBases

/-- The error of one candidate. -/
def registrationError (candidate : SubclassCandidate) : SafetyError :=
  let error : SafetyError :=
    { kind := .subclassRegistration
      metadata := candidate.candidateClass
      range := candidate.range }
  if candidate.fromMainGuard then error.markMainGuard else error

/-- `WalkedBases::registration_errors`. -/
def WalkedBases.registrationErrors (walked : WalkedBases) (m : ModuleName)
    (candidates : List SubclassCandidate) (classBases : ClassBases)
    (imports : ModuleName → ModuleName → Bool) : List SafetyError :=
  (candidates.filter fun candidate =>
    inheritsFrom classBases candidate.candidateClass (walked.walkedElsewhere m imports)).map
      registrationError

/-! ## The two paths -/

/-- `ModuleSafety`. -/
structure ModuleSafety where
  errors : List SafetyError := []
  forceImportsEagerOverrides : List SafetyError := []
  implicitImports : List ModuleName := []
  functionSafety : ModuleVerdicts := Table.empty
  mutationCandidates : List MutationCandidate := []
  propertyCandidates : List PropertyCandidate := []
  subclassCandidates : List SubclassCandidate := []

/-- `SafetyResult`. -/
inductive SafetyResult
  | ok (safety : ModuleSafety)
  | analysisError (message : Str)

/-- `SafetyResult::as_safety`. -/
def SafetyResult.asSafety : SafetyResult → Option ModuleSafety
  | ok safety => some safety
  | analysisError _ => none

/-- `SafetyMap`. -/
abbrev SafetyMap := Table ModuleName SafetyResult

/-- The loop that records the walks of the project. -/
def recordProject (safetyMap : SafetyMap) : WalkedBases :=
  safetyMap.entries.foldl (fun walked entry =>
    match entry.2.asSafety with
    | some safety => (walked.record entry.1 safety.forceImportsEagerOverrides).1
    | none => walked) Table.empty

/-- `ProjectInfo::apply_subclass_registrations`. -/
def applySubclassRegistrations (safetyMap : SafetyMap) (g : ImportGraph)
    (classBases : ClassBases) : SafetyMap :=
  let walked := recordProject safetyMap
  if walked.entries = [] then safetyMap
  else safetyMap.mapVals fun m result =>
    match result with
    | .ok safety =>
      .ok
        { safety with
          errors := safety.errors ++ walked.registrationErrors m safety.subclassCandidates
            classBases fun walker imported => (g.getImports walker).any (· == imported)
          subclassCandidates := [] }
    | .analysisError message => .analysisError message

/-- One step of the loop over the merged caches. -/
def recordModule (st : WalkedBases × Table ModuleName (Finset ModuleName)) (m : CachedModule) :
    WalkedBases × Table ModuleName (Finset ModuleName) :=
  match m.safety with
  | .ok safety =>
    let (walked, walks) := st.1.record m.name safety.forceImportsEagerOverrides
    (walked, if walks then st.2.insert m.name m.imports else st.2)
  | .analysisError _ => st

/-- The loop that records the walks of the merged caches, with the walkers' imports. -/
def recordModules (modules : List CachedModule) :
    WalkedBases × Table ModuleName (Finset ModuleName) :=
  modules.foldl recordModule (Table.empty, Table.empty)

/-- What the reduce does to one module. -/
def registerModule (walked : WalkedBases) (walkerImports : Table ModuleName (Finset ModuleName))
    (classBases : ClassBases) (m : CachedModule) : CachedModule :=
  { m with
    safety :=
      match m.safety with
      | .ok safety =>
        .ok
          { safety with
            errors := safety.errors ++ walked.registrationErrors m.name m.subclassCandidates
              classBases fun walker imported =>
                (walkerImports.get? walker).any fun imports => decide (imported ∈ imports) }
      | .analysisError message => .analysisError message
    subclassCandidates := [] }

/-- `LibraryCache::apply_subclass_registrations`. -/
def applyCachedRegistrations (modules : List CachedModule) (classBases : ClassBases) :
    List CachedModule :=
  let (walked, walkerImports) := recordModules modules
  if walked.entries = [] then modules
  else modules.map (registerModule walked walkerImports classBases)

/-! ## What registers -/

/-- The second class is a base of the first. -/
def BaseEdge (classBases : ClassBases) (cls base : ModuleName) : Prop :=
  base ∈ basesOf classBases cls

/-- A class of module `m` reaches, along a base edge or more, a base that some module walks
which neither is `m` nor imports it. -/
def Registers (Bases Walks Imports : ModuleName → ModuleName → Prop) (m cls : ModuleName) :
    Prop :=
  ∃ base, TransGen Bases cls base ∧ ∃ walker, Walks walker base ∧ walker ≠ m ∧ ¬ Imports walker m

/-- The search ends, and finds what can be reached along one base or more. -/
theorem inheritsFrom_iff {classBases : ClassBases} {cls : ModuleName}
    {isTarget : ModuleName → Bool} :
    inheritsFrom classBases cls isTarget = true ↔
      ∃ base, TransGen (BaseEdge classBases) cls base ∧ isTarget base = true := by
  have hdom : ∀ c, c ∉ classBases.keys.toFinset → basesOf classBases c = [] := by
    intro c hc
    have hnone : classBases.get? c = none := by
      rw [List.mem_toFinset, Table.mem_keys, Bool.not_eq_true, Option.isSome_eq_false_iff,
        Option.isNone_iff_eq_none] at hc
      exact hc
    rw [basesOf, hnone]
    rfl
  obtain ⟨found, hsearch, hfound⟩ : ∃ found, search (basesOf classBases) isTarget
      classBases.keys.toFinset (basesOf classBases cls).reverse = some found ∧ _ :=
    search_eq_some hdom
  rw [inheritsFrom, hsearch, Option.getD_some, hfound]
  constructor
  · rintro ⟨first, hfirst, base, hpath, hbase⟩
    exact ⟨base, .head' (List.mem_reverse.mp hfirst) hpath, hbase⟩
  · rintro ⟨base, hpath, hbase⟩
    obtain ⟨first, hfirst, hrest⟩ := TransGen.head'_iff.mp hpath
    exact ⟨first, List.mem_reverse.mpr hfirst, base, hrest, hbase⟩

theorem walkedElsewhere_iff {walked : WalkedBases} {m base : ModuleName}
    {imports : ModuleName → ModuleName → Bool} :
    walked.walkedElsewhere m imports base = true ↔
      ∃ walker, walker ∈ walked.setAt base ∧ walker ≠ m ∧ ¬ imports walker m = true := by
  rw [WalkedBases.walkedElsewhere, Table.setAt]
  cases walked.get? base with
  | none => simp
  | some walkers => simp

/-- An error is emitted, once each, for exactly the candidates that register. -/
theorem registrationErrors_eq (walked : WalkedBases) (m : ModuleName)
    (candidates : List SubclassCandidate) (classBases : ClassBases)
    (imports : ModuleName → ModuleName → Bool) :
    ∃ registers : SubclassCandidate → Bool,
      (∀ candidate, registers candidate = true ↔
        Registers (BaseEdge classBases) (fun walker base => walker ∈ walked.setAt base)
          (fun walker n => imports walker n = true) m candidate.candidateClass) ∧
      walked.registrationErrors m candidates classBases imports =
        (candidates.filter registers).map registrationError := by
  refine ⟨_, fun candidate => ?_, rfl⟩
  rw [inheritsFrom_iff, Registers]
  simp only [walkedElsewhere_iff]

/-- Only the walkers' imports matter. -/
theorem registers_congr
    {Bases Bases' Walks Walks' Imports Imports' : ModuleName → ModuleName → Prop}
    (hbases : ∀ c b, Bases c b ↔ Bases' c b) (hwalks : ∀ w b, Walks w b ↔ Walks' w b)
    (himports : ∀ w b n, Walks w b → (Imports w n ↔ Imports' w n)) (m cls : ModuleName) :
    Registers Bases Walks Imports m cls ↔ Registers Bases' Walks' Imports' m cls := by
  have heq : Bases = Bases' := funext fun c => funext fun b => propext (hbases c b)
  rw [heq]
  refine exists_congr fun base => and_congr_right fun _ => exists_congr fun walker => ?_
  constructor
  · rintro ⟨hwalk, hne, hnot⟩
    exact ⟨(hwalks walker base).mp hwalk, hne, (himports walker base m hwalk).not.mp hnot⟩
  · rintro ⟨hwalk, hne, hnot⟩
    have hwalk' := (hwalks walker base).mpr hwalk
    exact ⟨hwalk', hne, (himports walker base m hwalk').not.mpr hnot⟩

/-! ## What the loops record -/

/-- The overrides walk the base. -/
def OverridesWalk (overrides : List SafetyError) (base : ModuleName) : Prop :=
  ∃ error ∈ overrides, walkedBase error = some base

theorem record_spec (walked : WalkedBases) (m : ModuleName) (overrides : List SafetyError) :
    (∀ walker base, walker ∈ (walked.record m overrides).1.setAt base ↔
      walker ∈ walked.setAt base ∨ (walker = m ∧ OverridesWalk overrides base)) ∧
      ((walked.record m overrides).2 = true ↔ ∃ base, OverridesWalk overrides base) := by
  have hbases : ∀ base, base ∈ overrides.filterMap walkedBase ↔ OverridesWalk overrides base :=
    fun base => List.mem_filterMap
  -- the flag says whether there was any base to record
  have hfold : ∀ (bases : List ModuleName) (st : WalkedBases × Bool),
      let final := bases.foldl (fun st base => (Table.extend st.1 base {m}, true)) st
      (∀ walker base, walker ∈ final.1.setAt base ↔
        walker ∈ st.1.setAt base ∨ (walker = m ∧ base ∈ bases)) ∧
        (final.2 = true ↔ st.2 = true ∨ bases ≠ []) := by
    intro bases
    induction bases with
    | nil => intro st; simp
    | cons first rest ih =>
      intro st
      obtain ⟨hset, hflag⟩ := ih (Table.extend st.1 first {m}, true)
      refine ⟨fun walker base => ?_, by simpa using hflag⟩
      rw [List.foldl_cons, hset, Table.mem_setAt_extend, Finset.mem_singleton, List.mem_cons]
      constructor
      · rintro ((hold | ⟨rfl, rfl⟩) | ⟨rfl, hrest⟩)
        · exact Or.inl hold
        · exact Or.inr ⟨rfl, Or.inl rfl⟩
        · exact Or.inr ⟨rfl, Or.inr hrest⟩
      · rintro (hold | ⟨rfl, rfl | hrest⟩)
        · exact Or.inl (Or.inl hold)
        · exact Or.inl (Or.inr ⟨rfl, rfl⟩)
        · exact Or.inr ⟨rfl, hrest⟩
  obtain ⟨hset, hflag⟩ := hfold (overrides.filterMap walkedBase) (walked, false)
  refine ⟨fun walker base => ?_, ?_⟩
  · rw [WalkedBases.record, hset, hbases]
  · rw [WalkedBases.record, hflag]
    constructor
    · rintro (hfalse | hne)
      · exact absurd hfalse (by simp)
      · obtain ⟨base, hbase⟩ := List.exists_mem_of_ne_nil _ hne
        exact ⟨base, (hbases base).mp hbase⟩
    · rintro ⟨base, hbase⟩
      exact Or.inr (List.ne_nil_of_mem ((hbases base).mpr hbase))

/-- A module of the project walks the base. -/
def ProjectWalks (safetyMap : SafetyMap) (walker base : ModuleName) : Prop :=
  ∃ safety, safetyMap.get? walker = some (.ok safety) ∧
    OverridesWalk safety.forceImportsEagerOverrides base

theorem mem_recordProject {safetyMap : SafetyMap} {walker base : ModuleName} :
    walker ∈ (recordProject safetyMap).setAt base ↔ ProjectWalks safetyMap walker base := by
  have hfold : ∀ (entries : List (ModuleName × SafetyResult)) (walked : WalkedBases),
      walker ∈ (entries.foldl (fun walked entry =>
          match entry.2.asSafety with
          | some safety => (walked.record entry.1 safety.forceImportsEagerOverrides).1
          | none => walked) walked).setAt base ↔
        walker ∈ walked.setAt base ∨ ∃ safety, (walker, SafetyResult.ok safety) ∈ entries ∧
          OverridesWalk safety.forceImportsEagerOverrides base := by
    intro entries
    induction entries with
    | nil => simp
    | cons entry rest ih =>
      intro walked
      obtain ⟨m, result⟩ := entry
      rw [List.foldl_cons, ih]
      cases result with
      | analysisError message => simp [SafetyResult.asSafety]
      | ok safety =>
        simp only [SafetyResult.asSafety, (record_spec _ _ _).1, List.mem_cons, Prod.mk.injEq,
          SafetyResult.ok.injEq, or_and_right, exists_or, or_assoc]
        refine or_congr_right (or_congr_left ?_)
        constructor
        · rintro ⟨rfl, hwalk⟩
          exact ⟨safety, ⟨rfl, rfl⟩, hwalk⟩
        · rintro ⟨_, ⟨rfl, rfl⟩, hwalk⟩
          exact ⟨rfl, hwalk⟩
  rw [recordProject, hfold]
  simp only [Table.mem_entries, ProjectWalks]
  exact or_iff_right (by simp [Table.setAt])

/-- A record walks the base. -/
def CachedModule.Walks (m : CachedModule) (base : ModuleName) : Prop :=
  ∃ safety, m.safety = .ok safety ∧ OverridesWalk safety.forceImportsEagerOverrides base

/-- A cached module walks the base. -/
def CachedWalks (modules : List CachedModule) (walker base : ModuleName) : Prop :=
  ∃ m ∈ modules, m.name = walker ∧ m.Walks base

/-- The record of the first module lists the second as an import. -/
def CachedImports (modules : List CachedModule) (m n : ModuleName) : Prop :=
  ∃ module ∈ modules, module.name = m ∧ n ∈ module.imports

theorem recordModule_spec (st : WalkedBases × Table ModuleName (Finset ModuleName))
    (m : CachedModule) :
    (∀ walker base, walker ∈ (recordModule st m).1.setAt base ↔
      walker ∈ st.1.setAt base ∨ (m.name = walker ∧ m.Walks base)) ∧
      ((∃ base, m.Walks base) → (recordModule st m).2.get? m.name = some m.imports) ∧
      ∀ n, n ≠ m.name → (recordModule st m).2.get? n = st.2.get? n := by
  unfold recordModule CachedModule.Walks
  cases m.safety with
  | analysisError message => simp
  | ok safety =>
    obtain ⟨hset, hflag⟩ := record_spec st.1 m.name safety.forceImportsEagerOverrides
    refine ⟨fun walker base => ?_, ?_, fun n hn => ?_⟩
    · show walker ∈ (st.1.record m.name _).1.setAt base ↔ _
      rw [hset]
      simp [eq_comm]
    · rintro ⟨base, safety', heq, hwalk⟩
      cases heq
      show (if (st.1.record m.name _).2 then _ else _ : Table _ _).get? m.name = _
      rw [if_pos (hflag.mpr ⟨base, hwalk⟩), Table.get?_insert_self]
    · show (if (st.1.record m.name _).2 then _ else _ : Table _ _).get? n = _
      split
      · exact Table.get?_insert_of_ne _ _ hn
      · rfl

theorem recordModules_spec {modules : List CachedModule}
    (hnames : (modules.map CachedModule.name).Nodup) :
    (∀ walker base, walker ∈ (recordModules modules).1.setAt base ↔
      CachedWalks modules walker base) ∧
      ∀ m ∈ modules, (∃ base, CachedWalks modules m.name base) →
        (recordModules modules).2.get? m.name = some m.imports := by
  -- the imports of a module are entered once, as no other record has its name
  have hfold : ∀ (rest : List CachedModule)
      (st : WalkedBases × Table ModuleName (Finset ModuleName)),
      (rest.map CachedModule.name).Nodup →
      (∀ walker base, walker ∈ (rest.foldl recordModule st).1.setAt base ↔
        walker ∈ st.1.setAt base ∨ ∃ m ∈ rest, m.name = walker ∧ m.Walks base) ∧
        (∀ m ∈ rest, (∃ base, m.Walks base) →
          (rest.foldl recordModule st).2.get? m.name = some m.imports) ∧
        ∀ n, n ∉ rest.map CachedModule.name →
          (rest.foldl recordModule st).2.get? n = st.2.get? n := by
    intro rest
    induction rest with
    | nil => intro st _; simp
    | cons first rest ih =>
      intro st hnodup
      obtain ⟨hfresh, hrest⟩ := List.nodup_cons.mp hnodup
      obtain ⟨hset, himports, hother⟩ := ih (recordModule st first) hrest
      obtain ⟨hset', himports', hother'⟩ := recordModule_spec st first
      refine ⟨fun walker base => ?_, fun m hm hwalk => ?_, fun n hn => ?_⟩
      · rw [List.foldl_cons, hset, hset', List.exists_mem_cons_iff, or_assoc]
      · rw [List.foldl_cons]
        rcases List.mem_cons.mp hm with rfl | hmem
        · rw [hother m.name hfresh, himports' hwalk]
        · exact himports m hmem hwalk
      · rw [List.map_cons, List.mem_cons, not_or] at hn
        rw [List.foldl_cons, hother n hn.2, hother' n hn.1]
  obtain ⟨hset, himports, _⟩ := hfold modules (Table.empty, Table.empty) hnames
  refine ⟨fun walker base => (hset walker base).trans (or_iff_right ?_), ?_⟩
  · simp [Table.setAt]
  · rintro m hm ⟨base, m', hm', hname, hwalk⟩
    -- the record that walks the base is the one that was asked about
    have heq : m' = m := List.inj_on_of_nodup_map hnames hm' hm hname
    exact himports m hm ⟨base, heq ▸ hwalk⟩

/-! ## What the paths emit -/

/-- The errors emitted for a module's candidates: one each for those whose class registers. -/
def EmittedFor (registers : ModuleName → Prop) (candidates : List SubclassCandidate)
    (emitted : List SafetyError) : Prop :=
  ∃ chosen : SubclassCandidate → Bool,
    (∀ candidate, chosen candidate = true ↔ registers candidate.candidateClass) ∧
    emitted = (candidates.filter chosen).map registrationError

/-- What the whole program adds to the errors of a module. -/
def ProjectEmits (safetyMap : SafetyMap) (g : ImportGraph) (classBases : ClassBases)
    (m : ModuleName) (emitted : List SafetyError) : Prop :=
  ∃ safety left, safetyMap.get? m = some (.ok safety) ∧
    (applySubclassRegistrations safetyMap g classBases).get? m =
      some (.ok
        { safety with
          errors := safety.errors ++ emitted
          subclassCandidates := left })

/-- What the reduce adds to the errors of a module, whose record is at index `i`. -/
def ReduceEmits (modules : List CachedModule) (classBases : ClassBases) (i : Nat)
    (m : CachedModule) (emitted : List SafetyError) : Prop :=
  ∃ safety left, m.safety = .ok safety ∧
    (applyCachedRegistrations modules classBases)[i]? =
      some
        { m with
          safety := .ok { safety with errors := safety.errors ++ emitted }
          subclassCandidates := left }

/-- A program and its merged caches hold the same facts: modules, bases, walks and import
edges. A cache has no positions, so of a candidate its class and its guard count. -/
structure SameFacts (safetyMap : SafetyMap) (g : ImportGraph) (classBases : ClassBases)
    (modules : List CachedModule) (classBases' : ClassBases) : Prop where
  names_nodup : (modules.map CachedModule.name).Nodup
  bases : ∀ c b, BaseEdge classBases c b ↔ BaseEdge classBases' c b
  walks : ∀ walker base, ProjectWalks safetyMap walker base ↔ CachedWalks modules walker base
  imports : ∀ m ∈ modules, ∀ n, g.Imports m.name n ↔ n ∈ m.imports
  candidates : ∀ m ∈ modules, ∀ safety, safetyMap.get? m.name = some (.ok safety) →
    ∀ cls guarded,
      (∃ c ∈ safety.subclassCandidates, c.candidateClass = cls ∧ c.fromMainGuard = guarded) ↔
        ∃ c ∈ m.subclassCandidates, c.candidateClass = cls ∧ c.fromMainGuard = guarded

section Paths

variable {safetyMap : SafetyMap} {g : ImportGraph} {classBases classBases' : ClassBases}
  {modules : List CachedModule} {m : ModuleName}

theorem setAt_of_entries_nil {walked : WalkedBases} (h : walked.entries = []) (base : ModuleName) :
    walked.setAt base = ∅ := by
  rw [Table.setAt, Table.get?, h]
  rfl

/-- Nothing registers when nothing is walked. -/
theorem emittedFor_nil {walked : WalkedBases} (h : walked.entries = [])
    {Bases Imports : ModuleName → ModuleName → Prop} (m : ModuleName)
    (candidates : List SubclassCandidate) :
    EmittedFor (Registers Bases (fun walker base => walker ∈ walked.setAt base) Imports m)
      candidates [] := by
  refine ⟨fun _ => false, fun candidate => iff_of_false (by simp) ?_, by simp⟩
  rintro ⟨base, _, walker, hwalk, _⟩
  rw [setAt_of_entries_nil h] at hwalk
  exact absurd hwalk (Finset.notMem_empty _)

theorem projectEmits (g : ImportGraph) (classBases : ClassBases) {safety : ModuleSafety}
    (hm : safetyMap.get? m = some (.ok safety)) :
    ∃ emitted, ProjectEmits safetyMap g classBases m emitted ∧
      EmittedFor (Registers (BaseEdge classBases) (ProjectWalks safetyMap) g.Imports m)
        safety.subclassCandidates emitted := by
  have hwalks : (fun walker base => walker ∈ (recordProject safetyMap).setAt base) =
      ProjectWalks safetyMap :=
    funext fun walker => funext fun base => propext mem_recordProject
  by_cases hempty : (recordProject safetyMap).entries = []
  · refine ⟨[], ⟨safety, safety.subclassCandidates, hm, ?_⟩, ?_⟩
    · rw [applySubclassRegistrations, if_pos hempty, hm, List.append_nil]
    · rw [← hwalks]
      exact emittedFor_nil hempty m _
  · obtain ⟨registers, hregisters, herrors⟩ := registrationErrors_eq (recordProject safetyMap) m
      safety.subclassCandidates classBases
      fun walker imported => (g.getImports walker).any (· == imported)
    refine ⟨_, ⟨safety, [], hm, ?_⟩, registers, fun candidate => ?_, herrors⟩
    · rw [applySubclassRegistrations, if_neg hempty, Table.get?_mapVals, hm]
      rfl
    · rw [hregisters, hwalks]
      refine registers_congr (fun _ _ => Iff.rfl) (fun _ _ => Iff.rfl) (fun w _ n _ => ?_) m _
      simp

theorem reduceEmits (hnames : (modules.map CachedModule.name).Nodup) (classBases : ClassBases)
    {i : Nat} {m : CachedModule} {safety : CachedModuleSafety} (hi : modules[i]? = some m)
    (hsafety : m.safety = .ok safety) :
    ∃ emitted, ReduceEmits modules classBases i m emitted ∧
      EmittedFor
        (Registers (BaseEdge classBases) (CachedWalks modules) (CachedImports modules) m.name)
        m.subclassCandidates emitted := by
  obtain ⟨hset, himports⟩ := recordModules_spec hnames
  have hwalks : (fun walker base => walker ∈ (recordModules modules).1.setAt base) =
      CachedWalks modules :=
    funext fun walker => funext fun base => propext (hset walker base)
  -- without any walk the pass returns early, and nothing would register
  by_cases hempty : (recordModules modules).1.entries = []
  · refine ⟨[], ⟨safety, m.subclassCandidates, hsafety, ?_⟩, ?_⟩
    · rw [applyCachedRegistrations]
      dsimp only
      rw [if_pos hempty, hi, List.append_nil, ← hsafety]
    · rw [← hwalks]
      exact emittedFor_nil hempty m.name _
  · obtain ⟨registers, hregisters, herrors⟩ := registrationErrors_eq (recordModules modules).1
      m.name m.subclassCandidates classBases
      fun walker imported =>
        ((recordModules modules).2.get? walker).any fun imports => decide (imported ∈ imports)
    refine ⟨_, ⟨safety, [], hsafety, ?_⟩, registers, fun candidate => ?_, herrors⟩
    · rw [applyCachedRegistrations]
      dsimp only
      rw [if_neg hempty, List.getElem?_map, hi, Option.map_some, registerModule, hsafety]
    · rw [hregisters, hwalks]
      refine registers_congr (fun _ _ => Iff.rfl) (fun _ _ => Iff.rfl) ?_ m.name _
      rintro w base n ⟨walker, hwalker, rfl, hwalk⟩
      rw [himports walker hwalker ⟨base, walker, hwalker, rfl, hwalk⟩]
      constructor
      · intro hn
        exact ⟨walker, hwalker, rfl, by simpa using hn⟩
      · rintro ⟨other, hother, hname, hn⟩
        -- a name stands for one record, so its imports are those entered
        have heq : other = walker := List.inj_on_of_nodup_map hnames hother hwalker hname
        simpa using heq ▸ hn

end Paths

/-- What an error says of the candidate it is for. -/
theorem key_registrationError (candidate : SubclassCandidate) :
    (registrationError candidate).key =
      (.subclassRegistration, candidate.candidateClass, false, candidate.fromMainGuard) := by
  unfold registrationError
  cases h : candidate.fromMainGuard <;> rfl

/-- The keys of the errors emitted for two lists of candidates of the same classes. -/
theorem EmittedFor.key_mem {registers registers' : ModuleName → Prop}
    {candidates candidates' : List SubclassCandidate} {emitted emitted' : List SafetyError}
    (h : EmittedFor registers candidates emitted)
    (h' : EmittedFor registers' candidates' emitted')
    (hregisters : ∀ cls, registers cls → registers' cls)
    (hcandidates : ∀ c ∈ candidates, ∃ c' ∈ candidates',
      c'.candidateClass = c.candidateClass ∧ c'.fromMainGuard = c.fromMainGuard)
    {e : SafetyError} (he : e ∈ emitted) : ∃ e' ∈ emitted', e'.key = e.key := by
  obtain ⟨chosen, hchosen, rfl⟩ := h
  obtain ⟨chosen', hchosen', rfl⟩ := h'
  obtain ⟨c, hc, rfl⟩ := List.mem_map.mp he
  obtain ⟨hmem, hpass⟩ := List.mem_filter.mp hc
  obtain ⟨c', hmem', hcls, hguard⟩ := hcandidates c hmem
  refine ⟨registrationError c', List.mem_map_of_mem (List.mem_filter.mpr ⟨hmem', ?_⟩), ?_⟩
  · exact (hchosen' c').mpr (hcls ▸ hregisters _ ((hchosen c).mp hpass))
  · rw [key_registrationError, key_registrationError, hcls, hguard]

/-- Both paths emit, for each module, one error for each candidate whose class registers, and
over the same facts both emit the same errors. -/
theorem registrations_exact_and_same :
    (∀ (safetyMap : SafetyMap) (g : ImportGraph) (classBases : ClassBases) (m : ModuleName)
        (safety : ModuleSafety), safetyMap.get? m = some (.ok safety) →
      ∃ emitted, ProjectEmits safetyMap g classBases m emitted ∧
        EmittedFor (Registers (BaseEdge classBases) (ProjectWalks safetyMap) g.Imports m)
          safety.subclassCandidates emitted) ∧
    (∀ (modules : List CachedModule) (classBases : ClassBases) (i : Nat) (m : CachedModule)
        (safety : CachedModuleSafety), (modules.map CachedModule.name).Nodup →
        modules[i]? = some m → m.safety = .ok safety →
      ∃ emitted, ReduceEmits modules classBases i m emitted ∧
        EmittedFor
          (Registers (BaseEdge classBases) (CachedWalks modules) (CachedImports modules) m.name)
          m.subclassCandidates emitted) ∧
    ∀ (safetyMap : SafetyMap) (g : ImportGraph) (classBases classBases' : ClassBases)
        (modules : List CachedModule), SameFacts safetyMap g classBases modules classBases' →
      ∀ (i : Nat) (m : CachedModule) (emitted emitted' : List SafetyError),
        modules[i]? = some m → ProjectEmits safetyMap g classBases m.name emitted →
        ReduceEmits modules classBases' i m emitted' →
        ∀ key, key ∈ emitted.map SafetyError.key ↔ key ∈ emitted'.map SafetyError.key := by
  refine ⟨fun safetyMap g classBases m safety hm => projectEmits g classBases hm,
    fun modules classBases i m safety hnames hi hsafety =>
      reduceEmits hnames classBases hi hsafety, ?_⟩
  intro safetyMap g classBases classBases' modules hsame i m emitted emitted' hi hproject hreduce
    key
  have hmem : m ∈ modules := List.mem_of_getElem? hi
  obtain ⟨safety, left, hm, hafter⟩ := hproject
  obtain ⟨cached, left', hsafety, hafter'⟩ := hreduce
  -- each path emits what it was shown to emit
  have hemitted : EmittedFor
      (Registers (BaseEdge classBases) (ProjectWalks safetyMap) g.Imports m.name)
      safety.subclassCandidates emitted := by
    obtain ⟨emitted₁, ⟨safety₁, left₁, hm₁, hafter₁⟩, hfor⟩ := projectEmits g classBases hm
    cases hm.symm.trans hm₁
    have heq := hafter.symm.trans hafter₁
    simp only [Option.some.injEq, SafetyResult.ok.injEq, ModuleSafety.mk.injEq] at heq
    exact List.append_cancel_left heq.1 ▸ hfor
  have hemitted' : EmittedFor
      (Registers (BaseEdge classBases') (CachedWalks modules) (CachedImports modules) m.name)
      m.subclassCandidates emitted' := by
    obtain ⟨emitted₁, ⟨cached₁, left₁, hsafety₁, hafter₁⟩, hfor⟩ :=
      reduceEmits hsame.names_nodup classBases' hi hsafety
    cases hsafety.symm.trans hsafety₁
    have heq := hafter'.symm.trans hafter₁
    simp only [Option.some.injEq, CachedModule.mk.injEq, CachedSafety.ok.injEq,
      CachedModuleSafety.mk.injEq] at heq
    exact List.append_cancel_left heq.2.1.1 ▸ hfor
  have hregisters : ∀ cls,
      Registers (BaseEdge classBases) (ProjectWalks safetyMap) g.Imports m.name cls ↔
        Registers (BaseEdge classBases') (CachedWalks modules) (CachedImports modules) m.name cls :=
    registers_congr hsame.bases hsame.walks (by
      rintro w base n hwalk
      obtain ⟨walker, hwalker, rfl, _⟩ := (hsame.walks w base).mp hwalk
      rw [hsame.imports walker hwalker]
      constructor
      · intro hn
        exact ⟨walker, hwalker, rfl, hn⟩
      · rintro ⟨other, hother, hname, hn⟩
        exact List.inj_on_of_nodup_map hsame.names_nodup hother hwalker hname ▸ hn) m.name
  have hcandidates := hsame.candidates m hmem safety hm
  simp only [List.mem_map]
  constructor
  · rintro ⟨e, he, rfl⟩
    refine hemitted.key_mem hemitted' (fun cls => (hregisters cls).mp) (fun c hc => ?_) he
    exact (hcandidates _ _).mp ⟨c, hc, rfl, rfl⟩
  · rintro ⟨e, he, rfl⟩
    refine hemitted'.key_mem hemitted (fun cls => (hregisters cls).mpr) (fun c hc => ?_) he
    exact (hcandidates _ _).mpr ⟨c, hc, rfl, rfl⟩

/-! ## A sample -/

/-- The override of a module that walks the subclasses of `m.Base`. -/
def walksBase : SafetyError :=
  { kind := .subclassesAccess, metadata := fromStr "m.Base.__subclasses__" }

/-- A class further down, at its place in the source. -/
def classBelow : SubclassCandidate :=
  { candidateClass := fromStr "app.C", range := { start := 4, stop := 9 } }

/-- A program of three modules: `w` walks a base and imports `x`, and `app` and `x` have classes
below it. -/
def walkedProgram : SafetyMap :=
  Table.ofList
    [(fromStr "w", .ok { forceImportsEagerOverrides := [walksBase] }),
      (fromStr "app", .ok { subclassCandidates := [classBelow] }),
      (fromStr "x", .ok { subclassCandidates := [{ candidateClass := fromStr "x.D" }] })]

/-- The classes between, in a cycle with a class that is its own ancestor. -/
def walkedBases : ClassBases :=
  Table.ofList
    [(fromStr "app.C", [fromStr "lib.B"]), (fromStr "lib.B", [fromStr "app.C", fromStr "m.Base"]),
      (fromStr "x.D", [fromStr "m.Base"])]

/-- The import of the walker. -/
def walkedGraph : ImportGraph where
  nodes := [fromStr "w", fromStr "app", fromStr "x"]
  nodes_nodup := by decide
  edges := [(fromStr "w", fromStr "x")]
  edges_closed := by decide
  missing := Table.empty
  missing_closed := by decide

/-- The record of `app`, which has no positions. -/
def appRecord : CachedModule :=
  { name := fromStr "app", subclassCandidates := [{ candidateClass := fromStr "app.C" }] }

/-- The records of the program. -/
def walkedRecords : List CachedModule :=
  [{ name := fromStr "w"
     safety := .ok { forceImportsEagerOverrides := [walksBase] }
     imports := {fromStr "x"} }, appRecord,
    { name := fromStr "x", subclassCandidates := [{ candidateClass := fromStr "x.D" }] }]

/-- The program has the three entries it was made of. -/
theorem get?_walkedProgram {m : ModuleName} {safety : ModuleSafety} :
    walkedProgram.get? m = some (.ok safety) ↔
      m = fromStr "w" ∧ safety = { forceImportsEagerOverrides := [walksBase] } ∨
        m = fromStr "app" ∧ safety = { subclassCandidates := [classBelow] } ∨
          m = fromStr "x" ∧
            safety = { subclassCandidates := [{ candidateClass := fromStr "x.D" }] } := by
  rw [walkedProgram, Table.get?_ofList (by decide)]
  simp

theorem not_overridesWalk_nil (base : ModuleName) : ¬OverridesWalk [] base := by
  simp [OverridesWalk]

theorem sameFacts_walked :
    SameFacts walkedProgram walkedGraph walkedBases walkedRecords walkedBases := by
  refine ⟨by decide, fun _ _ => Iff.rfl, fun walker base => ?_, ?_, ?_⟩
  · simp only [ProjectWalks, CachedWalks, CachedModule.Walks, get?_walkedProgram, walkedRecords,
      appRecord]
    constructor
    · rintro ⟨_, ⟨rfl, rfl⟩ | ⟨rfl, rfl⟩ | ⟨rfl, rfl⟩, hwalk⟩
      · exact ⟨_, List.mem_cons_self, rfl, _, rfl, hwalk⟩
      · exact absurd hwalk (not_overridesWalk_nil _)
      · exact absurd hwalk (not_overridesWalk_nil _)
    · rintro ⟨m, hm, rfl, safety, hsafety, hwalk⟩
      simp only [List.mem_cons, List.not_mem_nil, or_false] at hm
      obtain rfl | rfl | rfl := hm
      · cases hsafety
        exact ⟨_, .inl ⟨rfl, rfl⟩, hwalk⟩
      · cases hsafety
        exact absurd hwalk (not_overridesWalk_nil _)
      · cases hsafety
        exact absurd hwalk (not_overridesWalk_nil _)
  · intro m hm n
    simp only [walkedRecords, appRecord, List.mem_cons, List.not_mem_nil, or_false] at hm
    have hothers : fromStr "app" ≠ fromStr "w" ∧ fromStr "x" ≠ fromStr "w" := by decide
    obtain rfl | rfl | rfl := hm
    · simp [ImportGraph.Imports, walkedGraph]
    · simp [ImportGraph.Imports, walkedGraph, hothers.1]
    · simp [ImportGraph.Imports, walkedGraph, hothers.2]
  · intro m hm safety hsafety cls guarded
    rw [get?_walkedProgram] at hsafety
    simp only [walkedRecords, appRecord, List.mem_cons, List.not_mem_nil, or_false] at hm
    obtain rfl | rfl | rfl := hm
    · obtain ⟨-, rfl⟩ | ⟨h, -⟩ | ⟨h, -⟩ := hsafety
      · simp
      · exact absurd h (by decide)
      · exact absurd h (by decide)
    · obtain ⟨h, -⟩ | ⟨-, rfl⟩ | ⟨h, -⟩ := hsafety
      · exact absurd h (by decide)
      · simp [classBelow]
      · exact absurd h (by decide)
    · obtain ⟨h, -⟩ | ⟨h, -⟩ | ⟨-, rfl⟩ := hsafety
      · exact absurd h (by decide)
      · exact absurd h (by decide)
      · simp

/-- The class of `app` registers at its position on the one path and without a position on the
other, and the walker's own import `x` on neither: the keys are the same. -/
theorem registrations_exact_and_same_walked :
    SameFacts walkedProgram walkedGraph walkedBases walkedRecords walkedBases ∧
      ProjectEmits walkedProgram walkedGraph walkedBases appRecord.name
        [registrationError classBelow] ∧
      ProjectEmits walkedProgram walkedGraph walkedBases (fromStr "x") [] ∧
      ReduceEmits walkedRecords walkedBases 1 appRecord
        [registrationError { candidateClass := fromStr "app.C" }] ∧
      ∀ key, key ∈ [registrationError classBelow].map SafetyError.key ↔
        key ∈ [registrationError { candidateClass := fromStr "app.C" }].map SafetyError.key := by
  have hproject : ProjectEmits walkedProgram walkedGraph walkedBases appRecord.name
      [registrationError classBelow] :=
    ⟨{ subclassCandidates := [classBelow] }, [], by rfl, by rfl⟩
  have hreduce : ReduceEmits walkedRecords walkedBases 1 appRecord
      [registrationError { candidateClass := fromStr "app.C" }] :=
    ⟨{}, [], by rfl, by rfl⟩
  exact ⟨sameFacts_walked, hproject,
    ⟨{ subclassCandidates := [{ candidateClass := fromStr "x.D" }] }, [], by rfl, by rfl⟩, hreduce,
    registrations_exact_and_same.2.2 _ _ _ _ _ sameFacts_walked 1 _ _ _ rfl hproject hreduce⟩

end Lifeguard
