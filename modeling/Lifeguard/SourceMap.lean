import Lifeguard.Lib.Least
import Lifeguard.Names
import Lifeguard.Paths

/-!
# The source map

A source database names the file behind each path of a build. `resolve_source_map` turns it
into the file that provides each module, the stub next to it, and the stubs that stand for a
generated module (`source_map.rs`). The database is a hash map, so its entries come in any
order. How a path becomes a module name is decided by another library and is a parameter.

- `resolvesTo`: what the maps hold, in every order: of the files of a module one of best
  priority, a stub where the module has a file, and of several stubs the least;
- `sourceMap_order_free_iff`: the maps are the same in every order exactly when no module has
  two different files of best priority. Stubs have a rule for ties, files have none.
-/

namespace Lifeguard

open Lib

/-! ## Files -/

/-- `is_python_file`. -/
def isPythonFile (path : PathBuf) : Bool := decide (path.extension = some (ascii "py"))

/-- `is_stub_file`. -/
def isStubFile (path : PathBuf) : Bool := decide (path.extension = some (ascii "pyi"))

/-- `is_init_file`. -/
def isInitFile (path : PathBuf) : Bool := decide (path.fileStem = some (ascii "__init__"))

/-- `source_priority`: the lower the better, none for a path that is not text or has another
ending. -/
def sourcePriority (path : PathBuf) : Option Nat :=
  path.toStr.bind fun s =>
    if "__init__.py".toList.isSuffixOf s then some 0
    else if ".py".toList.isSuffixOf s then some 1
    else if ".pyi".toList.isSuffixOf s then some 2
    else none

/-- `THRIFT_GENERATED_STUB_SUFFIXES`. -/
def thriftGeneratedStubSuffixes : List Str := [".types".toList]

/-- `is_thrift_stub_module`. -/
def isThriftStubModule (name : ModuleName) : Bool :=
  thriftGeneratedStubSuffixes.any fun suffix => suffix.isSuffixOf name

/-! ## Resolving -/

/-- `SourceMap`. -/
structure SourceMap where
  modules : Table ModuleName PathBuf := Table.empty
  companionStubs : Table ModuleName PathBuf := Table.empty
  thriftStubs : Table ModuleName PathBuf := Table.empty

/-- What one entry of the database becomes: a module, a priority and a file. -/
def sourceEntry (moduleOf : Str → Option ModuleName) (e : Str × PathBuf) :
    Option (ModuleName × Nat × PathBuf) :=
  if !isPythonFile e.2 && !isStubFile e.2 then none
  else (moduleOf e.1).bind fun name => (sourcePriority e.2).map fun priority =>
    (name, priority, e.2)

/-- The maps of the first loop. -/
structure Placed where
  modules : Table ModuleName PathBuf := Table.empty
  priorities : Table ModuleName Nat := Table.empty
  stubs : List (ModuleName × PathBuf) := []

/-- The body of the first loop: stubs are put aside, and a file is placed unless the one
there is as good. -/
def placeEntry (st : Placed) (e : ModuleName × Nat × PathBuf) : Placed :=
  let (name, priority, path) := e
  if isStubFile path then { st with stubs := st.stubs ++ [(name, path)] }
  else if (st.priorities.get? name).any fun p => decide (p ≤ priority) then st
  else
    { st with
      priorities := st.priorities.insert name priority
      modules := st.modules.insert name path }

/-- What the stubs of a module are compared by: whether they are shaped unlike its file,
then their path. -/
def stubRank (modulePath stub : PathBuf) : Bool ×ₗ List (Nat ×ₗ List Nat) :=
  toLex (isInitFile stub != isInitFile modulePath, pathKey stub)

/-- The body of the second loop. -/
def placeStub (st : SourceMap) (e : ModuleName × PathBuf) : SourceMap :=
  match st.modules.get? e.1 with
  | none =>
    if isThriftStubModule e.1 then
      { st with thriftStubs := keepLeast (fun _ => pathKey) st.thriftStubs e }
    else st
  | some modulePath =>
    { st with companionStubs := keepLeast (fun _ => stubRank modulePath) st.companionStubs e }

/-- `resolve_source_map`, of the entries in the order they come. -/
def resolveSourceMap (moduleOf : Str → Option ModuleName) (raw : List (Str × PathBuf)) :
    SourceMap :=
  let placed := (raw.filterMap (sourceEntry moduleOf)).foldl placeEntry {}
  placed.stubs.foldl placeStub { modules := placed.modules }

/-! ## What the loops leave -/

/-- The files among the entries, with their priorities. -/
def filesOf (entries : List (ModuleName × Nat × PathBuf)) : List (ModuleName × Nat × PathBuf) :=
  entries.filter fun e => !isStubFile e.2.2

/-- The stubs among the entries. -/
def stubsOf (entries : List (ModuleName × Nat × PathBuf)) : List (ModuleName × PathBuf) :=
  (entries.filter fun e => isStubFile e.2.2).map fun e => (e.1, e.2.2)

/-- The table the first loop fills is that of the files of best priority, and it puts aside
the stubs. -/
theorem foldl_placeEntry (entries : List (ModuleName × Nat × PathBuf)) :
    let placed := entries.foldl placeEntry {}
    let best := (filesOf entries).foldl (keepLeast fun _ file => file.1) Table.empty
    (∀ m, placed.modules.get? m = (best.get? m).map Prod.snd) ∧
      placed.stubs = stubsOf entries := by
  -- the two tables of the loop are the two halves of one table of least files
  have hfrom : ∀ (rest : List (ModuleName × Nat × PathBuf)) (st : Placed)
      (best : Table ModuleName (Nat × PathBuf)),
      (∀ m, st.modules.get? m = (best.get? m).map Prod.snd) →
      (∀ m, st.priorities.get? m = (best.get? m).map Prod.fst) →
      (∀ m, (rest.foldl placeEntry st).modules.get? m =
        (((filesOf rest).foldl (keepLeast fun _ file => file.1) best).get? m).map Prod.snd) ∧
        (rest.foldl placeEntry st).stubs = st.stubs ++ stubsOf rest := by
    intro rest
    induction rest with
    | nil => intro st best h _; exact ⟨h, (List.append_nil _).symm⟩
    | cons e rest ih =>
      intro st best hmodules hpriorities
      obtain ⟨name, priority, path⟩ := e
      rw [List.foldl_cons]
      by_cases hstub : isStubFile path = true
      · have hfiles : filesOf ((name, priority, path) :: rest) = filesOf rest := by
          simp [filesOf, hstub]
        have hstubs : stubsOf ((name, priority, path) :: rest) = (name, path) :: stubsOf rest := by
          simp [stubsOf, hstub]
        have hstep : placeEntry st (name, priority, path) =
            { st with stubs := st.stubs ++ [(name, path)] } := by
          unfold placeEntry
          dsimp only
          rw [if_pos hstub]
        rw [hfiles, hstubs, hstep]
        obtain ⟨hend, hends⟩ := ih { st with stubs := st.stubs ++ [(name, path)] } best hmodules
          hpriorities
        exact ⟨hend, by rw [hends]; simp⟩
      · have hfiles : filesOf ((name, priority, path) :: rest) =
            (name, priority, path) :: filesOf rest := by
          simp [filesOf, hstub]
        have hstubs : stubsOf ((name, priority, path) :: rest) = stubsOf rest := by
          simp [stubsOf, hstub]
        rw [hfiles, hstubs, List.foldl_cons]
        unfold placeEntry keepLeast
        dsimp only
        rw [if_neg hstub, hpriorities]
        -- both halves are inserted under the same key
        have hinsert : ∀ {β : Type} (t : Table ModuleName β) (f : Nat × PathBuf → β),
            (∀ m, t.get? m = (best.get? m).map f) → ∀ m,
              (t.insert name (f (priority, path))).get? m =
                ((best.insert name (priority, path)).get? m).map f := by
          intro β t f ht m
          rw [Table.get?_insert, Table.get?_insert]
          by_cases hm : m = name
          · rw [if_pos hm, if_pos hm]
            rfl
          · rw [if_neg hm, if_neg hm]
            exact ht m
        cases hget : best.get? name with
        | none => exact ih _ _ (hinsert _ Prod.snd hmodules) (hinsert _ Prod.fst hpriorities)
        | some kept =>
          dsimp only [Option.map_some, Option.any_some]
          -- a file of the same priority does not replace the one that came first
          by_cases hle : kept.1 ≤ priority
          · rw [if_pos (decide_eq_true hle), if_neg (not_lt_of_ge hle)]
            exact ih _ _ hmodules hpriorities
          · rw [if_neg (by simpa using hle), if_pos (lt_of_not_ge hle)]
            exact ih _ _ (hinsert _ Prod.snd hmodules) (hinsert _ Prod.fst hpriorities)
  exact hfrom entries {} Table.empty (fun _ => rfl) fun _ => rfl

/-- What the second loop compares the stubs of a module by, given the files. -/
def companionRank (modules : Table ModuleName PathBuf) (m : ModuleName) (stub : PathBuf) :
    Bool ×ₗ List (Nat ×ₗ List Nat) :=
  stubRank ((modules.get? m).getD []) stub

/-- The stubs of modules that have a file. -/
def companionsOf (modules : Table ModuleName PathBuf) (stubs : List (ModuleName × PathBuf)) :
    List (ModuleName × PathBuf) :=
  stubs.filter fun e => (modules.get? e.1).isSome

/-- The stubs of modules without a file whose name is that of a generated one. -/
def thriftOf (modules : Table ModuleName PathBuf) (stubs : List (ModuleName × PathBuf)) :
    List (ModuleName × PathBuf) :=
  stubs.filter fun e => (modules.get? e.1).isNone && isThriftStubModule e.1

/-- The second loop leaves the files alone and keeps the least stub of each kind. -/
theorem foldl_placeStub (stubs : List (ModuleName × PathBuf)) (st : SourceMap) :
    stubs.foldl placeStub st =
      { st with
        companionStubs :=
          (companionsOf st.modules stubs).foldl (keepLeast (companionRank st.modules))
            st.companionStubs
        thriftStubs :=
          (thriftOf st.modules stubs).foldl (keepLeast fun _ => pathKey) st.thriftStubs } := by
  induction stubs generalizing st with
  | nil => rfl
  | cons e stubs ih =>
    rw [List.foldl_cons, ih]
    cases hfile : st.modules.get? e.1 with
    | none =>
      have hcompanions : companionsOf st.modules (e :: stubs) = companionsOf st.modules stubs := by
        simp [companionsOf, hfile]
      by_cases hthrift : isThriftStubModule e.1 = true
      · have hthrifts : thriftOf st.modules (e :: stubs) = e :: thriftOf st.modules stubs := by
          simp [thriftOf, hfile, hthrift]
        have hstep : placeStub st e =
            { st with thriftStubs := keepLeast (fun _ => pathKey) st.thriftStubs e } := by
          simp [placeStub, hfile, hthrift]
        rw [hcompanions, hthrifts, hstep, List.foldl_cons]
      · have hthrifts : thriftOf st.modules (e :: stubs) = thriftOf st.modules stubs := by
          simp [thriftOf, hthrift]
        have hstep : placeStub st e = st := by simp [placeStub, hfile, hthrift]
        rw [hcompanions, hthrifts, hstep]
    | some path =>
      have hcompanions : companionsOf st.modules (e :: stubs) =
          e :: companionsOf st.modules stubs := by
        simp [companionsOf, hfile]
      have hthrifts : thriftOf st.modules (e :: stubs) = thriftOf st.modules stubs := by
        simp [thriftOf, hfile]
      -- the file of the module is fixed here, and with it what its stubs are compared by
      have hrank : keepLeast (fun _ => stubRank path) st.companionStubs e =
          keepLeast (companionRank st.modules) st.companionStubs e := by
        have hat : companionRank st.modules e.1 = stubRank path := by
          funext stub
          rw [companionRank, hfile]
          rfl
        unfold keepLeast
        rw [hat]
      have hstep : placeStub st e =
          { st with
            companionStubs := keepLeast (companionRank st.modules) st.companionStubs e } := by
        rw [← hrank]
        simp [placeStub, hfile]
      rw [hcompanions, hthrifts, hstep, List.foldl_cons]

/-! ## What the maps hold -/

section

variable (moduleOf : Str → Option ModuleName) (raw : List (Str × PathBuf))

/-- A file of the database that provides a module, with its priority. -/
def FileOf (m : ModuleName) (priority : Nat) (path : PathBuf) : Prop :=
  isPythonFile path = true ∧ sourcePriority path = some priority ∧
    ∃ key, (key, path) ∈ raw ∧ moduleOf key = some m

/-- A stub of the database that describes a module. -/
def StubOf (m : ModuleName) (path : PathBuf) : Prop :=
  isStubFile path = true ∧ (sourcePriority path).isSome = true ∧
    ∃ key, (key, path) ∈ raw ∧ moduleOf key = some m

/-- A file of the module that no other of its files comes before. -/
def BestFileOf (m : ModuleName) (path : PathBuf) : Prop :=
  ∃ priority, FileOf moduleOf raw m priority path ∧
    ∀ priority' path', FileOf moduleOf raw m priority' path' → priority ≤ priority'

/-- The maps hold a best file of every module that has one, and stubs for those that have
stubs: beside a file the least by shape and path, else, for generated modules, the least
by path. -/
structure ResolvesTo (sources : SourceMap) : Prop where
  file_best : ∀ m path, sources.modules.get? m = some path → BestFileOf moduleOf raw m path
  file_iff : ∀ m, (sources.modules.get? m).isSome ↔ ∃ p path, FileOf moduleOf raw m p path
  companion_iff : ∀ m, (sources.companionStubs.get? m).isSome ↔
    (∃ stub, StubOf moduleOf raw m stub) ∧ ∃ p path, FileOf moduleOf raw m p path
  companion_least : ∀ m path stub, sources.modules.get? m = some path →
    sources.companionStubs.get? m = some stub → StubOf moduleOf raw m stub ∧
      ∀ other, StubOf moduleOf raw m other → stubRank path stub ≤ stubRank path other
  thrift_iff : ∀ m, (sources.thriftStubs.get? m).isSome ↔
    (∃ stub, StubOf moduleOf raw m stub) ∧ isThriftStubModule m = true ∧
      ¬∃ p path, FileOf moduleOf raw m p path
  thrift_least : ∀ m stub, sources.thriftStubs.get? m = some stub →
    StubOf moduleOf raw m stub ∧
      ∀ other, StubOf moduleOf raw m other → pathKey stub ≤ pathKey other

end

variable {moduleOf : Str → Option ModuleName} {raw raw' : List (Str × PathBuf)}
  {m : ModuleName} {path : PathBuf} {priority : Nat}

theorem isStubFile_eq_false_of_isPythonFile (h : isPythonFile path = true) :
    isStubFile path = false := by
  rw [isPythonFile, decide_eq_true_eq] at h
  rw [isStubFile, h]
  decide

/-- What an entry becomes when it becomes one. -/
theorem sourceEntry_eq_some {e : Str × PathBuf} {entry : ModuleName × Nat × PathBuf} :
    sourceEntry moduleOf e = some entry ↔
      (isPythonFile e.2 = true ∨ isStubFile e.2 = true) ∧ moduleOf e.1 = some entry.1 ∧
        sourcePriority e.2 = some entry.2.1 ∧ e.2 = entry.2.2 := by
  obtain ⟨key, path⟩ := e
  obtain ⟨m, priority, path'⟩ := entry
  unfold sourceEntry
  dsimp only
  constructor
  · intro h
    split at h
    · cases h
    · rename_i hkind
      obtain ⟨name, hname, hrest⟩ := Option.bind_eq_some_iff.mp h
      obtain ⟨p, hp, heq⟩ := Option.map_eq_some_iff.mp hrest
      cases heq
      refine ⟨?_, hname, hp, rfl⟩
      revert hkind
      cases isPythonFile path <;> cases isStubFile path <;> simp
  · rintro ⟨hkind, hname, hp, rfl⟩
    have hkeep : ¬(!isPythonFile path && !isStubFile path) = true := by
      rcases hkind with h | h <;> simp [h]
    rw [if_neg hkeep, hname, hp]
    rfl

theorem mem_filesOf :
    (m, priority, path) ∈ filesOf (raw.filterMap (sourceEntry moduleOf)) ↔
      FileOf moduleOf raw m priority path := by
  simp only [filesOf, List.mem_filter, List.mem_filterMap, sourceEntry_eq_some]
  constructor
  · rintro ⟨⟨⟨key, p⟩, hmem, hkind, hname, hp, rfl⟩, hstub⟩
    refine ⟨hkind.resolve_right fun h => ?_, hp, key, hmem, hname⟩
    simp only [h] at hstub
    cases hstub
  · rintro ⟨hpy, hp, key, hmem, hname⟩
    refine ⟨⟨(key, path), hmem, Or.inl hpy, hname, hp, rfl⟩, ?_⟩
    simp [isStubFile_eq_false_of_isPythonFile hpy]

theorem mem_stubsOf :
    (m, path) ∈ stubsOf (raw.filterMap (sourceEntry moduleOf)) ↔ StubOf moduleOf raw m path := by
  simp only [stubsOf, List.mem_map, List.mem_filter, List.mem_filterMap, sourceEntry_eq_some]
  constructor
  · rintro ⟨⟨m', p, path'⟩, ⟨⟨⟨key, path''⟩, hmem, _, hname, hp, rfl⟩, hstub⟩, heq⟩
    cases heq
    exact ⟨hstub, Option.isSome_iff_exists.mpr ⟨p, hp⟩, key, hmem, hname⟩
  · rintro ⟨hstub, hp, key, hmem, hname⟩
    obtain ⟨p, hp⟩ := Option.isSome_iff_exists.mp hp
    exact ⟨(m, p, path), ⟨⟨(key, path), hmem, Or.inr hstub, hname, hp, rfl⟩, hstub⟩, rfl⟩

variable (moduleOf raw) in
/-- What the maps are, in terms of the entries. -/
theorem resolveSourceMap_spec :
    let entries := raw.filterMap (sourceEntry moduleOf)
    let sources := resolveSourceMap moduleOf raw
    let best := (filesOf entries).foldl (keepLeast fun _ file => file.1) Table.empty
    (∀ m, sources.modules.get? m = (best.get? m).map Prod.snd) ∧
      sources.companionStubs = (companionsOf sources.modules (stubsOf entries)).foldl
        (keepLeast (companionRank sources.modules)) Table.empty ∧
      sources.thriftStubs = (thriftOf sources.modules (stubsOf entries)).foldl
        (keepLeast fun _ => pathKey) Table.empty := by
  obtain ⟨hmodules, hstubs⟩ := foldl_placeEntry (raw.filterMap (sourceEntry moduleOf))
  dsimp only at hmodules hstubs ⊢
  rw [resolveSourceMap]
  rw [foldl_placeStub, hstubs]
  exact ⟨hmodules, rfl, rfl⟩

variable (moduleOf raw m) in
/-- The file of a module is one of its best. -/
theorem modules_least :
    match (resolveSourceMap moduleOf raw).modules.get? m with
    | none => ∀ p path, ¬FileOf moduleOf raw m p path
    | some path => BestFileOf moduleOf raw m path := by
  obtain ⟨hmodules, -, -⟩ := resolveSourceMap_spec moduleOf raw
  have hleast := foldl_keepLeast (fun (_ : ModuleName) (file : Nat × PathBuf) => file.1)
    (filesOf (raw.filterMap (sourceEntry moduleOf))) m
  rw [hmodules]
  revert hleast
  cases List.foldl (keepLeast fun _ file => file.1) Table.empty
    (filesOf (raw.filterMap (sourceEntry moduleOf))) |>.get? m with
  | none =>
    intro hleast p path hfile
    exact hleast (p, path) (mem_filesOf.mpr hfile)
  | some kept =>
    obtain ⟨p, path⟩ := kept
    rintro ⟨hmem, hle⟩
    exact ⟨p, mem_filesOf.mp hmem, fun p' path' hfile => hle (p', path') (mem_filesOf.mpr hfile)⟩

theorem modules_isSome_iff :
    ((resolveSourceMap moduleOf raw).modules.get? m).isSome ↔
      ∃ p path, FileOf moduleOf raw m p path := by
  have hleast := modules_least moduleOf raw m
  revert hleast
  cases (resolveSourceMap moduleOf raw).modules.get? m with
  | none => exact fun hnone => iff_of_false (by simp) fun ⟨p, path, hfile⟩ => hnone p path hfile
  | some path => exact fun ⟨p, hfile, _⟩ => iff_of_true rfl ⟨p, path, hfile⟩

variable (moduleOf raw m) in
/-- The stub beside a file is its least. -/
theorem companions_least :
    IsLeastOf (companionRank (resolveSourceMap moduleOf raw).modules)
      (companionsOf (resolveSourceMap moduleOf raw).modules
        (stubsOf (raw.filterMap (sourceEntry moduleOf)))) m
      ((resolveSourceMap moduleOf raw).companionStubs.get? m) := by
  obtain ⟨-, hcompanions, -⟩ := resolveSourceMap_spec moduleOf raw
  rw [hcompanions]
  exact foldl_keepLeast _ _ _

variable (moduleOf raw m) in
theorem thrifts_least :
    IsLeastOf (fun (_ : ModuleName) => pathKey)
      (thriftOf (resolveSourceMap moduleOf raw).modules
        (stubsOf (raw.filterMap (sourceEntry moduleOf)))) m
      ((resolveSourceMap moduleOf raw).thriftStubs.get? m) := by
  obtain ⟨-, -, hthrifts⟩ := resolveSourceMap_spec moduleOf raw
  rw [hthrifts]
  exact foldl_keepLeast _ _ _

theorem mem_companionsOf {modules : Table ModuleName PathBuf} :
    (m, path) ∈ companionsOf modules (stubsOf (raw.filterMap (sourceEntry moduleOf))) ↔
      StubOf moduleOf raw m path ∧ (modules.get? m).isSome = true := by
  rw [companionsOf, List.mem_filter, mem_stubsOf]

theorem mem_thriftOf {modules : Table ModuleName PathBuf} :
    (m, path) ∈ thriftOf modules (stubsOf (raw.filterMap (sourceEntry moduleOf))) ↔
      StubOf moduleOf raw m path ∧ isThriftStubModule m = true ∧
        ¬(modules.get? m).isSome = true := by
  rw [thriftOf, List.mem_filter, mem_stubsOf]
  cases modules.get? m <;> simp

variable (moduleOf raw) in
/-- In every order of the entries, the maps hold what they should. -/
theorem resolvesTo : ResolvesTo moduleOf raw (resolveSourceMap moduleOf raw) where
  file_best m path hget := by
    have hleast := modules_least moduleOf raw m
    rwa [hget] at hleast
  file_iff _ := modules_isSome_iff
  companion_iff m := by
    rw [(companions_least moduleOf raw m).isSome_iff, ← modules_isSome_iff]
    simp only [mem_companionsOf, exists_and_right]
  companion_least m path stub hfile hget := by
    have hleast := companions_least moduleOf raw m
    rw [hget] at hleast
    obtain ⟨hmem, hle⟩ := hleast
    obtain ⟨hstub, hsome⟩ := mem_companionsOf.mp hmem
    refine ⟨hstub, fun other hother => ?_⟩
    have hrank := hle other (mem_companionsOf.mpr ⟨hother, hsome⟩)
    rw [companionRank, companionRank, hfile] at hrank
    exact hrank
  thrift_iff m := by
    rw [(thrifts_least moduleOf raw m).isSome_iff, ← modules_isSome_iff]
    simp only [mem_thriftOf, exists_and_right]
  thrift_least m stub hget := by
    have hleast := thrifts_least moduleOf raw m
    rw [hget] at hleast
    obtain ⟨hmem, hle⟩ := hleast
    obtain ⟨hstub, hthrift⟩ := mem_thriftOf.mp hmem
    exact ⟨hstub, fun other hother => hle other (mem_thriftOf.mpr ⟨hother, hthrift⟩)⟩

/-! ## The order of the entries -/

/-- Maps that compare equal: they have the same keys, with paths that are the same path. -/
def SameSources (s s' : SourceMap) : Prop :=
  (∀ m, (s.modules.get? m).map pathKey = (s'.modules.get? m).map pathKey) ∧
    (∀ m, (s.companionStubs.get? m).map pathKey = (s'.companionStubs.get? m).map pathKey) ∧
    ∀ m, (s.thriftStubs.get? m).map pathKey = (s'.thriftStubs.get? m).map pathKey

/-- No module has two different files of best priority. -/
def OneBest (moduleOf : Str → Option ModuleName) (raw : List (Str × PathBuf)) : Prop :=
  ∀ m path path', BestFileOf moduleOf raw m path → BestFileOf moduleOf raw m path' →
    pathKey path = pathKey path'

/-- The maps do not depend on the order of the entries. -/
def OrderFree (moduleOf : Str → Option ModuleName) (raw : List (Str × PathBuf)) : Prop :=
  ∀ l l' : List (Str × PathBuf), l.Perm raw → l'.Perm raw →
    SameSources (resolveSourceMap moduleOf l) (resolveSourceMap moduleOf l')

theorem fileOf_perm (h : raw.Perm raw') :
    FileOf moduleOf raw m priority path ↔ FileOf moduleOf raw' m priority path := by
  simp only [FileOf, h.mem_iff]

theorem stubOf_perm (h : raw.Perm raw') :
    StubOf moduleOf raw m path ↔ StubOf moduleOf raw' m path := by
  simp only [StubOf, h.mem_iff]

theorem bestFileOf_perm (h : raw.Perm raw') :
    BestFileOf moduleOf raw m path ↔ BestFileOf moduleOf raw' m path := by
  simp only [BestFileOf, fileOf_perm h]

/-- The shape of a file is told by what it is compared by. -/
theorem stubRank_congr {p q : PathBuf} (h : pathKey p = pathKey q) : stubRank p = stubRank q := by
  funext stub
  rw [stubRank, stubRank, isInitFile, isInitFile, isInitFile, fileStem_eq_of_pathKey h]

/-- Stubs of one rank are one path. -/
theorem pathKey_eq_of_stubRank {p stub stub' : PathBuf} (h : stubRank p stub = stubRank p stub') :
    pathKey stub = pathKey stub' :=
  congrArg (fun rank => (ofLex rank).2) h

/-- A best file that comes first is the one placed. -/
theorem modules_of_first {key : Str} {rest : List (Str × PathBuf)} (hname : moduleOf key = some m)
    (hbest : BestFileOf moduleOf ((key, path) :: rest) m path) :
    (resolveSourceMap moduleOf ((key, path) :: rest)).modules.get? m = some path := by
  obtain ⟨priority, ⟨hpy, hp, -⟩, hle⟩ := hbest
  obtain ⟨hmodules, -, -⟩ :=
    resolveSourceMap_spec moduleOf ((key, path) :: rest)
  have hentry : sourceEntry moduleOf (key, path) = some (m, priority, path) :=
    sourceEntry_eq_some.mpr ⟨Or.inl hpy, hname, hp, rfl⟩
  have hfirst : filesOf (((key, path) :: rest).filterMap (sourceEntry moduleOf)) =
      (m, priority, path) :: filesOf (rest.filterMap (sourceEntry moduleOf)) := by
    rw [List.filterMap_cons_some hentry]
    simp [filesOf, isStubFile_eq_false_of_isPythonFile hpy]
  rw [hmodules, hfirst, foldl_keepLeast_cons]
  · rfl
  · rintro ⟨p', path'⟩ hmem
    obtain ⟨hpy', hp', key', hmem', hname'⟩ := mem_filesOf.mp hmem
    exact hle p' path' ⟨hpy', hp', key', List.mem_cons_of_mem _ hmem', hname'⟩

/-- With one best file a module, every order leaves the same maps. -/
theorem orderFree_of_oneBest (h : OneBest moduleOf raw) : OrderFree moduleOf raw := by
  intro l l' hl hl'
  have hr := resolvesTo moduleOf l
  have hr' := resolvesTo moduleOf l'
  have hll : l.Perm l' := hl.trans hl'.symm
  have hhas : ∀ m, (∃ p path, FileOf moduleOf l m p path) ↔ ∃ p path, FileOf moduleOf l' m p path :=
    fun m => by simp only [fileOf_perm hll]
  have hstubs : ∀ m, (∃ stub, StubOf moduleOf l m stub) ↔ ∃ stub, StubOf moduleOf l' m stub :=
    fun m => by simp only [stubOf_perm hll]
  -- options with the same keys whose values agree
  have hagree : ∀ {o o' : Option PathBuf}, (o.isSome = true ↔ o'.isSome = true) →
      (∀ p p', o = some p → o' = some p' → pathKey p = pathKey p') →
      o.map pathKey = o'.map pathKey := by
    intro o o' hsome heq
    cases o with
    | none =>
      cases o' with
      | none => rfl
      | some p' => exact absurd (hsome.mpr rfl) (by simp)
    | some p =>
      cases o' with
      | none => exact absurd (hsome.mp rfl) (by simp)
      | some p' => exact congrArg some (heq p p' rfl rfl)
  have hfiles : ∀ m path path', (resolveSourceMap moduleOf l).modules.get? m = some path →
      (resolveSourceMap moduleOf l').modules.get? m = some path' → pathKey path = pathKey path' :=
    fun m path path' hget hget' =>
      h m path path' ((bestFileOf_perm hl).mp (hr.file_best m path hget))
        ((bestFileOf_perm hl').mp (hr'.file_best m path' hget'))
  refine ⟨fun m => hagree ?_ (hfiles m), fun m => hagree ?_ ?_, fun m => hagree ?_ ?_⟩
  · rw [hr.file_iff, hr'.file_iff, hhas]
  · rw [hr.companion_iff, hr'.companion_iff, hhas, hstubs]
  · intro stub stub' hget hget'
    obtain ⟨-, hfile⟩ := (hr.companion_iff m).mp (by rw [hget]; rfl)
    obtain ⟨path, hpath⟩ := Option.isSome_iff_exists.mp ((hr.file_iff m).mpr hfile)
    obtain ⟨path', hpath'⟩ := Option.isSome_iff_exists.mp
      ((hr'.file_iff m).mpr ((hhas m).mp hfile))
    obtain ⟨hstub, hle⟩ := hr.companion_least m path stub hpath hget
    obtain ⟨hstub', hle'⟩ := hr'.companion_least m path' stub' hpath' hget'
    rw [← stubRank_congr (hfiles m path path' hpath hpath')] at hle'
    exact pathKey_eq_of_stubRank (le_antisymm (hle stub' ((stubOf_perm hll).mpr hstub'))
      (hle' stub ((stubOf_perm hll).mp hstub)))
  · rw [hr.thrift_iff, hr'.thrift_iff, hhas, hstubs]
  · intro stub stub' hget hget'
    obtain ⟨hstub, hle⟩ := hr.thrift_least m stub hget
    obtain ⟨hstub', hle'⟩ := hr'.thrift_least m stub' hget'
    exact le_antisymm (hle stub' ((stubOf_perm hll).mpr hstub'))
      (hle' stub ((stubOf_perm hll).mp hstub))

/-- Of two different best files of a module either is placed by some order. -/
theorem oneBest_of_orderFree (h : OrderFree moduleOf raw) : OneBest moduleOf raw := by
  have hfirst : ∀ m path, BestFileOf moduleOf raw m path → ∃ l : List (Str × PathBuf),
      l.Perm raw ∧ (resolveSourceMap moduleOf l).modules.get? m = some path := by
    intro m path hbest
    obtain ⟨-, ⟨-, -, key, hmem, hname⟩, -⟩ := id hbest
    have hperm := (List.perm_cons_erase hmem).symm
    exact ⟨_, hperm, modules_of_first hname ((bestFileOf_perm hperm).mpr hbest)⟩
  intro m path path' hbest hbest'
  obtain ⟨l, hl, hget⟩ := hfirst m path hbest
  obtain ⟨l', hl', hget'⟩ := hfirst m path' hbest'
  have hsame := (h l l' hl hl').1 m
  rw [hget, hget'] at hsame
  exact Option.some.inj hsame

/-- Resolving depends on the entries alone, with the maps holding what they should in every
order, exactly when no module has two different files of best priority. -/
theorem sourceMap_order_free_iff (moduleOf : Str → Option ModuleName)
    (raw : List (Str × PathBuf)) :
    (OrderFree moduleOf raw ∧
      ∀ l : List (Str × PathBuf), l.Perm raw →
        ResolvesTo moduleOf raw (resolveSourceMap moduleOf l)) ↔
      OneBest moduleOf raw := by
  constructor
  · exact fun h => oneBest_of_orderFree h.1
  · refine fun h => ⟨orderFree_of_oneBest h, fun l hl => ?_⟩
    obtain ⟨hbest, hiff, hciff, hcleast, htiff, htleast⟩ :=
      resolvesTo moduleOf l
    simp only [fileOf_perm hl, stubOf_perm hl, bestFileOf_perm hl] at *
    exact ⟨hbest, hiff, hciff, hcleast, htiff, htleast⟩

/-- A package whose two possible files are both named by the database, neither being called
`__init__.py` on disk: the module is either file, by the order. -/
theorem sourceMap_two_files :
    let moduleOf : Str → Option ModuleName := fun key =>
      if key = "foo.py".toList ∨ key = "foo/__init__.py".toList then some "foo".toList else none
    let file := ("foo.py".toList, pathOf "lib/foo.py")
    let package := ("foo/__init__.py".toList, pathOf "gen/foo_init.py")
    (resolveSourceMap moduleOf [file, package]).modules.get? "foo".toList = some file.2 ∧
      (resolveSourceMap moduleOf [package, file]).modules.get? "foo".toList = some package.2 ∧
      ¬OrderFree moduleOf [file, package] := by
  intro moduleOf file package
  have hfile : (resolveSourceMap moduleOf [file, package]).modules.get? "foo".toList =
      some file.2 := by
    decide +kernel
  have hpackage : (resolveSourceMap moduleOf [package, file]).modules.get? "foo".toList =
      some package.2 := by
    decide +kernel
  refine ⟨hfile, hpackage, fun hfree => ?_⟩
  have hsame := (hfree [file, package] [package, file] (List.Perm.refl _)
    (List.Perm.swap _ _ _)).1 "foo".toList
  rw [hfile, hpackage] at hsame
  revert hsame
  decide +kernel

end Lifeguard
