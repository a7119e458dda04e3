import Lifeguard.Lib.Search
import Lifeguard.Lib.Table
import Lifeguard.Lib.Utf8
import Lifeguard.Paths
import Lifeguard.Syntax

/-!
# Finding the sources of a tree

Without a build that names its sources they are looked for (`find_sources.rs`): every Python
file below the input directory is a seed, and from each file that was found the files are
added that its imports resolve to, below the input directory or below site-packages. The
operating system and the two parsers are parameters (`Host`).

- `resolveImport_eq_some_iff`: an import is followed to its longest prefix that is there;
- `processQueue_spec`: the queue runs empty, and every file is read once;
- `search_spec`: the files found are those that can be reached from the seeds by following
  imports.
-/

namespace Lifeguard

open Lib Relation

/-! ## Paths, as their components -/

/-- The bytes of `Component::as_os_str`. -/
def Component.asOsStr : Component → List UInt8
  | rootDir => ascii "/"
  | curDir => ascii "."
  | parentDir => ascii ".."
  | normal name => name

/-- A path, as its components: what paths are compared by and what their prefixes are of. -/
abbrev FilePath := List Component

namespace FilePath

/-- `PathBuf::push`, on a path that is not empty. -/
def push (p : FilePath) (part : Str) : FilePath :=
  match PathBuf.components (part.map .char) with
  | .rootDir :: rest => .rootDir :: rest
  | .curDir :: rest => p ++ rest
  | rest => p ++ rest

/-- `Path::file_name`. -/
def fileName (p : FilePath) : Option (List UInt8) :=
  match p.getLast? with
  | some (.normal name) => some name
  | _ => none

/-- `Path::extension`. -/
def extension (p : FilePath) : Option (List UInt8) :=
  p.fileName.bind fun file =>
    let (before, after) := PathBuf.rsplitFileAtDot file
    if before.isSome then after else none

/-- `Path::file_stem`. -/
def fileStem (p : FilePath) : Option (List UInt8) :=
  p.fileName.bind fun file =>
    let (before, after) := PathBuf.rsplitFileAtDot file
    before.or after

/-- `PathBuf::set_extension`, for an extension that is not empty. -/
def setExtension (p : FilePath) (extension : List UInt8) : FilePath :=
  match p.fileStem with
  | none => p
  | some stem => p.dropLast ++ [.normal (stem ++ 46 :: extension)]

/-- `Path::strip_prefix`. -/
def stripPrefix (p base : FilePath) : Option FilePath :=
  if base.isPrefixOf p then some (p.drop base.length) else none

/-- `Path::parent`. -/
def parent (p : FilePath) : Option FilePath :=
  match p.getLast? with
  | none | some .rootDir => none
  | some _ => some p.dropLast

/-- `is_python_file`. -/
def isPythonFile (p : FilePath) : Bool := decide (p.extension = some (ascii "py"))

end FilePath

/-- `is_valid_python_identifier`. -/
def isValidPythonIdentifier : Str → Bool
  | [] => false
  | c :: rest => (c.isAlpha || c = '_') && rest.all fun c => c.isAlphanum || c = '_'

/-- A name of a file or directory that is a Python identifier. -/
def isIdentifierName (name : List UInt8) : Bool := (utf8ToStr name).any isValidPythonIdentifier

/-- `build_source_db_key`. -/
def buildSourceDbKey (path : FilePath) : Str :=
  List.intercalate ['/'] (path.map fun part => utf8ToStringLossy part.asOsStr)

/-- `Path::to_string_lossy`, of a path from the root. -/
def pathText : FilePath → Str
  | .rootDir :: rest => '/' :: buildSourceDbKey rest
  | path => buildSourceDbKey path

/-! ## What is asked of others -/

/-- A directory entry: a directory with its own entries, or anything else. Links are not
followed. -/
inductive DirEntry
  | file (name : List UInt8)
  | dir (name : List UInt8) (entries : List DirEntry)

/-- The operating system, and the parsers of Python at the version asked for and of the
project file. Only finitely many places exist, and each has its path from the root directory. -/
structure Host where
  isFile : FilePath → Bool
  canonicalize : FilePath → Option FilePath
  places : Finset FilePath
  canonicalize_mem : ∀ p q, canonicalize p = some q → q ∈ places
  canonicalize_names : ∀ p q, canonicalize p = some q →
    ∃ names : List (List UInt8), q = .rootDir :: names.map .normal ∧
      ∀ name ∈ names, name ≠ [] ∧ 47 ∉ name
  readToString : FilePath → Option Str
  entries : FilePath → List DirEntry
  parseModule : Str → Option (List Stmt)
  parseSitePackages : Str → Option (Option Str)

/-- What `build_source_db` fails with. -/
inductive SourceDbError
  /-- What the operating system says of the input directory. -/
  | inputDir
  /-- `Failed to read`, and the path. -/
  | failedToRead (path : FilePath)
  /-- `Failed to parse`, and the path. -/
  | failedToParse (path : FilePath)
  /-- `site_packages path not found`, and the path where the project file names it. -/
  | sitePackagesNotFound (path : Option FilePath)
  /-- `file resolved to a path outside of input_dir`. -/
  | outsideInputDir

/-! ## Resolving an import -/

section Model

variable (host : Host)

/-- `resolve_module`. -/
def resolveModule (root : FilePath) (parts : List Str) : Option FilePath :=
  let path := parts.foldl FilePath.push root
  let pyPath := path.setExtension (ascii "py")
  if host.isFile pyPath then some pyPath
  else
    let initPath := path ++ [.normal (ascii "__init__.py")]
    if host.isFile initPath then some initPath else none

/-- The first of the roots that has a module, in `resolve_import`. -/
def resolvePrefix (roots : List FilePath) (parts : List Str) : Option FilePath :=
  roots.findSome? fun root => resolveModule host root parts

/-- `resolve_import`: the longest prefix first. -/
def resolveImport (roots : List FilePath) (moduleName : Str) : Option FilePath :=
  let parts := moduleName.splitOn '.'
  ((List.range' 1 parts.length).reverse).findSome? fun len =>
    resolvePrefix host roots (parts.take len)

/-- `package_from_rel_path`. -/
def packageFromRelPath (relPath : FilePath) : Option Str :=
  relPath.parent.bind fun parent =>
    let parts := parent.filterMap fun part => utf8ToStr part.asOsStr
    if parts = [] then none else some (List.intercalate ['.'] parts)

/-- `resolve_relative_import`. -/
def resolveRelativeImport (level : Nat) (source : Option Str) (package : Str) : Option Str :=
  let parts := package.splitOn '.'
  if parts.length < level - 1 then none
  else
    let keep := parts.length - (level - 1)
    if keep = 0 then source
    else
      let base := List.intercalate ['.'] (parts.take keep)
      match source with
      | some m => some (base ++ '.' :: m)
      | none => some base

/-- The names of one statement in `extract_imports`. -/
def statementImports (package : Option Str) : Stmt → List Str
  | .importNames names _ => names.map fun a => a.name.id
  | .importFrom source level names _ _ =>
    if 0 < level then
      match package.bind (resolveRelativeImport level source) with
      | none => []
      | some base => names.map (fun a => base ++ '.' :: a.name.id) ++ [base]
    else
      match source with
      | some m => names.map (fun a => m ++ '.' :: a.name.id) ++ [m]
      | none => []
  | _ => []

/-- `extract_imports`. -/
def extractImports (source : Str) (package : Option Str) : List Str :=
  match host.parseModule source with
  | none => []
  | some body => body.flatMap (statementImports package)

/-! ## The search roots -/

/-- `load_site_packages`. -/
def loadSitePackages (inputDir : FilePath) : Except SourceDbError (Option FilePath) :=
  let pyprojectPath := inputDir.push "pyproject.toml".toList
  if !host.isFile pyprojectPath then .ok none
  else
    match host.readToString pyprojectPath with
    | none => .error (.failedToRead pyprojectPath)
    | some content =>
      match host.parseSitePackages content with
      | none => .error (.failedToParse pyprojectPath)
      | some none => .ok none
      | some (some spStr) =>
        let spPath := inputDir.push spStr
        match host.canonicalize spPath with
        | none => .error (.sitePackagesNotFound (some spPath))
        | some spPath => .ok (some spPath)

/-- The input directory and site-packages, as `build_source_db` looks into them. -/
structure SearchRoots where
  inputDir : FilePath
  sitePackages : Option FilePath

/-- The roots in the order in which they are searched. -/
def SearchRoots.roots (dirs : SearchRoots) : List FilePath :=
  dirs.inputDir :: dirs.sitePackages.toList

/-- The path of a file below the most specific root. -/
def SearchRoots.relKey (dirs : SearchRoots) (path : FilePath) : Option FilePath :=
  dirs.roots.reverse.findSome? fun root => path.stripPrefix root

/-- The roots of `build_source_db`: the override wins over the project file. -/
def searchRoots (inputDir : FilePath) (sitePackagesOverride : Option FilePath) :
    Except SourceDbError SearchRoots :=
  match host.canonicalize inputDir with
  | none => .error .inputDir
  | some inputDir =>
    match sitePackagesOverride with
    | some sp =>
      match host.canonicalize sp with
      | none => .error (.sitePackagesNotFound none)
      | some sp => .ok ⟨inputDir, some sp⟩
    | none => (loadSitePackages host inputDir).map fun sp => ⟨inputDir, sp⟩

/-! ## The search -/

/-- What `build_source_db` keeps: the entries put into `build_map`, in their order, the files
visited, those in the queue, and those that were read. -/
structure SourceSearch where
  buildMap : List (Str × FilePath) := []
  visited : Finset FilePath := ∅
  queue : List FilePath := []
  reads : List FilePath := []

/-- What the walk yields below a directory: no directory whose name is no identifier. -/
def walkEntry (path : FilePath) : DirEntry → List FilePath
  | .file name => [path ++ [.normal name]]
  | .dir name entries =>
    if isIdentifierName name then
      (path ++ [.normal name]) :: walkEntries (path ++ [.normal name]) entries
    else []
where
  /-- The entries of one directory. -/
  walkEntries (path : FilePath) : List DirEntry → List FilePath
    | [] => []
    | entry :: rest => walkEntry path entry ++ walkEntries path rest

/-- The Python files of the walk. -/
def walkedFiles (inputDir : FilePath) : List FilePath :=
  (inputDir :: walkEntry.walkEntries inputDir (host.entries inputDir)).filter fun path =>
    path.isPythonFile && path.fileStem.any isIdentifierName

/-- One file of the walk: it is a seed unless it was visited. -/
def seedFile (inputDir : FilePath) (st : SourceSearch) (path : FilePath) :
    Except SourceDbError SourceSearch :=
  match host.canonicalize path with
  | none => .ok st
  | some fullPath =>
    if fullPath ∈ st.visited then .ok st
    else
      match fullPath.stripPrefix inputDir with
      | none => .error .outsideInputDir
      | some relPath => .ok
          { st with
            visited := insert fullPath st.visited
            buildMap := st.buildMap ++ [(buildSourceDbKey relPath, fullPath)]
            queue := st.queue ++ [fullPath] }

/-- The walk. -/
def seedFiles (inputDir : FilePath) : Except SourceDbError SourceSearch :=
  (walkedFiles host inputDir).foldlM (seedFile host inputDir) {}

/-- The package against which the relative imports of a file are resolved. -/
def SearchRoots.package (dirs : SearchRoots) (file : FilePath) : Option Str :=
  (dirs.sitePackages.bind fun sp => file.stripPrefix sp).bind packageFromRelPath

/-- The names that a file imports at its top level, none when it cannot be read. -/
def importsOf (dirs : SearchRoots) (file : FilePath) : List Str :=
  match host.readToString file with
  | none => []
  | some source => extractImports host source (dirs.package file)

/-- One imported name: what it resolves to is queued unless it was visited or is below no
root. -/
def followImport (dirs : SearchRoots) (st : SourceSearch) (moduleName : Str) : SourceSearch :=
  match (resolveImport host dirs.roots moduleName).bind host.canonicalize with
  | none => st
  | some resolved =>
    if resolved ∈ st.visited then st
    else
      let st := { st with visited := insert resolved st.visited }
      match dirs.relKey resolved with
      | none => st
      | some relKey =>
        { st with
          buildMap := st.buildMap ++ [(buildSourceDbKey relKey, resolved)]
          queue := st.queue ++ [resolved] }

/-- The work queue. No result is a search that ran out of fuel. -/
def processQueue (dirs : SearchRoots) : Nat → SourceSearch → Option SourceSearch
  | 0, _ => none
  | fuel + 1, st =>
    match st.queue with
    | [] => some st
    | file :: queue =>
      processQueue dirs fuel ((importsOf host dirs file).foldl (followImport host dirs)
        { st with queue := queue, reads := st.reads ++ [file] })

/-- What `build_source_db` returns, with the search it comes from. -/
structure SourceDb where
  search : SourceSearch
  buildMap : Table Str Str
  seedCount : Nat

/-- `build_source_db`, with fuel for every place there is. -/
def buildSourceDb (inputDir : FilePath) (sitePackagesOverride : Option FilePath) :
    Except SourceDbError (Option SourceDb) := do
  let dirs ← searchRoots host inputDir sitePackagesOverride
  let seeded ← seedFiles host dirs.inputDir
  let seedCount := (Table.ofList seeded.buildMap).keys.length
  return (processQueue host dirs (host.places.card + 1) seeded).map fun search =>
    { search := search
      buildMap := (Table.ofList search.buildMap).mapVals fun _ path => pathText path
      seedCount := seedCount }

end Model

/-! ## What an import is followed to -/

section Follow

variable (host : Host) (dirs : SearchRoots)

/-- The file a path leads to, where that is below a root. -/
def placeOf (path : FilePath) : Option FilePath :=
  (host.canonicalize path).filter fun file => (dirs.relKey file).isSome

/-- The file that an imported name is followed to. -/
def importTarget (name : Str) : Option FilePath :=
  (resolveImport host dirs.roots name).bind (placeOf host dirs)

variable {host dirs}

/-- Looking from the greatest number down finds the greatest that gives something. -/
theorem findSome?_range'_reverse {β : Type} {f : Nat → Option β} {n : Nat} {b : β} :
    ((List.range' 1 n).reverse).findSome? f = some b ↔
      ∃ k, 1 ≤ k ∧ k ≤ n ∧ f k = some b ∧ ∀ k', k < k' → k' ≤ n → f k' = none := by
  induction n with
  | zero =>
    refine iff_of_false (by simp) ?_
    rintro ⟨k, hk, hk', -⟩
    omega
  | succ n ih =>
    -- the greatest number is looked at first
    have hrange : (List.range' 1 (n + 1)).reverse = (n + 1) :: (List.range' 1 n).reverse := by
      rw [List.range'_concat, List.reverse_append, Nat.one_mul, Nat.add_comm 1 n]
      rfl
    rw [hrange, List.findSome?_cons]
    cases hlast : f (n + 1) with
    | some c =>
      constructor
      · intro h
        refine ⟨n + 1, Nat.le_add_left 1 n, le_refl _, hlast.trans h, fun k' hk' hle => ?_⟩
        omega
      · rintro ⟨k, _, hle, hk, hnone⟩
        rcases Nat.lt_or_eq_of_le hle with hlt | rfl
        · rw [hnone (n + 1) hlt (le_refl _)] at hlast
          cases hlast
        · exact hlast.symm.trans hk
    | none =>
      rw [ih]
      refine exists_congr fun k => and_congr_right fun _ => ?_
      constructor
      · rintro ⟨hle, hk, hnone⟩
        refine ⟨Nat.le_succ_of_le hle, hk, fun k' hlt hle' => ?_⟩
        rcases Nat.lt_or_eq_of_le hle' with hlt' | rfl
        · exact hnone k' hlt (Nat.le_of_lt_succ hlt')
        · exact hlast
      · rintro ⟨hle, hk, hnone⟩
        refine ⟨?_, hk, fun k' hlt hle' => hnone k' hlt (Nat.le_succ_of_le hle')⟩
        rcases Nat.lt_or_eq_of_le hle with hlt | rfl
        · exact Nat.le_of_lt_succ hlt
        · rw [hlast] at hk
          cases hk

/-- An import resolves as its longest prefix that does. -/
theorem resolveImport_eq_some_iff {roots : List FilePath} {name : Str} {path : FilePath} :
    resolveImport host roots name = some path ↔
      ∃ len, 1 ≤ len ∧ len ≤ (name.splitOn '.').length ∧
        resolvePrefix host roots ((name.splitOn '.').take len) = some path ∧
        ∀ len', len < len' → len' ≤ (name.splitOn '.').length →
          resolvePrefix host roots ((name.splitOn '.').take len') = none :=
  findSome?_range'_reverse

end Follow

/-! ## The search -/

section Search

variable (host : Host) (dirs : SearchRoots)

/-- The file is followed to from the other. -/
def Follows (file found : FilePath) : Prop :=
  ∃ name ∈ importsOf host dirs file, importTarget host dirs name = some found

/-- The files that the walk seeds the queue with. -/
def seedsOf : List FilePath := (walkedFiles host dirs.inputDir).filterMap host.canonicalize

/-- The entry of a seed: its key is its path below the input directory. -/
def seedEntry (file : FilePath) : Str × FilePath :=
  (buildSourceDbKey ((file.stripPrefix dirs.inputDir).getD []), file)

/-- The entry of a file that an import led to: its key is its path below the most specific
root. -/
def followedEntry (file : FilePath) : Str × FilePath :=
  (buildSourceDbKey ((dirs.relKey file).getD []), file)

/-- The entry of a file that was found. -/
def foundEntry (file : FilePath) : Str × FilePath :=
  if file ∈ seedsOf host dirs then seedEntry dirs file else followedEntry dirs file

variable {host dirs}

/-- The walk fails only where a file lies outside of the input directory, and leaves each
file once in the queue. -/
theorem seedFiles_spec
    (hinside : ∀ file ∈ seedsOf host dirs, (file.stripPrefix dirs.inputDir).isSome) :
    ∃ seeds : List FilePath, seeds.Nodup ∧ (∀ file, file ∈ seeds ↔ file ∈ seedsOf host dirs) ∧
      seedFiles host dirs.inputDir = .ok
        { buildMap := seeds.map (seedEntry dirs)
          visited := seeds.toFinset
          queue := seeds } := by
  -- over the walk, the queue, the entries and what was visited list the same files
  have hfrom : ∀ (paths before : List FilePath), before.Nodup →
      (∀ file ∈ paths.filterMap host.canonicalize, (file.stripPrefix dirs.inputDir).isSome) →
      ∃ seeds : List FilePath, seeds.Nodup ∧
        (∀ file, file ∈ seeds ↔ file ∈ before ∨ file ∈ paths.filterMap host.canonicalize) ∧
        paths.foldlM (seedFile host dirs.inputDir)
            { buildMap := before.map (seedEntry dirs)
              visited := before.toFinset
              queue := before } = .ok
          { buildMap := seeds.map (seedEntry dirs)
            visited := seeds.toFinset
            queue := seeds } := by
    intro paths
    induction paths with
    | nil => exact fun before hnodup _ => ⟨before, hnodup, by simp, rfl⟩
    | cons path paths ih =>
      intro before hnodup hinside
      rw [List.foldlM_cons, seedFile]
      cases hfull : host.canonicalize path with
      | none =>
        rw [List.filterMap_cons_none hfull] at hinside ⊢
        exact ih before hnodup hinside
      | some fullPath =>
        rw [List.filterMap_cons_some hfull] at hinside ⊢
        have hrest := fun file hfile => hinside file (List.mem_cons_of_mem fullPath hfile)
        -- two paths of the walk may be links to one file, which is then queued once
        by_cases hvisited : fullPath ∈ before
        · obtain ⟨seeds, hseeds, hmem, hrun⟩ := ih before hnodup hrest
          refine ⟨seeds, hseeds, fun file => (hmem file).trans ?_, ?_⟩
          · rw [List.mem_cons]
            constructor
            · exact fun h => h.imp_right Or.inr
            · rintro (h | rfl | h)
              · exact Or.inl h
              · exact Or.inl hvisited
              · exact Or.inr h
          · dsimp only
            rw [if_pos (List.mem_toFinset.mpr hvisited)]
            exact hrun
        · have hnodup' : (before ++ [fullPath]).Nodup := by
            rw [List.nodup_append_comm]
            exact List.nodup_cons.mpr ⟨hvisited, hnodup⟩
          obtain ⟨seeds, hseeds, hmem, hrun⟩ := ih (before ++ [fullPath]) hnodup' hrest
          refine ⟨seeds, hseeds, fun file => (hmem file).trans ?_, ?_⟩
          · rw [List.mem_append, List.mem_singleton, List.mem_cons, or_assoc]
          · obtain ⟨relPath, hrel⟩ :=
              Option.isSome_iff_exists.mp (hinside fullPath List.mem_cons_self)
            dsimp only
            rw [if_neg fun h => hvisited (List.mem_toFinset.mp h), hrel]
            have hstate : ({
                buildMap := before.map (seedEntry dirs) ++ [(buildSourceDbKey relPath, fullPath)]
                visited := insert fullPath before.toFinset
                queue := before ++ [fullPath] } : SourceSearch) =
                { buildMap := (before ++ [fullPath]).map (seedEntry dirs)
                  visited := (before ++ [fullPath]).toFinset
                  queue := before ++ [fullPath] } := by
              have hentry : seedEntry dirs fullPath = (buildSourceDbKey relPath, fullPath) := by
                rw [seedEntry, hrel, Option.getD_some]
              rw [List.map_append, List.map_singleton, hentry, List.toFinset_append,
                Finset.union_comm]
              rfl
            exact (congrArg (fun st => paths.foldlM (seedFile host dirs.inputDir) st) hstate).trans
              hrun
  obtain ⟨seeds, hnodup, hmem, hrun⟩ := hfrom (walkedFiles host dirs.inputDir) []
    List.nodup_nil hinside
  exact ⟨seeds, hnodup, fun file => (hmem file).trans (by simp [seedsOf]), hrun⟩

/-- An import that leads below no root changes at most what was visited elsewhere. -/
theorem followImport_of_none (st : SourceSearch) {name : Str}
    (h : importTarget host dirs name = none) :
    ∃ visited, followImport host dirs st name = { st with visited := visited } ∧
      ∀ file, (dirs.relKey file).isSome → (file ∈ visited ↔ file ∈ st.visited) := by
  rw [followImport]
  rw [importTarget] at h
  cases hpath : resolveImport host dirs.roots name with
  | none => exact ⟨st.visited, rfl, fun _ _ => Iff.rfl⟩
  | some path =>
    rw [hpath, Option.bind_some, placeOf] at h
    rw [Option.bind_some]
    cases hresolved : host.canonicalize path with
    | none => exact ⟨st.visited, rfl, fun _ _ => Iff.rfl⟩
    | some resolved =>
      rw [hresolved, Option.filter_eq_none_iff] at h
      have houtside : dirs.relKey resolved = none := by
        cases hrel : dirs.relKey resolved with
        | none => rfl
        | some relKey => exact absurd (by rw [hrel]; rfl) (h resolved rfl)
      dsimp only
      split
      · exact ⟨st.visited, rfl, fun _ _ => Iff.rfl⟩
      · rw [houtside]
        refine ⟨insert resolved st.visited, rfl, fun file hfile => ?_⟩
        rw [Finset.mem_insert]
        refine or_iff_right ?_
        rintro rfl
        rw [houtside] at hfile
        cases hfile

/-- An import that leads below a root is queued unless it was visited. -/
theorem followImport_of_some {st : SourceSearch} {name : Str} {file : FilePath}
    (h : importTarget host dirs name = some file) :
    followImport host dirs st name =
      if file ∈ st.visited then st
      else
        { st with
          visited := insert file st.visited
          buildMap := st.buildMap ++ [followedEntry dirs file]
          queue := st.queue ++ [file] } := by
  obtain ⟨path, hpath, hplace⟩ := Option.bind_eq_some_iff.mp h
  obtain ⟨hresolved, hrel⟩ := Option.filter_eq_some_iff.mp hplace
  obtain ⟨relKey, hrel⟩ := Option.isSome_iff_exists.mp hrel
  rw [followImport, hpath, Option.bind_some, hresolved]
  dsimp only
  rw [hrel, followedEntry, hrel, Option.getD_some]

/-- The imports of one file: what they lead to and was not met becomes pending, each once. -/
theorem foldl_followImport (names : List Str) (st : SourceSearch)
    (hvisited : ∀ file, (dirs.relKey file).isSome →
      (file ∈ st.visited ↔ file ∈ st.reads ++ st.queue)) :
    ∃ fresh : List FilePath, fresh.Nodup ∧
      (∀ file, file ∈ fresh ↔
        (∃ name ∈ names, importTarget host dirs name = some file) ∧
          file ∉ st.reads ++ st.queue) ∧
      ∃ visited, names.foldl (followImport host dirs) st =
          { buildMap := st.buildMap ++ fresh.map (followedEntry dirs)
            visited := visited
            queue := st.queue ++ fresh
            reads := st.reads } ∧
        ∀ file, (dirs.relKey file).isSome →
          (file ∈ visited ↔ file ∈ st.reads ++ (st.queue ++ fresh)) := by
  induction names generalizing st with
  | nil => exact ⟨[], List.nodup_nil, by simp, st.visited, by simp, by simpa using hvisited⟩
  | cons name names ih =>
    rw [List.foldl_cons]
    cases htarget : importTarget host dirs name with
    | none =>
      obtain ⟨visited, hstep, hsame⟩ := followImport_of_none st htarget
      rw [hstep]
      obtain ⟨fresh, hnodup, hmem, hrun⟩ := ih { st with visited := visited } fun file hfile =>
        (hsame file hfile).trans (hvisited file hfile)
      refine ⟨fresh, hnodup, fun file => (hmem file).trans (and_congr_left fun _ => ?_), hrun⟩
      rw [List.exists_mem_cons_iff, htarget]
      simp
    | some target =>
      rw [followImport_of_some htarget]
      have hbelow : (dirs.relKey target).isSome := by
        obtain ⟨path, -, hplace⟩ := Option.bind_eq_some_iff.mp htarget
        exact (Option.filter_eq_some_iff.mp hplace).2
      -- what was visited below a root was met, so the import adds nothing
      by_cases hmet : target ∈ st.visited
      · rw [if_pos hmet]
        obtain ⟨fresh, hnodup, hmem, hrun⟩ := ih st hvisited
        refine ⟨fresh, hnodup, fun file => (hmem file).trans (and_congr_left fun hnot => ?_), hrun⟩
        rw [List.exists_mem_cons_iff, htarget, Option.some.injEq]
        refine (or_iff_right ?_).symm
        rintro rfl
        exact hnot ((hvisited target hbelow).mp hmet)
      · rw [if_neg hmet]
        have hnotmet : target ∉ st.reads ++ st.queue := fun h =>
          hmet ((hvisited target hbelow).mpr h)
        obtain ⟨fresh, hnodup, hmem, visited, hrun, hafter⟩ := ih
          { st with
            visited := insert target st.visited
            buildMap := st.buildMap ++ [followedEntry dirs target]
            queue := st.queue ++ [target] } fun file hfile => by
              rw [Finset.mem_insert, hvisited file hfile, ← List.append_assoc,
                List.mem_append (t := [target]), List.mem_singleton, or_comm]
        have hfresh : target ∉ fresh := fun h => ((hmem target).mp h).2 (by simp)
        refine ⟨target :: fresh, List.nodup_cons.mpr ⟨hfresh, hnodup⟩, fun file => ?_, visited, ?_,
          fun file hfile => ?_⟩
        · rw [List.mem_cons, hmem, List.exists_mem_cons_iff, htarget, Option.some.injEq]
          dsimp only
          rw [← List.append_assoc, List.mem_append (t := [target]), List.mem_singleton]
          by_cases heq : file = target
          · subst heq
            simp [hnotmet]
          · simp [heq, Ne.symm heq]
        · rw [hrun]
          simp
        · rw [hafter file hfile]
          simp

/-- What holds between two files of the queue: the entries are those of the files met, in the
order in which they were met, and below the roots these are the files visited. -/
structure Searching (host : Host) (dirs : SearchRoots) (seeds : List FilePath)
    (st : SourceSearch) : Prop where
  entries : st.buildMap = (st.reads ++ st.queue).map (foundEntry host dirs)
  visited : ∀ file, (dirs.relKey file).isSome → (file ∈ st.visited ↔ file ∈ st.reads ++ st.queue)
  explored : Lib.Explored (Follows host dirs) seeds ⟨st.reads, st.queue⟩

/-- One file of the queue is one visit of the exploration. -/
theorem Searching.read {seeds : List FilePath} {st : SourceSearch}
    (hseeds : ∀ file, file ∈ seeds ↔ file ∈ seedsOf host dirs) (h : Searching host dirs seeds st)
    {file : FilePath} {queue : List FilePath} (hqueue : st.queue = file :: queue) :
    ∃ st', (importsOf host dirs file).foldl (followImport host dirs)
        { st with queue := queue, reads := st.reads ++ [file] } = st' ∧
      Searching host dirs seeds st' ∧ st'.reads = st.reads ++ [file] := by
  have hmet : st.reads ++ [file] ++ queue = st.reads ++ st.queue := by rw [hqueue]; simp
  obtain ⟨fresh, hnodup, hmem, visited, hrun, hafter⟩ := foldl_followImport
    (importsOf host dirs file) { st with queue := queue, reads := st.reads ++ [file] }
    fun found hfound => (h.visited found hfound).trans (by rw [hmet])
  dsimp only at hmem hrun hafter
  rw [hmet] at hmem
  refine ⟨_, hrun, ⟨?_, hafter, ?_⟩, rfl⟩
  · -- what is fresh is no seed, for the seeds were met
    have hentries : fresh.map (followedEntry dirs) = fresh.map (foundEntry host dirs) := by
      refine List.map_congr_left fun found hfound => ?_
      have hnotseed : found ∉ seedsOf host dirs := fun hseed =>
        ((hmem found).mp hfound).2 (h.explored.seeds_met found ((hseeds found).mpr hseed))
      rw [foundEntry, if_neg hnotseed]
    dsimp only
    rw [h.entries, hentries, ← List.append_assoc, hmet, ← List.map_append]
  · refine h.explored.visit ?_
    have hfrontier : (⟨st.reads, st.queue⟩ : Frontier FilePath) =
        ⟨st.reads, [] ++ file :: queue⟩ := by
      rw [hqueue, List.nil_append]
    rw [hfrontier]
    refine Visit.visit hnodup (fun found => ?_) (List.Perm.refl _)
    rw [hmem, List.nil_append, hqueue]
    rfl

/-- There are no more files to meet than places. -/
theorem Searching.length_le {seeds : List FilePath} {st : SourceSearch}
    (hseeds : ∀ file, file ∈ seeds ↔ file ∈ seedsOf host dirs)
    (h : Searching host dirs seeds st) : (st.reads ++ st.queue).length ≤ host.places.card := by
  refine h.explored.length_le (fun file hfile => ?_) fun file _ found hfound => ?_
  · obtain ⟨path, -, hpath⟩ := List.mem_filterMap.mp ((hseeds file).mp hfile)
    exact host.canonicalize_mem path file hpath
  · obtain ⟨name, -, htarget⟩ := hfound
    obtain ⟨path, -, hplace⟩ := Option.bind_eq_some_iff.mp htarget
    exact host.canonicalize_mem path found (Option.filter_eq_some_iff.mp hplace).1

/-- With fuel for every place the queue runs empty. -/
theorem processQueue_spec {seeds : List FilePath}
    (hseeds : ∀ file, file ∈ seeds ↔ file ∈ seedsOf host dirs) {fuel : Nat} {st : SourceSearch}
    (h : Searching host dirs seeds st) (hfuel : host.places.card < st.reads.length + fuel) :
    ∃ final, processQueue host dirs fuel st = some final ∧ Searching host dirs seeds final ∧
      final.queue = [] := by
  induction fuel generalizing st with
  | zero =>
    have hplaces := h.length_le hseeds
    rw [List.length_append] at hplaces
    omega
  | succ fuel ih =>
    rw [processQueue]
    cases hqueue : st.queue with
    | nil => exact ⟨st, rfl, h, hqueue⟩
    | cons file queue =>
      obtain ⟨st', hrun, hread, hreads⟩ := h.read hseeds hqueue
      dsimp only
      rw [hrun]
      refine ih hread ?_
      rw [hreads, List.length_append, List.length_singleton]
      omega

variable (host dirs) in
/-- The files that the search reaches: the seeds, and what is followed to from them. -/
def Reached (file : FilePath) : Prop :=
  ∃ seed ∈ seedsOf host dirs, ReflTransGen (Follows host dirs) seed file

/-- The files of the entries of `build_map`. -/
def SourceSearch.included (search : SourceSearch) : List FilePath := search.buildMap.map Prod.snd

/-- The whole search ends with the files that are reached, each read once and each with its
entry. -/
theorem search_spec
    (hinside : ∀ file ∈ seedsOf host dirs, (file.stripPrefix dirs.inputDir).isSome) :
    ∃ seeded final, seedFiles host dirs.inputDir = .ok seeded ∧
      processQueue host dirs (host.places.card + 1) seeded = some final ∧
      final.reads.Nodup ∧ final.buildMap = final.reads.map (foundEntry host dirs) ∧
      ∀ file, file ∈ final.reads ↔ Reached host dirs file := by
  obtain ⟨seeds, hnodup, hseeds, hseeded⟩ := seedFiles_spec hinside
  have hstart : Searching host dirs seeds
      { buildMap := seeds.map (seedEntry dirs), visited := seeds.toFinset, queue := seeds } := by
    refine ⟨List.map_congr_left fun file hfile => ?_, fun file _ => List.mem_toFinset,
      explored_start hnodup⟩
    rw [foundEntry, if_pos ((hseeds file).mp hfile)]
  have hfuel : host.places.card < ([] : List FilePath).length + (host.places.card + 1) := by simp
  obtain ⟨final, hrun, hfinal, hempty⟩ := processQueue_spec hseeds hstart hfuel
  refine ⟨_, final, hseeded, hrun, ?_, ?_, fun file => ?_⟩
  · have hmet : (final.reads ++ final.queue).Nodup := hfinal.explored.nodup
    rwa [hempty, List.append_nil] at hmet
  · rw [hfinal.entries, hempty, List.append_nil]
  · rw [Reached]
    exact (hfinal.explored.mem_visited hempty).trans
      (exists_congr fun seed => and_congr_left fun _ => hseeds seed)

/-- What is a seed or is followed to is reached, and nothing else. -/
theorem reached_iff {file : FilePath} :
    Reached host dirs file ↔ file ∈ seedsOf host dirs ∨
      ∃ other, Reached host dirs other ∧ Follows host dirs other file := by
  constructor
  · rintro ⟨seed, hseed, hpath⟩
    rcases hpath.cases_tail with rfl | ⟨other, hrest, hlast⟩
    · exact Or.inl hseed
    · exact Or.inr ⟨other, ⟨seed, hseed, hrest⟩, hlast⟩
  · rintro (hseed | ⟨other, ⟨seed, hseed, hrest⟩, hlast⟩)
    · exact ⟨file, hseed, .refl⟩
    · exact ⟨seed, hseed, hrest.tail hlast⟩

end Search

end Lifeguard
