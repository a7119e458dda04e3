import Mathlib.Data.List.TakeWhile
import Lifeguard.FindSources

/-!
# What imports run

Importing a dotted name runs the packages on its way, and here it is said, apart from the code
that looks for sources, what a top-level statement imports (`StatementImports`) and which file a
module is (`moduleRun`: the first root that has it, and there its package before its file).

- `dotted_mem_importsOf`: the names listed of a file are at least those that it imports;
- `runs_cases`: what an import runs is followed, but for the packages passed over on the way to a
  longer name and those beside a file of their name (`LeftOut`);
- `keys_injective_iff`: two files have one key only where they lie at one path below two roots,
  or where names that are no text read alike (`KeysApart`);
- `buildSourceDb_complete_iff`: all that imports run is found, each under a key of its own,
  exactly when what is left out is found in another way and no two keys are the same.
-/

namespace Lifeguard

open Lib Relation

/-! ## What a statement imports -/

/-- A name between dots. Every identifier of Python is one. -/
structure IsNamePart (part : Str) : Prop where
  nonempty : part ≠ []
  no_dot : '.' ∉ part
  no_slash : '/' ∉ part

/-- The parts of a dotted name. -/
structure IsName (parts : List Str) : Prop where
  nonempty : parts ≠ []
  parts : ∀ part ∈ parts, IsNamePart part

instance : DecidablePred IsNamePart := fun part =>
  decidable_of_iff (part ≠ [] ∧ '.' ∉ part ∧ '/' ∉ part)
    ⟨fun h => ⟨h.1, h.2.1, h.2.2⟩, fun h => ⟨h.nonempty, h.no_dot, h.no_slash⟩⟩

instance : DecidablePred IsName := fun parts =>
  decidable_of_iff (parts ≠ [] ∧ ∀ part ∈ parts, IsNamePart part)
    ⟨fun h => ⟨h.1, h.2⟩, fun h => ⟨h.nonempty, h.parts⟩⟩

/-- The name with dots between its parts. -/
def dotted (parts : List Str) : Str := List.intercalate ['.'] parts

/-- The module a from-import is of, in a file of the package: as it is written, or as many
packages above as there are dots after the first. -/
inductive SourceModule (package : List Str) : Nat → Option Str → List Str → Prop
  | absolute {parts : List Str} (hparts : IsName parts) :
    SourceModule package 0 (some (dotted parts)) parts
  | relative {above : Nat} {parts : List Str} (habove : above < package.length)
    (hparts : IsName parts) :
    SourceModule package (above + 1) (some (dotted parts))
      (package.take (package.length - above) ++ parts)
  | package {above : Nat} (habove : above < package.length) :
    SourceModule package (above + 1) none (package.take (package.length - above))

/-- The statement imports the name: a module, or what may be a module of one. -/
inductive StatementImports (package : List Str) : Stmt → List Str → Prop
  | module {names : List ImportAlias} {isLazy : Bool} {a : ImportAlias} {parts : List Str}
    (ha : a ∈ names) (hname : a.name.id = dotted parts) (hparts : IsName parts) :
    StatementImports package (.importNames names isLazy) parts
  | source {source : Option Str} {level : Nat} {names : List ImportAlias} {isLazy : Bool}
    {range : TextRange} {base : List Str} (hbase : SourceModule package level source base) :
    StatementImports package (.importFrom source level names isLazy range) base
  | member {source : Option Str} {level : Nat} {names : List ImportAlias} {isLazy : Bool}
    {range : TextRange} {base : List Str} {a : ImportAlias}
    (hbase : SourceModule package level source base) (ha : a ∈ names)
    (hpart : IsNamePart a.name.id) (hstar : a.name.id ≠ ['*']) :
    StatementImports package (.importFrom source level names isLazy range) (base ++ [a.name.id])

/-- The package of a file of site-packages: the directories on the way to it. -/
def PackageOf (dirs : SearchRoots) (file : FilePath) (package : List Str) : Prop :=
  ∃ (sp : FilePath) (names : List (List UInt8)) (fileName : List UInt8),
    dirs.sitePackages = some sp ∧ file = sp ++ (names.map Component.normal ++ [.normal fileName]) ∧
    names.mapM utf8ToStr = some package ∧ ∀ part ∈ package, IsNamePart part

/-- A top-level statement of the file imports the name: absolutely, or relative to the package of
a file of site-packages. -/
def FileImports (host : Host) (dirs : SearchRoots) (file : FilePath) (name : List Str) : Prop :=
  ∃ text body stmt package, host.readToString file = some text ∧
    host.parseModule text = some body ∧ stmt ∈ body ∧
    (package = [] ∨ PackageOf dirs file package) ∧ StatementImports package stmt name

/-! ## The file a module is -/

/-- The directory of a package. -/
def packageDir (root : FilePath) (parts : List Str) : FilePath :=
  root ++ parts.map fun part => .normal (utf8 part)

/-- `a/b/__init__.py`, of the package `a.b`. -/
def packageFile (root : FilePath) (parts : List Str) : FilePath :=
  packageDir root parts ++ [.normal (ascii "__init__.py")]

/-- `a/b.py`, of the module `a.b`. -/
def moduleFile (root : FilePath) (parts : List Str) : FilePath :=
  packageDir root parts.dropLast ++ [.normal (utf8 (parts.getLastD [] ++ ".py".toList))]

section Spec

variable (host : Host) (dirs : SearchRoots)

/-- The first of the roots that has the module. -/
def moduleRoot (parts : List Str) : Option FilePath :=
  dirs.roots.find? fun root =>
    host.isFile (packageFile root parts) || host.isFile (moduleFile root parts)

/-- The file that importing the module runs, of a root that has it: of a package its own file,
whatever stands beside it. -/
def moduleRun (root : FilePath) (parts : List Str) : FilePath :=
  if host.isFile (packageFile root parts) then packageFile root parts else moduleFile root parts

/-- Importing the name runs the file: it is that of the module of the name, or of one of the
packages on the way to it. -/
def Runs (name : List Str) (file : FilePath) : Prop :=
  ∃ parts root, parts ≠ [] ∧ parts <+: name ∧ moduleRoot host dirs parts = some root ∧
    placeOf host dirs (moduleRun host root parts) = some file

/-- The kinds of files that an import runs and that are left out where it is followed: packages
passed over, since a longer name is there as well, and packages that have a file of their name
beside them. -/
inductive LeftOut (name : List Str) (file : FilePath) : Prop
  | passedOver {parts longer : List Str} {root : FilePath} (hparts : parts ≠ [])
    (hbegins : parts <+: name) (hroot : moduleRoot host dirs parts = some root)
    (hplace : placeOf host dirs (moduleRun host root parts) = some file)
    (hlonger : longer <+: name) (hlength : parts.length < longer.length)
    (hthere : (moduleRoot host dirs longer).isSome)
  | beside {parts : List Str} {root : FilePath} (hparts : parts ≠ []) (hbegins : parts <+: name)
    (hroot : moduleRoot host dirs parts = some root)
    (hpackage : host.isFile (packageFile root parts) = true)
    (hmodule : host.isFile (moduleFile root parts) = true)
    (hplace : placeOf host dirs (packageFile root parts) = some file)

end Spec

/-! ## Names with dots -/

theorem splitOn_dotted {parts : List Str} (h : IsName parts) :
    (dotted parts).splitOn '.' = parts :=
  List.splitOn_intercalate '.' (fun part hpart => (h.parts part hpart).no_dot) h.nonempty

theorem dotted_append {parts rest : List Str} (hparts : parts ≠ []) (hrest : rest ≠ []) :
    dotted (parts ++ rest) = dotted parts ++ '.' :: dotted rest := by
  induction parts with
  | nil => exact absurd rfl hparts
  | cons part parts ih =>
    cases parts with
    | nil =>
      rw [dotted, List.singleton_append, List.intercalate_cons_of_ne_nil hrest]
      simp [dotted]
    | cons next parts =>
      have ih := ih (List.cons_ne_nil _ _)
      rw [List.cons_append, dotted, List.intercalate_cons_of_ne_nil (by simp), dotted,
        List.intercalate_cons_of_ne_nil (List.cons_ne_nil _ _), List.append_assoc, List.append_assoc,
        List.append_assoc]
      exact congrArg (fun text => part ++ (['.'] ++ text)) ih

theorem IsName.append {parts rest : List Str} (hparts : IsName parts)
    (hrest : ∀ part ∈ rest, IsNamePart part) : IsName (parts ++ rest) :=
  ⟨List.append_ne_nil_of_left_ne_nil hparts.nonempty _, fun part hpart =>
    (List.mem_append.mp hpart).elim (hparts.parts part) (hrest part)⟩

theorem IsName.of_prefix {parts name : List Str} (hname : IsName name) (hparts : parts ≠ [])
    (h : parts <+: name) : IsName parts :=
  ⟨hparts, fun part hpart => hname.parts part (h.subset hpart)⟩

/-! ## The names that are listed -/

section Listed

variable {host : Host} {dirs : SearchRoots} {file : FilePath} {package : List Str}

/-- The package of a file of site-packages is listed with dots. -/
theorem package_of_packageOf (h : PackageOf dirs file package) (hpackage : package ≠ []) :
    IsName package ∧ dirs.package file = some (dotted package) := by
  obtain ⟨sp, names, fileName, hsp, rfl, htext, hparts⟩ := h
  refine ⟨⟨hpackage, hparts⟩, ?_⟩
  have hstrip : FilePath.stripPrefix (sp ++ (names.map Component.normal ++ [.normal fileName])) sp =
      some (names.map Component.normal ++ [.normal fileName]) := by
    rw [FilePath.stripPrefix, if_pos (by simp), List.drop_left]
  have hparent : FilePath.parent (names.map Component.normal ++ [.normal fileName]) =
      some (names.map Component.normal) := by
    rw [FilePath.parent, List.getLast?_concat, List.dropLast_concat]
  have htexts : ∀ (names : List (List UInt8)) (package : List Str),
      names.mapM utf8ToStr = some package →
        (names.map Component.normal).filterMap (fun part => utf8ToStr part.asOsStr) = package := by
    intro names
    induction names with
    | nil =>
      intro package h
      cases h
      rfl
    | cons name names ih =>
      intro package h
      rw [List.mapM_cons] at h
      obtain ⟨part, hpart, h⟩ := Option.bind_eq_some_iff.mp h
      obtain ⟨rest, hrest, h⟩ := Option.bind_eq_some_iff.mp h
      cases h
      have hpart : utf8ToStr (Component.normal name).asOsStr = some part := hpart
      rw [List.map_cons, List.filterMap_cons, hpart, ih rest hrest]
  rw [SearchRoots.package, hsp, Option.bind_some, hstrip, Option.bind_some, packageFromRelPath,
    hparent, Option.bind_some, htexts names package htext]
  exact if_neg hpackage

/-- A module that is imported from is listed with dots. -/
theorem statementImports_importFrom {level : Nat} {source : Option Str} {base : List Str}
    (hpackage : package = [] ∨ PackageOf dirs file package)
    (h : SourceModule package level source base) (names : List ImportAlias) (isLazy : Bool)
    (range : TextRange) :
    IsName base ∧
      statementImports (dirs.package file) (.importFrom source level names isLazy range) =
        names.map (fun a => dotted base ++ '.' :: a.name.id) ++ [dotted base] := by
  -- with dots there is a package, as many parts of which are kept as are not above
  have hrelative : ∀ {above : Nat}, above < package.length →
      IsName (package.take (package.length - above)) ∧ ∀ source : Option Str,
        (dirs.package file).bind (resolveRelativeImport (above + 1) source) =
          some (source.elim (dotted (package.take (package.length - above)))
            fun m => dotted (package.take (package.length - above)) ++ '.' :: m) := by
    intro above habove
    have hne : package ≠ [] := by
      rintro rfl
      exact absurd habove (Nat.not_lt_zero _)
    obtain ⟨hname, hlisted⟩ := package_of_packageOf (hpackage.resolve_left hne) hne
    have hkeep : package.length - above ≠ 0 := by omega
    refine ⟨hname.of_prefix ?_ (List.take_prefix _ _), fun source => ?_⟩
    · rw [ne_eq, List.take_eq_nil_iff, not_or]
      exact ⟨hkeep, hne⟩
    · rw [hlisted, Option.bind_some, resolveRelativeImport, splitOn_dotted hname,
        Nat.add_sub_cancel]
      dsimp only
      rw [if_neg (by omega), if_neg hkeep]
      cases source <;> rfl
  cases h with
  | absolute hparts => exact ⟨hparts, rfl⟩
  | relative habove hparts =>
    obtain ⟨hkept, hlisted⟩ := hrelative habove
    refine ⟨hkept.append hparts.parts, ?_⟩
    rw [dotted_append hkept.nonempty hparts.nonempty, statementImports, if_pos (Nat.succ_pos _),
      hlisted]
    rfl
  | package habove =>
    obtain ⟨hkept, hlisted⟩ := hrelative habove
    refine ⟨hkept, ?_⟩
    rw [statementImports, if_pos (Nat.succ_pos _), hlisted]
    rfl

/-- What a statement imports is listed. -/
theorem dotted_mem_statementImports {stmt : Stmt} {name : List Str}
    (hpackage : package = [] ∨ PackageOf dirs file package)
    (h : StatementImports package stmt name) :
    IsName name ∧ dotted name ∈ statementImports (dirs.package file) stmt := by
  cases h with
  | module ha hname hparts =>
    exact ⟨hparts, List.mem_map.mpr ⟨_, ha, hname⟩⟩
  | source hbase =>
    obtain ⟨hparts, hlisted⟩ := statementImports_importFrom hpackage hbase _ _ _
    rw [hlisted]
    exact ⟨hparts, List.mem_append_right _ (List.mem_singleton_self _)⟩
  | member hbase ha hpart _ =>
    obtain ⟨hparts, hlisted⟩ := statementImports_importFrom hpackage hbase _ _ _
    refine ⟨hparts.append fun part hmem => List.mem_singleton.mp hmem ▸ hpart, ?_⟩
    rw [hlisted, dotted_append hparts.nonempty (List.cons_ne_nil _ _)]
    refine List.mem_append_left _ (List.mem_map.mpr ⟨_, ha, ?_⟩)
    simp [dotted]

/-- What a file imports is listed. -/
theorem dotted_mem_importsOf {name : List Str} (h : FileImports host dirs file name) :
    IsName name ∧ dotted name ∈ importsOf host dirs file := by
  obtain ⟨text, body, stmt, package, htext, hbody, hstmt, hpackage, himports⟩ := h
  obtain ⟨hname, hlisted⟩ := dotted_mem_statementImports hpackage himports
  refine ⟨hname, ?_⟩
  rw [importsOf, htext]
  dsimp only
  rw [extractImports, hbody]
  exact List.mem_flatMap.mpr ⟨stmt, hstmt, hlisted⟩

end Listed

/-! ## The paths that are looked at -/

theorem bytes_map_char (part : Str) : PathBuf.bytes (part.map .char) = utf8 part := by
  rw [PathBuf.bytes, utf8, List.flatMap_map]

theorem IsNamePart.utf8_ne_nil {part : Str} (h : IsNamePart part) : utf8 part ≠ [] := by
  cases part with
  | nil => exact absurd rfl h.nonempty
  | cons c rest =>
    rw [utf8, List.flatMap_cons, ne_eq, List.append_eq_nil_iff, not_and_or]
    refine Or.inl fun hnil => ?_
    have hlength := congrArg List.length hnil
    rw [String.length_utf8EncodeChar, List.length_nil] at hlength
    exact absurd hlength (Char.utf8Size_pos c).ne'

theorem IsNamePart.dot_not_mem {part : Str} (h : IsNamePart part) : 46 ∉ utf8 part :=
  not_mem_utf8 (by decide) h.no_dot

theorem IsNamePart.slash_not_mem {part : Str} (h : IsNamePart part) : 47 ∉ utf8 part :=
  not_mem_utf8 (by decide) h.no_slash

/-- A part of a name is one component of a path. -/
theorem components_of_isNamePart {part : Str} (h : IsNamePart part) :
    PathBuf.components (part.map .char) = [.normal (utf8 part)] := by
  have hpieces : (utf8 part).splitOn 47 = [utf8 part] := List.splitOn_eq_singleton h.slash_not_mem
  have hdot : utf8 part ≠ ascii "." := by
    intro heq
    have hmem := h.dot_not_mem
    rw [heq] at hmem
    exact hmem (by decide)
  have hdots : utf8 part ≠ ascii ".." := by
    intro heq
    have hmem := h.dot_not_mem
    rw [heq] at hmem
    exact hmem (by decide)
  have hroot : (utf8 part).head? ≠ some 47 := fun heq =>
    h.slash_not_mem (List.mem_of_head? heq)
  rw [PathBuf.components, bytes_map_char, hpieces]
  rw [if_neg hroot, List.head?_cons, if_neg (fun heq => hdot (Option.some.inj heq)),
    List.nil_append, List.filterMap_cons, List.filterMap_nil, Component.ofPiece,
    if_neg (not_or.mpr ⟨h.utf8_ne_nil, hdot⟩), if_neg hdots]

theorem push_of_isNamePart (p : FilePath) {part : Str} (h : IsNamePart part) :
    p.push part = p ++ [.normal (utf8 part)] := by
  rw [FilePath.push, components_of_isNamePart h]

/-- The parts of a name are pushed as the directories of a package. -/
theorem foldl_push {parts : List Str} (h : ∀ part ∈ parts, IsNamePart part) (root : FilePath) :
    parts.foldl FilePath.push root = packageDir root parts := by
  induction parts generalizing root with
  | nil => exact (List.append_nil root).symm
  | cons part parts ih =>
    rw [List.foldl_cons, push_of_isNamePart root (h part List.mem_cons_self),
      ih fun part hpart => h part (List.mem_cons_of_mem _ hpart)]
    simp [packageDir]

/-- A name without a dot has no extension. -/
theorem fileStem_of_isNamePart (p : FilePath) {part : Str} (h : IsNamePart part) :
    FilePath.fileStem (p ++ [.normal (utf8 part)]) = some (utf8 part) := by
  have hdots : utf8 part ≠ ascii ".." := by
    intro heq
    have hmem := h.dot_not_mem
    rw [heq] at hmem
    exact hmem (by decide)
  have hnone : (utf8 part).reverse.dropWhile (· ≠ 46) = [] := by
    rw [List.dropWhile_eq_nil_iff]
    intro byte hbyte
    refine decide_eq_true fun heq => h.dot_not_mem ?_
    rw [← heq]
    exact List.mem_reverse.mp hbyte
  rw [FilePath.fileStem, FilePath.fileName, List.getLast?_concat, Option.bind_some,
    PathBuf.rsplitFileAtDot, if_neg hdots, hnone]
  rfl

theorem utf8_append (text rest : Str) : utf8 (text ++ rest) = utf8 text ++ utf8 rest :=
  List.flatMap_append

/-- The file of a module is where its package would be, with the extension set. -/
theorem setExtension_packageDir {parts : List Str} (h : IsName parts) (root : FilePath) :
    (packageDir root parts).setExtension (ascii "py") = moduleFile root parts := by
  have hlast := List.dropLast_concat_getLast h.nonempty
  have hpart := h.parts _ (List.getLast_mem h.nonempty)
  have hdir : packageDir root parts = packageDir root parts.dropLast ++
      [.normal (utf8 (parts.getLast h.nonempty))] := by
    conv_lhs => rw [← hlast]
    rw [packageDir, List.map_append, ← List.append_assoc]
    rfl
  rw [hdir, FilePath.setExtension, fileStem_of_isNamePart _ hpart]
  dsimp only
  rw [List.dropLast_concat, moduleFile, List.getLastD_eq_getLast?,
    List.getLast?_eq_some_getLast h.nonempty, Option.getD_some, utf8_append]
  rfl

section Resolved

variable {host : Host} {dirs : SearchRoots}

/-- The code takes the file of a module before its package. -/
theorem resolveModule_eq {parts : List Str} (h : IsName parts) (root : FilePath) :
    resolveModule host root parts =
      if host.isFile (moduleFile root parts) then some (moduleFile root parts)
      else if host.isFile (packageFile root parts) then some (packageFile root parts)
      else none := by
  rw [resolveModule, foldl_push h.parts]
  dsimp only
  rw [setExtension_packageDir h]
  rfl

theorem resolvePrefix_eq {parts : List Str} (h : IsName parts) :
    resolvePrefix host dirs.roots parts =
      (moduleRoot host dirs parts).map fun root =>
        if host.isFile (moduleFile root parts) then moduleFile root parts
        else packageFile root parts := by
  rw [resolvePrefix, moduleRoot]
  induction dirs.roots with
  | nil => rfl
  | cons root roots ih =>
    rw [List.findSome?_cons, List.find?_cons, resolveModule_eq h]
    cases hmodule : host.isFile (moduleFile root parts) <;>
      cases hpackage : host.isFile (packageFile root parts) <;> simp [hmodule, ih]

/-- A prefix of a name resolves where it has a root. -/
theorem resolvePrefix_eq_none {parts : List Str} (h : IsName parts) :
    resolvePrefix host dirs.roots parts = none ↔ moduleRoot host dirs parts = none := by
  rw [resolvePrefix_eq h, Option.map_eq_none_iff]

/-- What is left out is run. -/
theorem runs_of_leftOut {name : List Str} {file : FilePath} (h : LeftOut host dirs name file) :
    Runs host dirs name file := by
  cases h with
  | passedOver hparts hbegins hroot hplace _ _ _ => exact ⟨_, _, hparts, hbegins, hroot, hplace⟩
  | beside hparts hbegins hroot hpackage _ hplace =>
    refine ⟨_, _, hparts, hbegins, hroot, ?_⟩
    rw [moduleRun, if_pos hpackage]
    exact hplace

/-- What an import runs is followed, or left out in one of the two ways. -/
theorem runs_cases {name : List Str} (hname : IsName name) {file : FilePath}
    (h : Runs host dirs name file) :
    importTarget host dirs (dotted name) = some file ∨ LeftOut host dirs name file := by
  obtain ⟨parts, root, hparts, hbegins, hroot, hplace⟩ := h
  by_cases hlonger : ∃ longer, longer <+: name ∧ parts.length < longer.length ∧
      (moduleRoot host dirs longer).isSome
  · obtain ⟨longer, hlonger, hlength, hthere⟩ := hlonger
    exact Or.inr (.passedOver hparts hbegins hroot hplace hlonger hlength hthere)
  by_cases hboth : host.isFile (packageFile root parts) = true ∧
      host.isFile (moduleFile root parts) = true
  · obtain ⟨hpackage, hmodule⟩ := hboth
    rw [moduleRun, if_pos hpackage] at hplace
    exact Or.inr (.beside hparts hbegins hroot hpackage hmodule hplace)
  · -- the longest prefix that is there, by the only file that it has
    refine Or.inl (Option.bind_eq_some_iff.mpr ⟨moduleRun host root parts, ?_, hplace⟩)
    have hpath : (if host.isFile (moduleFile root parts) then moduleFile root parts
        else packageFile root parts) = moduleRun host root parts := by
      have hone := List.find?_some hroot
      rw [moduleRun]
      cases hmodule : host.isFile (moduleFile root parts) <;>
        cases hpackage : host.isFile (packageFile root parts) <;> simp_all
    refine resolveImport_eq_some_iff.mpr ⟨parts.length, List.length_pos_of_ne_nil hparts, ?_, ?_, ?_⟩
    · rw [splitOn_dotted hname]
      exact hbegins.length_le
    · rw [splitOn_dotted hname, ← List.prefix_iff_eq_take.mp hbegins,
        resolvePrefix_eq (hname.of_prefix hparts hbegins), hroot, Option.map_some, hpath]
    · intro len hlt hle
      rw [splitOn_dotted hname] at hle ⊢
      have htake := List.take_prefix len name
      have hlength : parts.length < (name.take len).length := by
        rw [List.length_take]
        omega
      have hne : name.take len ≠ [] := List.ne_nil_of_length_pos (by omega)
      rw [resolvePrefix_eq_none (hname.of_prefix hne htake)]
      by_contra hsome
      exact hlonger ⟨_, htake, hlength, Option.isSome_iff_ne_none.mpr hsome⟩

end Resolved

/-! ## Keys -/

/-- The names of a path are text. -/
def IsText (path : FilePath) : Prop := ∀ part ∈ path, (utf8ToStr part.asOsStr).isSome

/-- A path below a directory, as the operating system gives it. -/
def IsBelow (path : FilePath) : Prop :=
  ∃ names : List (List UInt8), path = names.map .normal ∧ ∀ name ∈ names, name ≠ [] ∧ 47 ∉ name

/-- Paths of text are told apart by their keys. -/
theorem buildSourceDbKey_injective {p q : FilePath} (hp : IsBelow p) (hq : IsBelow q)
    (hptext : IsText p) (hqtext : IsText q) (h : buildSourceDbKey p = buildSourceDbKey q) :
    p = q := by
  -- the texts between the slashes, from which the names are read back
  have htexts : ∀ path, IsBelow path → IsText path → ∃ texts : List Str,
      path = texts.map (fun text => .normal (utf8 text)) ∧
        buildSourceDbKey path = List.intercalate ['/'] texts ∧
          ∀ text ∈ texts, text ≠ [] ∧ '/' ∉ text := by
    rintro path ⟨names, rfl, hnames⟩ htext
    have hname : ∀ name ∈ names, utf8ToStr name = some (utf8ToStringLossy name) ∧
        utf8 (utf8ToStringLossy name) = name := by
      intro name hname
      obtain ⟨text, htext⟩ :=
        Option.isSome_iff_exists.mp (htext (.normal name) (List.mem_map_of_mem hname))
      have htext : utf8ToStr name = some text := htext
      rw [utf8ToStringLossy_of_utf8ToStr htext]
      exact ⟨htext, utf8_of_utf8ToStr htext⟩
    refine ⟨names.map utf8ToStringLossy, ?_, ?_, fun text htext => ?_⟩
    · rw [List.map_map]
      exact List.map_congr_left fun name hmem => congrArg Component.normal (hname name hmem).2.symm
    · rw [buildSourceDbKey, List.map_map]
      rfl
    · obtain ⟨name, hmem, rfl⟩ := List.mem_map.mp htext
      obtain ⟨hne, hslash⟩ := hnames name hmem
      constructor
      · intro hnil
        rw [← (hname name hmem).2, hnil] at hne
        exact hne rfl
      · intro hin
        rw [← (hname name hmem).2] at hslash
        exact hslash (List.mem_flatMap.mpr ⟨'/', hin, by decide⟩)
  obtain ⟨texts, rfl, hkey, hpieces⟩ := htexts p hp hptext
  obtain ⟨texts', rfl, hkey', hpieces'⟩ := htexts q hq hqtext
  rw [hkey, hkey'] at h
  have hnil : ∀ texts : List Str, (∀ text ∈ texts, text ≠ [] ∧ '/' ∉ text) →
      (List.intercalate ['/'] texts = [] ↔ texts = []) := by
    intro texts hpieces
    refine ⟨fun hkey => ?_, fun heq => by rw [heq]; rfl⟩
    by_contra hne
    have hsplit := List.splitOn_intercalate '/' (fun text htext => (hpieces text htext).2) hne
    rw [hkey] at hsplit
    exact (hpieces [] (hsplit ▸ List.mem_singleton_self _)).1 rfl
  have htexts : texts = texts' := by
    by_cases hne : texts = []
    · rw [hne, eq_comm, ← hnil texts' hpieces', ← h, hnil texts hpieces, hne]
    · have hne' : texts' ≠ [] := fun heq =>
        hne ((hnil texts hpieces).mp (h.trans ((hnil texts' hpieces').mpr heq)))
      rw [← List.splitOn_intercalate '/' (fun text htext => (hpieces text htext).2) hne, h,
        List.splitOn_intercalate '/' (fun text htext => (hpieces' text htext).2) hne']
  rw [htexts]

section Keys

variable (host : Host) (dirs : SearchRoots)

/-- The root below which the path of a file is its key: for a file of the walk the input
directory, and else the most specific root above it. -/
def keyRoot (file : FilePath) : Option FilePath :=
  if (seedsOf host dirs).contains file then some dirs.inputDir
  else dirs.roots.reverse.find? fun root => root.isPrefixOf file

/-- The path below the root whose text is the key of a file. -/
def keyPath (file : FilePath) : FilePath := file.drop ((keyRoot host dirs file).getD []).length

/-- No two files that are reached lie at one path, one below the input directory and the other
below site-packages, and none whose names are no text reads as another file does. -/
structure KeysApart : Prop where
  across : ∀ sp ∈ dirs.sitePackages, sp ≠ dirs.inputDir → ∀ rel,
    ¬(Reached host dirs (dirs.inputDir ++ rel) ∧
      keyRoot host dirs (dirs.inputDir ++ rel) = some dirs.inputDir ∧
      Reached host dirs (sp ++ rel) ∧ keyRoot host dirs (sp ++ rel) = some sp)
  notText : ∀ file other, Reached host dirs file → Reached host dirs other →
    ¬IsText (keyPath host dirs file) →
    buildSourceDbKey (keyPath host dirs file) = buildSourceDbKey (keyPath host dirs other) →
      file = other

variable {host dirs}

/-- What is reached has its place. -/
theorem exists_canonicalize_of_reached {file : FilePath} (h : Reached host dirs file) :
    ∃ path, host.canonicalize path = some file := by
  rcases reached_iff.mp h with hseed | ⟨other, -, name, -, htarget⟩
  · obtain ⟨path, -, hpath⟩ := List.mem_filterMap.mp hseed
    exact ⟨path, hpath⟩
  · obtain ⟨path, -, hplace⟩ := Option.bind_eq_some_iff.mp htarget
    exact ⟨path, (Option.filter_eq_some_iff.mp hplace).1⟩

theorem relKey_eq (file : FilePath) :
    dirs.relKey file = (dirs.roots.reverse.find? fun root => root.isPrefixOf file).map fun root =>
      file.drop root.length := by
  rw [SearchRoots.relKey]
  induction dirs.roots.reverse with
  | nil => rfl
  | cons root roots ih =>
    rw [List.findSome?_cons, List.find?_cons, FilePath.stripPrefix]
    cases hbegins : root.isPrefixOf file with
    | true => rfl
    | false => exact ih

section Inside

variable (hinside : ∀ file ∈ seedsOf host dirs, (file.stripPrefix dirs.inputDir).isSome)
include hinside

/-- What is reached lies below the root of its key. -/
theorem keyRoot_of_reached {file : FilePath} (h : Reached host dirs file) :
    ∃ root ∈ dirs.roots, keyRoot host dirs file = some root ∧
      file = root ++ keyPath host dirs file := by
  have hbelow : ∀ root : FilePath, keyRoot host dirs file = some root →
      root.isPrefixOf file = true → file = root ++ keyPath host dirs file := by
    intro root hroot hbegins
    rw [keyPath, hroot, Option.getD_some]
    exact (List.prefix_iff_eq_append.mp (List.isPrefixOf_iff_prefix.mp hbegins)).symm
  by_cases hseed : file ∈ seedsOf host dirs
  · have hroot : keyRoot host dirs file = some dirs.inputDir :=
      if_pos (List.contains_iff_mem.mpr hseed)
    refine ⟨_, List.mem_cons_self, hroot, hbelow _ hroot ?_⟩
    have hstrip := hinside file hseed
    rw [FilePath.stripPrefix] at hstrip
    by_contra hnot
    rw [if_neg hnot] at hstrip
    cases hstrip
  · have hsome : (dirs.relKey file).isSome := by
      obtain ⟨other, -, name, -, htarget⟩ := (reached_iff.mp h).resolve_left hseed
      obtain ⟨path, -, hplace⟩ := Option.bind_eq_some_iff.mp htarget
      exact (Option.filter_eq_some_iff.mp hplace).2
    rw [relKey_eq, Option.isSome_map] at hsome
    obtain ⟨root, hfind⟩ := Option.isSome_iff_exists.mp hsome
    have hroot : keyRoot host dirs file = some root :=
      (if_neg (mt List.contains_iff_mem.mp hseed)).trans hfind
    have hbegins := List.find?_some hfind
    exact ⟨root, List.mem_reverse.mp (List.mem_of_find?_eq_some hfind), hroot,
      hbelow root hroot hbegins⟩

/-- The key of a file that was found is the text of its path. -/
theorem foundEntry_eq {file : FilePath} (h : Reached host dirs file) :
    foundEntry host dirs file = (buildSourceDbKey (keyPath host dirs file), file) := by
  obtain ⟨root, -, hroot, hfile⟩ := keyRoot_of_reached hinside h
  have hbegins : root.isPrefixOf file = true :=
    List.isPrefixOf_iff_prefix.mpr ⟨_, hfile.symm⟩
  have hpath : keyPath host dirs file = file.drop root.length := by
    rw [keyPath, hroot, Option.getD_some]
  by_cases hseed : file ∈ seedsOf host dirs
  · obtain rfl : dirs.inputDir = root := by
      rw [keyRoot, if_pos (List.contains_iff_mem.mpr hseed)] at hroot
      exact Option.some.inj hroot
    rw [foundEntry, if_pos hseed, seedEntry, FilePath.stripPrefix, if_pos hbegins,
      Option.getD_some, hpath]
  · rw [keyRoot, if_neg (mt List.contains_iff_mem.mp hseed)] at hroot
    rw [foundEntry, if_neg hseed, followedEntry, relKey_eq, hroot, Option.map_some,
      Option.getD_some, hpath]

/-- The path below the root is made of names. -/
theorem isBelow_keyPath (hcanonical : ∀ root ∈ dirs.roots, ∃ path,
      host.canonicalize path = some root) {file : FilePath} (h : Reached host dirs file) :
    IsBelow (keyPath host dirs file) := by
  obtain ⟨root, hmem, -, hfile⟩ := keyRoot_of_reached hinside h
  obtain ⟨path, hpath⟩ := exists_canonicalize_of_reached h
  obtain ⟨names, hnames, hgood⟩ := host.canonicalize_names path file hpath
  obtain ⟨rootPath, hrootPath⟩ := hcanonical root hmem
  obtain ⟨above, habove, -⟩ := host.canonicalize_names rootPath root hrootPath
  -- the root is one of the directories on the way, the root directory among them
  have hrest : names.map Component.normal = above.map Component.normal ++ keyPath host dirs file := by
    have heq := hnames.symm.trans hfile
    rw [habove, List.cons_append] at heq
    exact (List.cons.inj heq).2
  refine ⟨names.drop above.length, ?_, fun name hname => hgood name (List.mem_of_mem_drop hname)⟩
  rw [List.map_drop, hrest, List.drop_left' (List.length_map _)]

/-- Keys are told apart exactly when no two files are of the kinds that share one. -/
theorem keys_injective_iff (hcanonical : ∀ root ∈ dirs.roots, ∃ path,
      host.canonicalize path = some root) :
    (∀ file other, Reached host dirs file → Reached host dirs other →
      (foundEntry host dirs file).1 = (foundEntry host dirs other).1 → file = other) ↔
      KeysApart host dirs := by
  have hbelow : ∀ {file}, Reached host dirs file → IsBelow (keyPath host dirs file) :=
    isBelow_keyPath hinside hcanonical
  constructor
  · intro h
    refine ⟨?_, fun file other hfile hother _ hkey => ?_⟩
    · rintro sp - hne rel ⟨hfile, hroot, hother, hroot'⟩
      refine hne (List.append_cancel_right (h _ _ hother hfile ?_))
      rw [foundEntry_eq hinside hfile, foundEntry_eq hinside hother]
      dsimp only
      rw [keyPath, keyPath, hroot, hroot', Option.getD_some, Option.getD_some, List.drop_left,
        List.drop_left]
    · refine h _ _ hfile hother ?_
      rw [foundEntry_eq hinside hfile, foundEntry_eq hinside hother]
      exact hkey
  · rintro ⟨hacross, hnotText⟩ file other hfile hother hkey
    rw [foundEntry_eq hinside hfile, foundEntry_eq hinside hother] at hkey
    have hkey : buildSourceDbKey (keyPath host dirs file) =
        buildSourceDbKey (keyPath host dirs other) := hkey
    by_cases htext : IsText (keyPath host dirs file)
    · by_cases htext' : IsText (keyPath host dirs other)
      · -- one path below two roots: the input directory and site-packages
        have hpath := buildSourceDbKey_injective (hbelow hfile) (hbelow hother) htext htext' hkey
        obtain ⟨root, hmem, hroot, heq⟩ := keyRoot_of_reached hinside hfile
        obtain ⟨root', hmem', hroot', heq'⟩ := keyRoot_of_reached hinside hother
        rw [← hpath] at heq'
        generalize keyPath host dirs file = rel at heq heq'
        subst heq heq'
        have hroots : ∀ {root}, root ∈ dirs.roots →
            root = dirs.inputDir ∨ root ∈ dirs.sitePackages := fun hmem =>
          (List.mem_cons.mp hmem).imp_right Option.mem_toList.mp
        rcases hroots hmem with rfl | hsp <;> rcases hroots hmem' with rfl | hsp'
        · rfl
        · by_contra hne
          exact hacross root' hsp' (fun heq => hne (by rw [heq])) rel ⟨hfile, hroot, hother, hroot'⟩
        · by_contra hne
          exact hacross root hsp (fun heq => hne (by rw [heq])) rel ⟨hother, hroot', hfile, hroot⟩
        · rw [Option.mem_unique hsp hsp']
      · exact (hnotText other file hother hfile htext' hkey.symm).symm
    · exact hnotText file other hfile hother htext hkey

end Inside

end Keys

/-! ## What is found -/

section Complete

variable (host : Host) (dirs : SearchRoots)

/-- All that the imports of the files found run is found, no file is read twice, and no two
files share a key. -/
structure SourceSearch.Complete (search : SourceSearch) : Prop where
  closed : ∀ file ∈ search.included, ∀ name, FileImports host dirs file name →
    ∀ found, Runs host dirs name found → found ∈ search.included
  reads_nodup : search.reads.Nodup
  keys_nodup : (search.buildMap.map Prod.fst).Nodup

/-- Every package that an import of a reached file leaves out is a file of the walk, or there
is another import of a reached file that is followed to it. -/
def LeftOutFound : Prop :=
  ∀ file, Reached host dirs file → ∀ name, FileImports host dirs file name →
    ∀ found, LeftOut host dirs name found →
      found ∈ seedsOf host dirs ∨ ∃ other, Reached host dirs other ∧ Follows host dirs other found

variable {host dirs}

/-- The directory of site-packages, where one is configured, is a place of its own. -/
theorem canonical_of_loadSitePackages {dir sp : FilePath}
    (h : loadSitePackages host dir = .ok (some sp)) : ∃ path, host.canonicalize path = some sp := by
  unfold loadSitePackages at h
  dsimp only at h
  split at h
  · cases h
  split at h
  · cases h
  split at h
  · cases h
  · cases h
  split at h
  · cases h
  · next hplace =>
    cases h
    exact ⟨_, hplace⟩

/-- The roots are places of their own. -/
theorem canonical_of_searchRoots {inputDir : FilePath} {sitePackagesOverride : Option FilePath}
    (h : searchRoots host inputDir sitePackagesOverride = .ok dirs) :
    ∀ root ∈ dirs.roots, ∃ path, host.canonicalize path = some root := by
  unfold searchRoots at h
  split at h
  · cases h
  next place hinput =>
  have hroots : ∀ sp : Option FilePath, (∀ root ∈ sp, ∃ path, host.canonicalize path = some root) →
      ∀ root ∈ SearchRoots.roots ⟨place, sp⟩, ∃ path, host.canonicalize path = some root := by
    intro sp hsp root hmem
    rcases List.mem_cons.mp hmem with rfl | hmem
    · exact ⟨_, hinput⟩
    · exact hsp root (Option.mem_toList.mp hmem)
  split at h
  · split at h
    · cases h
    · next hplace =>
      cases h
      refine hroots _ fun root hmem => ?_
      cases hmem
      exact ⟨_, hplace⟩
  · cases hsp : loadSitePackages host place with
    | error e =>
      rw [hsp] at h
      cases h
    | ok sp =>
      rw [hsp] at h
      cases h
      refine hroots sp fun root hmem => ?_
      cases hmem
      exact canonical_of_loadSitePackages hsp

/-- The search finds all that imports run, with keys told apart, exactly when every package that
is left out is found in another way and no two keys are the same. -/
theorem buildSourceDb_complete_iff {inputDir : FilePath} {sitePackagesOverride : Option FilePath}
    (hroots : searchRoots host inputDir sitePackagesOverride = .ok dirs)
    (hinside : ∀ file ∈ seedsOf host dirs, (file.stripPrefix dirs.inputDir).isSome) :
    (∃ db, buildSourceDb host inputDir sitePackagesOverride = .ok (some db) ∧
      db.search.Complete host dirs) ↔ LeftOutFound host dirs ∧ KeysApart host dirs := by
  obtain ⟨seeded, final, hseeded, hrun, hnodup, hentries, hreached⟩ := search_spec hinside
  have hbuild : buildSourceDb host inputDir sitePackagesOverride = .ok (some
      { search := final
        buildMap := (Table.ofList final.buildMap).mapVals fun _ path => pathText path
        seedCount := (Table.ofList seeded.buildMap).keys.length }) := by
    rw [buildSourceDb, hroots]
    show (seedFiles host dirs.inputDir >>= _) = _
    rw [hseeded]
    show Except.ok ((processQueue host dirs (host.places.card + 1) seeded).map _) = _
    rw [hrun]
    rfl
  -- every file met is in the end read, so the entries are those of the files reached
  have hincluded : ∀ file, file ∈ final.included ↔ Reached host dirs file := by
    intro file
    have hfiles : final.included = final.reads := by
      rw [SourceSearch.included, hentries, List.map_map]
      refine (List.map_congr_left fun file _ => ?_).trans (List.map_id _)
      rw [Function.comp_apply, foundEntry]
      split <;> rfl
    rw [hfiles, hreached]
  have hkeys : (final.buildMap.map Prod.fst).Nodup ↔ KeysApart host dirs := by
    rw [← keys_injective_iff hinside (canonical_of_searchRoots hroots), hentries, List.map_map]
    constructor
    · exact fun h file other hfile hother => List.inj_on_of_nodup_map h ((hreached file).mpr hfile)
        ((hreached other).mpr hother)
    · exact fun h => hnodup.map_on fun file hfile other hother =>
        h file other ((hreached file).mp hfile) ((hreached other).mp hother)
  -- what an import runs is followed, so that it is found, or left out
  have hclosed : (∀ file ∈ final.included, ∀ name, FileImports host dirs file name →
      ∀ found, Runs host dirs name found → found ∈ final.included) ↔ LeftOutFound host dirs := by
    constructor
    · intro h file hfile name himports found hleft
      exact reached_iff.mp ((hincluded found).mp (h file ((hincluded file).mpr hfile) name himports
        found (runs_of_leftOut hleft)))
    · intro h file hfile name himports found hruns
      rw [hincluded] at hfile ⊢
      obtain ⟨hname, hlisted⟩ := dotted_mem_importsOf himports
      rcases runs_cases hname hruns with hfollowed | hleft
      · exact reached_iff.mpr (Or.inr ⟨file, hfile, dotted name, hlisted, hfollowed⟩)
      · exact reached_iff.mpr (h file hfile name himports found hleft)
  have hcomplete : final.Complete host dirs ↔ LeftOutFound host dirs ∧ KeysApart host dirs :=
    ⟨fun h => ⟨hclosed.mp h.closed, hkeys.mp h.keys_nodup⟩,
      fun h => ⟨hclosed.mpr h.1, hnodup, hkeys.mpr h.2⟩⟩
  rw [← hcomplete, hbuild]
  constructor
  · rintro ⟨db, hdb, h⟩
    cases hdb
    exact h
  · exact fun h => ⟨_, rfl, h⟩

end Complete

/-! ## A sample -/

/-- The path of a file below the root directory, by the names on its way. -/
def rootedPath (names : List String) : FilePath :=
  .rootDir :: names.map fun name => .normal (ascii name)

/-- The names on the way to the places of the sample: a project with one file, and a package
with a module, which may have a file of its name beside it. -/
def sampleNames (isBeside : Bool) : List (List String) :=
  [["p"], ["s"], ["p", "main.py"], ["s", "a", "__init__.py"], ["s", "a", "b.py"]] ++
    if isBeside then [["s", "a.py"]] else []

/-- What `main.py` reads. -/
def mainText (imports : List String) : Str :=
  "import ".toList ++ List.intercalate ", ".toList (imports.map String.toList)

/-- The file `main.py` of `/p` has one import statement, and site-packages `/s` has the package
`a` with the module `b`. -/
def packageHost (imports : List String) (isBeside : Bool) : Host where
  isFile path := (((sampleNames isBeside).drop 2).map rootedPath).contains path
  canonicalize path :=
    if ((sampleNames isBeside).map rootedPath).contains path then some path else none
  places := ((sampleNames isBeside).map rootedPath).toFinset
  canonicalize_mem p q h := by
    split at h
    · next hmem =>
      cases h
      exact List.mem_toFinset.mpr (List.contains_iff_mem.mp hmem)
    · cases h
  canonicalize_names p q h := by
    split at h
    · next hmem =>
      cases h
      obtain ⟨names, hnames, rfl⟩ := List.mem_map.mp (List.contains_iff_mem.mp hmem)
      refine ⟨names.map ascii, by rw [rootedPath, List.map_map]; rfl, fun name hname => ?_⟩
      obtain ⟨text, htext, rfl⟩ := List.mem_map.mp hname
      have hgood : ∀ names ∈ sampleNames isBeside, ∀ text ∈ names,
          ascii text ≠ [] ∧ 47 ∉ ascii text := by
        cases isBeside <;> decide
      exact hgood names hnames text htext
    · cases h
  readToString path :=
    some (if path = rootedPath ["p", "main.py"] then mainText imports else [])
  entries path := if path = rootedPath ["p"] then [.file (ascii "main.py")] else []
  parseModule source := some (if source = mainText imports then
    [.importNames (imports.map fun name => { name := { id := name.toList } }) false] else [])
  parseSitePackages _ := some none

/-- The roots of the sample. -/
def sampleRoots : SearchRoots := ⟨rootedPath ["p"], some (rootedPath ["s"])⟩

/-- The search over the sample. -/
def sampleDb (imports : List String) (isBeside : Bool) : Except SourceDbError (Option SourceDb) :=
  buildSourceDb (packageHost imports isBeside) (rootedPath ["p"]) (some (rootedPath ["s"]))

/-- The files of the search, where there is one. -/
def foundFiles : Except SourceDbError (Option SourceDb) → Option (List FilePath)
  | .ok (some db) => some db.search.included
  | _ => none

section Sample

variable {imports : List String} {isBeside : Bool}

/-- What the sample imports. -/
theorem fileImports_packageHost {file : FilePath} {name : List Str} :
    FileImports (packageHost imports isBeside) sampleRoots file name ↔
      file = rootedPath ["p", "main.py"] ∧ IsName name ∧ ∃ text ∈ imports,
        text.toList = dotted name := by
  constructor
  · rintro ⟨text, body, stmt, package, htext, hbody, hstmt, -, himports⟩
    cases htext
    cases hbody
    by_cases hmain : file = rootedPath ["p", "main.py"]
    · rw [if_pos hmain, if_pos rfl, List.mem_singleton] at hstmt
      subst hstmt
      cases himports with
      | module ha hname hparts =>
        obtain ⟨text, htext, rfl⟩ := List.mem_map.mp ha
        exact ⟨hmain, hparts, text, htext, hname⟩
    · rw [if_neg hmain, if_neg (fun h => by cases h)] at hstmt
      cases hstmt
  · rintro ⟨rfl, hname, text, htext, heq⟩
    have ha : ({ name := { id := text.toList } } : ImportAlias) ∈
        imports.map fun name => { name := { id := name.toList } } := List.mem_map_of_mem htext
    have himports : StatementImports [] (.importNames _ false) name := .module ha heq hname
    refine ⟨_, _, _, [], rfl, rfl, ?_, Or.inl rfl, himports⟩
    rw [if_pos rfl, if_pos rfl]
    exact List.mem_singleton_self _

/-- A file that is run and not found. -/
theorem not_complete_sample {included : List FilePath} (name : List Str) (found : FilePath)
    (hrun : foundFiles (sampleDb imports isBeside) = some included)
    (hmain : rootedPath ["p", "main.py"] ∈ included) (hname : IsName name)
    (himports : ∃ text ∈ imports, text.toList = dotted name)
    (hruns : Runs (packageHost imports isBeside) sampleRoots name found)
    (hmissing : found ∉ included) :
    ∃ db, sampleDb imports isBeside = .ok (some db) ∧ db.search.included = included ∧
      ¬db.search.Complete (packageHost imports isBeside) sampleRoots := by
  cases hbuild : sampleDb imports isBeside with
  | error e =>
    rw [hbuild] at hrun
    cases hrun
  | ok search =>
    rw [hbuild] at hrun
    cases search with
    | none => cases hrun
    | some db =>
      obtain rfl := Option.some.inj hrun
      refine ⟨db, rfl, rfl, fun hcomplete => hmissing ?_⟩
      exact hcomplete.closed _ hmain name
        (fileImports_packageHost.mpr ⟨rfl, hname, himports⟩) found hruns

end Sample

/-- Of `import a.b` the search finds `a/b.py` and not the file that importing `a` runs, and of
`import a`, where `a.py` stands beside the package, only that. -/
theorem buildSourceDb_misses_package :
    (∃ db, sampleDb ["a.b"] false = .ok (some db) ∧
      db.search.included = [rootedPath ["p", "main.py"], rootedPath ["s", "a", "b.py"]] ∧
      ¬db.search.Complete (packageHost ["a.b"] false) sampleRoots) ∧
    ∃ db, sampleDb ["a"] true = .ok (some db) ∧
      db.search.included = [rootedPath ["p", "main.py"], rootedPath ["s", "a.py"]] ∧
      ¬db.search.Complete (packageHost ["a"] true) sampleRoots := by
  constructor
  · exact not_complete_sample ["a".toList, "b".toList]
      (rootedPath ["s", "a", "__init__.py"]) (by decide +kernel) (by decide) (by decide)
      (by decide) ⟨["a".toList], rootedPath ["s"], by decide, by decide +kernel,
        by decide +kernel, by decide +kernel⟩ (by decide)
  · exact not_complete_sample ["a".toList]
      (rootedPath ["s", "a", "__init__.py"]) (by decide +kernel) (by decide) (by decide)
      (by decide) ⟨["a".toList], rootedPath ["s"], by decide, by decide +kernel,
        by decide +kernel, by decide +kernel⟩ (by decide)

/-- The files of the sample that are reached when both names are imported. -/
def sampleFiles : List FilePath :=
  [rootedPath ["p", "main.py"], rootedPath ["s", "a", "__init__.py"],
    rootedPath ["s", "a", "b.py"]]

theorem reached_sample {file : FilePath}
    (h : Reached (packageHost ["a", "a.b"] false) sampleRoots file) : file ∈ sampleFiles := by
  have hseeds : ∀ seed ∈ seedsOf (packageHost ["a", "a.b"] false) sampleRoots,
      seed ∈ sampleFiles := by decide +kernel
  have hfollow : ∀ file ∈ sampleFiles,
      ∀ name ∈ importsOf (packageHost ["a", "a.b"] false) sampleRoots file,
        ∀ found ∈ importTarget (packageHost ["a", "a.b"] false) sampleRoots name,
          found ∈ sampleFiles := by decide +kernel
  obtain ⟨seed, hseed, hpath⟩ := h
  induction hpath with
  | refl => exact hseeds seed hseed
  | tail _ hlast ih =>
    obtain ⟨name, hname, htarget⟩ := hlast
    exact hfollow _ ih name hname _ htarget

/-- Where `a` is imported as well as `a.b`, all that the imports run is found. -/
theorem buildSourceDb_complete_iff_package :
    ∃ db, buildSourceDb (packageHost ["a", "a.b"] false) (rootedPath ["p"])
        (some (rootedPath ["s"])) = .ok (some db) ∧
      db.search.Complete (packageHost ["a", "a.b"] false) sampleRoots := by
  have hmain : Reached (packageHost ["a", "a.b"] false) sampleRoots
      (rootedPath ["p", "main.py"]) := ⟨_, by decide +kernel, .refl⟩
  -- whatever the names run, one of them is followed to it
  have hruns : ∀ name ∈ [["a".toList], ["a".toList, "b".toList]], ∀ parts ∈ name.inits,
      parts ≠ [] → ∀ root ∈ moduleRoot (packageHost ["a", "a.b"] false) sampleRoots parts,
        ∀ found ∈ placeOf (packageHost ["a", "a.b"] false) sampleRoots
          (moduleRun (packageHost ["a", "a.b"] false) root parts),
          ∃ name ∈ importsOf (packageHost ["a", "a.b"] false) sampleRoots
            (rootedPath ["p", "main.py"]),
            importTarget (packageHost ["a", "a.b"] false) sampleRoots name = some found := by
    decide +kernel
  refine (buildSourceDb_complete_iff (by rfl) (by decide +kernel)).mpr
    ⟨fun file _ name himports found hleft => ?_, ⟨?_, fun file _ hfile _ hnot => ?_⟩⟩
  · obtain ⟨-, hname, text, htext, heq⟩ := fileImports_packageHost.mp himports
    have hmem : name ∈ [["a".toList], ["a".toList, "b".toList]] := by
      have hsplit : ∀ text ∈ ["a", "a.b"], text.toList.splitOn '.' ∈
          [["a".toList], ["a".toList, "b".toList]] := by decide
      rw [← splitOn_dotted hname, ← heq]
      exact hsplit text htext
    obtain ⟨parts, root, hparts, hbegins, hroot, hplace⟩ := runs_of_leftOut hleft
    exact Or.inr ⟨_, hmain, hruns name hmem parts ((List.mem_inits _ _).mpr hbegins) hparts root
      hroot found hplace⟩
  · rintro sp hsp - rel ⟨hproject, -, hsite, -⟩
    cases hsp
    have honly : ∀ file ∈ sampleFiles, rootedPath ["p"] <+: file →
        file = rootedPath ["p", "main.py"] := by decide
    have hrel := honly _ (reached_sample hproject) (List.prefix_append _ _)
    obtain rfl : rel = [.normal (ascii "main.py")] := List.append_cancel_left hrel
    exact absurd (reached_sample hsite) (by decide)
  · have htext : ∀ file ∈ sampleFiles,
        ∀ part ∈ keyPath (packageHost ["a", "a.b"] false) sampleRoots file,
          (utf8ToStr part.asOsStr).isSome := by decide +kernel
    exact absurd (htext file (reached_sample hfile)) hnot

end Lifeguard
