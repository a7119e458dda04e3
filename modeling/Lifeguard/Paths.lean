import Mathlib.Data.List.Lex
import Mathlib.Data.Prod.Lex

/-!
# Paths

Paths as the standard library takes them apart on Unix. A path is a string of the operating
system, text but for single bytes that belong to no character, and everything but
`to_str` looks at its bytes: the components between the slashes, the file name, its stem
and its extension. Paths are compared component by component (`pathKey`), so `a//b` and
`a/./b` are one path.
-/

namespace Lifeguard

/-- A unit of an operating system's string: a character, or a byte of none. -/
inductive OsChar
  | char (c : Char)
  | stray (byte : UInt8)
  deriving DecidableEq

/-- `PathBuf`, as the string it holds. -/
abbrev PathBuf := List OsChar

/-- `PathBuf::from` of text. -/
def pathOf (s : String) : PathBuf := s.toList.map .char

/-- The bytes of ASCII text. -/
def ascii (s : String) : List UInt8 := s.toList.map fun c => c.toNat.toUInt8

namespace PathBuf

/-- The bytes of the string. -/
def bytes (p : PathBuf) : List UInt8 :=
  p.flatMap fun
    | .char c => String.utf8EncodeChar c
    | .stray byte => [byte]

/-- `Path::to_str`. -/
def toStr (p : PathBuf) : Option (List Char) :=
  p.mapM fun
    | .char c => some c
    | .stray _ => none

end PathBuf

/-- `Component`. -/
inductive Component
  | rootDir
  | curDir
  | parentDir
  | normal (name : List UInt8)
  deriving DecidableEq

namespace Component

/-- What components are compared by, in their declaration order. -/
def key : Component → Nat ×ₗ List Nat
  | rootDir => toLex (0, [])
  | curDir => toLex (1, [])
  | parentDir => toLex (2, [])
  | normal name => toLex (3, name.map UInt8.toNat)

/-- One piece between slashes; empty pieces and dots are none. -/
def ofPiece (piece : List UInt8) : Option Component :=
  if piece = [] ∨ piece = ascii "." then none
  else if piece = ascii ".." then some parentDir
  else some (normal piece)

end Component

namespace PathBuf

/-- `Path::components`: a leading dot counts, the others do not. -/
def components (p : PathBuf) : List Component :=
  let pieces := p.bytes.splitOn 47
  let first :=
    if p.bytes.head? = some 47 then [Component.rootDir]
    else if pieces.head? = some (ascii ".") then [Component.curDir]
    else []
  first ++ pieces.filterMap Component.ofPiece

/-- `Path::file_name`. -/
def fileName (p : PathBuf) : Option (List UInt8) :=
  match p.components.getLast? with
  | some (.normal name) => some name
  | _ => none

/-- `rsplit_file_at_dot`: what stands before and after the last dot of a file name. -/
def rsplitFileAtDot (file : List UInt8) : Option (List UInt8) × Option (List UInt8) :=
  if file = ascii ".." then (some file, none)
  else
    match file.reverse.dropWhile (· ≠ 46) with
    | [] => (none, some file)
    | _ :: before =>
      if before = [] then (some file, none)
      else (some before.reverse, some (file.reverse.takeWhile (· ≠ 46)).reverse)

/-- `Path::extension`. -/
def extension (p : PathBuf) : Option (List UInt8) :=
  p.fileName.bind fun file =>
    let (before, after) := rsplitFileAtDot file
    if before.isSome then after else none

/-- `Path::file_stem`. -/
def fileStem (p : PathBuf) : Option (List UInt8) :=
  p.fileName.bind fun file =>
    let (before, after) := rsplitFileAtDot file
    before.or after

end PathBuf

/-- What paths are compared by. -/
def pathKey (p : PathBuf) : List (Nat ×ₗ List Nat) := p.components.map Component.key

theorem key_injective : Function.Injective Component.key := by
  have htoNat : Function.Injective UInt8.toNat := fun _ _ h => UInt8.toNat_inj.mp h
  intro c c' h
  cases c <;> cases c' <;> first | rfl | skip
  all_goals
    simp only [Component.key, EmbeddingLike.apply_eq_iff_eq, Prod.mk.injEq] at h
  all_goals first | exact absurd h.1 (by decide) | skip
  rw [htoNat.list_map h.2]

/-- Paths that compare equal have the same components. -/
theorem components_eq_of_pathKey {p q : PathBuf} (h : pathKey p = pathKey q) :
    p.components = q.components :=
  key_injective.list_map h

/-- Paths that compare equal have the same stem. -/
theorem fileStem_eq_of_pathKey {p q : PathBuf} (h : pathKey p = pathKey q) :
    p.fileStem = q.fileStem := by
  rw [PathBuf.fileStem, PathBuf.fileStem, PathBuf.fileName, PathBuf.fileName,
    components_eq_of_pathKey h]

end Lifeguard
