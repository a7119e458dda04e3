import Lifeguard.Syntax
import Mathlib.Data.Finset.Basic
import Mathlib.Data.Finset.Filter
import Mathlib.Data.Finset.Insert
import Mathlib.Data.Finset.Lattice.Basic

/-!
# Collecting the imports of a module

`ModuleImportCollector` (`imports.rs`) walks the body of a module and collects the modules
it imports: the edges, and the ambiguous candidates, whose parent is in the graph while they
are not. What it meets inside a `__main__` guard that it does not prune it also tags.

- `importStep`, `importSteps`: the walk over a statement and over a body;
- `Grows`: what every walk preserves, whatever the guards around it;
- `Simulates`: the walk that prunes the guards, beside the walk that tags them;
- `pruned_imports_unguarded`: what the first one collects, the second one collects too, and
  not as guard-only.
-/

namespace Lifeguard

/-! ## The walk -/

/-- `ModuleImportCollector`, but for what does not change during the walk. -/
structure ModuleImportCollector where
  imports : Finset ModuleName := ∅
  ambiguousImports : Finset ModuleName := ∅
  /-- What was recorded with no guard around it. -/
  unguardedImports : Finset ModuleName := ∅
  unguardedAmbiguous : Finset ModuleName := ∅
  mainGuardDepth : Nat := 0
  hasImportlib : Bool := false
  hasImportModule : Bool := false

/-- What the walk reads: the module, whether it is an `__init__`, the nodes of the graph,
and the configuration. -/
structure CollectorContext where
  currentModule : ModuleName
  isInit : Bool
  graph : Finset ModuleName
  config : AnalysisConfig

/-- The configuration with another main module. -/
def CollectorContext.withMain (ctx : CollectorContext) (main : Option ModuleName) :
    CollectorContext :=
  { ctx with config := ctx.config.withMain main }

namespace ModuleImportCollector

variable (ctx : CollectorContext)

/-- `record`. -/
def record (st : ModuleImportCollector) (m : ModuleName) : ModuleImportCollector :=
  { st with
    imports := insert m st.imports
    unguardedImports :=
      if st.mainGuardDepth = 0 then insert m st.unguardedImports else st.unguardedImports }

/-- Record an ambiguous candidate. -/
def recordAmbiguous (st : ModuleImportCollector) (m : ModuleName) : ModuleImportCollector :=
  { st with
    ambiguousImports := insert m st.ambiguousImports
    unguardedAmbiguous :=
      if st.mainGuardDepth = 0 then insert m st.unguardedAmbiguous
      else st.unguardedAmbiguous }

/-- `expr_call`, of an expression that may be a call. -/
def exprCall (st : ModuleImportCollector) (e : Expr) : ModuleImportCollector :=
  let state : ImportlibState := ⟨st.hasImportlib, st.hasImportModule⟩
  match state.matchCall ctx.config.library e with
  | some imp => st.record imp
  | none => st

/-- The parents of a dotted name, shortest first. -/
def parentsOf (imp : Str) : List ModuleName :=
  ((List.range imp.length).filter fun i => decide (imp[i]? = some '.')).map fun i => imp.take i

/-- One name of `import`: its parents are imported too. -/
def importName (st : ModuleImportCollector) (imp : Str) : ModuleImportCollector :=
  let importlib := decide (imp = "importlib".toList) || "importlib.".toList.isPrefixOf imp
  let flagged := if importlib then { st with hasImportlib := true } else st
  ((parentsOf imp).foldl record flagged).record imp

/-- The name `import_from_single` takes for a submodule. -/
def maybeSub (parent : ModuleName) (name : Str) : ModuleName :=
  if parent = [] then name else ctx.config.library.append parent name

/-- The flag that `from importlib import import_module` sets. -/
def flagImportModule (parent : ModuleName) (st : ModuleImportCollector) (name : Str) :
    ModuleImportCollector :=
  if parent = "importlib".toList ∧ name = "import_module".toList then
    { st with hasImportModule := true }
  else st

/-- `import_from_single`. -/
def importFromSingle (parent : ModuleName) (st : ModuleImportCollector) (name : Str) :
    ModuleImportCollector :=
  let flagged := flagImportModule parent st name
  if name = "*".toList then flagged
  else if maybeSub ctx parent name ∈ ctx.graph ∨ parent ∉ ctx.graph then
    flagged.record (maybeSub ctx parent name)
  else flagged.recordAmbiguous (maybeSub ctx parent name)

/-- `import_from`. -/
def importFrom (st : ModuleImportCollector) (source : Option Str) (level : Nat)
    (names : List Str) : ModuleImportCollector :=
  match ctx.config.library.newMaybeRelative ctx.currentModule ctx.isInit level source with
  | some parent =>
    names.foldl (importFromSingle ctx parent) (if parent ≠ [] then st.record parent else st)
  | none => st

/-- A branch of an `if`, with the walk over its body: a guard that is kept is entered and
left. -/
def walkBranch (bodies : List (ModuleImportCollector → ModuleImportCollector))
    (st : ModuleImportCollector) (branch : Nat × Option Expr) : ModuleImportCollector :=
  let walk := bodies.getD branch.1 id
  if branch.2.any AnalysisConfig.isMainGuard then
    let walked := walk { st with mainGuardDepth := st.mainGuardDepth + 1 }
    { walked with mainGuardDepth := walked.mainGuardDepth - 1 }
  else walk st

mutual

/-- `stmt`. -/
def stmt : Stmt → ModuleImportCollector → ModuleImportCollector
  | .importNames names _, st => names.foldl (fun st a => importName st a.name.id) st
  | .importFrom source level names _ _, st =>
    importFrom ctx st source level (names.map fun a => a.name.id)
  | .ifElse branches, st =>
    (ctx.config.lgPrunedIfBranches branches ctx.currentModule).foldl
      (walkBranch (branchWalks branches)) st
  | .tryExcept body handlers orelse finalbody, st =>
    stmts finalbody (stmts orelse (clauses handlers (stmts body st)))
  | .withBlock _ body, st => stmts body st
  | .forLoop _ _ body orelse, st => stmts orelse (stmts body st)
  | .whileLoop _ body orelse, st => stmts orelse (stmts body st)
  | .matchCases _ cases, st => clauses cases st
  | .expr value, st => exprCall ctx st value
  | .assign _ value _, st => exprCall ctx st value
  | .functionDef _ _ _ body _, st => stmts body st
  | .classDef _ _ _ body _, st => stmts body st
  | .returnValue _, st | .delete _, st | .augAssign _ _ _, st | .annAssign _ _ _, st
  | .raise _ _ _, st | .assert _ _, st | .globalNames _, st | .nonlocalNames _, st
  | .typeAlias _ _, st | .other, st => st

/-- `stmts`. -/
def stmts : List Stmt → ModuleImportCollector → ModuleImportCollector
  | [], st => st
  | s :: rest, st => stmts rest (stmt s st)

/-- The bodies of clauses one after another. -/
def clauses : List (Clause × List Stmt) → ModuleImportCollector → ModuleImportCollector
  | [], st => st
  | c :: rest, st => clauses rest (clause c st)

/-- The body of a clause. -/
def clause : Clause × List Stmt → ModuleImportCollector → ModuleImportCollector
  | (_, body), st => stmts body st

/-- The walks over the bodies of the branches of an `if`. -/
def branchWalks : List (Option Expr × List Stmt) →
    List (ModuleImportCollector → ModuleImportCollector)
  | [] => []
  | branch :: rest => branchWalk branch :: branchWalks rest

/-- The walk over the body of a branch. -/
def branchWalk : Option Expr × List Stmt → ModuleImportCollector → ModuleImportCollector
  | (_, body), st => stmts body st

end

/-- What `collect` answers. -/
structure CollectedImports where
  imports : Finset ModuleName
  ambiguous : Finset ModuleName
  /-- The edges and candidates that are never written outside a guard. -/
  mainGuardOnly : Finset ModuleName

/-- `collect`, of the body of the module. -/
def collect (body : List Stmt) : CollectedImports :=
  let walked := stmts ctx body {}
  let unguarded := walked.unguardedImports ∪ walked.unguardedAmbiguous
  { imports := walked.imports
    ambiguous := walked.ambiguousImports
    mainGuardOnly := (walked.imports ∪ walked.ambiguousImports).filter (· ∉ unguarded) }

/-! ## What every walk keeps -/

variable {ctx} {st st' : ModuleImportCollector}

/-- What is recorded outside the guards is recorded. -/
def Recorded (st : ModuleImportCollector) : Prop :=
  st.unguardedImports ⊆ st.imports ∧ st.unguardedAmbiguous ⊆ st.ambiguousImports

/-- The walk from `st` to `st'` recorded more and set more flags, and left the guards it
entered. -/
structure Grows (st st' : ModuleImportCollector) : Prop where
  recorded : st.Recorded → st'.Recorded
  unguardedImports : st.unguardedImports ⊆ st'.unguardedImports
  unguardedAmbiguous : st.unguardedAmbiguous ⊆ st'.unguardedAmbiguous
  depth : st'.mainGuardDepth = st.mainGuardDepth
  hasImportlib : st.hasImportlib = true → st'.hasImportlib = true
  hasImportModule : st.hasImportModule = true → st'.hasImportModule = true

theorem Grows.refl (st : ModuleImportCollector) : Grows st st :=
  ⟨id, Finset.Subset.refl _, Finset.Subset.refl _, rfl, id, id⟩

theorem Grows.trans {st'' : ModuleImportCollector} (h : Grows st st') (h' : Grows st' st'') :
    Grows st st'' where
  recorded := h'.recorded ∘ h.recorded
  unguardedImports := h.unguardedImports.trans h'.unguardedImports
  unguardedAmbiguous := h.unguardedAmbiguous.trans h'.unguardedAmbiguous
  depth := h'.depth.trans h.depth
  hasImportlib := h'.hasImportlib ∘ h.hasImportlib
  hasImportModule := h'.hasImportModule ∘ h.hasImportModule

theorem grows_foldl {α : Type} {f : ModuleImportCollector → α → ModuleImportCollector}
    (hf : ∀ st a, Grows st (f st a)) (l : List α) (st : ModuleImportCollector) :
    Grows st (l.foldl f st) := by
  induction l generalizing st with
  | nil => exact Grows.refl st
  | cons a l ih => exact (hf st a).trans (ih (f st a))

theorem grows_record (st : ModuleImportCollector) (m : ModuleName) :
    Grows st (st.record m) := by
  have hsub : st.unguardedImports ⊆ (st.record m).unguardedImports := by
    unfold record
    dsimp only
    split
    · exact Finset.subset_insert m _
    · exact Finset.Subset.refl _
  refine ⟨fun h => ⟨?_, h.2⟩, hsub, Finset.Subset.refl _, rfl, id, id⟩
  show (if st.mainGuardDepth = 0 then insert m st.unguardedImports else st.unguardedImports) ⊆
    insert m st.imports
  split
  · exact Finset.insert_subset_insert m h.1
  · exact h.1.trans (Finset.subset_insert m _)

theorem grows_recordAmbiguous (st : ModuleImportCollector) (m : ModuleName) :
    Grows st (st.recordAmbiguous m) := by
  have hsub : st.unguardedAmbiguous ⊆ (st.recordAmbiguous m).unguardedAmbiguous := by
    unfold recordAmbiguous
    dsimp only
    split
    · exact Finset.subset_insert m _
    · exact Finset.Subset.refl _
  refine ⟨fun h => ⟨h.1, ?_⟩, Finset.Subset.refl _, hsub, rfl, id, id⟩
  show (if st.mainGuardDepth = 0 then insert m st.unguardedAmbiguous
    else st.unguardedAmbiguous) ⊆ insert m st.ambiguousImports
  split
  · exact Finset.insert_subset_insert m h.2
  · exact h.2.trans (Finset.subset_insert m _)

theorem grows_exprCall (st : ModuleImportCollector) (e : Expr) :
    Grows st (exprCall ctx st e) := by
  unfold exprCall
  dsimp only
  split
  · exact grows_record st _
  · exact Grows.refl st

theorem grows_setImportlib (st : ModuleImportCollector) :
    Grows st { st with hasImportlib := true } :=
  ⟨id, Finset.Subset.refl _, Finset.Subset.refl _, rfl, fun _ => rfl, id⟩

theorem grows_setImportModule (st : ModuleImportCollector) :
    Grows st { st with hasImportModule := true } :=
  ⟨id, Finset.Subset.refl _, Finset.Subset.refl _, rfl, id, fun _ => rfl⟩

theorem grows_importName (st : ModuleImportCollector) (imp : Str) :
    Grows st (importName st imp) := by
  unfold importName
  refine Grows.trans ?_ ((grows_foldl grows_record _ _).trans (grows_record _ imp))
  split
  · exact grows_setImportlib st
  · exact Grows.refl st

theorem grows_importFromSingle (parent : ModuleName) (st : ModuleImportCollector)
    (name : Str) : Grows st (importFromSingle ctx parent st name) := by
  have hflag : Grows st (flagImportModule parent st name) := by
    unfold flagImportModule
    split
    · exact grows_setImportModule st
    · exact Grows.refl st
  refine hflag.trans ?_
  unfold importFromSingle
  dsimp only
  split
  · exact Grows.refl _
  · split
    · exact grows_record _ _
    · exact grows_recordAmbiguous _ _

theorem grows_importFrom (st : ModuleImportCollector) (source : Option Str) (level : Nat)
    (names : List Str) : Grows st (importFrom ctx st source level names) := by
  unfold importFrom
  split
  · next parent _ =>
    refine Grows.trans ?_ (grows_foldl (grows_importFromSingle parent) names _)
    split
    · exact grows_record st parent
    · exact Grows.refl st
  · exact Grows.refl st

theorem grows_walkBranch {bodies : List (ModuleImportCollector → ModuleImportCollector)}
    (hbodies : ∀ walk ∈ bodies, ∀ st, Grows st (walk st)) (st : ModuleImportCollector)
    (branch : Nat × Option Expr) : Grows st (walkBranch bodies st branch) := by
  have hwalk : ∀ st, Grows st (bodies.getD branch.1 id st) := by
    intro st
    rw [List.getD_eq_getElem?_getD]
    cases hget : bodies[branch.1]? with
    | none => exact Grows.refl st
    | some walk => exact hbodies walk (List.mem_of_getElem? hget) st
  unfold walkBranch
  dsimp only
  split
  · have h := hwalk { st with mainGuardDepth := st.mainGuardDepth + 1 }
    refine ⟨h.recorded, h.unguardedImports, h.unguardedAmbiguous, ?_, h.hasImportlib,
      h.hasImportModule⟩
    show (bodies.getD branch.1 id _).mainGuardDepth - 1 = st.mainGuardDepth
    rw [h.depth, Nat.add_sub_cancel]
  · exact hwalk st

mutual

theorem grows_stmt : (s : Stmt) → ∀ st, Grows st (stmt ctx s st)
  | .importNames names _, st => by
    rw [stmt]
    exact grows_foldl (fun st a => grows_importName st a.name.id) names st
  | .importFrom source level names _ _, st => grows_importFrom st source level _
  | .ifElse branches, st => by
    rw [stmt]
    exact grows_foldl (grows_walkBranch (grows_branchWalks branches)) _ st
  | .tryExcept body handlers orelse finalbody, st => by
    rw [stmt]
    exact (grows_stmts body st).trans ((grows_clauses handlers _).trans
      ((grows_stmts orelse _).trans (grows_stmts finalbody _)))
  | .withBlock _ body, st => grows_stmts body st
  | .forLoop _ _ body orelse, st => by
    rw [stmt]
    exact (grows_stmts body st).trans (grows_stmts orelse _)
  | .whileLoop _ body orelse, st => by
    rw [stmt]
    exact (grows_stmts body st).trans (grows_stmts orelse _)
  | .matchCases _ cases, st => grows_clauses cases st
  | .expr value, st => grows_exprCall st value
  | .assign _ value _, st => grows_exprCall st value
  | .functionDef _ _ _ body _, st => grows_stmts body st
  | .classDef _ _ _ body _, st => grows_stmts body st
  | .returnValue _, st | .delete _, st | .augAssign _ _ _, st | .annAssign _ _ _, st
  | .raise _ _ _, st | .assert _ _, st | .globalNames _, st | .nonlocalNames _, st
  | .typeAlias _ _, st | .other, st => Grows.refl st

theorem grows_stmts : (body : List Stmt) → ∀ st, Grows st (stmts ctx body st)
  | [], st => Grows.refl st
  | s :: rest, st => by
    rw [stmts]
    exact (grows_stmt s st).trans (grows_stmts rest _)

theorem grows_clauses : (cs : List (Clause × List Stmt)) → ∀ st,
    Grows st (clauses ctx cs st)
  | [], st => Grows.refl st
  | c :: rest, st => by
    rw [clauses]
    exact (grows_clause c st).trans (grows_clauses rest _)

theorem grows_clause : (c : Clause × List Stmt) → ∀ st, Grows st (clause ctx c st)
  | (_, body), st => grows_stmts body st

theorem grows_branchWalks : (branches : List (Option Expr × List Stmt)) →
    ∀ walk ∈ branchWalks ctx branches, ∀ st, Grows st (walk st)
  | [] => nofun
  | branch :: rest => by
    intro walk hwalk
    rw [branchWalks, List.mem_cons] at hwalk
    rcases hwalk with rfl | hwalk
    · exact grows_branchWalk branch
    · exact grows_branchWalks rest walk hwalk

theorem grows_branchWalk : (branch : Option Expr × List Stmt) →
    ∀ st, Grows st (branchWalk ctx branch st)
  | (_, body), st => grows_stmts body st

end

/-! ## Pruning beside tagging -/

/-- The walk that prunes the guards, at `p`, beside the walk that tags them, at `f`: all that
the first one recorded, the second one recorded outside every guard. -/
structure Simulates (p f : ModuleImportCollector) : Prop where
  imports : p.imports ⊆ f.unguardedImports
  ambiguousImports : p.ambiguousImports ⊆ f.unguardedAmbiguous
  depth : f.mainGuardDepth = 0
  hasImportlib : p.hasImportlib = true → f.hasImportlib = true
  hasImportModule : p.hasImportModule = true → f.hasImportModule = true

variable {p f : ModuleImportCollector}

/-- What only the second walk visits does not matter. -/
theorem Simulates.grows {f' : ModuleImportCollector} (h : Simulates p f) (hf : Grows f f') :
    Simulates p f' where
  imports := h.imports.trans hf.unguardedImports
  ambiguousImports := h.ambiguousImports.trans hf.unguardedAmbiguous
  depth := hf.depth.trans h.depth
  hasImportlib := hf.hasImportlib ∘ h.hasImportlib
  hasImportModule := hf.hasImportModule ∘ h.hasImportModule

theorem simulates_foldl {α : Type} {g : ModuleImportCollector → α → ModuleImportCollector}
    (hg : ∀ p f a, Simulates p f → Simulates (g p a) (g f a)) (l : List α)
    (h : Simulates p f) : Simulates (l.foldl g p) (l.foldl g f) := by
  induction l generalizing p f with
  | nil => exact h
  | cons a l ih => exact ih (hg p f a h)

theorem Simulates.record (h : Simulates p f) (m : ModuleName) :
    Simulates (p.record m) (f.record m) := by
  refine ⟨?_, h.ambiguousImports, h.depth, h.hasImportlib, h.hasImportModule⟩
  show insert m p.imports ⊆
    if f.mainGuardDepth = 0 then insert m f.unguardedImports else f.unguardedImports
  rw [if_pos h.depth]
  exact Finset.insert_subset_insert m h.imports

theorem Simulates.recordAmbiguous (h : Simulates p f) (m : ModuleName) :
    Simulates (p.recordAmbiguous m) (f.recordAmbiguous m) := by
  refine ⟨h.imports, ?_, h.depth, h.hasImportlib, h.hasImportModule⟩
  show insert m p.ambiguousImports ⊆
    if f.mainGuardDepth = 0 then insert m f.unguardedAmbiguous else f.unguardedAmbiguous
  rw [if_pos h.depth]
  exact Finset.insert_subset_insert m h.ambiguousImports

theorem Simulates.setImportlib (h : Simulates p f) :
    Simulates { p with hasImportlib := true } { f with hasImportlib := true } :=
  ⟨h.imports, h.ambiguousImports, h.depth, fun _ => rfl, h.hasImportModule⟩

theorem Simulates.setImportModule (h : Simulates p f) :
    Simulates { p with hasImportModule := true } { f with hasImportModule := true } :=
  ⟨h.imports, h.ambiguousImports, h.depth, h.hasImportlib, fun _ => rfl⟩

/-- A call that is recognised with fewer flags is recognised with more. -/
theorem matchCall_mono {library : ParserLibrary} {p f : ImportlibState}
    (hlib : p.hasImportlib = true → f.hasImportlib = true)
    (hmod : p.hasImportModule = true → f.hasImportModule = true) {e : Expr} {imp : ModuleName}
    (h : p.matchCall library e = some imp) : f.matchCall library e = some imp := by
  have hcall : ∀ func, p.isImportModuleCall func = true → f.isImportModuleCall func = true := by
    intro func
    unfold ImportlibState.isImportModuleCall
    split
    · simp only [Bool.and_eq_true]
      exact And.imp_left hmod
    · simp only [Bool.and_eq_true]
      exact And.imp_left (And.imp_left hlib)
    · exact id
  unfold ImportlibState.matchCall at h ⊢
  split at h
  · split at h
    · next hp => rw [if_pos (hcall _ hp), h]
    · cases h
  · cases h

theorem Simulates.exprCall (h : Simulates p f) (e : Expr) :
    Simulates (exprCall ctx p e) (exprCall ctx f e) := by
  unfold ModuleImportCollector.exprCall
  dsimp only
  cases hp : ImportlibState.matchCall ctx.config.library
      ⟨p.hasImportlib, p.hasImportModule⟩ e with
  | some imp =>
    rw [matchCall_mono (f := ⟨f.hasImportlib, f.hasImportModule⟩) h.hasImportlib
      h.hasImportModule hp]
    exact h.record imp
  | none =>
    -- a call that only the flags of the second walk recognise
    refine h.grows ?_
    split
    · exact grows_record f _
    · exact Grows.refl f

theorem Simulates.importName (h : Simulates p f) (imp : Str) :
    Simulates (importName p imp) (importName f imp) := by
  unfold ModuleImportCollector.importName
  refine Simulates.record ?_ imp
  refine simulates_foldl (fun p f a hpf => hpf.record a) _ ?_
  split
  · exact h.setImportlib
  · exact h

theorem Simulates.importFromSingle (h : Simulates p f) (parent : ModuleName) (name : Str) :
    Simulates (importFromSingle ctx parent p name) (importFromSingle ctx parent f name) := by
  have hflag : Simulates (flagImportModule parent p name) (flagImportModule parent f name) := by
    unfold flagImportModule
    split
    · exact h.setImportModule
    · exact h
  unfold ModuleImportCollector.importFromSingle
  dsimp only
  split
  · exact hflag
  · split
    · exact hflag.record _
    · exact hflag.recordAmbiguous _

theorem Simulates.importFrom (h : Simulates p f) (source : Option Str) (level : Nat)
    (names : List Str) :
    Simulates (importFrom ctx p source level names) (importFrom ctx f source level names) := by
  unfold ModuleImportCollector.importFrom
  split
  · next parent _ =>
    refine simulates_foldl (fun p f a hpf => hpf.importFromSingle parent a) names ?_
    split
    · exact h.record parent
    · exact h
  · exact h

/-! ## The branches of an `if` -/

variable {main : ModuleName}

/-- The walks over two lists of bodies, one beside the other. -/
def SimulatesAll (ps fs : List (ModuleImportCollector → ModuleImportCollector)) : Prop :=
  ∀ i p f, Simulates p f → Simulates (ps.getD i id p) (fs.getD i id f)

theorem simulates_walkBranch {ps fs : List (ModuleImportCollector → ModuleImportCollector)}
    (hwalks : SimulatesAll ps fs) (hgrows : ∀ walk ∈ fs, ∀ st, Grows st (walk st))
    (branches : List (Nat × Option Expr)) (h : Simulates p f) :
    Simulates
      ((branches.filter fun b => !b.2.any AnalysisConfig.isMainGuard).foldl (walkBranch ps) p)
      (branches.foldl (walkBranch fs) f) := by
  induction branches generalizing p f with
  | nil => exact h
  | cons b branches ih =>
    rw [List.foldl_cons]
    cases hguard : b.2.any AnalysisConfig.isMainGuard with
    | true =>
      -- only the second walk enters a guard
      rw [List.filter_cons_of_neg (by simp [hguard])]
      exact ih (h.grows (grows_walkBranch hgrows f b))
    | false =>
      rw [List.filter_cons_of_pos (by simp [hguard]), List.foldl_cons]
      have hwalk : ∀ walks st, walkBranch walks st b = walks.getD b.1 id st := by
        intro walks st
        simp [walkBranch, hguard]
      rw [hwalk, hwalk]
      exact ih (hwalks b.1 p f h)

mutual

theorem simulates_stmt (hmain : main ≠ ctx.currentModule) : (s : Stmt) → ∀ p f,
    Simulates p f →
    Simulates (stmt (ctx.withMain (some main)) s p) (stmt (ctx.withMain none) s f)
  | .importNames names _, p, f, h => by
    rw [stmt, stmt]
    exact simulates_foldl (fun _ _ a h => h.importName a.name.id) names h
  | .importFrom source level names _ _, p, f, h => h.importFrom source level _
  | .ifElse branches, p, f, h => by
    rw [stmt, stmt]
    show Simulates
      (((ctx.withMain (some main)).config.lgPrunedIfBranches branches ctx.currentModule).foldl _ p)
      (((ctx.withMain none).config.lgPrunedIfBranches branches ctx.currentModule).foldl _ f)
    rw [show (ctx.withMain (some main)).config = ctx.config.withMain (some main) from rfl,
      show (ctx.withMain none).config = ctx.config.withMain none from rfl,
      AnalysisConfig.lgPrunedIfBranches_other _ hmain, AnalysisConfig.lgPrunedIfBranches_none]
    exact simulates_walkBranch (simulates_branchWalks hmain branches)
      (grows_branchWalks branches) _ h
  | .tryExcept body handlers orelse finalbody, p, f, h => by
    rw [stmt, stmt]
    have hbody := simulates_stmts hmain body p f h
    have hhandlers := simulates_clauses hmain handlers _ _ hbody
    exact simulates_stmts hmain finalbody _ _ (simulates_stmts hmain orelse _ _ hhandlers)
  | .withBlock _ body, p, f, h => simulates_stmts hmain body p f h
  | .forLoop _ _ body orelse, p, f, h => by
    rw [stmt, stmt]
    exact simulates_stmts hmain orelse _ _ (simulates_stmts hmain body p f h)
  | .whileLoop _ body orelse, p, f, h => by
    rw [stmt, stmt]
    exact simulates_stmts hmain orelse _ _ (simulates_stmts hmain body p f h)
  | .matchCases _ cases, p, f, h => simulates_clauses hmain cases p f h
  | .expr value, p, f, h => h.exprCall value
  | .assign _ value _, p, f, h => h.exprCall value
  | .functionDef _ _ _ body _, p, f, h => simulates_stmts hmain body p f h
  | .classDef _ _ _ body _, p, f, h => simulates_stmts hmain body p f h
  | .returnValue _, _, _, h | .delete _, _, _, h | .augAssign _ _ _, _, _, h
  | .annAssign _ _ _, _, _, h | .raise _ _ _, _, _, h | .assert _ _, _, _, h
  | .globalNames _, _, _, h | .nonlocalNames _, _, _, h | .typeAlias _ _, _, _, h
  | .other, _, _, h => h

theorem simulates_stmts (hmain : main ≠ ctx.currentModule) : (body : List Stmt) → ∀ p f,
    Simulates p f →
    Simulates (stmts (ctx.withMain (some main)) body p) (stmts (ctx.withMain none) body f)
  | [], _, _, h => h
  | s :: rest, p, f, h => by
    rw [stmts, stmts]
    exact simulates_stmts hmain rest _ _ (simulates_stmt hmain s p f h)

theorem simulates_clauses (hmain : main ≠ ctx.currentModule) :
    (cs : List (Clause × List Stmt)) → ∀ p f, Simulates p f →
    Simulates (clauses (ctx.withMain (some main)) cs p)
      (clauses (ctx.withMain none) cs f)
  | [], _, _, h => h
  | c :: rest, p, f, h => by
    rw [clauses, clauses]
    exact simulates_clauses hmain rest _ _ (simulates_clause hmain c p f h)

theorem simulates_clause (hmain : main ≠ ctx.currentModule) :
    (c : Clause × List Stmt) → ∀ p f, Simulates p f →
    Simulates (clause (ctx.withMain (some main)) c p) (clause (ctx.withMain none) c f)
  | (_, body), p, f, h => simulates_stmts hmain body p f h

theorem simulates_branchWalks (hmain : main ≠ ctx.currentModule) :
    (branches : List (Option Expr × List Stmt)) →
    SimulatesAll (branchWalks (ctx.withMain (some main)) branches)
      (branchWalks (ctx.withMain none) branches)
  | [] => fun _ _ _ h => h
  | branch :: rest => by
    intro i p f h
    rw [branchWalks, branchWalks]
    cases i with
    | zero => exact simulates_branchWalk hmain branch p f h
    | succ i => exact simulates_branchWalks hmain rest i p f h

theorem simulates_branchWalk (hmain : main ≠ ctx.currentModule) :
    (branch : Option Expr × List Stmt) → ∀ p f, Simulates p f →
    Simulates (branchWalk (ctx.withMain (some main)) branch p)
      (branchWalk (ctx.withMain none) branch f)
  | (_, body), p, f, h => simulates_stmts hmain body p f h

end

/-- What is collected when the guards are pruned is collected when they are kept, and not as
guard-only. -/
theorem collect_pruned (hmain : main ≠ ctx.currentModule) (body : List Stmt) :
    (collect (ctx.withMain (some main)) body).imports ⊆
        (collect (ctx.withMain none) body).imports ∧
      (collect (ctx.withMain (some main)) body).ambiguous ⊆
        (collect (ctx.withMain none) body).ambiguous ∧
      ∀ n, n ∈ (collect (ctx.withMain (some main)) body).imports ∨
          n ∈ (collect (ctx.withMain (some main)) body).ambiguous →
        n ∉ (collect (ctx.withMain none) body).mainGuardOnly := by
  have hstart : Simulates {} {} :=
    ⟨Finset.Subset.refl _, Finset.Subset.refl _, rfl, id, id⟩
  have hsim := simulates_stmts hmain body {} {} hstart
  have hrecorded : Recorded (stmts (ctx.withMain none) body {}) :=
    (grows_stmts body {}).recorded ⟨Finset.Subset.refl _, Finset.Subset.refl _⟩
  refine ⟨hsim.imports.trans hrecorded.1, hsim.ambiguousImports.trans hrecorded.2, ?_⟩
  intro n hn hguard
  obtain ⟨-, hnot⟩ := Finset.mem_filter.mp hguard
  refine hnot (Finset.mem_union.mpr ?_)
  exact hn.imp (fun h => hsim.imports h) fun h => hsim.ambiguousImports h

end ModuleImportCollector

end Lifeguard
