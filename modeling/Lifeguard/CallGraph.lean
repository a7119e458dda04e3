import Lifeguard.Calls
import Lifeguard.CsrCycles
import Lifeguard.CsrLevels

/-!
# The verdict precompute

The call graph over every function and class, and the computation of their verdicts in
dependency order (`project/call_graph.rs`):

- `callEdges`: who runs what, by name;
- `buildCallGraph`: the compact graph over the numbered names, with the members of its
  cycles;
- `precomputeNode`: the verdict of one function or class;
- `precompute`: the cycle members and the declared-safe names first, then the nodes level
  by level.

The nodes of one level are evaluated one after the other, in any order: a run is given by
a `Schedule`, a permutation of each level.
-/

namespace Lifeguard

open Lib

namespace ProjectInfo

variable (info : ProjectInfo)

/-! ## The graph -/

/-- The names of the nodes: every function and class, once. -/
def nodeNames : List ModuleName :=
  (info.functions.keys ++ info.classes.keys).foldl
    (fun names name => if name ∈ names then names else names ++ [name]) []

/-- The names a runnable effect's edges lead to: the callee, the immediate nested
functions of a decorator factory, and the metaclass methods of a class statement. -/
def edgeTargets (eff : Effect) : List ModuleName :=
  let target := info.callGraphTarget eff
  target.toList ++
    (if isParameterizedDecoratorEffect eff then
      (target.bind info.nestedFunctions.get?).getD []
    else []) ++
    (if eff.kind = .classCreation then info.metaclassCreationCallees eff.name else [])

/-- The runnable effects of a body. -/
def runnableEffects (func : ModuleName) : List Effect :=
  (info.effectsOf func).filter fun eff => eff.kind.isRunnable

/-- The node a constructor method of a class leads to. -/
def constructorTarget (method : ModuleName) : Option ModuleName :=
  if info.isNode method then some method else info.resolveCallable method

/-- The edges of the call graph, by name; an edge to a name that is no node is dropped. -/
def callEdges : List (ModuleName × ModuleName) :=
  ((info.functions.keys.flatMap fun func =>
      (info.runnableEffects func).flatMap fun eff =>
        (info.edgeTargets eff).map fun target => (func, target)) ++
    info.classes.keys.flatMap fun clsName =>
      ((info.constructorMethodsOf clsName).filterMap info.constructorTarget).map
        fun target => (clsName, target)).filter fun e => info.isNode e.2

/-- `CallGraph`. -/
structure CallGraph where
  csr : CsrGraph
  /-- Node index to name. -/
  names : List ModuleName
  /-- Whether each node participates in a call cycle. -/
  inCycle : Nat → Bool

/-- `build_call_graph`. -/
def buildCallGraph : CallGraph :=
  let names := info.nodeNames
  let csr := CsrGraph.fromEdges names.length
    (info.callEdges.map fun e => (names.idxOf e.1, names.idxOf e.2))
  { csr, names, inCycle := csr.nodesInCycles }

/-! ## The verdict of one node -/

/-- The fold of a failing constructor's recorded verdicts: the class waits on the methods
that wait on a dependency. -/
def combinedConstructorVerdict (clsName : ModuleName) (st : AnalysisState) :
    FunctionSafetyInfo :=
  (info.constructorMethodsOf clsName).foldl
    (fun combined method =>
      match st.safety method with
      | none => combined
      | some fi =>
        { combined with
          verdict := combined.verdict ∪ fi.verdict
          missingDepCallees :=
            if .unsafeMissingDep ∈ fi.verdict then insert method combined.missingDepCallees
            else combined.missingDepCallees })
    (.new ∅)

/-- `precompute_constructor_verdict`. -/
def precomputeConstructorVerdict (clsName : ModuleName) (st : AnalysisState) :
    AnalysisState :=
  if (st.safety clsName).isSome then st
  else
    let call : Call :=
      { callerModule := clsName
        effect := { kind := .functionCall, name := clsName }
        func := clsName }
    match info.checkConstructorCall (info.checkCallBody info.bodyFuel) call st with
    | (.error _, st) => st.markUnsafe clsName
    | (.ok true, st) => st.markSafe clsName
    | (.ok false, st) =>
      let st := (info.constructorMethodsOf clsName).foldl AnalysisState.read st
      let combined := info.combinedConstructorVerdict clsName st
      if !combined.verdict.isSafe && !decide (.hardUnsafe ∈ combined.verdict) then
        st.setFunctionSafety clsName combined
      else st.markUnsafe clsName

/-- `precompute_function_verdict`. -/
def precomputeFunctionVerdict (funcName funcModule : ModuleName) (st : AnalysisState) :
    AnalysisState :=
  if (st.safety funcName).isSome then st
  else
    let call : Call :=
      { callerModule := funcModule
        effect := { kind := .functionCall, name := funcName }
        func := funcName }
    let st :=
      match info.checkCallBody info.bodyFuel call st with
      | (.error _, st) => st.markUnsafe funcName
      | (.ok _, st) => st
    if (st.safety funcName).isNone then st.markSafe funcName else st

/-- The verdict of one name: a name in both tables is analyzed as a constructor. -/
def precomputeName (name : ModuleName) (st : AnalysisState) : AnalysisState :=
  if hasKey info.classes name then info.precomputeConstructorVerdict name st
  else
    match info.functions.get? name with
    | some funcModule => info.precomputeFunctionVerdict name funcModule st
    | none => st

/-! ## The run -/

/-- The name of a node. -/
def nodeName (node : Nat) : ModuleName := info.nodeNames.getD node []

/-- `mark_recursive_functions_unsafe`, over the nodes of the graph. -/
def markRecursiveFunctionsUnsafe (st : AnalysisState) : AnalysisState :=
  (List.range info.nodeNames.length).foldl
    (fun st node =>
      if info.buildCallGraph.inCycle node then st.markUnsafe (info.nodeName node) else st) st

/-- `mark_declared_safe`. -/
def markDeclaredSafe (st : AnalysisState) : AnalysisState :=
  (info.nodeNames.filter declaredSafe).foldl AnalysisState.markSafe st

/-- The state the levels are computed from. -/
def settledState : AnalysisState :=
  info.markDeclaredSafe (info.markRecursiveFunctionsUnsafe {})

/-- The levels of the nodes that are in no cycle. -/
def levels : List (List Nat) :=
  info.buildCallGraph.csr.dependencyLevels info.buildCallGraph.inCycle

/-- An order in which the nodes of every level are evaluated. -/
def Schedule (order : List (List Nat)) : Prop := List.Forall₂ List.Perm order info.levels

/-- `precompute_safety_in_dependency_order`, over the nodes in the order they are
evaluated. -/
def precomputeNodes (nodes : List Nat) (st : AnalysisState) : AnalysisState :=
  nodes.foldl (fun st node => info.precomputeName (info.nodeName node) st) st

/-- The verdicts of a whole run. -/
def precompute (order : List (List Nat)) : AnalysisState :=
  info.precomputeNodes order.flatten info.settledState

end ProjectInfo

end Lifeguard
