import Lifeguard.CallTheory
import Mathlib.Data.List.Forall2
import Mathlib.Data.List.GetD

/-!
# The order of the precompute

What the numbering of the call graph and its levels mean for names:

- `CallEdge`, `edge_iff_callEdge`: the edges of the compact graph are those between names;
- `inCycle_of_transGen`: a name on a closed walk of call edges is marked;
- `level_lt_of_callEdge`: the callee of an unmarked name is marked or has a lower level;
- `isSome_safety_precompute`: a run over a `Schedule` leaves a verdict for every node;
- `schedule_before`: when a node is evaluated, the nodes of lower levels have been.
-/

namespace Lifeguard

open Lib Relation

namespace ProjectInfo

variable {info : ProjectInfo}

/-! ## The numbering -/

theorem mem_foldl_insert (names todo : List ModuleName) (n : ModuleName) :
    n ∈ todo.foldl (fun names name => if name ∈ names then names else names ++ [name]) names ↔
      n ∈ names ∨ n ∈ todo := by
  induction todo generalizing names with
  | nil => simp
  | cons name todo ih =>
    rw [List.foldl_cons, ih, List.mem_cons]
    split
    · next hmem =>
      constructor
      · rintro (h | h)
        · exact Or.inl h
        · exact Or.inr (Or.inr h)
      · rintro (h | rfl | h)
        · exact Or.inl h
        · exact Or.inl hmem
        · exact Or.inr h
    · rw [List.mem_append, List.mem_singleton, or_assoc]

theorem nodup_foldl_insert {names : List ModuleName} (todo : List ModuleName)
    (h : names.Nodup) :
    (todo.foldl (fun names name => if name ∈ names then names else names ++ [name])
      names).Nodup := by
  induction todo generalizing names with
  | nil => exact h
  | cons name todo ih =>
    rw [List.foldl_cons]
    split
    · exact ih h
    · next hmem =>
      refine ih (List.nodup_append.mpr ⟨h, by simp, ?_⟩)
      intro a ha b hb heq
      rw [List.mem_singleton.mp hb] at heq
      exact hmem (heq ▸ ha)

theorem nodup_nodeNames (info : ProjectInfo) : info.nodeNames.Nodup :=
  nodup_foldl_insert _ List.nodup_nil

theorem mem_nodeNames {n : ModuleName} : n ∈ info.nodeNames ↔ info.isNode n = true := by
  unfold nodeNames
  rw [mem_foldl_insert, or_iff_right List.not_mem_nil, List.mem_append, Table.mem_keys,
    Table.mem_keys, isNode, Bool.or_eq_true]
  rfl

/-- The number of a node. -/
def nodeIndex (info : ProjectInfo) (n : ModuleName) : Nat := info.nodeNames.idxOf n

theorem nodeIndex_lt {n : ModuleName} (h : info.isNode n = true) :
    info.nodeIndex n < info.nodeNames.length :=
  List.idxOf_lt_length_of_mem (mem_nodeNames.mpr h)

theorem nodeName_nodeIndex {n : ModuleName} (h : info.isNode n = true) :
    info.nodeName (info.nodeIndex n) = n := by
  unfold nodeName nodeIndex
  rw [List.getD_eq_getElem _ _ (List.idxOf_lt_length_of_mem (mem_nodeNames.mpr h)),
    List.getElem_idxOf]

theorem nodeIndex_nodeName {v : Nat} (h : v < info.nodeNames.length) :
    info.nodeIndex (info.nodeName v) = v := by
  unfold nodeName nodeIndex
  rw [List.getD_eq_getElem _ _ h]
  exact (nodup_nodeNames info).idxOf_getElem v h

theorem isNode_nodeName {v : Nat} (h : v < info.nodeNames.length) :
    info.isNode (info.nodeName v) = true := by
  rw [← mem_nodeNames, nodeName, List.getD_eq_getElem _ _ h]
  exact List.getElem_mem h

/-! ## The edges -/

/-- There is an edge of the call graph between the names. -/
def CallEdge (info : ProjectInfo) (a b : ModuleName) : Prop := (a, b) ∈ info.callEdges

theorem callEdge_iff {a b : ModuleName} :
    info.CallEdge a b ↔
      ((hasKey info.functions a = true ∧
          ∃ eff ∈ info.runnableEffects a, b ∈ info.edgeTargets eff) ∨
        (hasKey info.classes a = true ∧
          ∃ method ∈ info.constructorMethodsOf a, info.constructorTarget method = some b)) ∧
      info.isNode b = true := by
  unfold CallEdge callEdges
  rw [List.mem_filter, List.mem_append]
  refine and_congr_left fun _ => or_congr ?_ ?_
  · rw [List.mem_flatMap]
    constructor
    · rintro ⟨func, hfunc, hmem⟩
      obtain ⟨eff, heff, hmem⟩ := List.mem_flatMap.mp hmem
      obtain ⟨target, htarget, heq⟩ := List.mem_map.mp hmem
      cases heq
      exact ⟨Table.mem_keys.mp hfunc, eff, heff, htarget⟩
    · rintro ⟨hfunc, eff, heff, htarget⟩
      exact ⟨a, Table.mem_keys.mpr hfunc, List.mem_flatMap.mpr
        ⟨eff, heff, List.mem_map.mpr ⟨b, htarget, rfl⟩⟩⟩
  · rw [List.mem_flatMap]
    constructor
    · rintro ⟨cls, hcls, hmem⟩
      obtain ⟨target, htarget, heq⟩ := List.mem_map.mp hmem
      cases heq
      obtain ⟨method, hmethod, htarget⟩ := List.mem_filterMap.mp htarget
      exact ⟨Table.mem_keys.mp hcls, method, hmethod, htarget⟩
    · rintro ⟨hcls, method, hmethod, htarget⟩
      exact ⟨a, Table.mem_keys.mpr hcls, List.mem_map.mpr
        ⟨b, List.mem_filterMap.mpr ⟨method, hmethod, htarget⟩, rfl⟩⟩

theorem CallEdge.nodes {a b : ModuleName} (h : info.CallEdge a b) :
    info.isNode a = true ∧ info.isNode b = true := by
  obtain ⟨⟨ha, -⟩ | ⟨ha, -⟩, hb⟩ := callEdge_iff.mp h
  · exact ⟨isNode_of_function ha, hb⟩
  · exact ⟨isNode_of_class ha, hb⟩

/-- The graph `build_call_graph` lays out. -/
def callCsr (info : ProjectInfo) : CsrGraph := info.buildCallGraph.csr

/-- Whether the name participates in a call cycle. -/
def inCycle (info : ProjectInfo) (n : ModuleName) : Bool :=
  info.buildCallGraph.inCycle (info.nodeIndex n)

theorem mem_numberedEdges {u w : Nat} :
    (u, w) ∈ info.callEdges.map
        (fun e => (info.nodeNames.idxOf e.1, info.nodeNames.idxOf e.2)) ↔
      ∃ a b, info.CallEdge a b ∧ info.nodeIndex a = u ∧ info.nodeIndex b = w := by
  rw [List.mem_map]
  constructor
  · rintro ⟨⟨a, b⟩, hmem, heq⟩
    cases heq
    exact ⟨a, b, hmem, rfl, rfl⟩
  · rintro ⟨a, b, hmem, rfl, rfl⟩
    exact ⟨(a, b), hmem, rfl⟩

theorem numberedEdges_lt {e : Nat × Nat}
    (h : e ∈ info.callEdges.map
      (fun e => (info.nodeNames.idxOf e.1, info.nodeNames.idxOf e.2))) :
    e.1 < info.nodeNames.length ∧ e.2 < info.nodeNames.length := by
  obtain ⟨u, w⟩ := e
  obtain ⟨a, b, hedge, rfl, rfl⟩ := mem_numberedEdges.mp h
  exact ⟨nodeIndex_lt hedge.nodes.1, nodeIndex_lt hedge.nodes.2⟩

theorem valid_callCsr (info : ProjectInfo) : info.callCsr.Valid :=
  CsrGraph.valid_fromEdges fun _ he => numberedEdges_lt he

theorem edge_iff_callEdge {u w : Nat} (hu : u < info.nodeNames.length) :
    info.callCsr.Edge u w ↔
      ∃ a b, info.CallEdge a b ∧ info.nodeIndex a = u ∧ info.nodeIndex b = w := by
  rw [← mem_numberedEdges]
  exact CsrGraph.edge_fromEdges (fun _ he => (numberedEdges_lt he).1) hu

theorem CallEdge.edge {a b : ModuleName} (h : info.CallEdge a b) :
    info.callCsr.Edge (info.nodeIndex a) (info.nodeIndex b) :=
  (edge_iff_callEdge (nodeIndex_lt h.nodes.1)).mpr ⟨a, b, h, rfl, rfl⟩

/-- Walks of names are walks of the numbered graph. -/
theorem transGen_edge {a b : ModuleName} (h : TransGen info.CallEdge a b) :
    TransGen info.callCsr.Edge (info.nodeIndex a) (info.nodeIndex b) := by
  induction h with
  | single h => exact TransGen.single h.edge
  | tail _ h ih => exact TransGen.tail ih h.edge

/-- A name on a closed walk is marked. -/
theorem inCycle_of_transGen {a : ModuleName} (h : TransGen info.CallEdge a a) :
    info.inCycle a = true := by
  have hnode : info.isNode a = true := by
    cases h with
    | single h => exact h.nodes.1
    | tail _ h => exact h.nodes.2
  by_contra hnot
  exact CsrGraph.not_transGen_of_unmarked (valid_callCsr info) (nodeIndex_lt hnode)
    (Bool.eq_false_iff.mpr hnot) (transGen_edge h)

/-! ## The levels -/

/-- The level of a node that is in no cycle. -/
def level (info : ProjectInfo) (n : ModuleName) : Option Nat :=
  info.callCsr.nodeLevels info.buildCallGraph.inCycle (info.nodeIndex n)

/-- The nodes in no cycle have no cycle among them. -/
theorem acyclicUnsettled_callCsr (info : ProjectInfo) :
    info.callCsr.AcyclicUnsettled info.buildCallGraph.inCycle := by
  intro v hv hcycle
  obtain ⟨w, hvw, -⟩ := TransGen.head'_iff.mp hcycle
  have hwalk : TransGen info.callCsr.Edge v v :=
    TransGen.mono (fun _ _ h => And.left h) _ _ hcycle
  exact CsrGraph.not_transGen_of_unmarked (valid_callCsr info) hv hvw.2.1 hwalk

/-- Exactly the nodes in no cycle have a level. -/
theorem level_isSome {n : ModuleName} (h : info.isNode n = true) :
    (info.level n).isSome ↔ info.inCycle n = false := by
  rw [level, CsrGraph.nodeLevels_isSome (valid_callCsr info)]
  exact and_iff_right (nodeIndex_lt h)

/-- The callee of an unmarked name is marked or has a lower level. -/
theorem level_lt_of_callEdge {a b : ModuleName} {l : Nat} (h : info.CallEdge a b)
    (hl : info.level a = some l) :
    info.inCycle b = true ∨ ∃ lb, info.level b = some lb ∧ lb < l := by
  by_cases hb : info.inCycle b = true
  · exact Or.inl hb
  · exact Or.inr (CsrGraph.nodeLevels_lt (valid_callCsr info) (acyclicUnsettled_callCsr info)
      hl h.edge (Bool.eq_false_iff.mpr hb))

/-- A level lists the nodes that have it. -/
theorem mem_levels {l v : Nat} :
    (∃ lv, info.levels[l]? = some lv ∧ v ∈ lv) ↔
      info.callCsr.nodeLevels info.buildCallGraph.inCycle v = some l :=
  CsrGraph.mem_dependencyLevels (valid_callCsr info)

theorem nodeLevels_lt_length {l v : Nat}
    (h : info.callCsr.nodeLevels info.buildCallGraph.inCycle v = some l) :
    v < info.nodeNames.length :=
  ((CsrGraph.nodeLevels_isSome (valid_callCsr info) v).mp
    (by rw [h]; rfl)).1

/-! ## The settled names -/

theorem safety_markRecursive (st : AnalysisState) (n : ModuleName) :
    (info.markRecursiveFunctionsUnsafe st).safety n =
      if info.isNode n = true ∧ info.inCycle n = true then some (.new {.hardUnsafe})
      else st.safety n := by
  -- over any list of nodes, with the verdicts of before for the others
  have hgen : ∀ (nodes : List Nat) (s : AnalysisState), (∀ v ∈ nodes, v < info.nodeNames.length) →
      (nodes.foldl (fun st node =>
        if info.buildCallGraph.inCycle node then st.markUnsafe (info.nodeName node) else st)
        s).safety n =
      if info.isNode n = true ∧ info.nodeIndex n ∈ nodes ∧ info.inCycle n = true then
        some (.new {.hardUnsafe})
      else s.safety n := by
    intro nodes
    induction nodes with
    | nil => simp
    | cons v nodes ih =>
      intro s hnodes
      have hv := hnodes v List.mem_cons_self
      rw [List.foldl_cons, ih _ fun w hw => hnodes w (List.mem_cons_of_mem _ hw)]
      by_cases hn : info.isNode n = true ∧ info.nodeIndex n ∈ nodes ∧ info.inCycle n = true
      · rw [if_pos hn, if_pos ⟨hn.1, List.mem_cons_of_mem _ hn.2.1, hn.2.2⟩]
      · rw [if_neg hn]
        by_cases heq : n = info.nodeName v
        · have hnode : info.isNode n = true := by
            rw [heq]
            exact isNode_nodeName hv
          have hidx : info.nodeIndex n = v := by rw [heq, nodeIndex_nodeName hv]
          by_cases hcyc : info.buildCallGraph.inCycle v = true
          · rw [if_pos hcyc, AnalysisState.safety_markUnsafe, if_pos heq, if_pos]
            refine ⟨hnode, ?_, ?_⟩
            · rw [hidx]
              exact List.mem_cons_self
            · rw [inCycle, hidx]
              exact hcyc
          · rw [if_neg hcyc, if_neg]
            rintro ⟨-, -, h⟩
            rw [inCycle, hidx] at h
            exact hcyc h
        · have hother : (if info.buildCallGraph.inCycle v = true then
              s.markUnsafe (info.nodeName v) else s).safety n = s.safety n := by
            split
            · rw [AnalysisState.safety_markUnsafe, if_neg heq]
            · rfl
          rw [hother, if_neg]
          rintro ⟨hnode, hmem, hcyc⟩
          rcases List.mem_cons.mp hmem with hidx | hmem
          · exact heq (by rw [← hidx, nodeName_nodeIndex hnode])
          · exact hn ⟨hnode, hmem, hcyc⟩
  unfold markRecursiveFunctionsUnsafe
  rw [hgen _ _ fun v hv => List.mem_range.mp hv]
  refine if_congr ?_ rfl rfl
  constructor
  · exact fun h => ⟨h.1, h.2.2⟩
  · exact fun h => ⟨h.1, List.mem_range.mpr (nodeIndex_lt h.1), h.2⟩

theorem safety_foldl_markSafe (names : List ModuleName) (st : AnalysisState)
    (n : ModuleName) :
    (names.foldl AnalysisState.markSafe st).safety n =
      if n ∈ names then some (.new ∅) else st.safety n := by
  induction names generalizing st with
  | nil => simp
  | cons name names ih =>
    rw [List.foldl_cons, ih, AnalysisState.safety_markSafe]
    by_cases hmem : n ∈ names
    · rw [if_pos hmem, if_pos (List.mem_cons_of_mem _ hmem)]
    · rw [if_neg hmem]
      by_cases heq : n = name
      · rw [if_pos heq, if_pos (by rw [heq]; exact List.mem_cons_self)]
      · rw [if_neg heq, if_neg]
        rintro (h : n ∈ name :: names)
        exact (List.mem_cons.mp h).elim heq hmem

/-- What is settled before the levels run: declared-safe names are safe, the other cycle
members unsafe, and nothing else has a verdict. -/
theorem safety_settledState (n : ModuleName) :
    info.settledState.safety n =
      if info.isNode n = true ∧ declaredSafe n = true then some (.new ∅)
      else if info.isNode n = true ∧ info.inCycle n = true then some (.new {.hardUnsafe})
      else none := by
  unfold settledState markDeclaredSafe
  rw [safety_foldl_markSafe, safety_markRecursive]
  refine if_congr ?_ rfl rfl
  rw [List.mem_filter, mem_nodeNames]

/-! ## One node -/

/-- Evaluating a node changes no recorded entry and adds entries for nodes only. -/
abbrev NodeFrame (info : ProjectInfo) (free : ModuleName → Prop) (st st' : AnalysisState) :
    Prop :=
  Frame (fun n => info.isNode n = true) free st st'

/-- Every function is a node. -/
theorem Frame.nodeFrame {free : ModuleName → Prop} {st st' : AnalysisState}
    (h : Frame info.IsFunction free st st') : info.NodeFrame free st st' :=
  h.mono fun _ hn => isNode_of_function hn

theorem frame_checkConstructorCall (info : ProjectInfo) (call : Call) (st : AnalysisState) :
    Frame info.IsFunction (fun _ => False) st
      (info.checkConstructorCall (info.checkCallBody info.bodyFuel) call st).2 :=
  checkAll_inv (I := fun s => Frame info.IsFunction (fun _ => False) st s)
    (fun _ _ _ hs => hs.trans (frame_checkCallBody ..)) .refl

theorem changesOnly_foldl_read (func : ModuleName) (names : List ModuleName)
    (st : AnalysisState) : ChangesOnly func st (names.foldl AnalysisState.read st) := by
  induction names generalizing st with
  | nil => exact ⟨fun _ _ => rfl, fun _ h => h⟩
  | cons name names ih =>
    have hread : ChangesOnly func st (st.read name) :=
      ⟨fun _ _ => rfl, fun _ h => List.mem_cons_of_mem _ h⟩
    exact hread.trans (ih _)

theorem safety_foldl_read (names : List ModuleName) (st : AnalysisState) (n : ModuleName) :
    (names.foldl AnalysisState.read st).safety n = st.safety n := by
  induction names generalizing st with
  | nil => rfl
  | cons name names ih => exact ih (st.read name)

/-- The class's own entry is all that is written beside what the walks add. -/
theorem frame_precomputeConstructor {cls : ModuleName} (hcls : hasKey info.classes cls = true)
    (st : AnalysisState) :
    info.NodeFrame (fun _ => False) st (info.precomputeConstructorVerdict cls st) ∧
      ((info.precomputeConstructorVerdict cls st).safety cls).isSome := by
  unfold precomputeConstructorVerdict
  split
  · next hsome => exact ⟨.refl, hsome⟩
  · next hnone =>
    have hst : st.safety cls = none := Option.not_isSome_iff_eq_none.mp hnone
    have hnode := isNode_of_class hcls
    dsimp only
    -- the class had no verdict, so its own entry counts as new
    have hframe : info.NodeFrame (fun n => n = cls) st _ := (frame_checkConstructorCall info
      { callerModule := cls, effect := { kind := .functionCall, name := cls }, func := cls }
      st).nodeFrame.weaken
    rcases hrun : info.checkConstructorCall (info.checkCallBody info.bodyFuel)
        { callerModule := cls, effect := { kind := .functionCall, name := cls }, func := cls }
        st with
      ⟨e | _ | _, s⟩ <;> rw [hrun] at hframe
    · refine ⟨(hframe.trans (.of_changesOnly hnode .setFunctionSafety)).of_absent hst, ?_⟩
      dsimp only
      rw [AnalysisState.safety_markUnsafe, if_pos rfl]
      rfl
    · dsimp only
      have hread := changesOnly_foldl_read cls (info.constructorMethodsOf cls) s
      have hset : ∀ fi, info.NodeFrame (fun _ => False) st
          (((info.constructorMethodsOf cls).foldl AnalysisState.read s).setFunctionSafety
            cls fi) := fun fi =>
        (hframe.trans (.of_changesOnly hnode (hread.trans .setFunctionSafety))).of_absent hst
      split
      · refine ⟨hset _, ?_⟩
        rw [AnalysisState.safety_setFunctionSafety, if_pos rfl]
        rfl
      · refine ⟨hset _, ?_⟩
        rw [AnalysisState.safety_markUnsafe, if_pos rfl]
        rfl
    · refine ⟨(hframe.trans (.of_changesOnly hnode .setFunctionSafety)).of_absent hst, ?_⟩
      dsimp only
      rw [AnalysisState.safety_markSafe, if_pos rfl]
      rfl

/-- A function without a verdict is walked, without failure. -/
theorem precomputeFunctionVerdict_eq {func funcModule : ModuleName} {st : AnalysisState}
    (hfunc : info.functions.get? func = some funcModule) (hst : st.safety func = none) :
    ∃ b, info.checkCallBody info.bodyFuel
        { callerModule := funcModule
          effect := { kind := .functionCall, name := func }
          func } st = (.ok b, info.precomputeFunctionVerdict func funcModule st) := by
  obtain ⟨b, s, hrun⟩ : ∃ b s, info.checkCallBody info.bodyFuel
      { callerModule := funcModule
        effect := { kind := .functionCall, name := func }
        func } st = (.ok b, s) := checkCallBody_total (fueled_start rfl) st
  refine ⟨b, ?_⟩
  have hsome : (s.safety func).isSome := isSome_checkCallBody (hasKey_of_get? hfunc) hrun
  unfold precomputeFunctionVerdict
  rw [if_neg (by rw [hst]; exact Bool.false_ne_true)]
  dsimp only
  rw [hrun]
  dsimp only
  have hnone : ¬(s.safety func).isNone = true := by
    obtain ⟨fi, hfi⟩ := Option.isSome_iff_exists.mp hsome
    rw [hfi]
    exact Bool.false_ne_true
  rw [if_neg hnone]

theorem frame_precomputeFunction {func funcModule : ModuleName}
    (hfunc : info.functions.get? func = some funcModule) (st : AnalysisState) :
    Frame info.IsFunction (fun _ => False) st
        (info.precomputeFunctionVerdict func funcModule st) ∧
      ((info.precomputeFunctionVerdict func funcModule st).safety func).isSome := by
  cases hst : st.safety func with
  | some fi =>
    have heq : info.precomputeFunctionVerdict func funcModule st = st := by
      unfold precomputeFunctionVerdict
      rw [if_pos (by rw [hst]; rfl)]
    rw [heq, hst]
    exact ⟨.refl, rfl⟩
  | none =>
    obtain ⟨b, hrun⟩ := precomputeFunctionVerdict_eq hfunc hst
    have hframe := frame_checkCallBody info info.bodyFuel
      { callerModule := funcModule, effect := { kind := .functionCall, name := func }, func } st
    rw [hrun] at hframe
    exact ⟨hframe, isSome_checkCallBody (hasKey_of_get? hfunc) hrun⟩

/-- Evaluating a node changes no recorded entry and leaves one for the node. -/
theorem frame_precomputeName (info : ProjectInfo) (n : ModuleName) (st : AnalysisState) :
    info.NodeFrame (fun _ => False) st (info.precomputeName n st) ∧
      (info.isNode n = true → ((info.precomputeName n st).safety n).isSome) := by
  unfold precomputeName
  split
  · next hcls =>
    obtain ⟨h1, h2⟩ := frame_precomputeConstructor hcls st
    exact ⟨h1, fun _ => h2⟩
  · next hcls =>
    cases hfunc : info.functions.get? n with
    | none =>
      refine ⟨.refl, fun hnode => ?_⟩
      rw [isNode, hasKey, hfunc, Bool.eq_false_iff.mpr hcls] at hnode
      cases hnode
    | some funcModule =>
      obtain ⟨h1, h2⟩ := frame_precomputeFunction hfunc st
      exact ⟨h1.nodeFrame, fun _ => h2⟩

/-! ## A run -/

theorem frame_precomputeNodes (info : ProjectInfo) (nodes : List Nat) (st : AnalysisState) :
    info.NodeFrame (fun _ => False) st (info.precomputeNodes nodes st) := by
  unfold precomputeNodes
  induction nodes generalizing st with
  | nil => exact .refl
  | cons v nodes ih => exact (frame_precomputeName info (info.nodeName v) st).1.trans (ih _)

theorem precomputeNodes_append (nodes nodes' : List Nat) (st : AnalysisState) :
    info.precomputeNodes (nodes ++ nodes') st =
      info.precomputeNodes nodes' (info.precomputeNodes nodes st) :=
  List.foldl_append ..

/-- Whatever has been evaluated has a verdict. -/
theorem isSome_precomputeNodes {nodes : List Nat} {v : Nat} (hv : v ∈ nodes)
    (hlt : v < info.nodeNames.length) (st : AnalysisState) :
    ((info.precomputeNodes nodes st).safety (info.nodeName v)).isSome := by
  obtain ⟨before, after, rfl⟩ := List.append_of_mem hv
  rw [precomputeNodes_append]
  have hv' := (frame_precomputeName info (info.nodeName v)
    (info.precomputeNodes before st)).2 (isNode_nodeName hlt)
  obtain ⟨fi, hfi⟩ := Option.isSome_iff_exists.mp hv'
  exact Option.isSome_iff_exists.mpr
    ⟨fi, (frame_precomputeNodes info after _).kept _ fi id hfi⟩

/-! ## Schedules -/

theorem forall₂_getElem? {α β : Type} {R : α → β → Prop} {l : List α} {l' : List β}
    (h : List.Forall₂ R l l') {i : Nat} {b : β} (hb : l'[i]? = some b) :
    ∃ a, l[i]? = some a ∧ R a b := by
  induction h generalizing i with
  | nil =>
    rw [List.getElem?_nil] at hb
    cases hb
  | cons hab _ ih =>
    cases i with
    | zero =>
      cases hb
      exact ⟨_, rfl, hab⟩
    | succ i => exact ih hb

/-- A position in a flattened list lies in one of its parts. -/
theorem exists_of_flatten_eq {α : Type} {parts : List (List α)} {before after : List α} {x : α}
    (h : parts.flatten = before ++ x :: after) :
    ∃ i part, parts[i]? = some part ∧ x ∈ part ∧ ∀ y ∈ (parts.take i).flatten, y ∈ before := by
  induction parts generalizing before with
  | nil => cases before <;> cases h
  | cons part parts ih =>
    rw [List.flatten_cons] at h
    rcases List.append_eq_append_iff.mp h with ⟨mid, rfl, htail⟩ | ⟨mid, rfl, htail⟩
    · obtain ⟨i, p, hp, hx, hbefore⟩ := ih htail
      refine ⟨i + 1, p, hp, hx, fun y hy => ?_⟩
      rw [List.take_succ_cons, List.flatten_cons] at hy
      rcases List.mem_append.mp hy with hy | hy
      · exact List.mem_append_left _ hy
      · exact List.mem_append_right _ (hbefore y hy)
    · cases mid with
      | nil =>
        rw [List.nil_append] at htail
        have htail' : parts.flatten = [] ++ x :: after := htail.symm
        obtain ⟨i, p, hp, hx, hbefore⟩ := ih htail'
        refine ⟨i + 1, p, hp, hx, fun y hy => ?_⟩
        rw [List.take_succ_cons, List.flatten_cons] at hy
        rcases List.mem_append.mp hy with hy | hy
        · rw [List.append_nil] at hy
          exact hy
        · exact absurd (hbefore y hy) List.not_mem_nil
      | cons y mid =>
        rw [List.cons_append] at htail
        obtain ⟨rfl, -⟩ := List.cons.inj htail
        refine ⟨0, _, rfl, ?_, fun y hy => absurd hy List.not_mem_nil⟩
        exact List.mem_append_right _ List.mem_cons_self

/-- When a node is evaluated, the nodes of lower levels have been. -/
theorem schedule_before {order : List (List Nat)} (h : info.Schedule order)
    {before after : List Nat} {v : Nat} (hv : order.flatten = before ++ v :: after) :
    ∃ l, info.callCsr.nodeLevels info.buildCallGraph.inCycle v = some l ∧
      ∀ w lw, info.callCsr.nodeLevels info.buildCallGraph.inCycle w = some lw → lw < l →
        w ∈ before := by
  obtain ⟨l, part, hpart, hmem, hbefore⟩ := exists_of_flatten_eq hv
  obtain ⟨lv, hlv, hperm⟩ := forall₂_getElem? h.flip hpart
  refine ⟨l, mem_levels.mp ⟨lv, hlv, hperm.mem_iff.mp hmem⟩, fun w lw hw hlt => ?_⟩
  obtain ⟨lv', hlv', hmem'⟩ := mem_levels.mpr hw
  obtain ⟨part', hpart', hperm'⟩ := forall₂_getElem? h hlv'
  refine hbefore w (List.mem_flatten.mpr ⟨part', ?_, hperm'.mem_iff.mpr hmem'⟩)
  refine List.mem_of_getElem? (i := lw) ?_
  rw [List.getElem?_take, if_pos hlt, hpart']

/-- Every node without a level is settled; the others are evaluated. -/
theorem mem_flatten_schedule {order : List (List Nat)} (h : info.Schedule order)
    {n : ModuleName} {l : Nat} (hl : info.level n = some l) :
    info.nodeIndex n ∈ order.flatten := by
  obtain ⟨lv, hlv, hmem⟩ := mem_levels.mpr hl
  obtain ⟨part, hpart, hperm⟩ := forall₂_getElem? h hlv
  exact List.mem_flatten.mpr ⟨part, List.mem_of_getElem? hpart, hperm.mem_iff.mpr hmem⟩

/-- After a run every node has a verdict. -/
theorem isSome_safety_precompute {order : List (List Nat)} (h : info.Schedule order)
    {n : ModuleName} (hn : info.isNode n = true) :
    ((info.precompute order).safety n).isSome := by
  unfold precompute
  by_cases hcyc : info.inCycle n = true
  · have hsettled : ∃ fi, info.settledState.safety n = some fi := by
      rw [safety_settledState]
      split
      · exact ⟨_, rfl⟩
      · rw [if_pos ⟨hn, hcyc⟩]
        exact ⟨_, rfl⟩
    obtain ⟨fi, hfi⟩ := hsettled
    exact Option.isSome_iff_exists.mpr ⟨fi, (frame_precomputeNodes info _ _).kept n fi id hfi⟩
  · obtain ⟨l, hl⟩ := Option.isSome_iff_exists.mp
      ((level_isSome hn).mpr (Bool.eq_false_iff.mpr hcyc))
    have := isSome_precomputeNodes (mem_flatten_schedule h hl) (nodeIndex_lt hn)
      info.settledState
    rwa [nodeName_nodeIndex hn] at this

end ProjectInfo

end Lifeguard
