import Lifeguard.Lockstep
import Lifeguard.Settling
import Mathlib.Data.List.Nodup

/-!
# What a node looks up

Which entries the evaluation of a node consults, and when they were recorded:

- `LooksUp`: the names a function's walk looks up, when every body it runs has an entry;
- `Earlier`: a node was settled before the levels run, or has a lower level;
- `DispatchesEarlier`: the effects whose callee the edges of the call graph miss lead to
  earlier nodes all the same;
- `reads_earlier_iff`: a run reads entries of earlier nodes only exactly when every
  function it evaluates dispatches so.

The edges lead through the node of a class to its constructor methods, so a class in a
cycle, which has no level, puts no order on them. A class statement, and a `super()` call
that runs nothing, are looked up under their written name, to which no edge leads.
-/

namespace Lifeguard

open Lib Relation

/-- The state with an empty log. -/
def AnalysisState.fresh (st : AnalysisState) : AnalysisState := { st with reads := [] }

namespace ProjectInfo

variable {info : ProjectInfo} {st st' : AnalysisState} {fuel : Nat} {call : Call}
  {callModule : ModuleName} {func : ModuleName} {eff : Effect}

/-! ## The names a walk looks up -/

/-- The effect runs the body of the function. -/
def Runs (info : ProjectInfo) (eff : Effect) (c : ModuleName) : Prop :=
  info.IsFunction c ∧ ∃ callee ∈ info.dispatchCallees eff,
    info.containsCallable callee = true ∧ declaredSafe callee = false ∧
      c ∈ info.runNames eff callee

/-- A runnable effect of the function runs the name or is dispatched to it. -/
def LooksUp (info : ProjectInfo) (func n : ModuleName) : Prop :=
  ∃ eff ∈ info.runnableEffects func, info.Runs eff n ∨ n = info.dispatchedName eff

theorem reads_leaveBody (func : ModuleName) (out : Outcome) :
    (leaveBody func out).2.reads = out.2.reads := by
  rcases out with ⟨e | b, s⟩
  · rfl
  · unfold leaveBody
    dsimp only
    split <;> rfl

/-- A walk looks its own entry up. -/
theorem mem_reads_self (hkey : info.IsFunction call.func) (fuel : Nat) (st : AnalysisState) :
    call.func ∈ (info.checkCallBody (fuel + 1) call st).2.reads := by
  obtain ⟨callModule, hfunc⟩ := Option.isSome_iff_exists.mp hkey
  have henter : call.func ∈ (info.enterBody call st).reads := by
    rw [reads_enterBody]
    exact List.mem_cons_self
  cases hst : st.safety call.func with
  | some fi =>
    rw [checkCallBody_of_recorded hfunc hst]
    exact henter
  | none =>
    rw [checkCallBody_walk hfunc hst]
    refine (ownUpdate_leaveBody call.func _).reads _ ?_
    refine checkAll_inv (I := fun s : AnalysisState => call.func ∈ s.reads) (fun eff _ s hs => ?_) henter
    refine runEffect_inv (I := fun s : AnalysisState => call.func ∈ s.reads)
      (fun _ _ ht hown _ => hown.reads _ ht) (fun _ _ t ht => ?_) hs
    exact (frame_call info fuel _ t).reads _ ht

/-- A walk has looked up every name it adds an entry for. -/
theorem added_mem_reads (info : ProjectInfo) (fuel : Nat) (call : Call) (st : AnalysisState)
    (n : ModuleName) (hn : ((info.checkCallBody fuel call st).2.safety n).isSome) :
    (st.safety n).isSome ∨ n ∈ (info.checkCallBody fuel call st).2.reads := by
  induction fuel generalizing call st n with
  | zero => exact Or.inl hn
  | succ fuel ih =>
    cases hfunc : info.functions.get? call.func with
    | none =>
      rw [checkCallBody_of_no_function hfunc] at hn ⊢
      exact Or.inl hn
    | some callModule =>
      cases hst : st.safety call.func with
      | some fi =>
        rw [checkCallBody_of_recorded hfunc hst, safety_enterBody] at hn
        exact Or.inl hn
      | none =>
        -- over the loop: the own name is looked up, and so is every name that was added
        let I : AnalysisState → Prop := fun s => call.func ∈ s.reads ∧
          ∀ n, (s.safety n).isSome → (st.safety n).isSome ∨ n ∈ s.reads
        have hown : ∀ s s', I s → OwnUpdate call.func s s' → I s' := by
          intro s s' hs hupd
          refine ⟨hupd.reads _ hs.1, fun n hn => ?_⟩
          by_cases heq : n = call.func
          · rw [heq]
            exact Or.inr (hupd.reads _ hs.1)
          · rw [hupd.other n heq] at hn
            exact (hs.2 n hn).imp_right (hupd.reads n)
        have henter : I (info.enterBody call st) := by
          refine ⟨?_, fun n hn => ?_⟩
          · rw [reads_enterBody]
            exact List.mem_cons_self
          · rw [safety_enterBody] at hn
            exact Or.inl hn
        have hbody : ∀ call' s, I s → I (info.checkCallBody fuel call' s).2 := by
          intro call' s hs
          have hreads := (frame_checkCallBody info fuel call' s).reads
          refine ⟨hreads _ hs.1, fun n hn => ?_⟩
          rcases ih call' s n hn with hold | hnew
          · exact (hs.2 n hold).imp_right (hreads n)
          · exact Or.inr hnew
        have hloop : I (checkAll (info.runEffect (info.checkCallBody fuel) call callModule
            (crosses call callModule)) (info.effectsOf call.func) (info.enterBody call st)).2 :=
          checkAll_inv (fun eff _ s hs => runEffect_inv
            (fun s s' hs hupd _ => hown s s' hs hupd)
            (fun _ _ t ht => checkCallSafety_inv
              (fun _ _ _ _ call' _ u hu => hbody call' u hu) ht) hs) henter
        rw [checkCallBody_walk hfunc hst] at hn ⊢
        exact (hown _ _ hloop (ownUpdate_leaveBody call.func _)).2 n hn

/-- When every body it runs has an entry, a walk looks up nothing else. -/
theorem reads_checkCallBody_subset (hfunc : info.functions.get? call.func = some callModule)
    (hst : st.safety call.func = none) (hnodes : ∀ n, (st.safety n).isSome → info.isNode n = true)
    (hrec : ∀ eff ∈ info.runnableEffects call.func, ∀ c, info.Runs eff c →
      (st.safety c).isSome) (fuel : Nat) :
    ∀ n ∈ (info.checkCallBody (fuel + 1) call st).2.reads,
      n ∈ st.reads ∨ n = call.func ∨ info.LooksUp call.func n := by
  let I : AnalysisState → Prop := fun s =>
    (∀ n, (st.safety n).isSome → (s.safety n).isSome) ∧
      (∀ n, (s.safety n).isSome → info.isNode n = true) ∧
      ∀ n ∈ s.reads, n ∈ st.reads ∨ n = call.func ∨ info.LooksUp call.func n
  have hkey : info.IsFunction call.func := hasKey_of_get? hfunc
  have hown : ∀ (names : ModuleName → Prop) s s', (∀ n, names n → info.LooksUp call.func n) →
      I s → OwnUpdate call.func s s' → ReadsWithin names s s' → I s' := by
    intro names s s' hnames hs hupd hreads
    refine ⟨fun n hn => ?_, fun n hn => ?_, fun n hn => ?_⟩
    · obtain ⟨fi, hfi⟩ := Option.isSome_iff_exists.mp (hs.1 n hn)
      by_cases heq : n = call.func
      · subst heq
        obtain ⟨fi', hfi', -⟩ := hupd.grows fi hfi
        rw [hfi']
        rfl
      · rw [hupd.other n heq, hfi]
        rfl
    · by_cases heq : n = call.func
      · rw [heq]
        exact isNode_of_function hkey
      · rw [hupd.other n heq] at hn
        exact hs.2.1 n hn
    · rcases hreads n hn with hold | hname
      · exact hs.2.2 n hold
      · exact Or.inr (Or.inr (hnames n hname))
  have henter : I (info.enterBody call st) := by
    refine ⟨fun n hn => ?_, fun n hn => ?_, fun n hn => ?_⟩
    · rw [safety_enterBody]
      exact hn
    · rw [safety_enterBody] at hn
      exact hnodes n hn
    · rw [reads_enterBody] at hn
      exact (List.mem_cons.mp hn).elim (fun h => Or.inr (Or.inl h)) Or.inl
  -- a body that has an entry is looked up and not walked
  have hbody : ∀ eff ∈ info.runnableEffects call.func, ∀ (call' : Call) s,
      (info.IsFunction call'.func → info.Runs eff call'.func) → I s →
        I (info.checkCallBody fuel call' s).2 := by
    intro eff heff call' s hruns hs
    cases fuel with
    | zero => exact hs
    | succ fuel =>
      cases hf : info.functions.get? call'.func with
      | none =>
        rw [checkCallBody_of_no_function hf]
        exact hs
      | some mod =>
        have hrun := hruns (hasKey_of_get? hf)
        obtain ⟨fi, hfi⟩ := Option.isSome_iff_exists.mp (hs.1 _ (hrec eff heff _ hrun))
        rw [checkCallBody_of_recorded hf hfi]
        refine ⟨fun n hn => ?_, fun n hn => ?_, fun n hn => ?_⟩
        · rw [safety_enterBody]
          exact hs.1 n hn
        · rw [safety_enterBody] at hn
          exact hs.2.1 n hn
        · rw [reads_enterBody] at hn
          rcases List.mem_cons.mp hn with rfl | hn
          · exact Or.inr (Or.inr ⟨eff, heff, Or.inl hrun⟩)
          · exact hs.2.2 n hn
  have hloop : I (checkAll (info.runEffect (info.checkCallBody fuel) call callModule
      (crosses call callModule)) (info.effectsOf call.func) (info.enterBody call st)).2 := by
    refine checkAll_inv (fun eff hmem s hs => runEffect_inv
      (fun s s' hs hupd hreads => hown _ s s' ?_ hs hupd hreads)
      (fun hrun _ t ht => checkCallSafety_inv
        (fun callee hcallee hres hsafe call' hcall' u hu => ?_) ht) hs) henter
    · rintro n ⟨hrun, rfl⟩
      exact ⟨eff, mem_runnableEffects.mpr ⟨hmem, hrun⟩, Or.inr rfl⟩
    · refine hbody eff (mem_runnableEffects.mpr ⟨hmem, hrun⟩) call' u (fun hf => ?_) hu
      obtain ⟨s₁, hs₁, hres⟩ := hres
      refine ⟨hf, callee, hcallee, ?_, hsafe, (mem_spawnedCalls hcall').2⟩
      rcases Bool.or_eq_true_iff.mp hres with hcall | hsome
      · exact hcall
      · exact containsCallable_of_isNode (hs₁.2.1 callee hsome)
  rw [checkCallBody_walk hfunc hst]
  intro n hn
  refine (hown (fun _ => False) _ _ (fun _ h => h.elim) hloop
    (ownUpdate_leaveBody call.func _) ?_).2.2 n hn
  exact .of_eq (reads_leaveBody call.func _)

/-- The branch that runs a call looks up the bodies it runs and the name it is dispatched
to. -/
theorem mem_reads_runCall (hfuel : Fueled info fuel (childCall call callModule eff))
    {crossModule b : Bool}
    (hrun : info.runCall (info.checkCallBody fuel) call callModule crossModule eff st =
      (.ok b, st')) {n : ModuleName} (hn : info.Runs eff n ∨ n = info.dispatchedName eff) :
    n ∈ st'.reads := by
  obtain ⟨fuel, rfl⟩ := Nat.exists_eq_succ_of_ne_zero hfuel.pos.ne'
  unfold runCall at hrun
  rcases hsafe : info.checkCallSafety (info.checkCallBody (fuel + 1)) false
      (childCall call callModule eff) st with ⟨e | b', t⟩
  · rw [hsafe] at hrun
    cases hrun
  · -- every body that is run looks up its own name first
    have hbodies : info.Runs eff n → n ∈ t.reads := by
      rintro ⟨hf, callee, hcallee, hcall, hds, hmem⟩
      obtain ⟨_, hq, -⟩ := checkCallSafety_forall (I := fun _ => True)
        (Q := fun c _ s => info.IsFunction c → c ∈ s.reads)
        (fun _ _ _ _ _ _ _ _ => trivial)
        (fun _ _ _ _ call' _ s b s' _ hr hf => by
          have := mem_reads_self hf fuel s
          rwa [hr] at this)
        (fun _ _ _ _ call' _ s _ c _ hq hf =>
          (frame_checkCallBody info (fuel + 1) call' s).reads c (hq hf))
        trivial hsafe callee hcallee hcall hds n hmem
      exact hq hf
    have hread : ∀ s : AnalysisState, (∀ c ∈ t.reads, c ∈ s.reads) → info.dispatchedName eff ∈ s.reads →
        n ∈ s.reads := by
      intro s hsub hname
      rcases hn with hruns | rfl
      · exact hsub n (hbodies hruns)
      · exact hname
    rw [hsafe] at hrun
    cases b' with
    | false =>
      obtain rfl := (Prod.mk.inj hrun).2
      refine hread _ (fun c hc => ?_) ?_ <;> rw [reads_markCaller]
      · exact List.mem_cons_of_mem _ hc
      · exact List.mem_cons_self
    | true =>
      dsimp only at hrun
      split at hrun
      · obtain rfl := (Prod.mk.inj hrun).2
        exact hread _ (fun c hc => List.mem_cons_of_mem _ hc) List.mem_cons_self
      · obtain rfl := (Prod.mk.inj hrun).2
        exact hread _ (fun c hc => List.mem_cons_of_mem _ hc) List.mem_cons_self

/-- A walk started on an empty stack looks up every name of its runnable effects. -/
theorem mem_reads_checkCallBody (hfunc : info.functions.get? call.func = some callModule)
    (hst : st.safety call.func = none) (hstack : call.stack = [])
    (hfuel : Fueled info (fuel + 1) call) {n : ModuleName}
    (hn : info.LooksUp call.func n) : n ∈ (info.checkCallBody (fuel + 1) call st).2.reads := by
  obtain ⟨eff, heff, hn⟩ := hn
  obtain ⟨hmem, hrunnable⟩ := mem_runnableEffects.mp heff
  rw [checkCallBody_walk hfunc hst, reads_leaveBody]
  -- with this much fuel no effect of the body fails, so the loop reaches each
  have htotal : ∀ eff ∈ info.effectsOf call.func, ∀ s, True → ∃ b s',
      info.runEffect (info.checkCallBody fuel) call callModule (crosses call callModule)
        eff s = (.ok b, s') ∧ True := by
    intro eff heff s _
    obtain ⟨b, s', hr⟩ : ∃ b s', info.runEffect (info.checkCallBody fuel) call callModule
        (crosses call callModule) eff s = (.ok b, s') :=
      runEffect_total (fun _ hcall' u => checkCallBody_total hcall' u) hfuel heff s
    exact ⟨b, s', hr, trivial⟩
  obtain ⟨b, s, hloop, -⟩ := checkAll_ok (s := info.enterBody call st) htotal trivial
  have hall := checkAll_forall (I := fun _ => True)
    (Q := fun e _ s => e = eff → n ∈ s.reads)
    (fun _ _ _ _ => trivial) ?_ ?_ trivial hloop
  · rw [hloop]
    obtain ⟨_, hq, -⟩ := hall.2 eff hmem
    exact hq rfl
  · rintro e he s b s' - hr rfl
    unfold runEffect at hr
    rw [fromEffect_of_runnable hrunnable, if_neg (by simp), if_pos hrunnable] at hr
    dsimp only at hr
    -- nothing is on the stack, so the effect is no recursion
    have hnot : e.name ∉ call.stack := by
      rw [hstack]
      exact List.not_mem_nil
    rw [if_neg (by simpa using hnot)] at hr
    rcases hcall : info.runCall (info.checkCallBody fuel) call callModule
        (crosses call callModule) e (info.checkArgs call e s).2 with ⟨er | b', t⟩
    · rw [hcall] at hr
      cases hr
    · rw [hcall] at hr
      obtain rfl := (Prod.mk.inj hr).2
      exact mem_reads_runCall (hfuel.child (mem_effectNames hmem) hnot callModule) hcall hn
  · intro e _ e' _ s _ _ hq he
    refine runEffect_inv (I := fun s : AnalysisState => n ∈ s.reads)
      (fun _ _ ht hown _ => hown.reads _ ht) (fun _ _ t ht => ?_) (hq he)
    exact (frame_call info fuel _ t).reads _ ht

/-! ## Earlier nodes -/

/-- The node was settled before the levels run, or has a lower level than the other. -/
def Earlier (info : ProjectInfo) (c n : ModuleName) : Prop :=
  info.inCycle c = true ∨ declaredSafe c = true ∨
    ∃ lc ln, info.level c = some lc ∧ info.level n = some ln ∧ lc < ln

theorem CallEdge.earlier {a b : ModuleName} (h : info.CallEdge a b)
    (ha : info.inCycle a = false) : info.Earlier b a := by
  obtain ⟨l, hl⟩ := Option.isSome_iff_exists.mp ((level_isSome h.nodes.1).mpr ha)
  rcases level_lt_of_callEdge h hl with hcyc | ⟨lb, hlb, hlt⟩
  · exact Or.inl hcyc
  · exact Or.inr (Or.inr ⟨lb, l, hlb, hl, hlt⟩)

/-- Over a node in no cycle, two edges lead to an earlier node as well. -/
theorem earlier_of_callEdges {a b c : ModuleName} (h : info.CallEdge a b)
    (h' : info.CallEdge b c) (ha : info.inCycle a = false) (hb : info.inCycle b = false) :
    info.Earlier c a := by
  obtain ⟨la, hla⟩ := Option.isSome_iff_exists.mp ((level_isSome h.nodes.1).mpr ha)
  rcases level_lt_of_callEdge h hla with hcyc | ⟨lb, hlb, hlt⟩
  · rw [hb] at hcyc
    cases hcyc
  · rcases level_lt_of_callEdge h' hlb with hcyc | ⟨lc, hlc, hlt'⟩
    · exact Or.inl hcyc
    · exact Or.inr (Or.inr ⟨lc, la, hlc, hla, hlt'.trans hlt⟩)

/-- The bodies and the names that no call edge orders before the function are earlier all
the same. -/
structure DispatchesEarlier (info : ProjectInfo) (func : ModuleName) : Prop where
  /-- The constructor methods behind a class in a cycle. -/
  constructors : ∀ eff ∈ info.runnableEffects func, ∀ cls ∈ info.dispatchCallees eff,
    hasKey info.classes cls = true → declaredSafe cls = false → info.inCycle cls = true →
      ∀ method ∈ info.constructorMethodsOf cls, hasKey info.functions method = true →
        info.Earlier method func
  /-- The written name of a class statement, or of a `super()` call that runs nothing. -/
  written : ∀ eff ∈ info.runnableEffects func,
    eff.kind = .classCreation ∨
      (eff.kind = .superMethodCall ∧ info.resolveDispatchAbove eff.name = none) →
    info.isNode eff.name = true → eff.name ≠ func → info.Earlier eff.name func

/-- The body an effect runs is a callee itself, a constructor method of a class, or a
target of the effect's own edges. -/
theorem Runs.cases {c : ModuleName} (h : info.Runs eff c) :
    c ∈ info.edgeTargets eff ∨
      ∃ cls ∈ info.dispatchCallees eff, hasKey info.classes cls = true ∧
        declaredSafe cls = false ∧ c ∈ info.constructorMethodsOf cls := by
  obtain ⟨-, callee, hcallee, hcall, hsafe, hmem⟩ := h
  unfold runNames at hmem
  rcases List.mem_append.mp hmem with hmem | hmem
  · split at hmem
    · next hcls => exact Or.inr ⟨callee, hcallee, hcls, hsafe, hmem⟩
    · obtain rfl := List.mem_singleton.mp hmem
      exact Or.inl (mem_edgeTargets_of_dispatch hcallee hcall)
  · split at hmem
    · next hdec => exact Or.inl (mem_edgeTargets_of_nested hcallee hcall hdec hmem)
    · cases hmem

/-- Every other name a function looks up is earlier by an edge. -/
theorem dispatchesEarlier_iff (hfunc : info.IsFunction func)
    (hcyc : info.inCycle func = false) :
    info.DispatchesEarlier func ↔
      ∀ n, info.LooksUp func n → info.isNode n = true → n ≠ func → info.Earlier n func := by
  constructor
  · rintro h n ⟨eff, heff, hn⟩ hnode hne
    have hedge : n ∈ info.edgeTargets eff → info.Earlier n func := fun htarget =>
      (callEdge_of_target hfunc heff htarget hnode).earlier hcyc
    rcases hn with hruns | rfl
    · rcases hruns.cases with htarget | ⟨cls, hcls, hclass, hsafe, hmethod⟩
      · exact hedge htarget
      · -- a method run by a class: the class is a node between the two, unless it is in a cycle
        by_cases hclscyc : info.inCycle cls = true
        · exact h.constructors eff heff cls hcls hclass hsafe hclscyc n hmethod hruns.1
        · have hclsnode := isNode_of_class hclass
          refine earlier_of_callEdges (callEdge_of_target hfunc heff
            (mem_edgeTargets_of_dispatch hcls (containsCallable_of_isNode hclsnode)) hclsnode)
            (callEdge_iff.mpr ⟨Or.inr ⟨hclass, n, hmethod, if_pos hnode⟩, hnode⟩) hcyc
            (Bool.eq_false_iff.mpr hclscyc)
    · by_cases hkind : eff.kind = .classCreation
      · have hname : info.dispatchedName eff = eff.name := by rw [dispatchedName, hkind]
        rw [hname] at hnode hne ⊢
        exact h.written eff heff (Or.inl hkind) hnode hne
      · by_cases hnil : info.dispatchCallees eff = []
        · -- only a super call can have no callee
          have hsuper : eff.kind = .superMethodCall ∧
              info.resolveDispatchAbove eff.name = none := by
            unfold dispatchCallees at hnil
            split at hnil
            · next hk => exact absurd hk hkind
            · next hk =>
              refine ⟨hk, ?_⟩
              cases habove : info.resolveDispatchAbove eff.name with
              | none => rfl
              | some target =>
                rw [habove] at hnil
                cases hnil
            · cases hnil
          have hname : info.dispatchedName eff = eff.name := by
            rw [dispatchedName, hsuper.1]
            dsimp only
            rw [hsuper.2]
            rfl
          rw [hname] at hnode hne ⊢
          exact h.written eff heff (Or.inr hsuper) hnode hne
        · exact hedge (mem_edgeTargets_of_dispatch (dispatchedName_mem hkind hnil)
            (containsCallable_of_isNode hnode))
  · intro h
    refine ⟨fun eff heff cls hcls hclass hsafe _ method hmethod hf => ?_,
      fun eff heff hkind hnode hne => ?_⟩
    · have hnode := isNode_of_function hf
      have hclsnode := isNode_of_class hclass
      have hcall := containsCallable_of_isNode hclsnode
      refine h method ⟨eff, heff, Or.inl ⟨hf, cls, hcls, hcall, hsafe, ?_⟩⟩ hnode ?_
      · unfold runNames
        rw [if_pos hclass]
        exact List.mem_append_left _ hmethod
      · -- a constructor of the class that calls the class is in a cycle
        rintro rfl
        have hwalk : TransGen info.CallEdge method method :=
          TransGen.tail (TransGen.single (callEdge_of_target hfunc heff
              (mem_edgeTargets_of_dispatch hcls hcall) hclsnode))
            (callEdge_iff.mpr ⟨Or.inr ⟨hclass, method, hmethod, if_pos hnode⟩, hnode⟩)
        rw [inCycle_of_transGen hwalk] at hcyc
        cases hcyc
    · refine h eff.name ⟨eff, heff, Or.inr ?_⟩ hnode hne
      unfold dispatchedName
      rcases hkind with hk | ⟨hk, habove⟩
      · rw [hk]
      · rw [hk]
        dsimp only
        rw [habove]
        rfl

/-! ## The evaluation of a node -/

theorem mem_reads_foldl_read (names : List ModuleName) (st : AnalysisState) (n : ModuleName) :
    n ∈ (names.foldl AnalysisState.read st).reads ↔ n ∈ names ∨ n ∈ st.reads := by
  induction names generalizing st with
  | nil => simp
  | cons name names ih =>
    rw [List.foldl_cons, ih, AnalysisState.reads_read, List.mem_cons, List.mem_cons]
    tauto

/-- What the evaluation of a class leaves, beside its own entry, is what its constructor
call leaves; it looks up its constructor methods in the end. -/
theorem precomputeConstructor_cases (info : ProjectInfo) {cls : ModuleName}
    (hst : st.safety cls = none) :
    ∃ s, (info.checkConstructorCall (info.checkCallBody info.bodyFuel) (constructorCall cls)
        st).2 = s ∧
      ChangesOnly cls s (info.precomputeConstructorVerdict cls st) ∧
      ∀ n ∈ (info.precomputeConstructorVerdict cls st).reads,
        n ∈ s.reads ∨ n ∈ info.constructorMethodsOf cls := by
  refine ⟨_, rfl, ?_⟩
  unfold precomputeConstructorVerdict
  rw [if_neg (by rw [hst]; exact Bool.false_ne_true)]
  dsimp only
  have hcall : info.checkConstructorCall (info.checkCallBody info.bodyFuel)
      { callerModule := cls, effect := { kind := .functionCall, name := cls }, func := cls } st =
      info.checkConstructorCall (info.checkCallBody info.bodyFuel) (constructorCall cls) st :=
    rfl
  rw [hcall]
  generalize info.checkConstructorCall (info.checkCallBody info.bodyFuel) (constructorCall cls)
    st = out
  -- an error or an unsafe call writes at once; a safe one reads the methods before it writes
  rcases out with ⟨e | _ | _, s⟩
  · exact ⟨.setFunctionSafety, fun n hn => Or.inl hn⟩
  · dsimp only
    have hread := changesOnly_foldl_read cls (info.constructorMethodsOf cls) s
    have hmem : ∀ n ∈ ((info.constructorMethodsOf cls).foldl AnalysisState.read s).reads,
        n ∈ s.reads ∨ n ∈ info.constructorMethodsOf cls := fun n hn =>
      ((mem_reads_foldl_read _ s n).mp hn).symm
    split
    · exact ⟨hread.trans .setFunctionSafety, hmem⟩
    · exact ⟨hread.trans .setFunctionSafety, hmem⟩
  · exact ⟨.setFunctionSafety, fun n hn => Or.inl hn⟩

/-- The evaluation of a node has looked up every other name it adds an entry for. -/
theorem added_mem_reads_precomputeName {x n : ModuleName}
    (hn : ((info.precomputeName x st).safety n).isSome) :
    (st.safety n).isSome ∨ n = x ∨ n ∈ (info.precomputeName x st).reads := by
  unfold precomputeName at hn ⊢
  split at hn
  · next hcls =>
    rw [if_pos hcls]
    cases hst : st.safety x with
    | some fi =>
      unfold precomputeConstructorVerdict at hn
      rw [if_pos (by rw [hst]; rfl)] at hn
      exact Or.inl hn
    | none =>
      obtain ⟨s, hs, hchange, -⟩ := info.precomputeConstructor_cases hst
      by_cases heq : n = x
      · exact Or.inr (Or.inl heq)
      · rw [hchange.other n heq] at hn
        -- over the methods: each walk has looked up what it adds
        have hadded : ∀ n, (s.safety n).isSome → (st.safety n).isSome ∨ n ∈ s.reads := by
          rw [← hs]
          refine checkAll_inv (I := fun s : AnalysisState =>
            ∀ n, (s.safety n).isSome → (st.safety n).isSome ∨ n ∈ s.reads)
            (fun method _ s hs n hn => ?_) fun n hn => Or.inl hn
          rcases added_mem_reads info info.bodyFuel _ s n hn with hold | hnew
          · exact (hs n hold).imp_right
              ((frame_checkCallBody info info.bodyFuel _ s).reads n)
          · exact Or.inr hnew
        exact (hadded n hn).imp_right fun hread => Or.inr (hchange.reads n hread)
  · next hcls =>
    rw [if_neg hcls]
    cases hfunc : info.functions.get? x with
    | none =>
      rw [hfunc] at hn
      exact Or.inl hn
    | some funcModule =>
      rw [hfunc] at hn
      dsimp only at hn ⊢
      cases hst : st.safety x with
      | some fi =>
        unfold precomputeFunctionVerdict at hn
        rw [if_pos (by rw [hst]; rfl)] at hn
        exact Or.inl hn
      | none =>
        obtain ⟨b, hrun⟩ := precomputeFunctionVerdict_eq hfunc hst
        have hadded := added_mem_reads info info.bodyFuel
          { callerModule := funcModule
            effect := { kind := .functionCall, name := x }
            func := x } st n
        rw [hrun] at hadded
        exact (hadded hn).imp_right Or.inr

/-- Where its constructor methods have entries, a class looks up nothing else. -/
theorem reads_precomputeConstructor {cls : ModuleName} (hst : st.safety cls = none)
    (hrec : ∀ method ∈ info.constructorMethodsOf cls, info.IsFunction method →
      (st.safety method).isSome) :
    ∀ n ∈ (info.precomputeConstructorVerdict cls st).reads,
      n ∈ st.reads ∨ n ∈ info.constructorMethodsOf cls := by
  obtain ⟨s, hs, -, hreads⟩ := info.precomputeConstructor_cases hst
  -- a method with an entry is read and not walked, so nothing else is looked up
  have hloop : (∀ n, (st.safety n).isSome → (s.safety n).isSome) ∧
      ∀ n ∈ s.reads, n ∈ st.reads ∨ n ∈ info.constructorMethodsOf cls := by
    rw [← hs]
    unfold bodyFuel
    refine checkAll_inv (I := fun s : AnalysisState =>
      (∀ n, (st.safety n).isSome → (s.safety n).isSome) ∧
        ∀ n ∈ s.reads, n ∈ st.reads ∨ n ∈ info.constructorMethodsOf cls)
      (fun method hm s hs => ?_) ⟨fun _ hn => hn, fun _ hn => Or.inl hn⟩
    cases hf : info.functions.get? method with
    | none =>
      rw [checkCallBody_of_no_function hf]
      exact hs
    | some mod =>
      obtain ⟨fi, hfi⟩ := Option.isSome_iff_exists.mp
        (hs.1 method (hrec method hm (hasKey_of_get? hf)))
      rw [checkCallBody_of_recorded hf hfi]
      refine ⟨fun n hn => ?_, fun n hn => ?_⟩
      · rw [safety_enterBody]
        exact hs.1 n hn
      · rw [reads_enterBody] at hn
        rcases List.mem_cons.mp hn with rfl | hn
        · exact Or.inr hm
        · exact hs.2 n hn
  intro n hn
  rcases hreads n hn with hn | hn
  · exact hloop.2 n hn
  · exact Or.inr hn

/-! ## The evaluation of a node in lockstep -/

section Lockstep

variable {D B : ModuleName → Prop}

theorem combined_congr {cls : ModuleName}
    (h : ∀ method ∈ info.constructorMethodsOf cls, st.safety method = st'.safety method) :
    info.combinedConstructorVerdict cls st = info.combinedConstructorVerdict cls st' := by
  unfold combinedConstructorVerdict
  refine List.foldl_ext _ _ _ fun combined method hm => ?_
  rw [h method hm]

theorem lockstep_precomputeConstructor {cls : ModuleName} (hD : D cls)
    (hcls : hasKey info.classes cls = true)
    (hmethods : ∀ method ∈ info.constructorMethodsOf cls, D method)
    (hbody : ∀ method ∈ info.constructorMethodsOf cls, ∀ s s', info.Lockstep D B s s' →
      info.OutcomeLockstep D B
        (info.checkCallBody info.bodyFuel { constructorCall cls with func := method } s)
        (info.checkCallBody info.bodyFuel { constructorCall cls with func := method } s'))
    (h : info.Lockstep D B st st') :
    info.Lockstep D B (info.precomputeConstructorVerdict cls st)
      (info.precomputeConstructorVerdict cls st') := by
  -- the two runs answer the same, so they take the same branch
  have hloop : info.OutcomeLockstep D B
      (info.checkConstructorCall (info.checkCallBody info.bodyFuel) (constructorCall cls) st)
      (info.checkConstructorCall (info.checkCallBody info.bodyFuel) (constructorCall cls) st') :=
    checkAll_rel hbody h
  have hcall : ∀ s, info.checkConstructorCall (info.checkCallBody info.bodyFuel)
      { callerModule := cls, effect := { kind := .functionCall, name := cls }, func := cls } s =
      info.checkConstructorCall (info.checkCallBody info.bodyFuel) (constructorCall cls) s :=
    fun _ => rfl
  unfold precomputeConstructorVerdict
  dsimp only
  rw [← h.agree cls hD, hcall, hcall]
  split
  · exact h
  · generalize info.checkConstructorCall (info.checkCallBody info.bodyFuel)
      (constructorCall cls) st = out at hloop ⊢
    generalize info.checkConstructorCall (info.checkCallBody info.bodyFuel)
      (constructorCall cls) st' = out' at hloop ⊢
    rcases out with ⟨c, s⟩
    rcases out' with ⟨c', s'⟩
    obtain ⟨hans, hs⟩ := hloop
    obtain rfl : c = c' := hans
    replace hs : info.Lockstep D B s s' := hs
    rcases c with e | _ | _
    · exact hs.markUnsafe (isNode_of_class hcls)
    · dsimp only
      have hread : info.Lockstep D B ((info.constructorMethodsOf cls).foldl AnalysisState.read s)
          ((info.constructorMethodsOf cls).foldl AnalysisState.read s') :=
        hs.of_safety (safety_foldl_read _ s) (safety_foldl_read _ s')
      rw [← combined_congr fun method hm => hread.agree method (hmethods method hm)]
      split
      · exact hread.setFunctionSafety (isNode_of_class hcls)
      · exact hread.markUnsafe (isNode_of_class hcls)
    · exact hs.markSafe (isNode_of_class hcls)

theorem lockstep_precomputeFunction {funcModule : ModuleName} (hD : D func)
    (hfunc : info.functions.get? func = some funcModule)
    (hwalk : info.OutcomeLockstep D B
      (info.checkCallBody info.bodyFuel
        { callerModule := funcModule
          effect := { kind := .functionCall, name := func }
          func } st)
      (info.checkCallBody info.bodyFuel
        { callerModule := funcModule
          effect := { kind := .functionCall, name := func }
          func } st'))
    (h : info.Lockstep D B st st') :
    info.Lockstep D B (info.precomputeFunctionVerdict func funcModule st)
      (info.precomputeFunctionVerdict func funcModule st') := by
  unfold precomputeFunctionVerdict
  dsimp only
  rw [← h.agree func hD]
  split
  · exact h
  · generalize info.checkCallBody _ _ st = out at hwalk ⊢
    generalize info.checkCallBody _ _ st' = out' at hwalk ⊢
    rcases out with ⟨c, s⟩
    rcases out' with ⟨c', s'⟩
    obtain ⟨hans, hs⟩ := hwalk
    obtain rfl : c = c' := hans
    replace hs : info.Lockstep D B s s' := hs
    -- what was recorded on the way is the same on both sides
    have hend : ∀ t t', info.Lockstep D B t t' →
        info.Lockstep D B (if (t.safety func).isNone then t.markSafe func else t)
          (if (t'.safety func).isNone then t'.markSafe func else t') := by
      intro t t' ht
      rw [← ht.agree func hD]
      split
      · exact ht.markSafe (isNode_of_function (hasKey_of_get? hfunc))
      · exact ht
    cases c with
    | error e => exact hend _ _ (hs.markUnsafe (isNode_of_function (hasKey_of_get? hfunc)))
    | ok b => exact hend _ _ hs

/-- The evaluation of a node does not depend on the log. -/
theorem safety_precomputeName_log (x : ModuleName)
    (hst : ∀ n, info.isNode n = false → st.safety n = none) (n : ModuleName) :
    (info.precomputeName x st.fresh).safety n = (info.precomputeName x st).safety n := by
  have h : info.Lockstep (fun _ => True) (fun _ => False) st.fresh st :=
    ⟨fun n hn => ⟨hst n hn, hst n hn⟩, fun _ _ => rfl, fun _ hB => hB.elim⟩
  have hname : info.Lockstep (fun _ => True) (fun _ => False)
      (info.precomputeName x st.fresh) (info.precomputeName x st) := by
    unfold precomputeName
    split
    · next hcls =>
      exact lockstep_precomputeConstructor trivial hcls (fun _ _ => trivial)
        (fun _ _ _ _ hs => lockstep_checkCallBody info info.bodyFuel _ hs) h
    · split
      · next hfunc =>
        exact lockstep_precomputeFunction trivial hfunc
          (lockstep_checkCallBody info info.bodyFuel _ h) h
      · exact h
  exact hname.agree n trivial

end Lockstep

/-! ## A run -/

/-- The evaluation of a node looks up its own entry and those of earlier nodes. The log is
started afresh. -/
def EarlierReads (info : ProjectInfo) (n : ModuleName) (st : AnalysisState) : Prop :=
  ∀ r ∈ (info.precomputeName n st.fresh).reads,
    info.isNode r = true → r ≠ n → info.Earlier r n

/-- So does every evaluation of the run. -/
def ReadsEarlier (info : ProjectInfo) (order : List (List Nat)) : Prop :=
  ∀ before v after, order.flatten = before ++ v :: after →
    info.EarlierReads (info.nodeName v) (info.precomputeNodes before info.settledState)

/-- A node that the levels evaluate. -/
structure Leveled (info : ProjectInfo) (n : ModuleName) : Prop where
  node : info.isNode n = true
  acyclic : info.inCycle n = false
  notDeclaredSafe : declaredSafe n = false

/-- The states of a run have entries for nodes alone. -/
theorem isNode_of_safety_precomputeNodes {nodes : List Nat} {n : ModuleName}
    (hn : ((info.precomputeNodes nodes info.settledState).safety n).isSome) :
    info.isNode n = true := by
  rcases (frame_precomputeNodes info nodes info.settledState).added n hn with hset | hnode
  · exact (settling_settledState info).nodes n hset
  · exact hnode

/-- When a node is evaluated, the earlier ones have an entry. -/
theorem isSome_of_earlier {order : List (List Nat)} (h : info.Schedule order)
    {before after : List Nat} {v : Nat} (hv : order.flatten = before ++ v :: after)
    {c : ModuleName} (hc : info.isNode c = true) (hearlier : info.Earlier c (info.nodeName v)) :
    ((info.precomputeNodes before info.settledState).safety c).isSome := by
  have hkept : ∀ n, (info.settledState.safety n).isSome →
      ((info.precomputeNodes before info.settledState).safety n).isSome := by
    intro n hn
    obtain ⟨fi, hfi⟩ := Option.isSome_iff_exists.mp hn
    exact Option.isSome_iff_exists.mpr
      ⟨fi, (frame_precomputeNodes info before _).kept n fi id hfi⟩
  rcases hearlier with hcyc | hsafe | ⟨lc, ln, hlc, hln, hlt⟩
  · exact hkept c ((settling_settledState info).settled c hc (Or.inl hcyc))
  · exact hkept c ((settling_settledState info).settled c hc (Or.inr hsafe))
  · obtain ⟨l, hl, hbefore⟩ := schedule_before h hv
    have hvlt := nodeLevels_lt_length hl
    rw [level, nodeIndex_nodeName hvlt, hl] at hln
    cases hln
    have hmem := hbefore (info.nodeIndex c) lc hlc hlt
    have := isSome_precomputeNodes hmem (nodeIndex_lt hc) info.settledState
    rwa [nodeName_nodeIndex hc] at this

/-- A level lists a node once. -/
theorem nodup_flatten_schedule {order : List (List Nat)} (h : info.Schedule order) :
    order.flatten.Nodup := by
  have hlevel : ∀ {i part v}, order[i]? = some part → v ∈ part →
      info.callCsr.nodeLevels info.buildCallGraph.inCycle v = some i := by
    intro i part v hpart hv
    obtain ⟨lv, hlv, hperm⟩ := forall₂_getElem? h.flip hpart
    exact mem_levels.mp ⟨lv, hlv, hperm.mem_iff.mp hv⟩
  rw [List.nodup_flatten]
  refine ⟨fun part hpart => ?_, ?_⟩
  · obtain ⟨i, hi⟩ := List.mem_iff_getElem?.mp hpart
    obtain ⟨lv, hlv, hperm⟩ := forall₂_getElem? h.flip hi
    have hnodup : lv.Nodup := CsrGraph.nodup_of_mem_dependencyLevels (List.mem_of_getElem? hlv)
    exact hperm.symm.nodup hnodup
  · rw [List.pairwise_iff_getElem]
    intro i j hi hj hij v hvi hvj
    have h1 := hlevel (List.getElem?_eq_getElem hi) hvi
    have h2 := hlevel (List.getElem?_eq_getElem hj) hvj
    rw [h1] at h2
    cases h2
    exact absurd hij (Nat.lt_irrefl i)

/-- When every evaluation reads earlier entries only, none runs ahead of its turn. -/
theorem evaluated_of_isSome {order : List (List Nat)} (h : info.Schedule order)
    (hreads : info.ReadsEarlier order) {before after : List Nat}
    (hsplit : order.flatten = before ++ after) {n : ModuleName}
    (hn : ((info.precomputeNodes before info.settledState).safety n).isSome) :
    info.inCycle n = true ∨ declaredSafe n = true ∨ info.nodeIndex n ∈ before := by
  induction before using List.reverseRecOn generalizing after n with
  | nil =>
    obtain ⟨fi, hfi⟩ := Option.isSome_iff_exists.mp hn
    rw [show info.precomputeNodes [] info.settledState = info.settledState from rfl,
      safety_settledState] at hfi
    split at hfi
    · next hsafe => exact Or.inr (Or.inl hsafe.2)
    · split at hfi
      · next hcyc => exact Or.inl hcyc.2
      · cases hfi
  | append_singleton before v ih =>
    rw [List.append_assoc, List.singleton_append] at hsplit
    -- an entry of before has had its turn, by the hypothesis
    have hold : ∀ {c}, ((info.precomputeNodes before info.settledState).safety c).isSome →
        info.inCycle c = true ∨ declaredSafe c = true ∨ info.nodeIndex c ∈ before ++ [v] :=
      fun hc => (ih hsplit hc).imp_right (Or.imp_right (List.mem_append_left [v]))
    have hnode := isNode_of_safety_precomputeNodes hn
    rw [precomputeNodes_append] at hn
    have hstep : ((info.precomputeName (info.nodeName v)
        (info.precomputeNodes before info.settledState).fresh).safety n).isSome := by
      rw [safety_precomputeName_log _ fun c hc => ?_]
      · exact hn
      · by_contra hne
        rw [isNode_of_safety_precomputeNodes (Option.isSome_iff_ne_none.mpr hne)] at hc
        cases hc
    obtain ⟨l, hl, hbefore⟩ := schedule_before h hsplit
    have hvlt := nodeLevels_lt_length hl
    -- an entry is old, the own one, or of a name that was looked up and so is earlier
    rcases added_mem_reads_precomputeName hstep with hsome | rfl | hread
    · exact hold hsome
    · rw [nodeIndex_nodeName hvlt]
      exact Or.inr (Or.inr (List.mem_append_right _ (List.mem_singleton.mpr rfl)))
    · by_cases heq : n = info.nodeName v
      · rw [heq, nodeIndex_nodeName hvlt]
        exact Or.inr (Or.inr (List.mem_append_right _ (List.mem_singleton.mpr rfl)))
      · exact hold (isSome_of_earlier h hsplit hnode
          (hreads before v after hsplit n hread hnode heq))

/-- Every function the levels evaluate dispatches to earlier nodes only. -/
def AllDispatchEarlier (info : ProjectInfo) : Prop :=
  ∀ func, hasKey info.functions func = true → hasKey info.classes func = false →
    info.inCycle func = false → declaredSafe func = false → info.DispatchesEarlier func

/-- A node of the schedule has a level, so it is in no cycle. -/
theorem acyclic_of_split {order : List (List Nat)} (h : info.Schedule order)
    {before after : List Nat} {v : Nat} (hv : order.flatten = before ++ v :: after) :
    v < info.nodeNames.length ∧ info.inCycle (info.nodeName v) = false := by
  obtain ⟨l, hl, -⟩ := schedule_before h hv
  have hvlt := nodeLevels_lt_length hl
  refine ⟨hvlt, (level_isSome (isNode_nodeName hvlt)).mp ?_⟩
  rw [level, nodeIndex_nodeName hvlt, hl]
  rfl

/-- At its turn, a class reads its constructor methods, to which it has edges, and a
function that dispatches to earlier nodes reads those. -/
theorem earlierReads_of_dispatchesEarlier {order : List (List Nat)} (h : info.Schedule order)
    (hall : info.AllDispatchEarlier) : info.ReadsEarlier order := by
  intro before v after hv r hr hnode hne
  obtain ⟨hvlt, hcyc⟩ := acyclic_of_split h hv
  set x := info.nodeName v with hx
  set st := info.precomputeNodes before info.settledState with hst
  have hearlier : ∀ c, info.isNode c = true → info.Earlier c x →
      (st.fresh.safety c).isSome := fun c hc hec => isSome_of_earlier h hv hc hec
  have hnodes : ∀ c, (st.fresh.safety c).isSome → info.isNode c = true :=
    fun c hc => isNode_of_safety_precomputeNodes hc
  unfold precomputeName at hr
  split at hr
  · next hcls =>
    have hmethod : ∀ method ∈ info.constructorMethodsOf x, info.isNode method = true →
        info.Earlier method x := fun method hm hmn =>
      (callEdge_iff.mpr ⟨Or.inr ⟨hcls, method, hm, if_pos hmn⟩, hmn⟩ :
        info.CallEdge x method).earlier hcyc
    cases hentry : st.fresh.safety x with
    | some fi =>
      unfold precomputeConstructorVerdict at hr
      rw [if_pos (by rw [hentry]; rfl)] at hr
      cases hr
    | none =>
      have hrec : ∀ method ∈ info.constructorMethodsOf x, info.IsFunction method →
          (st.fresh.safety method).isSome := fun method hm hf =>
        hearlier method (isNode_of_function hf) (hmethod method hm (isNode_of_function hf))
      rcases reads_precomputeConstructor hentry hrec r hr with hr | hr
      · cases hr
      · exact hmethod r hr hnode
  · next hcls =>
    cases hfunc : info.functions.get? x with
    | none =>
      rw [hfunc] at hr
      cases hr
    | some funcModule =>
      rw [hfunc] at hr
      dsimp only at hr
      have hkey : info.IsFunction x := hasKey_of_get? hfunc
      cases hentry : st.fresh.safety x with
      | some fi =>
        unfold precomputeFunctionVerdict at hr
        rw [if_pos (by rw [hentry]; rfl)] at hr
        cases hr
      | none =>
        have hsafe : declaredSafe x = false := by
          refine Bool.eq_false_iff.mpr fun hsafe => ?_
          have := hearlier x (isNode_of_function hkey) (Or.inr (Or.inl hsafe))
          rw [hentry] at this
          cases this
        have hlooks := (dispatchesEarlier_iff hkey hcyc).mp
          (hall x hkey (Bool.eq_false_iff.mpr hcls) hcyc hsafe)
        have hruns : ∀ eff ∈ info.runnableEffects x, ∀ c, info.Runs eff c →
            (st.fresh.safety c).isSome := by
          intro eff heff c hc
          have hcnode := isNode_of_function hc.1
          refine hearlier c hcnode (hlooks c ⟨eff, heff, Or.inl hc⟩ hcnode ?_)
          -- a function that runs itself is in a cycle
          rintro rfl
          obtain ⟨hf, callee, hcallee, hcall, -, hmem⟩ := hc
          have hwalk := transGen_of_runs hkey heff hcallee hcall hmem hf
          rw [inCycle_of_transGen hwalk] at hcyc
          cases hcyc
        obtain ⟨b, hrun⟩ := precomputeFunctionVerdict_eq hfunc hentry
        have hsub : ∀ n ∈ (info.checkCallBody info.bodyFuel (functionCall x funcModule)
            st.fresh).2.reads, n ∈ st.fresh.reads ∨ n = x ∨ info.LooksUp x n :=
          reads_checkCallBody_subset hfunc hentry hnodes hruns _
        have hrun' : info.checkCallBody info.bodyFuel (functionCall x funcModule) st.fresh =
            (.ok b, info.precomputeFunctionVerdict x funcModule st.fresh) := hrun
        rw [hrun'] at hsub
        rcases hsub r hr with hr | hr | hr
        · cases hr
        · exact absurd hr hne
        · exact hlooks r hr hnode hne

/-- Every evaluation of a run reads entries of earlier nodes only, apart from its own,
exactly when every function it evaluates dispatches to earlier nodes. -/
theorem readsEarlier_iff {order : List (List Nat)} (h : info.Schedule order) :
    info.ReadsEarlier order ↔ info.AllDispatchEarlier := by
  refine ⟨fun hreads func hkey hcls hcyc hsafe => ?_, earlierReads_of_dispatchesEarlier h⟩
  have hnode := isNode_of_function hkey
  obtain ⟨l, hl⟩ := Option.isSome_iff_exists.mp ((level_isSome hnode).mpr hcyc)
  obtain ⟨before, after, hv⟩ := List.append_of_mem (mem_flatten_schedule h hl)
  -- the turn of a function is the first time its entry is written
  have habsent : (info.precomputeNodes before info.settledState).safety func = none := by
    by_contra hne
    rcases evaluated_of_isSome h hreads hv (Option.isSome_iff_ne_none.mpr hne) with
      hbad | hbad | hmem
    · rw [hcyc] at hbad
      cases hbad
    · rw [hsafe] at hbad
      cases hbad
    · have hnodup := nodup_flatten_schedule h
      rw [hv] at hnodup
      exact (List.nodup_append.mp hnodup).2.2 _ hmem _ List.mem_cons_self rfl
  obtain ⟨funcModule, hfunc⟩ := Option.isSome_iff_exists.mp hkey
  have hturn := hreads before (info.nodeIndex func) after hv
  rw [nodeName_nodeIndex hnode] at hturn
  refine (dispatchesEarlier_iff hkey hcyc).mpr fun n hn hnn hne => hturn n ?_ hnn hne
  set st := info.precomputeNodes before info.settledState
  replace habsent : st.fresh.safety func = none := habsent
  obtain ⟨b, hrun⟩ := precomputeFunctionVerdict_eq hfunc habsent
  have hrun' : info.checkCallBody info.bodyFuel (functionCall func funcModule) st.fresh =
      (.ok b, info.precomputeFunctionVerdict func funcModule st.fresh) := hrun
  have hmem : n ∈ (info.checkCallBody info.bodyFuel (functionCall func funcModule)
      st.fresh).2.reads := mem_reads_checkCallBody hfunc habsent rfl (fueled_start rfl) hn
  rw [hrun'] at hmem
  unfold precomputeName
  rw [if_neg (by rw [hcls]; exact Bool.false_ne_true), hfunc]
  exact hmem

/-! ## The order inside a level -/

/-- The names the verdict of a node may depend on. -/
def Matters (info : ProjectInfo) (x n : ModuleName) : Prop :=
  n = x ∨ info.Earlier n x ∨ info.isNode n = false

/-- The earlier nodes. -/
def EarlierNode (info : ProjectInfo) (x n : ModuleName) : Prop :=
  info.isNode n = true ∧ info.Earlier n x

/-- A function that dispatches to earlier nodes is walked in lockstep from states that
agree on them. -/
theorem lockstep_functionCall {x funcModule : ModuleName}
    (hfunc : info.functions.get? x = some funcModule) (hcyc : info.inCycle x = false)
    (hlooks : ∀ n, info.LooksUp x n → info.isNode n = true → n ≠ x → info.Earlier n x)
    (h : info.Lockstep (info.Matters x) (info.EarlierNode x) st st') :
    info.OutcomeLockstep (info.Matters x) (info.EarlierNode x)
      (info.checkCallBody info.bodyFuel (functionCall x funcModule) st)
      (info.checkCallBody info.bodyFuel (functionCall x funcModule) st') := by
  have hkey : info.IsFunction x := hasKey_of_get? hfunc
  -- a name that is no node has no entry on either side
  have hmatters : ∀ n, (info.isNode n = true → n ≠ x → info.Earlier n x) →
      info.Matters x n := by
    intro n hn
    by_cases heq : n = x
    · exact Or.inl heq
    · by_cases hnode : info.isNode n = true
      · exact Or.inr (Or.inl (hn hnode heq))
      · exact Or.inr (Or.inr (Bool.eq_false_iff.mpr hnode))
  refine lockstep_walk hfunc (Or.inl rfl)
    (fun eff heff => hmatters _ (hlooks _ ⟨eff, heff, Or.inr rfl⟩))
    (fun eff heff s s' hs => lockstep_checkCallSafety (fun callee hcallee => ?_)
      (fun callee hcallee hres hsafe call' hcall' t t' ht => ?_) hs) h
  · exact hmatters callee fun hnode _ => (callEdge_of_target hkey heff
      (mem_edgeTargets_of_dispatch hcallee (containsCallable_of_isNode hnode)) hnode).earlier
        hcyc
  · refine lockstep_recorded rfl (fun hf => ?_) ht
    have hcall : info.containsCallable callee = true := by
      obtain ⟨u, ⟨u', hu⟩, hcan⟩ := hres
      rcases Bool.or_eq_true_iff.mp hcan with hcall | hsome
      · exact hcall
      · refine containsCallable_of_isNode ?_
        by_contra hnot
        rw [(hu.nodes callee (Bool.eq_false_iff.mpr hnot)).1] at hsome
        cases hsome
    have hmem := (mem_spawnedCalls hcall').2
    have hnode := isNode_of_function hf
    -- a function that runs itself is in a cycle
    have hne : call'.func ≠ x := by
      intro heq
      have hwalk := transGen_of_runs hkey heff hcallee hcall hmem hf
      rw [heq] at hwalk
      rw [inCycle_of_transGen hwalk] at hcyc
      cases hcyc
    have hearlier := hlooks call'.func
      ⟨eff, heff, Or.inl ⟨hf, callee, hcallee, hcall, hsafe, hmem⟩⟩ hnode hne
    exact ⟨Or.inr (Or.inl hearlier), hnode, hearlier⟩

/-- So the node's verdict is the same from both. -/
theorem safety_precomputeName_congr {x : ModuleName} (hcyc : info.inCycle x = false)
    (hdispatch : info.IsFunction x → hasKey info.classes x = false →
      info.DispatchesEarlier x)
    (h : info.Lockstep (info.Matters x) (info.EarlierNode x) st st') :
    (info.precomputeName x st).safety x = (info.precomputeName x st').safety x := by
  have hname : info.Lockstep (info.Matters x) (info.EarlierNode x)
      (info.precomputeName x st) (info.precomputeName x st') := by
    unfold precomputeName
    split
    · next hcls =>
      -- a class has an edge to each of its constructor methods
      have hmethod : ∀ method ∈ info.constructorMethodsOf x, info.isNode method = true →
          info.Earlier method x := fun method hm hmn =>
        (callEdge_iff.mpr ⟨Or.inr ⟨hcls, method, hm, if_pos hmn⟩, hmn⟩ :
          info.CallEdge x method).earlier hcyc
      refine lockstep_precomputeConstructor (Or.inl rfl) hcls (fun method hm => ?_)
        (fun method hm s s' hs => lockstep_recorded rfl (fun hf => ?_) hs) h
      · by_cases hnode : info.isNode method = true
        · exact Or.inr (Or.inl (hmethod method hm hnode))
        · exact Or.inr (Or.inr (Bool.eq_false_iff.mpr hnode))
      · have hearlier := hmethod method hm (isNode_of_function hf)
        exact ⟨Or.inr (Or.inl hearlier), isNode_of_function hf, hearlier⟩
    · next hcls =>
      split
      · next funcModule hfunc =>
        have hkey : info.IsFunction x := hasKey_of_get? hfunc
        exact lockstep_precomputeFunction (Or.inl rfl) hfunc
          (lockstep_functionCall hfunc hcyc ((dispatchesEarlier_iff hkey hcyc).mp
            (hdispatch hkey (Bool.eq_false_iff.mpr hcls))) h) h
      · exact h
  exact hname.agree x (Or.inl rfl)

/-- What a node's turn records stays to the end. -/
theorem safety_precompute_of_turn {order : List (List Nat)} {before after : List Nat}
    {v : Nat} (hv : order.flatten = before ++ v :: after) {n : ModuleName}
    {fi : FunctionSafetyInfo}
    (hfi : (info.precomputeNodes (before ++ [v]) info.settledState).safety n = some fi) :
    (info.precompute order).safety n = some fi := by
  unfold precompute
  rw [hv, ← List.singleton_append, ← List.append_assoc, precomputeNodes_append]
  exact (frame_precomputeNodes info after _).kept n fi id hfi

/-- The node at its turn: it has no entry yet, and the final one is that of its turn. -/
theorem exists_turn {order : List (List Nat)} (h : info.Schedule order)
    (hall : info.AllDispatchEarlier) {x : ModuleName} (hx : info.Leveled x) :
    ∃ before after, order.flatten = before ++ info.nodeIndex x :: after ∧
      (info.precomputeNodes before info.settledState).safety x = none ∧
      (info.precompute order).safety x =
        (info.precomputeName x (info.precomputeNodes before info.settledState)).safety x := by
  obtain ⟨l, hl⟩ := Option.isSome_iff_exists.mp ((level_isSome hx.node).mpr hx.acyclic)
  obtain ⟨before, after, hv⟩ := List.append_of_mem (mem_flatten_schedule h hl)
  refine ⟨before, after, hv, ?_, ?_⟩
  · by_contra hne
    rcases evaluated_of_isSome h (earlierReads_of_dispatchesEarlier h hall) hv
      (Option.isSome_iff_ne_none.mpr hne) with hbad | hbad | hmem
    · rw [hx.acyclic] at hbad
      cases hbad
    · rw [hx.notDeclaredSafe] at hbad
      cases hbad
    · have hnodup := nodup_flatten_schedule h
      rw [hv] at hnodup
      exact (List.nodup_append.mp hnodup).2.2 _ hmem _ List.mem_cons_self rfl
  · have hstep : info.precomputeNodes (before ++ [info.nodeIndex x]) info.settledState =
        info.precomputeName x (info.precomputeNodes before info.settledState) := by
      rw [precomputeNodes_append]
      show info.precomputeName (info.nodeName (info.nodeIndex x)) _ = _
      rw [nodeName_nodeIndex hx.node]
    obtain ⟨fi, hfi⟩ := Option.isSome_iff_exists.mp
      ((frame_precomputeName info x (info.precomputeNodes before info.settledState)).2 hx.node)
    rw [hfi]
    exact safety_precompute_of_turn hv (by rw [hstep, hfi])

/-- The entries settled before the levels run stay. -/
theorem safety_precompute_settled {order : List (List Nat)} {n : ModuleName}
    (hn : (info.settledState.safety n).isSome) :
    (info.precompute order).safety n = info.settledState.safety n := by
  obtain ⟨fi, hfi⟩ := Option.isSome_iff_exists.mp hn
  rw [hfi]
  exact (frame_precomputeNodes info _ _).kept n fi id hfi

/-- Then the verdicts are the same whatever the order inside the levels. -/
theorem safety_precompute_eq {order order' : List (List Nat)} (h : info.Schedule order)
    (h' : info.Schedule order') (hall : info.AllDispatchEarlier) (n : ModuleName) :
    (info.precompute order').safety n = (info.precompute order).safety n := by
  have hnode_none : ∀ (nodes : List Nat) n, info.isNode n = false →
      (info.precomputeNodes nodes info.settledState).safety n = none := by
    intro nodes n hn
    by_contra hne
    rw [isNode_of_safety_precomputeNodes (Option.isSome_iff_ne_none.mpr hne)] at hn
    cases hn
  by_cases hset : (info.settledState.safety n).isSome
  · rw [safety_precompute_settled hset, safety_precompute_settled hset]
  · by_cases hnode : info.isNode n = true
    · have hleveled : ∀ n, info.isNode n = true → ¬(info.settledState.safety n).isSome →
          info.Leveled n := by
        intro n hnode hset
        refine ⟨hnode, Bool.eq_false_iff.mpr fun hcyc => hset ?_,
          Bool.eq_false_iff.mpr fun hsafe => hset ?_⟩
        · exact (settling_settledState info).settled n hnode (Or.inl hcyc)
        · exact (settling_settledState info).settled n hnode (Or.inr hsafe)
      -- by induction on the level
      have hlevels : ∀ l n, info.isNode n = true → ¬(info.settledState.safety n).isSome →
          info.level n = some l →
          (info.precompute order').safety n = (info.precompute order).safety n := by
        intro l
        induction l using Nat.strong_induction_on with
        | _ l ih =>
          intro n hnode hset hl
          have hx := hleveled n hnode hset
          obtain ⟨before, after, hv, habsent, hfinal⟩ := exists_turn h hall hx
          obtain ⟨before', after', hv', habsent', hfinal'⟩ := exists_turn h' hall hx
          rw [hfinal, hfinal']
          have hearlier : ∀ c, info.isNode c = true → info.Earlier c n →
              ∃ fi, (info.precomputeNodes before' info.settledState).safety c = some fi ∧
                (info.precomputeNodes before info.settledState).safety c = some fi := by
            intro c hc hcn
            have hcn' : info.Earlier c (info.nodeName (info.nodeIndex n)) := by
              rwa [nodeName_nodeIndex hnode]
            obtain ⟨fi, hfi⟩ := Option.isSome_iff_exists.mp (isSome_of_earlier h hv hc hcn')
            obtain ⟨fi', hfi'⟩ := Option.isSome_iff_exists.mp
              (isSome_of_earlier h' hv' hc hcn')
            have hend : (info.precompute order).safety c = some fi := by
              refine safety_precompute_of_turn hv ?_
              rw [precomputeNodes_append]
              exact (frame_precomputeNodes info _ _).kept c fi id hfi
            have hend' : (info.precompute order').safety c = some fi' := by
              refine safety_precompute_of_turn hv' ?_
              rw [precomputeNodes_append]
              exact (frame_precomputeNodes info _ _).kept c fi' id hfi'
            have hsame : (info.precompute order').safety c = (info.precompute order).safety c := by
              by_cases hcset : (info.settledState.safety c).isSome
              · rw [safety_precompute_settled hcset, safety_precompute_settled hcset]
              · rcases hcn with hcyc | hsafe | ⟨lc, ln, hlc, hln, hlt⟩
                · exact absurd ((settling_settledState info).settled c hc (Or.inl hcyc)) hcset
                · exact absurd ((settling_settledState info).settled c hc (Or.inr hsafe)) hcset
                · rw [hl] at hln
                  cases hln
                  exact ih lc hlt c hc hcset hlc
            rw [hend, hend'] at hsame
            cases hsame
            exact ⟨fi, hfi', hfi⟩
          refine safety_precomputeName_congr hx.acyclic
            (fun hf hcls => hall n hf hcls hx.acyclic hx.notDeclaredSafe)
            ⟨fun c hc => ⟨hnode_none before' c hc, hnode_none before c hc⟩, ?_, ?_⟩
          · rintro c (rfl | hcn | hc)
            · rw [habsent, habsent']
            · by_cases hc : info.isNode c = true
              · obtain ⟨fi, hfi', hfi⟩ := hearlier c hc hcn
                rw [hfi, hfi']
              · rw [hnode_none before' c (Bool.eq_false_iff.mpr hc),
                  hnode_none before c (Bool.eq_false_iff.mpr hc)]
            · rw [hnode_none before' c hc, hnode_none before c hc]
          · rintro c ⟨hc, hcn⟩
            obtain ⟨fi, hfi', hfi⟩ := hearlier c hc hcn
            rw [hfi, hfi']
            exact ⟨rfl, rfl⟩
      obtain ⟨l, hl⟩ := Option.isSome_iff_exists.mp
        ((level_isSome hnode).mpr (hleveled n hnode hset).acyclic)
      exact hlevels l n hnode hset hl
    · rw [precompute, precompute, hnode_none _ n (Bool.eq_false_iff.mpr hnode),
        hnode_none _ n (Bool.eq_false_iff.mpr hnode)]

/-- A run reads entries of earlier nodes only exactly when every function it evaluates
dispatches to earlier nodes, and then no order inside the levels changes a verdict. -/
theorem reads_earlier_iff {order : List (List Nat)} (h : info.Schedule order) :
    (info.ReadsEarlier order ↔ info.AllDispatchEarlier) ∧
      (info.AllDispatchEarlier → ∀ order', info.Schedule order' → ∀ n,
        (info.precompute order').safety n = (info.precompute order).safety n) :=
  ⟨readsEarlier_iff h, fun hall _ h' n => safety_precompute_eq h h' hall n⟩

/-! ## A class that calls itself -/

/-- Module `m` with a function that calls a class, whose `__init__` calls the class again
when `again` is set. Its `__new__` calls nothing. -/
def nestingProject (again : Bool) : ProjectInfo where
  effectTable := Table.ofList
    [(fromStr "m.f", [{ kind := .functionCall, name := fromStr "m.K" }]),
      (fromStr "m.K.__init__",
        if again then [{ kind := .functionCall, name := fromStr "m.K" }] else [])]
  classes := Table.ofList [(fromStr "m.K", {})]
  functions := Table.ofList
    [(fromStr "m.f", fromStr "m"), (fromStr "m.K.__init__", fromStr "m"),
      (fromStr "m.K.__new__", fromStr "m")]

theorem reads_earlier_iff_nesting :
    ((nestingProject false).ReadsEarlier (nestingProject false).levels ↔
        (nestingProject false).AllDispatchEarlier) ∧
      ((nestingProject false).AllDispatchEarlier →
        ∀ order', (nestingProject false).Schedule order' → ∀ n,
          ((nestingProject false).precompute order').safety n =
            ((nestingProject false).precompute (nestingProject false).levels).safety n) :=
  reads_earlier_iff (List.forall₂_same.mpr fun _ _ => List.Perm.refl _)

/-- The class and its `__init__` are in a cycle. The function has no edge to `__new__`, which
stands in the same level, and consults its entry. -/
theorem later_constructor_consulted :
    (nestingProject true).inCycle (fromStr "m.K") = true ∧
      (nestingProject true).level (fromStr "m.f") =
        (nestingProject true).level (fromStr "m.K.__new__") ∧
      (fromStr "m.K.__new__") ∈
        ((nestingProject true).precomputeName (fromStr "m.f")
          (nestingProject true).settledState.fresh).reads ∧
      ¬(nestingProject true).ReadsEarlier (nestingProject true).levels := by
  have hread : (fromStr "m.K.__new__") ∈ ((nestingProject true).precomputeName (fromStr "m.f")
      (nestingProject true).settledState.fresh).reads := by decide +kernel
  refine ⟨by decide +kernel, by decide +kernel, hread, fun h => ?_⟩
  have hfirst : (nestingProject true).levels.flatten = [] ++ 0 :: [2] := by decide +kernel
  have hname : (nestingProject true).nodeName 0 = fromStr "m.f" := by decide +kernel
  have hearlier := h [] 0 [2] hfirst (fromStr "m.K.__new__") (by rwa [hname]) (by decide +kernel)
    (by decide +kernel)
  rw [hname] at hearlier
  rcases hearlier with hcyc | hsafe | ⟨lc, ln, hlc, hln, hlt⟩
  · revert hcyc
    decide +kernel
  · revert hsafe
    decide +kernel
  · have hsame : (nestingProject true).level (fromStr "m.f") =
        (nestingProject true).level (fromStr "m.K.__new__") := by decide +kernel
    rw [hsame, hlc] at hln
    cases hln
    exact Nat.lt_irrefl _ hlt

end ProjectInfo

end Lifeguard
