import Lifeguard.CallGraphTheory

/-!
# What the precompute leaves in a record

A runnable effect of a function leaves one of two things behind: every body it runs has a
clean verdict (`CalleesClean`), or the function is flagged for it (`Flagged`), unsafe for
good or waiting on the name the effect dispatches to. The walk over a body records verdicts
for which this holds, whatever bodies it runs on the way:

- `Settled`: what the record of a function says once its walk has ended;
- `Settling`: the invariant of the precompute, over the names `A` whose walk is under way;
- `settling_checkCallBody`: the step, one body;
- `settling_precompute`: the run, over every order of the nodes.

That a body under way never runs again is the order of the call graph: a walk follows
call edges (`transGen_of_runs`), so a body that reached itself would be in a cycle.
-/

namespace Lifeguard

open Lib Relation

/-- A verdict of the name is unsafe, or unsafe if imported. -/
def AnalysisState.Concerned (st : AnalysisState) (name : ModuleName) : Prop :=
  ∃ fi, st.safety name = some fi ∧
    (.hardUnsafe ∈ fi.verdict ∨ .unsafeIfImported ∈ fi.verdict)

namespace ProjectInfo

variable {info : ProjectInfo} {A B : ModuleName → Prop} {st st' : AnalysisState}
  {func : ModuleName} {eff : Effect}

/-! ## Bodies follow call edges -/

theorem mem_runnableEffects :
    eff ∈ info.runnableEffects func ↔ eff ∈ info.effectsOf func ∧ eff.kind.isRunnable = true :=
  List.mem_filter

theorem callEdge_of_target {target : ModuleName} (hfunc : info.IsFunction func)
    (heff : eff ∈ info.runnableEffects func) (htarget : target ∈ info.edgeTargets eff)
    (hnode : info.isNode target = true) : info.CallEdge func target :=
  callEdge_iff.mpr ⟨Or.inl ⟨hfunc, eff, heff, htarget⟩, hnode⟩

/-- A plain call dispatches to the one target of its edge. -/
theorem callGraphTarget_of_dispatch {callee : ModuleName} (hsuper : eff.kind ≠ .superMethodCall)
    (hcreation : eff.kind ≠ .classCreation) (hcallee : callee ∈ info.dispatchCallees eff)
    (hcall : info.containsCallable callee = true) : info.callGraphTarget eff = some callee := by
  rw [callGraphTarget_of_plain hsuper hcreation]
  unfold dispatchCallees at hcallee
  split at hcallee
  · next h => exact absurd h hcreation
  · next h => exact absurd h hsuper
  · rw [List.mem_singleton] at hcallee
    cases hres : info.resolveCallable eff.name with
    | some target =>
      rw [hcallee, hres]
      rfl
    | none =>
      -- a callable name resolves, so the written name cannot be the callee
      rw [hres] at hcallee
      obtain rfl : callee = eff.name := hcallee
      obtain ⟨target, htarget⟩ := Option.isSome_iff_exists.mp (resolveCallable_isSome hcall)
      rw [hres] at htarget
      cases htarget

/-- The callees an effect dispatches to are targets of its edges. -/
theorem mem_edgeTargets_of_dispatch {callee : ModuleName}
    (hcallee : callee ∈ info.dispatchCallees eff)
    (hcall : info.containsCallable callee = true) : callee ∈ info.edgeTargets eff := by
  unfold edgeTargets
  by_cases hcreation : eff.kind = .classCreation
  · rw [if_pos hcreation]
    rw [dispatchCallees, hcreation] at hcallee
    rcases List.mem_append.mp hcallee with hmeta | habove
    · exact List.mem_append_right _ hmeta
    · refine List.mem_append_left _ (List.mem_append_left _ ?_)
      rw [callGraphTarget, hcreation]
      exact habove
  · refine List.mem_append_left _ (List.mem_append_left _ ?_)
    by_cases hsuper : eff.kind = .superMethodCall
    · rw [dispatchCallees, hsuper] at hcallee
      rw [callGraphTarget, hsuper]
      exact hcallee
    · rw [callGraphTarget_of_dispatch hsuper hcreation hcallee hcall]
      exact List.mem_singleton.mpr rfl

theorem isParameterizedDecoratorEffect_plain (h : isParameterizedDecoratorEffect eff = true) :
    eff.kind ≠ .classCreation ∧ eff.kind ≠ .superMethodCall := by
  unfold isParameterizedDecoratorEffect at h
  constructor <;> intro hkind <;> rw [hkind] at h <;> simp at h

/-- The immediate nested functions of a decorator factory are targets too. -/
theorem mem_edgeTargets_of_nested {callee child : ModuleName}
    (hcallee : callee ∈ info.dispatchCallees eff)
    (hcall : info.containsCallable callee = true)
    (hdec : isParameterizedDecoratorEffect eff = true)
    (hchild : child ∈ (info.nestedFunctions.get? callee).getD []) :
    child ∈ info.edgeTargets eff := by
  obtain ⟨hcreation, hsuper⟩ := isParameterizedDecoratorEffect_plain hdec
  unfold edgeTargets
  dsimp only
  rw [callGraphTarget_of_dispatch hsuper hcreation hcallee hcall, if_pos hdec]
  exact List.mem_append_left _ (List.mem_append_right _ hchild)

/-- The functions an effect of a body runs lie further along the call edges. -/
theorem transGen_of_runs {callee c : ModuleName} (hfunc : info.IsFunction func)
    (heff : eff ∈ info.runnableEffects func) (hcallee : callee ∈ info.dispatchCallees eff)
    (hcall : info.containsCallable callee = true) (hc : c ∈ info.runNames eff callee)
    (hcfunc : info.IsFunction c) : TransGen info.CallEdge func c := by
  have hcnode := isNode_of_function hcfunc
  unfold runNames at hc
  rcases List.mem_append.mp hc with hc | hc
  · split at hc
    · next hcls =>
      have hedge := callEdge_of_target hfunc heff (mem_edgeTargets_of_dispatch hcallee hcall)
        (isNode_of_class hcls)
      have hmethod : info.CallEdge callee c :=
        callEdge_iff.mpr ⟨Or.inr ⟨hcls, c, hc, if_pos hcnode⟩, hcnode⟩
      exact TransGen.tail (TransGen.single hedge) hmethod
    · obtain rfl := List.mem_singleton.mp hc
      exact TransGen.single (callEdge_of_target hfunc heff
        (mem_edgeTargets_of_dispatch hcallee hcall) hcnode)
  · split at hc
    · next hdec =>
      exact TransGen.single (callEdge_of_target hfunc heff
        (mem_edgeTargets_of_nested hcallee hcall hdec hc) hcnode)
    · cases hc

/-! ## What an effect leaves behind -/

/-- Every function the effect runs has a clean verdict that no walk changes any more. -/
def CalleesClean (info : ProjectInfo) (A : ModuleName → Prop) (st : AnalysisState)
    (eff : Effect) : Prop :=
  ∀ callee ∈ info.dispatchCallees eff, info.containsCallable callee = true →
    declaredSafe callee = false → ∀ c ∈ info.runNames eff callee, info.IsFunction c →
      ¬A c ∧ ∃ fi, st.safety c = some fi ∧ Clean fi

/-- The name the effect dispatches to may be waited on: its entry is recoverable, or it
has none. A class creation keeps its written name whatever failed. -/
def Awaitable (info : ProjectInfo) (A : ModuleName → Prop) (st : AnalysisState)
    (eff : Effect) : Prop :=
  eff.kind = .classCreation ∨
    (¬A (info.dispatchedName eff) ∧ st.recoverable (info.dispatchedName eff) = true) ∨
    info.containsCallable (info.dispatchedName eff) = false

/-- The function is unsafe for good, or waits on the name the effect dispatches to. -/
def Flagged (info : ProjectInfo) (A : ModuleName → Prop) (st : AnalysisState)
    (func : ModuleName) (eff : Effect) : Prop :=
  ∃ fi, st.safety func = some fi ∧
    (.hardUnsafe ∈ fi.verdict ∨
      (.unsafeMissingDep ∈ fi.verdict ∧
        info.dispatchedName eff ∈ fi.missingDepCallees ∧ info.Awaitable A st eff))

/-- A concern about imports of a function of the same module that runs under the name the
effect dispatches to has passed on. -/
def Inherits (info : ProjectInfo) (A : ModuleName → Prop) (st : AnalysisState)
    (func : ModuleName) (eff : Effect) : Prop :=
  ∀ callee ∈ info.dispatchCallees eff, callee = info.dispatchedName eff →
    hasKey info.classes callee = false → info.IsFunction callee →
    info.functions.get? callee = info.functions.get? func →
    ¬A callee ∧ ∃ fi, st.safety callee = some fi ∧
      (.unsafeIfImported ∈ fi.verdict →
        ∃ own, st.safety func = some own ∧ .unsafeIfImported ∈ own.verdict)

/-- A runnable effect either ran clean bodies only or is accounted for in its function. -/
def CallSettled (info : ProjectInfo) (A : ModuleName → Prop) (st : AnalysisState)
    (func : ModuleName) (eff : Effect) : Prop :=
  (info.CalleesClean A st eff ∧ info.Inherits A st func eff) ∨ info.Flagged A st func eff

/-- The name is one a function may wait on: a callee whose mutation is deferred, or the
callee of a call that failed. -/
def Waits (info : ProjectInfo) (A : ModuleName → Prop) (st : AnalysisState)
    (func name : ModuleName) : Prop :=
  ∃ eff ∈ info.runnableEffects func,
    name ∈ info.deferredCallees eff ∨
      (name = info.dispatchedName eff ∧ info.Awaitable A st eff)

/-- The record of a function waits on names it may wait on, and on one at least if it is
marked so. -/
structure Justified (info : ProjectInfo) (A : ModuleName → Prop) (st : AnalysisState)
    (func : ModuleName) (fi : FunctionSafetyInfo) : Prop where
  waits : ∀ name ∈ fi.missingDepCallees, info.Waits A st func name
  nonempty : .unsafeMissingDep ∈ fi.verdict → fi.missingDepCallees ≠ ∅

/-- What an effect of a walked body has left in the record of its function. -/
structure EffectSettled (info : ProjectInfo) (A : ModuleName → Prop) (st : AnalysisState)
    (func : ModuleName) (eff : Effect) : Prop where
  call : eff.kind.isRunnable = true → info.CallSettled A st func eff
  global : eff.kind = .globalVarAssign ∨ eff.kind = .globalVarMutation →
    st.Concerned func

/-- The entry of a function whose walk has ended. -/
structure Settled (info : ProjectInfo) (A : ModuleName → Prop) (st : AnalysisState)
    (func : ModuleName) : Prop where
  effects : ∀ eff ∈ info.effectsOf func, info.EffectSettled A st func eff
  justified : ∀ fi, st.safety func = some fi → info.Justified A st func fi

/-! ## Steady entries -/

/-- The entries no walk in `A` owns stay, and no walk in `B` owns them. -/
def Steady (A B : ModuleName → Prop) (st st' : AnalysisState) : Prop :=
  ∀ n fi, ¬A n → st.safety n = some fi → ¬B n ∧ st'.safety n = some fi

/-- The function's own record grows from one state to the other. -/
def OwnGrows (func : ModuleName) (st st' : AnalysisState) : Prop :=
  ∀ fi, st.safety func = some fi → ∃ fi', st'.safety func = some fi' ∧ Grows fi fi'

section Steady

variable (h : Steady A B st st')

include h

theorem CalleesClean.steady (hc : info.CalleesClean A st eff) : info.CalleesClean B st' eff := by
  intro callee hcallee hcall hsafe c hrun hfunc
  obtain ⟨hA, fi, hfi, hclean⟩ := hc callee hcallee hcall hsafe c hrun hfunc
  obtain ⟨hB, hfi'⟩ := h c fi hA hfi
  exact ⟨hB, fi, hfi', hclean⟩

theorem Awaitable.steady (ha : info.Awaitable A st eff) : info.Awaitable B st' eff := by
  rcases ha with hkind | ⟨hA, hrec⟩ | hcall
  · exact Or.inl hkind
  · cases hfi : st.safety (info.dispatchedName eff) with
    | none =>
      rw [AnalysisState.recoverable, hfi] at hrec
      cases hrec
    | some fi =>
      obtain ⟨hB, hfi'⟩ := h _ fi hA hfi
      refine Or.inr (Or.inl ⟨hB, ?_⟩)
      rw [AnalysisState.recoverable, hfi] at hrec
      rw [AnalysisState.recoverable, hfi']
      exact hrec
  · exact Or.inr (Or.inr hcall)

/-- A flag stays while the function's own record grows. -/
theorem Flagged.steady (hgrows : OwnGrows func st st') (hf : info.Flagged A st func eff) :
    info.Flagged B st' func eff := by
  obtain ⟨fi, hfi, hflag⟩ := hf
  obtain ⟨fi', hfi', hg⟩ := hgrows fi hfi
  refine ⟨fi', hfi', ?_⟩
  rcases hflag with hhard | ⟨hdep, hmem, hawait⟩
  · exact Or.inl (hg.hard hhard)
  · rcases hg.rest with hhard | ⟨hverdict, hsub⟩
    · exact Or.inl hhard
    · exact Or.inr ⟨hverdict hdep, hsub hmem, Awaitable.steady h hawait⟩

/-- So does what a call left: a record that turns unsafe flags the call. -/
theorem CallSettled.steady (hgrows : OwnGrows func st st')
    (hc : info.CallSettled A st func eff) : info.CallSettled B st' func eff := by
  rcases hc with ⟨hclean, hinh⟩ | hflag
  · by_cases hhard : ∃ fi, st'.safety func = some fi ∧ Concern.hardUnsafe ∈ fi.verdict
    · obtain ⟨fi, hfi, hmem⟩ := hhard
      exact Or.inr ⟨fi, hfi, Or.inl hmem⟩
    · refine Or.inl ⟨CalleesClean.steady h hclean, ?_⟩
      intro callee hcallee hname hcls hfunc hmod
      obtain ⟨hA, fi, hfi, hown⟩ := hinh callee hcallee hname hcls hfunc hmod
      obtain ⟨hB, hfi'⟩ := h callee fi hA hfi
      refine ⟨hB, fi, hfi', fun himp => ?_⟩
      obtain ⟨own, hownfi, hmem⟩ := hown himp
      obtain ⟨own', hown', hg⟩ := hgrows own hownfi
      refine ⟨own', hown', ?_⟩
      rcases hg.rest with hbad | ⟨hsub, -⟩
      · exact absurd ⟨own', hown', hbad⟩ hhard
      · exact hsub hmem
  · exact Or.inr (Flagged.steady h hgrows hflag)

omit h in
theorem concerned_steady (hgrows : OwnGrows func st st')
    (hc : st.Concerned func) : st'.Concerned func := by
  obtain ⟨fi, hfi, hconcern⟩ := hc
  obtain ⟨fi', hfi', hg⟩ := hgrows fi hfi
  refine ⟨fi', hfi', ?_⟩
  rcases hg.rest with hhard | ⟨hsub, -⟩
  · exact Or.inl hhard
  · exact hconcern.imp (fun hmem => hsub hmem) (fun hmem => hsub hmem)

theorem EffectSettled.steady (hgrows : OwnGrows func st st')
    (he : info.EffectSettled A st func eff) : info.EffectSettled B st' func eff where
  call hrun := CallSettled.steady h hgrows (he.call hrun)
  global hkind := concerned_steady hgrows (he.global hkind)

theorem Justified.steady {fi : FunctionSafetyInfo} (hj : info.Justified A st func fi) :
    info.Justified B st' func fi where
  waits name hname := by
    obtain ⟨eff, heff, hwait⟩ := hj.waits name hname
    exact ⟨eff, heff, hwait.imp_right fun hw => ⟨hw.1, Awaitable.steady h hw.2⟩⟩
  nonempty := hj.nonempty

theorem Settled.steady (hown : st'.safety func = st.safety func)
    (hs : info.Settled A st func) : info.Settled B st' func where
  effects eff heff := by
    refine EffectSettled.steady h (fun fi hfi => ⟨fi, ?_, .refl fi⟩) (hs.effects eff heff)
    rw [hown, hfi]
  justified fi hfi := by
    rw [hown] at hfi
    exact Justified.steady h (hs.justified fi hfi)

end Steady

/-! ## The invariant -/

/-- The state of a precompute in which the walks of the names in `A` are under way. -/
structure Settling (info : ProjectInfo) (A : ModuleName → Prop) (st : AnalysisState) :
    Prop where
  nodes : ∀ n, (st.safety n).isSome → info.isNode n = true
  -- the nodes settled before the levels run
  settled : ∀ n, info.isNode n = true → info.inCycle n = true ∨ declaredSafe n = true →
    (st.safety n).isSome
  walked : ∀ n, info.IsFunction n → hasKey info.classes n = false → (st.safety n).isSome →
    A n ∨ info.inCycle n = true ∨ declaredSafe n = true ∨ info.Settled A st n
  classes : ∀ cls, ¬info.IsFunction cls → st.recoverable cls = true →
    ∀ method ∈ info.constructorMethodsOf cls, info.IsFunction method →
      ¬A method ∧ ∃ fi, st.safety method = some fi ∧ .hardUnsafe ∉ fi.verdict

/-- The names under way, with one more. -/
def under (A : ModuleName → Prop) (func : ModuleName) : ModuleName → Prop :=
  fun n => A n ∨ n = func

theorem recoverable_eq {n : ModuleName} (h : st'.safety n = st.safety n) :
    st'.recoverable n = st.recoverable n := by
  rw [AnalysisState.recoverable, AnalysisState.recoverable, h]

/-- A walk starts: its function had no entry. -/
theorem Settling.push (h : info.Settling A st) (hst : st.safety func = none) :
    info.Settling (under A func) st := by
  have hsteady : Steady A (under A func) st st := by
    intro n fi hA hfi
    refine ⟨?_, hfi⟩
    rintro (hA' | rfl)
    · exact hA hA'
    · rw [hst] at hfi
      cases hfi
  refine ⟨h.nodes, h.settled, fun n hfunc hcls hn => ?_, fun cls hcls hrec method hm hf => ?_⟩
  · rcases h.walked n hfunc hcls hn with hA | hcyc | hsafe | hs
    · exact Or.inl (Or.inl hA)
    · exact Or.inr (Or.inl hcyc)
    · exact Or.inr (Or.inr (Or.inl hsafe))
    · exact Or.inr (Or.inr (Or.inr (Settled.steady hsteady rfl hs)))
  · obtain ⟨hA, fi, hfi, hhard⟩ := h.classes cls hcls hrec method hm hf
    exact ⟨(hsteady method fi hA hfi).1, fi, hfi, hhard⟩

/-- A walk updates its own entry. -/
theorem Settling.own (h : info.Settling A st) (hA : A func) (hfunc : info.IsFunction func)
    (hown : OwnUpdate func st st') : info.Settling A st' := by
  -- the entries of functions that are not under way are as they were
  have hsteady : Steady A A st st' := by
    intro n fi hnA hfi
    refine ⟨hnA, ?_⟩
    rw [hown.other n (fun heq => hnA (heq ▸ hA)), hfi]
  refine ⟨fun n hn => ?_, fun n hnode hset => ?_, fun n hf hcls hn => ?_,
    fun cls hcls hrec method hm hf => ?_⟩
  · by_cases heq : n = func
    · rw [heq]
      exact isNode_of_function hfunc
    · rw [hown.other n heq] at hn
      exact h.nodes n hn
  · have hsome := h.settled n hnode hset
    by_cases heq : n = func
    · obtain ⟨fi, hfi⟩ := Option.isSome_iff_exists.mp hsome
      rw [heq] at hfi ⊢
      obtain ⟨fi', hfi', -⟩ := hown.grows fi hfi
      rw [hfi']
      rfl
    · rw [hown.other n heq]
      exact hsome
  · by_cases heq : n = func
    · rw [heq]
      exact Or.inl hA
    · rw [hown.other n heq] at hn
      rcases h.walked n hf hcls hn with hnA | hcyc | hsafe | hs
      · exact Or.inl hnA
      · exact Or.inr (Or.inl hcyc)
      · exact Or.inr (Or.inr (Or.inl hsafe))
      · exact Or.inr (Or.inr (Or.inr (Settled.steady hsteady (hown.other n heq) hs)))
  · have hne : cls ≠ func := fun heq => hcls (heq ▸ hfunc)
    rw [recoverable_eq (hown.other cls hne)] at hrec
    obtain ⟨hmA, fi, hfi, hhard⟩ := h.classes cls hcls hrec method hm hf
    exact ⟨hmA, fi, (hsteady method fi hmA hfi).2, hhard⟩

/-- A walk ends: its function is settled. -/
theorem Settling.pop (h : info.Settling (under A func) st)
    (hs : info.IsFunction func → hasKey info.classes func = false → (st.safety func).isSome →
      info.Settled (under A func) st func) : info.Settling A st := by
  have hsteady : Steady (under A func) A st st := fun n fi hA hfi =>
    ⟨fun hA' => hA (Or.inl hA'), hfi⟩
  refine ⟨h.nodes, h.settled, fun n hfunc hcls hn => ?_, fun cls hcls hrec method hm hf => ?_⟩
  · rcases h.walked n hfunc hcls hn with (hA | rfl) | hcyc | hsafe | hset
    · exact Or.inl hA
    · exact Or.inr (Or.inr (Or.inr (Settled.steady hsteady rfl (hs hfunc hcls hn))))
    · exact Or.inr (Or.inl hcyc)
    · exact Or.inr (Or.inr (Or.inl hsafe))
    · exact Or.inr (Or.inr (Or.inr (Settled.steady hsteady rfl hset)))
  · obtain ⟨hA, fi, hfi, hhard⟩ := h.classes cls hcls hrec method hm hf
    exact ⟨(hsteady method fi hA hfi).1, fi, hfi, hhard⟩

/-! ## Names under way are not met again -/

/-- Call edges lead from every name under way to the given one, and none is in a cycle. -/
def LeadsTo (info : ProjectInfo) (A : ModuleName → Prop) (c : ModuleName) : Prop :=
  ∀ a, A a → info.inCycle a = false ∧ TransGen info.CallEdge a c

theorem LeadsTo.not_under {c : ModuleName} (h : info.LeadsTo A c) : ¬A c := by
  intro hA
  obtain ⟨hcyc, hwalk⟩ := h c hA
  rw [inCycle_of_transGen hwalk] at hcyc
  cases hcyc

theorem LeadsTo.under {c : ModuleName} (h : info.LeadsTo A func)
    (hcyc : info.inCycle func = false) (hwalk : TransGen info.CallEdge func c) :
    info.LeadsTo (under A func) c := by
  rintro a (hA | rfl)
  · obtain ⟨hacyc, ha⟩ := h a hA
    exact ⟨hacyc, ha.trans hwalk⟩
  · exact ⟨hcyc, hwalk⟩

theorem Settling.callable {n : ModuleName} (h : info.Settling A st)
    (hn : (st.safety n).isSome) : info.containsCallable n = true :=
  containsCallable_of_isNode (h.nodes n hn)

/-- A call that fails ran the callee its name is dispatched to. -/
theorem dispatchedName_mem (hkind : eff.kind ≠ .classCreation)
    (hne : info.dispatchCallees eff ≠ []) :
    info.dispatchedName eff ∈ info.dispatchCallees eff := by
  unfold dispatchCallees at hne ⊢
  unfold dispatchedName
  split
  · next h => exact absurd h hkind
  · next h =>
    rw [h] at hne
    cases habove : info.resolveDispatchAbove eff.name with
    | none =>
      rw [habove] at hne
      exact absurd rfl hne
    | some target => exact List.mem_singleton.mpr rfl
  · exact List.mem_singleton.mpr rfl

/-- The context of a walk over the body of a function. -/
structure WalkContext (info : ProjectInfo) (A : ModuleName → Prop) (fuel : Nat) (call : Call)
    (callModule : ModuleName) : Prop where
  fueled : Fueled info (fuel + 1) call
  scope : call.isModuleScope = false
  module_eq : info.functions.get? call.func = some callModule
  acyclic : info.inCycle call.func = false
  leads : info.LeadsTo A call.func

/-- What the bodies run with the given fuel do to a precompute under way. -/
def SettlingBody (info : ProjectInfo) (fuel : Nat) : Prop :=
  ∀ (A : ModuleName → Prop) (call : Call) (st : AnalysisState), Fueled info fuel call →
    call.isModuleScope = false → (info.IsFunction call.func → info.LeadsTo A call.func) →
    info.Settling A st →
    info.Settling A (info.checkCallBody fuel call st).2 ∧
      ∀ n, A n → (info.checkCallBody fuel call st).2.safety n = st.safety n

section Walk

variable {fuel : Nat} {call : Call} {callModule : ModuleName}

theorem WalkContext.isFunction (hctx : info.WalkContext A fuel call callModule) :
    info.IsFunction call.func :=
  hasKey_of_get? hctx.module_eq

/-- A name with an entry that the effect dispatches to is not under way. -/
theorem WalkContext.not_under_dispatched (hctx : info.WalkContext A fuel call callModule)
    (heff : eff ∈ info.runnableEffects call.func) {callee : ModuleName}
    (hmem : callee ∈ info.dispatchCallees eff) (hnode : info.isNode callee = true) :
    ¬under A call.func callee :=
  (hctx.leads.under hctx.acyclic (TransGen.single (callEdge_of_target hctx.isFunction heff
    (mem_edgeTargets_of_dispatch hmem (containsCallable_of_isNode hnode)) hnode))).not_under

/-- The call of an effect keeps the invariant, and leaves clean bodies if it passes. -/
theorem settling_checkCallSafety (ih : info.SettlingBody fuel)
    (hctx : info.WalkContext A fuel call callModule)
    (heff : eff ∈ info.runnableEffects call.func) (hstack : eff.name ∉ call.stack)
    (h : info.Settling (under A call.func) st) {b : Bool}
    (hrun : info.checkCallSafety (info.checkCallBody fuel) false
      (childCall call callModule eff) st = (.ok b, st')) :
    info.Settling (under A call.func) st' ∧
      (∀ n, under A call.func n → st'.safety n = st.safety n) ∧
      (b = true → info.CalleesClean (under A call.func) st' eff) := by
  have hfuel : Fueled info fuel (childCall call callModule eff) :=
    hctx.fueled.child (mem_effectNames (mem_runnableEffects.mp heff).1) hstack callModule
  have hscope : (childCall call callModule eff).isModuleScope = false := hctx.scope
  -- the invariant of the calls, and what each of them says about its own function
  let I : AnalysisState → Prop := fun s =>
    info.Settling (under A call.func) s ∧
      ∀ n, under A call.func n → s.safety n = st.safety n
  let Q : ModuleName → Bool → AnalysisState → Prop := fun c b s =>
    info.IsFunction c → ¬under A call.func c ∧
      ∃ fi, s.safety c = some fi ∧ (b = true → Clean fi)
  have hleads : ∀ callee ∈ info.dispatchCallees eff, info.ResolvesIn I callee →
      ∀ call' ∈ info.spawnedCalls { childCall call callModule eff with func := callee },
        info.IsFunction call'.func → info.LeadsTo (under A call.func) call'.func := by
    intro callee hcallee ⟨s, hs, hres⟩ call' hcall' hfunc
    have hcallable : info.containsCallable callee = true := by
      rcases Bool.or_eq_true_iff.mp hres with hcall | hsome
      · exact hcall
      · exact hs.1.callable hsome
    exact hctx.leads.under hctx.acyclic (transGen_of_runs hctx.isFunction heff hcallee hcallable
      (mem_spawnedCalls hcall').2 hfunc)
  have hbody : ∀ callee ∈ info.dispatchCallees eff, info.ResolvesIn I callee →
      declaredSafe callee = false →
      ∀ call' ∈ info.spawnedCalls { childCall call callModule eff with func := callee },
        ∀ s, I s → I (info.checkCallBody fuel call' s).2 := by
    intro callee hcallee hres _ call' hcall' s hs
    have hspawned := (mem_spawnedCalls hcall').1
    obtain ⟨h1, h2⟩ := ih _ call' s (hfuel.of_stack hspawned.stack)
      (hspawned.isModuleScope.trans hscope) (hleads callee hcallee hres call' hcall') hs.1
    exact ⟨h1, fun n hn => (h2 n hn).trans (hs.2 n hn)⟩
  have hI : I st' := by
    have hinv : I (info.checkCallSafety (info.checkCallBody fuel) false
        (childCall call callModule eff) st).2 :=
      checkCallSafety_inv hbody ⟨h, fun _ _ => rfl⟩
    rwa [hrun] at hinv
  refine ⟨hI.1, hI.2, fun hb callee hcallee hcall hsafe c hc hfunc => ?_⟩
  have hall := checkCallSafety_forall (I := I) (Q := Q) hbody ?_ ?_ ⟨h, fun _ _ => rfl⟩ hrun
  · obtain ⟨b', hq, hb'⟩ := hall callee hcallee hcall hsafe c hc
    obtain ⟨hA, fi, hfi, hclean⟩ := hq hfunc
    exact ⟨hA, fi, hfi, hclean (hb' hb)⟩
  · intro callee hcallee hres hsafe call' hcall' s b s' hs hr hfunc
    refine ⟨(hleads callee hcallee hres call' hcall' hfunc).not_under, ?_⟩
    obtain ⟨fi, hfi⟩ := Option.isSome_iff_exists.mp (isSome_checkCallBody hfunc hr)
    refine ⟨fi, hfi, ?_⟩
    rintro rfl
    obtain ⟨fi', hfi', hclean⟩ := clean_of_checkCallBody hfunc hr
    rw [hfi] at hfi'
    cases hfi'
    exact hclean
  · intro callee hcallee hres hsafe call' hcall' s hs n b' hq hfunc
    obtain ⟨hA, fi, hfi, hclean⟩ := hq hfunc
    exact ⟨hA, fi, (frame_checkCallBody info fuel call' s).kept n fi id hfi, hclean⟩

end Walk

/-! ## The record of a walked body -/

theorem justified_new_hard : info.Justified A st func (.new {.hardUnsafe}) where
  waits name hname := absurd hname (Finset.notMem_empty name)
  nonempty h := by
    rw [FunctionSafetyInfo.new, Finset.mem_singleton] at h
    cases h

theorem justified_new_empty : info.Justified A st func (.new ∅) where
  waits name hname := absurd hname (Finset.notMem_empty name)
  nonempty h := absurd h (Finset.notMem_empty _)

theorem justified_new_imported : info.Justified A st func (.new {.unsafeIfImported}) where
  waits name hname := absurd hname (Finset.notMem_empty name)
  nonempty h := by
    rw [FunctionSafetyInfo.new, Finset.mem_singleton] at h
    cases h

theorem justified_missingDep {name : ModuleName} (hw : info.Waits A st func name) :
    info.Justified A st func (.unsafeMissingDep name) where
  waits n hn := by
    rw [FunctionSafetyInfo.unsafeMissingDep, Finset.mem_singleton] at hn
    rwa [hn]
  nonempty _ := Finset.singleton_ne_empty name

theorem Justified.addMissingDep {name : ModuleName} {fi : FunctionSafetyInfo}
    (hj : info.Justified A st func fi) (hw : info.Waits A st func name) :
    info.Justified A st func (AnalysisState.addMissingDep name fi) where
  waits n hn := by
    rcases Finset.mem_insert.mp hn with rfl | hn
    · exact hw
    · exact hj.waits n hn
  nonempty _ := Finset.insert_ne_empty name fi.missingDepCallees

theorem Justified.addIfImported {fi : FunctionSafetyInfo} (hj : info.Justified A st func fi) :
    info.Justified A st func (AnalysisState.addIfImported fi) where
  waits := hj.waits
  nonempty h := by
    rcases Finset.mem_insert.mp h with heq | h
    · cases heq
    · exact hj.nonempty h

/-- The state in the middle of a walk: nothing has touched the names under way before. -/
structure Walking (info : ProjectInfo) (A : ModuleName → Prop) (func : ModuleName)
    (st₀ st : AnalysisState) : Prop where
  settling : info.Settling (under A func) st
  justified : ∀ fi, st.safety func = some fi → info.Justified (under A func) st func fi
  untouched : ∀ n, A n → st.safety n = st₀.safety n

theorem steady_of_ownUpdate (hA : A func) (hown : OwnUpdate func st st') : Steady A A st st' := by
  intro n fi hn hfi
  refine ⟨hn, ?_⟩
  rw [hown.other n (fun heq => hn (heq ▸ hA)), hfi]

section Walk

variable {fuel : Nat} {call : Call} {callModule : ModuleName} {st₀ : AnalysisState}

/-- An update of the own entry keeps a walk's invariant if the new record is justified. -/
theorem Walking.own (h : info.Walking A func st₀ st) (hA : ¬A func)
    (hfunc : info.IsFunction func) (hown : OwnUpdate func st st')
    (hj : ∀ fi, st'.safety func = some fi → info.Justified (under A func) st func fi) :
    info.Walking A func st₀ st' where
  settling := h.settling.own (Or.inr rfl) hfunc hown
  justified fi hfi :=
    Justified.steady (steady_of_ownUpdate (Or.inr rfl) hown) (hj fi hfi)
  untouched n hn := by
    rw [hown.other n (fun heq => hA (heq ▸ hn)), h.untouched n hn]

theorem Walking.read {name : ModuleName} (h : info.Walking A func st₀ st) (hA : ¬A func)
    (hfunc : info.IsFunction func) : info.Walking A func st₀ (st.read name) :=
  h.own hA hfunc .read h.justified

theorem Walking.markUnsafe (h : info.Walking A func st₀ st) (hA : ¬A func)
    (hfunc : info.IsFunction func) : info.Walking A func st₀ (st.markUnsafe func) := by
  refine h.own hA hfunc .markUnsafe fun fi hfi => ?_
  rw [AnalysisState.safety_markUnsafe, if_pos rfl] at hfi
  cases hfi
  exact justified_new_hard

theorem Walking.markUnsafeMissingDep {name : ModuleName} (h : info.Walking A func st₀ st)
    (hA : ¬A func) (hfunc : info.IsFunction func)
    (hw : info.Waits (under A func) st func name) :
    info.Walking A func st₀ (st.markUnsafeMissingDep func name) := by
  refine h.own hA hfunc .markUnsafeMissingDep fun fi hfi => ?_
  rw [AnalysisState.safety_markUnsafeMissingDep, if_pos rfl] at hfi
  cases hst : st.safety func with
  | none =>
    rw [hst] at hfi
    cases hfi
    exact justified_missingDep hw
  | some fi₀ =>
    rw [hst] at hfi
    cases hfi
    exact (h.justified fi₀ hst).addMissingDep hw

theorem Walking.markUnsafeIfImported (h : info.Walking A func st₀ st) (hA : ¬A func)
    (hfunc : info.IsFunction func) :
    info.Walking A func st₀ (st.markUnsafeIfImported func) := by
  refine h.own hA hfunc .markUnsafeIfImported fun fi hfi => ?_
  rw [AnalysisState.safety_markUnsafeIfImported, if_pos rfl] at hfi
  cases hst : st.safety func with
  | none =>
    rw [hst] at hfi
    cases hfi
    exact justified_new_imported
  | some fi₀ =>
    rw [hst] at hfi
    cases hfi
    exact (h.justified fi₀ hst).addIfImported

theorem Walking.deferMutations (h : info.Walking A func st₀ st) (hA : ¬A func)
    (hfunc : info.IsFunction func) (heff : eff ∈ info.runnableEffects func) :
    info.Walking A func st₀ (info.deferMutations func eff st) := by
  have hfold : ∀ callees : List ModuleName,
      (∀ callee ∈ callees, callee ∈ info.deferredCallees eff) → ∀ s,
        info.Walking A func st₀ s → info.Walking A func st₀
          (callees.foldl (fun s callee => s.markUnsafeMissingDep func callee) s) := by
    intro callees
    induction callees with
    | nil => exact fun _ s hs => hs
    | cons callee callees ih =>
      intro hmem s hs
      refine ih (fun c hc => hmem c (List.mem_cons_of_mem callee hc)) _ ?_
      exact hs.markUnsafeMissingDep hA hfunc
        ⟨eff, heff, Or.inl (hmem callee List.mem_cons_self)⟩
  exact hfold _ (fun _ hc => hc) st h

theorem Walking.checkArgs (h : info.Walking A call.func st₀ st) (hA : ¬A call.func)
    (hfunc : info.IsFunction call.func) (heff : eff ∈ info.runnableEffects call.func) :
    info.Walking A call.func st₀ (info.checkArgs call eff st).2 := by
  unfold ProjectInfo.checkArgs
  split
  · exact h.markUnsafe hA hfunc
  · split
    · exact h.deferMutations hA hfunc heff
    · exact h

theorem isUnsafe_iff {n : ModuleName} :
    st.isUnsafe n = true ↔ ∃ fi, st.safety n = some fi ∧ Concern.hardUnsafe ∈ fi.verdict := by
  unfold AnalysisState.isUnsafe
  cases st.safety n with
  | none => simp
  | some fi => simp

theorem flagged_of_isUnsafe (h : st.isUnsafe func = true) : info.Flagged A st func eff := by
  obtain ⟨fi, hfi, hhard⟩ := isUnsafe_iff.mp h
  exact ⟨fi, hfi, Or.inl hhard⟩

theorem flagged_markUnsafe : info.Flagged A (st.markUnsafe func) func eff := by
  refine ⟨.new {.hardUnsafe}, ?_, Or.inl (Finset.mem_singleton_self _)⟩
  rw [AnalysisState.safety_markUnsafe, if_pos rfl]

theorem flagged_markUnsafeMissingDep (hA : A func) (hawait : info.Awaitable A st eff) :
    info.Flagged A (st.markUnsafeMissingDep func (info.dispatchedName eff)) func eff := by
  have hsteady : Steady A A st (st.markUnsafeMissingDep func (info.dispatchedName eff)) :=
    steady_of_ownUpdate hA .markUnsafeMissingDep
  refine ⟨(st.safety func).elim (.unsafeMissingDep (info.dispatchedName eff))
    (AnalysisState.addMissingDep (info.dispatchedName eff)), ?_, Or.inr ⟨?_, ?_, ?_⟩⟩
  · rw [AnalysisState.safety_markUnsafeMissingDep, if_pos rfl]
  · cases st.safety func with
    | none => exact Finset.mem_singleton_self _
    | some fi => exact Finset.mem_insert_self _ _
  · cases st.safety func with
    | none => exact Finset.mem_singleton_self _
    | some fi => exact Finset.mem_insert_self _ _
  · exact Awaitable.steady hsteady hawait

/-- A failed call flags its caller. The name waited on is recoverable, or no callable. -/
theorem Walking.markCaller (h : info.Walking A func st₀ st) (hA : ¬A func)
    (hfunc : info.IsFunction func) (heff : eff ∈ info.runnableEffects func)
    (hname : eff.kind = .classCreation ∨ (st.recoverable (info.dispatchedName eff) = true →
      ¬under A func (info.dispatchedName eff))) :
    info.Walking A func st₀
        (info.markCallerUnsafeForFailedCallee func (info.dispatchedName eff) st) ∧
      info.Flagged (under A func)
        (info.markCallerUnsafeForFailedCallee func (info.dispatchedName eff) st) func eff := by
  have hread : info.Walking A func st₀ (st.read (info.dispatchedName eff)) := h.read hA hfunc
  unfold markCallerUnsafeForFailedCallee
  dsimp only
  generalize hs : st.read (info.dispatchedName eff) = s at hread
  have hrec : s.recoverable (info.dispatchedName eff) =
      st.recoverable (info.dispatchedName eff) := by
    rw [← hs]
    rfl
  -- the two branches that wait on the name differ in why they may
  have hwait : info.Awaitable (under A func) s eff →
      info.Walking A func st₀ (if (!s.isUnsafe func) = true then
          s.markUnsafeMissingDep func (info.dispatchedName eff) else s) ∧
        info.Flagged (under A func) (if (!s.isUnsafe func) = true then
          s.markUnsafeMissingDep func (info.dispatchedName eff) else s) func eff := by
    intro hawait
    split
    · exact ⟨hread.markUnsafeMissingDep hA hfunc ⟨eff, heff, Or.inr ⟨rfl, hawait⟩⟩,
        flagged_markUnsafeMissingDep (Or.inr rfl) hawait⟩
    · next hhard => exact ⟨hread, flagged_of_isUnsafe (by simpa using hhard)⟩
  split
  · next hyes =>
    refine hwait ?_
    rcases hname with hkind | hname
    · exact Or.inl hkind
    · exact Or.inr (Or.inl ⟨hname (hrec ▸ hyes), hyes⟩)
  · split
    · exact ⟨hread.markUnsafe hA hfunc, flagged_markUnsafe⟩
    · next hres =>
      refine hwait (Or.inr (Or.inr ?_))
      rw [canResolveCall, Bool.or_eq_true_iff, not_or] at hres
      exact Bool.eq_false_iff.mpr hres.1

theorem concerned_markUnsafeIfImported : ∃ own,
    (st.markUnsafeIfImported func).safety func = some own ∧
      .unsafeIfImported ∈ own.verdict := by
  rw [AnalysisState.safety_markUnsafeIfImported, if_pos rfl]
  refine ⟨_, rfl, ?_⟩
  cases st.safety func with
  | none => exact Finset.mem_singleton_self _
  | some fi => exact Finset.mem_insert_self _ _

/-- The branch that runs a call keeps the walk's invariant and settles the effect. -/
theorem Walking.runCall (ih : info.SettlingBody fuel)
    (hctx : info.WalkContext A fuel call callModule)
    (heff : eff ∈ info.runnableEffects call.func) (hstack : eff.name ∉ call.stack)
    (h : info.Walking A call.func st₀ st) {crossModule b : Bool}
    (hrun : info.runCall (info.checkCallBody fuel) call callModule crossModule eff st =
      (.ok b, st')) :
    info.Walking A call.func st₀ st' ∧
      info.CallSettled (under A call.func) st' call.func eff := by
  have hA : ¬A call.func := hctx.leads.not_under
  have hfunc := hctx.isFunction
  unfold ProjectInfo.runCall at hrun
  rcases hsafe : info.checkCallSafety (info.checkCallBody fuel) false
      (childCall call callModule eff) st with ⟨e | b', t⟩
  · rw [hsafe] at hrun
    cases hrun
  · obtain ⟨hset, huntouched, hclean⟩ :=
      settling_checkCallSafety ih hctx heff hstack h.settling hsafe
    -- the call has left the own record alone, so it is still justified
    have hsteady : Steady (under A call.func) (under A call.func) st t := by
      intro n fi hn hfi
      have hkept := (frame_call info fuel (childCall call callModule eff) st).kept n fi id hfi
      rw [hsafe] at hkept
      exact ⟨hn, hkept⟩
    have hwalk : info.Walking A call.func st₀ t := by
      refine ⟨hset, fun fi hfi => ?_, fun n hn => ?_⟩
      · rw [huntouched call.func (Or.inr rfl)] at hfi
        exact Justified.steady hsteady (h.justified fi hfi)
      · rw [huntouched n (Or.inl hn), h.untouched n hn]
    rw [hsafe] at hrun
    cases b' with
    | false =>
      obtain rfl := (Prod.mk.inj hrun).2
      obtain ⟨h1, h2⟩ := hwalk.markCaller hA hfunc heff (by
        by_cases hkind : eff.kind = .classCreation
        · exact Or.inl hkind
        · refine Or.inr fun hrec => hctx.not_under_dispatched heff ?_ (hset.nodes _ ?_)
          · refine dispatchedName_mem hkind fun hnil => ?_
            rw [checkCallSafety, show (childCall call callModule eff).effect = eff from rfl,
              hnil] at hsafe
            cases hsafe
          · unfold AnalysisState.recoverable at hrec
            cases hfi : t.safety (info.dispatchedName eff) with
            | none =>
              rw [hfi] at hrec
              cases hrec
            | some fi => rfl)
      exact ⟨h1, Or.inr h2⟩
    | true =>
      dsimp only at hrun
      have hcallees := hclean rfl
      -- a callee run under its own name has an entry by now
      have hentry : ∀ callee ∈ info.dispatchCallees eff, hasKey info.classes callee = false →
          info.IsFunction callee → ¬under A call.func callee ∧ ∃ fi, t.safety callee = some fi := by
        intro callee hcallee hcls hcf
        have hnode := isNode_of_function hcf
        refine ⟨hctx.not_under_dispatched heff hcallee hnode, ?_⟩
        by_cases hds : declaredSafe callee = true
        · exact Option.isSome_iff_exists.mp (hset.settled callee hnode (Or.inr hds))
        · have hmem : callee ∈ info.runNames eff callee := by
            unfold runNames
            rw [if_neg (by rw [hcls]; exact Bool.false_ne_true)]
            exact List.mem_append_left _ (List.mem_singleton.mpr rfl)
          obtain ⟨-, fi, hfi, -⟩ := hcallees callee hcallee (containsCallable_of_isNode hnode)
            (Bool.eq_false_iff.mpr hds) callee hmem hcf
          exact ⟨fi, hfi⟩
      split at hrun
      · obtain rfl := (Prod.mk.inj hrun).2
        have hown : OwnUpdate call.func t
            ((t.read (info.dispatchedName eff)).markUnsafeIfImported call.func) :=
          OwnUpdate.trans .read .markUnsafeIfImported
        have hst := steady_of_ownUpdate (A := under A call.func) (Or.inr rfl) hown
        refine ⟨(hwalk.read hA hfunc).markUnsafeIfImported hA hfunc,
          Or.inl ⟨CalleesClean.steady hst hcallees, ?_⟩⟩
        intro callee hcallee _ hcls hcf _
        obtain ⟨hnot, fi, hfi⟩ := hentry callee hcallee hcls hcf
        obtain ⟨-, hfi'⟩ := hst callee fi hnot hfi
        exact ⟨hnot, fi, hfi', fun _ => concerned_markUnsafeIfImported⟩
      · next hnot =>
        obtain rfl := (Prod.mk.inj hrun).2
        have hst : Steady (under A call.func) (under A call.func) t
            (t.read (info.dispatchedName eff)) := fun n fi hn hfi => ⟨hn, hfi⟩
        refine ⟨hwalk.read hA hfunc, Or.inl ⟨CalleesClean.steady hst hcallees, ?_⟩⟩
        rintro callee hcallee rfl hcls hcf hmod
        obtain ⟨hnu, fi, hfi⟩ := hentry _ hcallee hcls hcf
        refine ⟨hnu, fi, hfi, fun himp => absurd ?_ hnot⟩
        rw [hmod, hctx.module_eq, AnalysisState.safety_read, hfi]
        simpa using himp

theorem effectSettled_of_markUnsafe :
    info.EffectSettled A (st.markUnsafe func) func eff where
  call _ := Or.inr flagged_markUnsafe
  global _ := by
    obtain ⟨fi, hfi, hhard | ⟨-, hmem, -⟩⟩ : info.Flagged A (st.markUnsafe func) func eff :=
      flagged_markUnsafe
    · exact ⟨fi, hfi, Or.inl hhard⟩
    · rw [AnalysisState.safety_markUnsafe, if_pos rfl] at hfi
      cases hfi
      exact absurd hmem (Finset.notMem_empty _)

/-- One effect of a walk: it keeps the invariant and is settled. -/
theorem Walking.runEffect (ih : info.SettlingBody fuel)
    (hctx : info.WalkContext A fuel call callModule) (heff : eff ∈ info.effectsOf call.func)
    (h : info.Walking A call.func st₀ st) {crossModule b : Bool}
    (hrun : info.runEffect (info.checkCallBody fuel) call callModule crossModule eff st =
      (.ok b, st')) :
    info.Walking A call.func st₀ st' ∧
      info.EffectSettled (under A call.func) st' call.func eff := by
  have hA : ¬A call.func := hctx.leads.not_under
  have hfunc := hctx.isFunction
  unfold ProjectInfo.runEffect at hrun
  split at hrun
  · obtain rfl := (Prod.mk.inj hrun).2
    exact ⟨h.markUnsafe hA hfunc, effectSettled_of_markUnsafe⟩
  · split at hrun
    · next hrunnable =>
      have hmem : eff ∈ info.runnableEffects call.func :=
        mem_runnableEffects.mpr ⟨heff, hrunnable⟩
      have hargs := h.checkArgs hA hfunc hmem
      dsimp only at hrun
      split at hrun
      · obtain rfl := (Prod.mk.inj hrun).2
        exact ⟨hargs.markUnsafe hA hfunc, effectSettled_of_markUnsafe⟩
      · next hstack =>
        rcases hcall : info.runCall (info.checkCallBody fuel) call callModule crossModule eff
          (info.checkArgs call eff st).2 with ⟨e | b', t⟩
        · rw [hcall] at hrun
          cases hrun
        · rw [hcall] at hrun
          obtain rfl := (Prod.mk.inj hrun).2
          obtain ⟨h1, h2⟩ := hargs.runCall ih hctx hmem (by simpa using hstack) hcall
          refine ⟨h1, fun _ => h2, fun hkind => ?_⟩
          -- a call is no assignment
          rcases hkind with hkind | hkind <;> rw [hkind] at hrunnable <;> cases hrunnable
    · next hrunnable =>
      have hcall : eff.kind.isRunnable = true →
          info.CallSettled (under A call.func) st' call.func eff :=
        fun hyes => absurd hyes hrunnable
      have himported : (st.markUnsafeIfImported call.func).Concerned call.func := by
        obtain ⟨own, hown, hmem⟩ : ∃ own, (st.markUnsafeIfImported call.func).safety call.func =
            some own ∧ .unsafeIfImported ∈ own.verdict := concerned_markUnsafeIfImported
        exact ⟨own, hown, Or.inr hmem⟩
      split at hrun
      · obtain rfl := (Prod.mk.inj hrun).2
        exact ⟨h.markUnsafe hA hfunc, effectSettled_of_markUnsafe⟩
      · obtain rfl := (Prod.mk.inj hrun).2
        exact ⟨h.markUnsafeIfImported hA hfunc, hcall, fun _ => himported⟩
      · obtain rfl := (Prod.mk.inj hrun).2
        exact ⟨h.markUnsafeIfImported hA hfunc, hcall, fun _ => himported⟩
      · next hassign hmutation =>
        obtain rfl := (Prod.mk.inj hrun).2
        refine ⟨h, hcall, fun hkind => ?_⟩
        rcases hkind with hkind | hkind
        · exact absurd hkind hassign
        · exact absurd hkind hmutation

/-- An effect leaves the entries of other functions alone, and the own record grows. -/
theorem steady_runEffect (fuel : Nat) (call : Call) (callModule : ModuleName)
    (crossModule : Bool) (eff : Effect) (st : AnalysisState) (hA : A call.func) :
    Steady A A st
        (info.runEffect (info.checkCallBody fuel) call callModule crossModule eff st).2 ∧
      OwnGrows call.func st
        (info.runEffect (info.checkCallBody fuel) call callModule crossModule eff st).2 := by
  refine runEffect_inv (I := fun s => Steady A A st s ∧ OwnGrows call.func st s)
    (fun s s' hs hown _ => ⟨fun n fi hn hfi => ?_, fun fi hfi => ?_⟩)
    (fun _ _ s hs => ⟨fun n fi hn hfi => ?_, fun fi hfi => ?_⟩)
    ⟨fun n fi hn hfi => ⟨hn, hfi⟩, fun fi hfi => ⟨fi, hfi, .refl fi⟩⟩
  · exact steady_of_ownUpdate hA hown n fi hn (hs.1 n fi hn hfi).2
  · obtain ⟨fi', hfi', hg⟩ := hs.2 fi hfi
    obtain ⟨fi'', hfi'', hg'⟩ := hown.grows fi' hfi'
    exact ⟨fi'', hfi'', hg.trans hg'⟩
  · exact ⟨hn, (frame_call info fuel _ s).kept n fi id (hs.1 n fi hn hfi).2⟩
  · obtain ⟨fi', hfi', hg⟩ := hs.2 fi hfi
    exact ⟨fi', (frame_call info fuel _ s).kept call.func fi' id hfi', hg⟩

end Walk

/-- The invariant only looks at the entries. -/
theorem Settling.congr (h : info.Settling A st) (heq : ∀ n, st'.safety n = st.safety n) :
    info.Settling A st' where
  nodes n hn := h.nodes n (by rwa [heq n] at hn)
  settled n hnode hset := by
    rw [heq n]
    exact h.settled n hnode hset
  walked n hfunc hcls hn := by
    have hsteady : Steady A A st st' := fun m fi hm hfi => ⟨hm, by rw [heq m, hfi]⟩
    rw [heq n] at hn
    exact (h.walked n hfunc hcls hn).imp_right
      (Or.imp_right (Or.imp_right (Settled.steady hsteady (heq n))))
  classes cls hcls hrec method hm hf := by
    rw [recoverable_eq (heq cls)] at hrec
    obtain ⟨hA, fi, hfi, hhard⟩ := h.classes cls hcls hrec method hm hf
    exact ⟨hA, fi, by rw [heq method, hfi], hhard⟩

/-- The walk over a body keeps the invariant, and touches no name under way. -/
theorem settling_checkCallBody (info : ProjectInfo) (fuel : Nat) : info.SettlingBody fuel := by
  induction fuel with
  | zero => exact fun _ _ _ hfuel _ _ _ => absurd hfuel.pos (Nat.lt_irrefl 0)
  | succ fuel ih =>
    intro A call st hfuel hscope hleads h
    cases hfunc : info.functions.get? call.func with
    | none =>
      rw [checkCallBody_of_no_function hfunc]
      exact ⟨h, fun _ _ => rfl⟩
    | some callModule =>
      have hkey : info.IsFunction call.func := hasKey_of_get? hfunc
      have hA : ¬A call.func := (hleads hkey).not_under
      cases hst : st.safety call.func with
      | some fi =>
        -- a recorded verdict answers: nothing but the log changes
        rw [checkCallBody_of_recorded hfunc hst]
        exact ⟨h.congr (safety_enterBody call st), fun n _ => safety_enterBody call st n⟩
      | none =>
        have hctx : info.WalkContext A fuel call callModule := by
          refine ⟨hfuel, hscope, hfunc, Bool.eq_false_iff.mpr fun hcyc => ?_, hleads hkey⟩
          have hsome := h.settled call.func (isNode_of_function hkey) (Or.inl hcyc)
          rw [hst] at hsome
          cases hsome
        have hstart : info.Walking A call.func st (info.enterBody call st) := by
          refine ⟨(h.push hst).congr (safety_enterBody call st), fun fi hfi => ?_,
            fun n _ => safety_enterBody call st n⟩
          rw [safety_enterBody, hst] at hfi
          cases hfi
        have htotal : ∀ eff ∈ info.effectsOf call.func, ∀ s, ∃ b s',
            info.runEffect (info.checkCallBody fuel) call callModule (crosses call callModule)
              eff s = (.ok b, s') := fun eff heff s =>
          runEffect_total (fun _ hcall' u => checkCallBody_total hcall' u) hfuel heff s
        obtain ⟨b, s, hloop, -⟩ := checkAll_ok (I := fun _ => True)
          (fun eff heff s _ => by
            obtain ⟨b, s', hr⟩ := htotal eff heff s
            exact ⟨b, s', hr, trivial⟩) (s := info.enterBody call st) trivial
        have hall := checkAll_forall
          (I := info.Walking A call.func st)
          (Q := fun eff _ s => info.EffectSettled (under A call.func) s call.func eff)
          (fun eff heff s hs => by
            obtain ⟨b, s', hr⟩ := htotal eff heff s
            rw [hr]
            exact (hs.runEffect ih hctx heff hr).1)
          (fun eff heff s b s' hs hr => (hs.runEffect ih hctx heff hr).2)
          (fun eff heff eff' _ s _ hs hq => by
            have hunder : under A call.func call.func := Or.inr rfl
            obtain ⟨h1, h2⟩ := steady_runEffect fuel call callModule (crosses call callModule)
              eff' s hunder
            exact EffectSettled.steady h1 h2 hq)
          hstart hloop
        obtain ⟨hwalk, heffects⟩ := hall
        rw [checkCallBody_walk hfunc hst, hloop]
        have hleave : OwnUpdate call.func s (leaveBody call.func (.ok b, s)).2 :=
          ownUpdate_leaveBody call.func (.ok b, s)
        have hend : info.Walking A call.func st (leaveBody call.func (.ok b, s)).2 := by
          refine hwalk.own hA hkey hleave fun fi hfi => ?_
          unfold leaveBody at hfi
          dsimp only at hfi
          split at hfi
          · rw [AnalysisState.safety_markSafe, if_pos rfl] at hfi
            cases hfi
            exact justified_new_empty
          · exact hwalk.justified fi hfi
        have hsteady : Steady (under A call.func) (under A call.func) s _ :=
          steady_of_ownUpdate (Or.inr rfl) hleave
        refine ⟨hend.settling.pop fun _ _ _ => ⟨fun eff heff => ?_, hend.justified⟩,
          hend.untouched⟩
        obtain ⟨_, hq, -⟩ := heffects eff heff
        exact EffectSettled.steady hsteady hleave.grows hq

/-! ## The run -/

/-- No walk is under way. -/
def idle : ModuleName → Prop := fun _ => False

theorem settling_settledState (info : ProjectInfo) : info.Settling idle info.settledState := by
  -- only cycles and declared names have entries before the levels run
  have hshape : ∀ n fi, info.settledState.safety n = some fi →
      info.isNode n = true ∧ (info.inCycle n = true ∨ declaredSafe n = true) ∧
        Concern.unsafeMissingDep ∉ fi.verdict := by
    intro n fi hfi
    rw [safety_settledState] at hfi
    split at hfi
    · next hsafe =>
      cases hfi
      exact ⟨hsafe.1, Or.inr hsafe.2, Finset.notMem_empty _⟩
    · split at hfi
      · next hcyc =>
        cases hfi
        refine ⟨hcyc.1, Or.inl hcyc.2, ?_⟩
        rw [FunctionSafetyInfo.new, Finset.mem_singleton]
        intro h
        cases h
      · cases hfi
  refine ⟨fun n hn => ?_, fun n hnode hset => ?_, fun n _ _ hn => ?_, fun cls _ hrec => ?_⟩
  · obtain ⟨fi, hfi⟩ := Option.isSome_iff_exists.mp hn
    exact (hshape n fi hfi).1
  · rw [safety_settledState]
    split
    · rfl
    · next hnot =>
      rcases hset with hcyc | hsafe
      · rw [if_pos ⟨hnode, hcyc⟩]
        rfl
      · exact absurd ⟨hnode, hsafe⟩ hnot
  · obtain ⟨fi, hfi⟩ := Option.isSome_iff_exists.mp hn
    rcases (hshape n fi hfi).2.1 with hcyc | hsafe
    · exact Or.inr (Or.inl hcyc)
    · exact Or.inr (Or.inr (Or.inl hsafe))
  · unfold AnalysisState.recoverable at hrec
    cases hfi : info.settledState.safety cls with
    | none =>
      rw [hfi] at hrec
      cases hrec
    | some fi =>
      rw [hfi] at hrec
      exact absurd (by simpa using (Bool.and_eq_true_iff.mp hrec).1) (hshape cls fi hfi).2.2

/-- The evaluation of a class ends: its own entry is written. -/
theorem Settling.record {cls : ModuleName} (h : info.Settling (under A cls) st)
    (hcls : hasKey info.classes cls = true) (hchange : ChangesOnly cls st st')
    (hsome : (st'.safety cls).isSome)
    (hrec : st'.recoverable cls = true → ∀ method ∈ info.constructorMethodsOf cls,
      info.IsFunction method → ¬under A cls method ∧
        ∃ fi, st.safety method = some fi ∧ .hardUnsafe ∉ fi.verdict) :
    info.Settling A st' := by
  have hsteady : Steady (under A cls) A st st' := by
    intro n fi hn hfi
    refine ⟨fun hA => hn (Or.inl hA), ?_⟩
    rw [hchange.other n (fun heq => hn (Or.inr heq)), hfi]
  refine ⟨fun n hn => ?_, fun n hnode hset => ?_, fun n hf hncls hn => ?_,
    fun K hK hKrec method hm hf => ?_⟩
  · by_cases heq : n = cls
    · rw [heq]
      exact isNode_of_class hcls
    · rw [hchange.other n heq] at hn
      exact h.nodes n hn
  · by_cases heq : n = cls
    · rw [heq]
      exact hsome
    · rw [hchange.other n heq]
      exact h.settled n hnode hset
  · have hne : n ≠ cls := by
      rintro rfl
      rw [hcls] at hncls
      cases hncls
    rw [hchange.other n hne] at hn
    rcases h.walked n hf hncls hn with (hA | heq) | hcyc | hsafe | hset
    · exact Or.inl hA
    · exact absurd heq hne
    · exact Or.inr (Or.inl hcyc)
    · exact Or.inr (Or.inr (Or.inl hsafe))
    · exact Or.inr (Or.inr (Or.inr (Settled.steady hsteady (hchange.other n hne) hset)))
  · -- the own class by what is asked of it, another by what held before
    have hmethod : ¬under A cls method ∧
        ∃ fi, st.safety method = some fi ∧ Concern.hardUnsafe ∉ fi.verdict := by
      by_cases heq : K = cls
      · rw [heq] at hKrec hm
        exact hrec hKrec method hm hf
      · rw [recoverable_eq (hchange.other K heq)] at hKrec
        exact h.classes K hK hKrec method hm hf
    obtain ⟨hA, fi, hfi, hhard⟩ := hmethod
    obtain ⟨hA', hfi'⟩ := hsteady method fi hA hfi
    exact ⟨hA', fi, hfi', hhard⟩

/-- A fold whose steps keep every concern keeps every concern. -/
theorem verdict_subset_foldl {step : FunctionSafetyInfo → ModuleName → FunctionSafetyInfo}
    (hstep : ∀ acc method, acc.verdict ⊆ (step acc method).verdict) (methods : List ModuleName)
    (acc : FunctionSafetyInfo) : acc.verdict ⊆ (methods.foldl step acc).verdict := by
  induction methods generalizing acc with
  | nil => exact Finset.Subset.refl _
  | cons m methods ih => exact Finset.Subset.trans (hstep acc m) (ih _)

/-- A class's fold has every concern of its methods. -/
theorem verdict_subset_combined {cls method : ModuleName} {fi : FunctionSafetyInfo}
    (hm : method ∈ info.constructorMethodsOf cls) (hfi : st.safety method = some fi) :
    fi.verdict ⊆ (info.combinedConstructorVerdict cls st).verdict := by
  unfold combinedConstructorVerdict
  generalize FunctionSafetyInfo.new ∅ = acc
  generalize info.constructorMethodsOf cls = methods at hm ⊢
  induction methods generalizing acc with
  | nil => cases hm
  | cons m methods ih =>
    rw [List.foldl_cons]
    rcases List.mem_cons.mp hm with rfl | hm
    · refine Finset.Subset.trans ?_ (verdict_subset_foldl (fun acc m => ?_) methods _)
      · rw [hfi]
        exact Finset.subset_union_right
      · split
        · exact Finset.Subset.refl _
        · exact Finset.subset_union_left
    · exact ih _ hm

/-- The call that evaluates a class. -/
def constructorCall (cls : ModuleName) : Call where
  callerModule := cls
  effect := { kind := .functionCall, name := cls }
  func := cls

/-- The call that evaluates a function. -/
def functionCall (func funcModule : ModuleName) : Call where
  callerModule := funcModule
  effect := { kind := .functionCall, name := func }
  func := func

/-- A constructor call evaluates every constructor method that is a function. -/
theorem settling_checkConstructorCall {cls : ModuleName}
    (hcls : hasKey info.classes cls = true) (hcyc : info.inCycle cls = false)
    (h : info.Settling (under idle cls) st) :
    ∃ b s, info.checkConstructorCall (info.checkCallBody info.bodyFuel) (constructorCall cls)
        st = (.ok b, s) ∧
      info.Settling (under idle cls) s ∧
      ∀ method ∈ info.constructorMethodsOf cls, info.IsFunction method →
        ¬under idle cls method ∧ ∃ fi, s.safety method = some fi := by
  -- the class leads to its methods, so nothing under way is among them
  have hleads : ∀ method ∈ info.constructorMethodsOf cls, info.IsFunction method →
      info.LeadsTo (under idle cls) method := by
    rintro method hm hf a (hA | rfl)
    · cases hA
    · have hnode := isNode_of_function hf
      exact ⟨hcyc, TransGen.single
        (callEdge_iff.mpr ⟨Or.inr ⟨hcls, method, hm, if_pos hnode⟩, hnode⟩)⟩
  have hfuel : ∀ method, Fueled info info.bodyFuel { constructorCall cls with func := method } :=
    fun method => fueled_start rfl
  obtain ⟨b, s, hrun, -⟩ : ∃ b s, info.checkConstructorCall (info.checkCallBody info.bodyFuel)
      (constructorCall cls) st = (.ok b, s) ∧ True :=
    checkAll_ok (I := fun _ => True) (fun method _ s _ => by
      obtain ⟨b, s', hr⟩ := checkCallBody_total (hfuel method) s
      exact ⟨b, s', hr, trivial⟩) trivial
  have hinv : ∀ method ∈ info.constructorMethodsOf cls, ∀ s, info.Settling (under idle cls) s →
      info.Settling (under idle cls)
        (info.checkCallBody info.bodyFuel { constructorCall cls with func := method } s).2 :=
    fun method hm s hs => (settling_checkCallBody info info.bodyFuel _
      { constructorCall cls with func := method } s (hfuel method) rfl (hleads method hm) hs).1
  obtain ⟨hset, hall⟩ := checkAll_forall (I := info.Settling (under idle cls))
    (Q := fun method _ s => info.IsFunction method → ∃ fi, s.safety method = some fi)
    hinv
    (fun method _ s b s' _ hr hf => by
      have hkey : hasKey info.functions ({ constructorCall cls with func := method }).func =
          true := hf
      exact Option.isSome_iff_exists.mp (isSome_checkCallBody hkey hr))
    (fun method _ method' _ s _ _ hq hf => by
      obtain ⟨fi, hfi⟩ := hq hf
      exact ⟨fi, (frame_checkCallBody info info.bodyFuel _ s).kept method fi id hfi⟩)
    h hrun
  refine ⟨b, s, hrun, hset, fun method hm hf => ⟨(hleads method hm hf).not_under, ?_⟩⟩
  obtain ⟨_, hq, -⟩ := hall method hm
  exact hq hf

theorem settling_precomputeConstructor {cls : ModuleName}
    (hcls : hasKey info.classes cls = true) (h : info.Settling idle st) :
    info.Settling idle (info.precomputeConstructorVerdict cls st) := by
  unfold precomputeConstructorVerdict
  split
  · exact h
  · next hnone =>
    have hst : st.safety cls = none := Option.not_isSome_iff_eq_none.mp hnone
    have hcyc : info.inCycle cls = false := by
      refine Bool.eq_false_iff.mpr fun hcyc => hnone ?_
      exact h.settled cls (isNode_of_class hcls) (Or.inl hcyc)
    obtain ⟨b, s, hrun, hset, hmethods⟩ := settling_checkConstructorCall hcls hcyc (h.push hst)
    dsimp only
    have hrun' : info.checkConstructorCall (info.checkCallBody info.bodyFuel)
        { callerModule := cls, effect := { kind := .functionCall, name := cls }, func := cls }
        st = (.ok b, s) := hrun
    rw [hrun']
    -- an entry that is written whole: recoverable only if it says so
    have hwrite : ∀ (s' : AnalysisState) (fi : FunctionSafetyInfo), ChangesOnly cls s s' →
        (.unsafeMissingDep ∈ fi.verdict → .hardUnsafe ∉ fi.verdict →
          ∀ method ∈ info.constructorMethodsOf cls, info.IsFunction method →
            ∃ fim, s.safety method = some fim ∧ .hardUnsafe ∉ fim.verdict) →
        info.Settling idle (s'.setFunctionSafety cls fi) := by
      intro s' fi hchange hmiss
      have hself : (s'.setFunctionSafety cls fi).safety cls = some fi := by
        rw [AnalysisState.safety_setFunctionSafety, if_pos rfl]
      refine hset.record hcls (hchange.trans .setFunctionSafety) (by rw [hself]; rfl) ?_
      intro hrec method hm hf
      unfold AnalysisState.recoverable at hrec
      rw [hself] at hrec
      obtain ⟨hmd, hhard⟩ := Bool.and_eq_true_iff.mp hrec
      exact ⟨(hmethods method hm hf).1,
        hmiss (by simpa using hmd) (by simpa using hhard) method hm hf⟩
    have hsame : ChangesOnly cls s s := ⟨fun _ _ => rfl, fun _ hn => hn⟩
    have hread := changesOnly_foldl_read cls (info.constructorMethodsOf cls) s
    have hunsafe : ∀ s', ChangesOnly cls s s' → info.Settling idle (s'.markUnsafe cls) := by
      intro s' hchange
      refine hwrite s' _ hchange fun hmd => ?_
      rw [FunctionSafetyInfo.new, Finset.mem_singleton] at hmd
      cases hmd
    cases b with
    | true => exact hwrite s _ hsame fun hmd => absurd hmd (Finset.notMem_empty _)
    | false =>
      dsimp only
      split
      · refine hwrite _ _ hread fun _ hhard method hm hf => ?_
        obtain ⟨fim, hfim⟩ := (hmethods method hm hf).2
        have hread' : ((info.constructorMethodsOf cls).foldl AnalysisState.read s).safety method =
            some fim := by
          rw [safety_foldl_read, hfim]
        exact ⟨fim, hfim, fun hmem => hhard (verdict_subset_combined hm hread' hmem)⟩
      · exact hunsafe _ hread

theorem settling_precomputeName (n : ModuleName) (h : info.Settling idle st) :
    info.Settling idle (info.precomputeName n st) := by
  unfold precomputeName
  split
  · next hcls => exact settling_precomputeConstructor hcls h
  · cases hfunc : info.functions.get? n with
    | none => exact h
    | some funcModule =>
      cases hst : st.safety n with
      | some fi =>
        dsimp only
        unfold precomputeFunctionVerdict
        rw [if_pos (by rw [hst]; rfl)]
        exact h
      | none =>
        obtain ⟨b, hrun⟩ := precomputeFunctionVerdict_eq hfunc hst
        have hset := (settling_checkCallBody info info.bodyFuel idle
          { callerModule := funcModule, effect := { kind := .functionCall, name := n }, func := n }
          st (fueled_start rfl) rfl (fun _ _ hA => nomatch hA) h).1
        rw [hrun] at hset
        exact hset

/-- Every state of a run is settled as far as it goes. -/
theorem settling_precompute (info : ProjectInfo) (order : List (List Nat)) :
    info.Settling idle (info.precompute order) := by
  have hnodes : ∀ (nodes : List Nat) (s : AnalysisState), info.Settling idle s →
      info.Settling idle (info.precomputeNodes nodes s) := by
    intro nodes
    induction nodes with
    | nil => exact fun s hs => hs
    | cons v nodes ih => exact fun s hs => ih _ (settling_precomputeName _ hs)
  exact hnodes _ _ (settling_settledState info)

end ProjectInfo

end Lifeguard
