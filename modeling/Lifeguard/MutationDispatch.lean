import Lifeguard.ReadOrder

/-!
# The two resolutions of a call

The effect of a call is resolved twice, by functions that know nothing of each other: to
the callees whose parameters its arguments are bound to (`iterCallees`), and to the bodies
it runs (`checkCallSafety`).

- `consultedFor`: the functions whose recorded verdict a call looks up;
- `runs_of_mem_consultedFor`, `mem_consultedFor_of_runs`: they are the functions the effect
  runs, whatever has been recorded so far;
- `mutationCallees`: the callees whose mutated parameters are compared with the imported
  arguments of the call;
- `mutation_dispatch_iff`: these include what the call consults exactly when the call is
  dispatched under the name it is written with (`DispatchedAsWritten`).
-/

namespace Lifeguard

open Lib

namespace ProjectInfo

variable {info : ProjectInfo} {st : AnalysisState} {call : Call} {eff : Effect}
  {c : ModuleName}

/-! ## What a call consults -/

/-- `check_call_body` as far as the lookup of the recorded verdict. -/
def lookUpBody (info : ProjectInfo) (call : Call) (st : AnalysisState) : Outcome :=
  match info.functions.get? call.func with
  | none => (.ok true, st)
  | some callModule =>
    (.ok ((st.safety call.func).all fun fi =>
      verdictAnswer fi.verdict (crosses call callModule)), st.read call.func)

/-- The functions whose verdict a call looks up on behalf of its own effect. -/
def consultedFor (info : ProjectInfo) (publish : Bool) (call : Call) (st : AnalysisState) :
    List ModuleName :=
  (info.checkCallSafety info.lookUpBody publish call st.fresh).2.reads

/-- The state has entries for functions and classes of the project alone. -/
def NodeEntries (info : ProjectInfo) (st : AnalysisState) : Prop :=
  ∀ n, (st.safety n).isSome → info.isNode n = true

theorem safety_lookUpBody (n : ModuleName) :
    (info.lookUpBody call st).2.safety n = st.safety n := by
  unfold lookUpBody
  split <;> rfl

theorem mem_reads_lookUpBody :
    c ∈ (info.lookUpBody call st).2.reads ↔
      c ∈ st.reads ∨ (c = call.func ∧ info.IsFunction c) := by
  unfold lookUpBody
  cases hfunc : info.functions.get? call.func with
  | none =>
    refine (or_iff_left ?_).symm
    rintro ⟨rfl, hkey⟩
    rw [IsFunction, hasKey, hfunc] at hkey
    cases hkey
  | some callModule =>
    have hread : c ∈ (st.read call.func).reads ↔ c = call.func ∨ c ∈ st.reads := List.mem_cons
    rw [hread, or_comm]
    refine or_congr_right ⟨fun hc => ⟨hc, ?_⟩, And.left⟩
    rw [hc]
    exact hasKey_of_get? hfunc

/-- Whether it publishes its error or not, a resolved call preserves what its bodies do. -/
theorem checkResolvedCall_inv {I : AnalysisState → Prop} {body : Call → AnalysisState → Outcome}
    {publish nameCallee : Bool} (add : ∀ m e s, I s → I (s.addErrorToModule m e))
    (step : info.canResolveCall call.func st = true → I (info.checkCall body call st).2)
    (h : I st) : I (info.checkResolvedCall body publish nameCallee call st).2 := by
  unfold checkResolvedCall
  split
  · split
    · split
      · exact h
      · exact add _ _ _ h
    · exact h
  · next hres =>
    have hcall := step (by simpa using hres)
    generalize info.checkCall body call st = out at hcall ⊢
    rcases out with ⟨_ | _ | _, s⟩
    · exact hcall
    · dsimp only
      split
      · split
        · exact hcall
        · exact add _ _ _ hcall
      · exact hcall
    · exact hcall

/-- A call consults bodies that its effect runs, and no other. -/
theorem runs_of_mem_consultedFor {publish : Bool} (hst : info.NodeEntries st)
    (hc : c ∈ info.consultedFor publish call st) : info.Runs call.effect c := by
  let I : AnalysisState → Prop := fun s =>
    info.NodeEntries s ∧ ∀ c ∈ s.reads, info.Runs call.effect c
  have hloop : I (info.checkCallSafety info.lookUpBody publish call st.fresh).2 := by
    refine checkAll_inv (fun callee hcallee s hs => ?_) ⟨hst, fun _ h => ?_⟩
    · refine checkResolvedCall_inv (fun _ _ _ h => h) (fun hres => ?_) hs
      rw [checkCall_eq]
      split
      · exact hs
      · next hsafe =>
        refine checkAll_inv (fun call' hcall' t ht => ⟨fun n hn => ?_, fun n hn => ?_⟩) hs
        · rw [safety_lookUpBody] at hn
          exact ht.1 n hn
        · rcases mem_reads_lookUpBody.mp hn with hold | ⟨rfl, hfunc⟩
          · exact ht.2 n hold
          · refine ⟨hfunc, callee, hcallee, ?_, Bool.eq_false_iff.mpr hsafe,
              (mem_spawnedCalls hcall').2⟩
            -- an entry under a name that resolves to nothing would be no node's
            rcases Bool.or_eq_true_iff.mp hres with hcall | hsome
            · exact hcall
            · exact containsCallable_of_isNode (hs.1 callee hsome)
    · cases h
  exact hloop.2 c hc

/-- A call consults every body that its effect runs. -/
theorem mem_consultedFor_of_runs (hrun : info.Runs call.effect c) (st : AnalysisState) :
    c ∈ info.consultedFor false call st := by
  obtain ⟨hfunc, callee, hcallee, hcall, hsafe, hmem⟩ := hrun
  have hok : ∀ (call' : Call) s, ∃ b t, info.lookUpBody call' s = (.ok b, t) := by
    intro call' s
    unfold lookUpBody
    split <;> exact ⟨_, _, rfl⟩
  obtain ⟨b, t, hout, -⟩ : ∃ b t,
      info.checkCallSafety info.lookUpBody false call st.fresh = (.ok b, t) ∧ True :=
    checkCallSafety_ok (I := fun _ => True)
      (fun _ _ _ _ call' _ s _ => by
        obtain ⟨b, t, h⟩ := hok call' s
        exact ⟨b, t, h, trivial⟩)
      trivial
  obtain ⟨_, hread, -⟩ := checkCallSafety_forall (I := fun _ => True)
    (Q := fun n _ s => info.IsFunction n → n ∈ s.reads)
    (fun _ _ _ _ _ _ _ _ => trivial)
    (fun _ _ _ _ call' _ s b s' _ hr hf => by
      have hself : call'.func ∈ (info.lookUpBody call' s).2.reads :=
        mem_reads_lookUpBody.mpr (Or.inr ⟨rfl, hf⟩)
      rwa [hr] at hself)
    (fun _ _ _ _ _ _ _ _ _ _ hq hf => mem_reads_lookUpBody.mpr (Or.inl (hq hf)))
    trivial hout callee hcallee hcall hsafe c hmem
  unfold consultedFor
  rw [hout]
  exact hread hfunc

/-! ## What the arguments are bound to -/

/-- The callees whose parameters `iter_callees` binds the arguments to: those asked when a
parameter is forwarded, when a mutation is reported and when a candidate is recorded. -/
def mutationCallees (info : ProjectInfo) (eff : Effect) : List ModuleName :=
  (iterCallees eff info.classes).map Prod.fst

/-- A call of a method, bound or through its class. -/
def IsMethodCall (eff : Effect) : Prop :=
  eff.kind = .methodCall ∨ eff.kind = .unboundMethodCall ∨ eff.kind = .superMethodCall

/-- What runs when the name is called, the nested functions of a decorator left out. -/
def Body (info : ProjectInfo) (name c : ModuleName) : Prop :=
  if hasKey info.classes name = true then c ∈ info.constructorMethodsOf name else c = name

/-- The arguments of a method call are bound to the written name, those of another call
to what runs under it. -/
theorem mem_mutationCallees :
    c ∈ info.mutationCallees eff ↔
      (IsMethodCall eff ∧ c = eff.name) ∨ (¬IsMethodCall eff ∧ info.Body eff.name c) := by
  unfold mutationCallees iterCallees Body constructorMethodsOf
  by_cases hmethod : IsMethodCall eff
  · rw [or_iff_left (fun h => h.1 hmethod), and_iff_right hmethod]
    rcases hmethod with h | h | h
    · simp [h]
    · simp only [h]
      -- an unbound call of unknown kind binds at two offsets
      cases methodReceiverOffset eff.name info.classes false <;> simp
    · simp [h]
  · rw [or_iff_right (fun h => hmethod h.1), and_iff_right hmethod]
    obtain ⟨hbound, hunbound, hsuper⟩ : eff.kind ≠ .methodCall ∧
        eff.kind ≠ .unboundMethodCall ∧ eff.kind ≠ .superMethodCall := by
      unfold IsMethodCall at hmethod
      tauto
    have hbool : (decide (eff.kind = .methodCall) || decide (eff.kind = .unboundMethodCall) ||
        decide (eff.kind = .superMethodCall)) = false := by
      simp [hbound, hunbound, hsuper]
    rw [hbool]
    simp only [Bool.not_false, Bool.true_and]
    split
    · rw [List.map_map]
      simp
    · simp

/-! ## Dispatch under the written name -/

/-- The functions whose verdict the call of a resolved callee looks up, the nested functions
of a decorator left out. -/
def RunsUnder (info : ProjectInfo) (callee c : ModuleName) : Prop :=
  declaredSafe callee = false ∧ info.IsFunction c ∧ info.Body callee c

/-- No function runs that the written name does not stand for. -/
structure DispatchedAsWritten (info : ProjectInfo) (eff : Effect) : Prop where
  /-- Above the class of a `super()` call, no other function runs. -/
  above : eff.kind = .superMethodCall → ∀ target,
    info.resolveDispatchAbove eff.name = some target →
      ∀ c, info.RunsUnder target c → c = eff.name
  /-- Nor does one when a class is created. -/
  creation : eff.kind = .classCreation → ∀ target,
    target ∈ info.metaclassCreationCallees eff.name ∨
      info.resolveDispatchAbove eff.name = some target →
      ∀ c, info.RunsUnder target c → info.Body eff.name c
  /-- A name that is no function or class of the project stands for nothing that runs. -/
  resolved : eff.kind ≠ .superMethodCall → eff.kind ≠ .classCreation →
    info.isNode eff.name = false → ∀ target, info.resolveCallable eff.name = some target →
      ∀ c, ¬info.RunsUnder target c
  /-- A method call on the name of a class runs no constructor. -/
  method : eff.kind = .methodCall ∨ eff.kind = .unboundMethodCall →
    hasKey info.classes eff.name = true → ∀ c, info.RunsUnder eff.name c → c = eff.name
  /-- A decorator factory runs no nested function. -/
  nested : isParameterizedDecoratorEffect eff = true → ∀ target,
    info.resolveCallable eff.name = some target → info.containsCallable target = true →
      declaredSafe target = false → ∀ child ∈ (info.nestedFunctions.get? target).getD [],
        info.IsFunction child → info.Body eff.name child

/-- The callees whose mutated parameters are compared with the imported arguments of an
effect include every function whose verdict a call with this effect looks up. -/
def MutationDispatchMatches (info : ProjectInfo) (eff : Effect) : Prop :=
  ∀ publish call st, call.effect = eff → info.NodeEntries st →
    ∀ c ∈ info.consultedFor publish call st, c ∈ info.mutationCallees eff

/-- A body that an effect runs stands under a callee of the dispatch, or is nested in it. -/
theorem runs_iff_under :
    info.Runs eff c ↔ ∃ callee ∈ info.dispatchCallees eff,
      info.RunsUnder callee c ∨
        (isParameterizedDecoratorEffect eff = true ∧ info.containsCallable callee = true ∧
          declaredSafe callee = false ∧ c ∈ (info.nestedFunctions.get? callee).getD [] ∧
          info.IsFunction c) := by
  constructor
  · rintro ⟨hfunc, callee, hcallee, hcall, hsafe, hmem⟩
    refine ⟨callee, hcallee, ?_⟩
    rcases List.mem_append.mp hmem with hbody | hnested
    · refine Or.inl ⟨hsafe, hfunc, ?_⟩
      unfold Body
      split at hbody
      · next hcls =>
        rw [if_pos hcls]
        exact hbody
      · next hcls =>
        rw [if_neg hcls]
        exact List.mem_singleton.mp hbody
    · split at hnested
      · next hdec => exact Or.inr ⟨hdec, hcall, hsafe, hnested, hfunc⟩
      · cases hnested
  · rintro ⟨callee, hcallee, ⟨hsafe, hfunc, hbody⟩ | ⟨hdec, hcall, hsafe, hnested, hfunc⟩⟩
    · unfold Body at hbody
      split at hbody
      · next hcls =>
        refine ⟨hfunc, callee, hcallee, containsCallable_of_isNode (isNode_of_class hcls),
          hsafe, List.mem_append_left _ ?_⟩
        rw [if_pos hcls]
        exact hbody
      · next hcls =>
        subst hbody
        refine ⟨hfunc, c, hcallee, containsCallable_of_isNode (isNode_of_function hfunc),
          hsafe, List.mem_append_left _ ?_⟩
        rw [if_neg hcls]
        exact List.mem_singleton.mpr rfl
    · refine ⟨hfunc, callee, hcallee, hcall, hsafe, List.mem_append_right _ ?_⟩
      rw [if_pos hdec]
      exact hnested

theorem dispatchCallees_of_plain (hsuper : eff.kind ≠ .superMethodCall)
    (hcreation : eff.kind ≠ .classCreation) :
    info.dispatchCallees eff = [(info.resolveCallable eff.name).getD eff.name] := by
  unfold dispatchCallees
  split
  · next h => exact absurd h hcreation
  · next h => exact absurd h hsuper
  · rfl

theorem not_isMethodCall_of_decorator (h : isParameterizedDecoratorEffect eff = true) :
    ¬IsMethodCall eff := by
  unfold isParameterizedDecoratorEffect at h
  rintro (hk | hk | hk) <;> simp [hk] at h

/-- What a call of the written name itself runs, under the name of a node. -/
theorem mem_mutationCallees_of_node (h : info.DispatchedAsWritten eff)
    (hsuper : eff.kind ≠ .superMethodCall) (hc : info.RunsUnder eff.name c) :
    c ∈ info.mutationCallees eff := by
  rw [mem_mutationCallees]
  by_cases hmethod : IsMethodCall eff
  · refine Or.inl ⟨hmethod, ?_⟩
    by_cases hcls : hasKey info.classes eff.name = true
    · exact h.method (hmethod.imp_right fun hk => hk.resolve_right hsuper) hcls c hc
    · have hbody := hc.2.2
      unfold Body at hbody
      rwa [if_neg hcls] at hbody
  · exact Or.inr ⟨hmethod, hc.2.2⟩

theorem mem_mutationCallees_of_runs (h : info.DispatchedAsWritten eff)
    (hrun : info.Runs eff c) : c ∈ info.mutationCallees eff := by
  obtain ⟨callee, hcallee, hunder | ⟨hdec, hcall, hsafe, hchild, hfunc⟩⟩ :=
    runs_iff_under.mp hrun
  · by_cases hsuper : eff.kind = .superMethodCall
    · rw [dispatchCallees, hsuper] at hcallee
      exact mem_mutationCallees.mpr (Or.inl ⟨Or.inr (Or.inr hsuper),
        h.above hsuper callee (Option.mem_toList.mp hcallee) c hunder⟩)
    by_cases hcreation : eff.kind = .classCreation
    · rw [dispatchCallees, hcreation] at hcallee
      have htarget := (List.mem_append.mp hcallee).imp_right Option.mem_toList.mp
      refine mem_mutationCallees.mpr (Or.inr ⟨?_, h.creation hcreation callee htarget c hunder⟩)
      rintro (hm | hm | hm) <;> rw [hcreation] at hm <;> cases hm
    rw [dispatchCallees_of_plain hsuper hcreation] at hcallee
    obtain rfl := List.mem_singleton.mp hcallee
    cases hnode : info.isNode eff.name with
    | true =>
      rw [resolveCallable_of_isNode hnode] at hunder
      exact mem_mutationCallees_of_node h hsuper hunder
    | false =>
      cases hres : info.resolveCallable eff.name with
      | some target =>
        rw [hres] at hunder
        exact absurd hunder (h.resolved hsuper hcreation hnode target hres c)
      | none =>
        -- a name that nothing resolves is no function to run
        rw [hres] at hunder
        exact mem_mutationCallees_of_node h hsuper hunder
  · obtain ⟨hcreation, hsuper⟩ := isParameterizedDecoratorEffect_plain hdec
    rw [dispatchCallees_of_plain hsuper hcreation] at hcallee
    obtain rfl := List.mem_singleton.mp hcallee
    refine mem_mutationCallees.mpr (Or.inr ⟨not_isMethodCall_of_decorator hdec, ?_⟩)
    cases hres : info.resolveCallable eff.name with
    | some target =>
      rw [hres] at hcall hsafe hchild
      exact h.nested hdec target hres hcall hsafe c hchild hfunc
    | none =>
      rw [hres] at hcall
      have hsome := resolveCallable_isSome hcall
      rw [Option.getD_none, hres] at hsome
      cases hsome

/-- An effect whose bodies all are among the callees is dispatched as written. -/
theorem dispatchedAsWritten_of_subset
    (h : ∀ c, info.Runs eff c → c ∈ info.mutationCallees eff) :
    info.DispatchedAsWritten eff := by
  have hname : IsMethodCall eff → ∀ c, info.Runs eff c → c = eff.name := fun hm c hc =>
    (mem_mutationCallees.mp (h c hc)).elim And.right fun hn => absurd hm hn.1
  have hbody : ¬IsMethodCall eff → ∀ c, info.Runs eff c → info.Body eff.name c :=
    fun hm c hc => (mem_mutationCallees.mp (h c hc)).elim (fun hn => absurd hn.1 hm) And.right
  refine ⟨fun hk target habove c hc => ?_, fun hk target htarget c hc => ?_,
    fun hsuper hcreation hnode target htarget c hc => ?_, fun hk hcls c hc => ?_,
    fun hdec target htarget hcall hsafe child hchild hfunc => ?_⟩
  · have hmem : target ∈ info.dispatchCallees eff := by
      rw [dispatchCallees, hk]
      exact Option.mem_toList.mpr habove
    exact hname (Or.inr (Or.inr hk)) c (runs_iff_under.mpr ⟨target, hmem, Or.inl hc⟩)
  · have hmem : target ∈ info.dispatchCallees eff := by
      rw [dispatchCallees, hk]
      exact List.mem_append.mpr (htarget.imp_right Option.mem_toList.mpr)
    refine hbody ?_ c (runs_iff_under.mpr ⟨target, hmem, Or.inl hc⟩)
    rintro (hm | hm | hm) <;> rw [hk] at hm <;> cases hm
  · have hmem : target ∈ info.dispatchCallees eff := by
      rw [dispatchCallees_of_plain hsuper hcreation, htarget]
      exact List.mem_singleton.mpr rfl
    have hrun := runs_iff_under.mpr ⟨target, hmem, Or.inl hc⟩
    -- what runs is a function, so it is not what the written name stands for
    have hclass : hasKey info.classes eff.name = false :=
      (Bool.or_eq_false_iff.mp hnode).2
    have heq : c = eff.name := by
      rcases mem_mutationCallees.mp (h c hrun) with hn | hn
      · exact hn.2
      · have hown := hn.2
        unfold Body at hown
        rwa [hclass, if_neg Bool.false_ne_true] at hown
    rw [← heq, isNode_of_function hc.2.1] at hnode
    cases hnode
  · have hmem : eff.name ∈ info.dispatchCallees eff := by
      rw [dispatchCallees_of_plain (by rcases hk with hk | hk <;> rw [hk] <;> decide)
        (by rcases hk with hk | hk <;> rw [hk] <;> decide),
        resolveCallable_of_isNode (isNode_of_class hcls)]
      exact List.mem_singleton.mpr rfl
    exact hname (hk.imp_right Or.inl) c (runs_iff_under.mpr ⟨_, hmem, Or.inl hc⟩)
  · obtain ⟨hcreation, hsuper⟩ := isParameterizedDecoratorEffect_plain hdec
    have hmem : target ∈ info.dispatchCallees eff := by
      rw [dispatchCallees_of_plain hsuper hcreation, htarget]
      exact List.mem_singleton.mpr rfl
    exact hbody (not_isMethodCall_of_decorator hdec) child
      (runs_iff_under.mpr ⟨target, hmem, Or.inr ⟨hdec, hcall, hsafe, hchild, hfunc⟩⟩)

/-- The two resolutions of an effect agree exactly when it is dispatched as written. -/
theorem mutation_dispatch_iff (info : ProjectInfo) (eff : Effect) :
    info.MutationDispatchMatches eff ↔ info.DispatchedAsWritten eff := by
  constructor
  · intro h
    refine dispatchedAsWritten_of_subset fun c hrun => ?_
    exact h false { callerModule := [], effect := eff, func := eff.name } {} rfl
      (fun _ hn => by cases hn) c (mem_consultedFor_of_runs hrun {})
  · rintro h publish call st rfl hst c hc
    exact mem_mutationCallees_of_runs h (runs_of_mem_consultedFor hst hc)

/-! ## An inherited static method -/

/-- Module `m` with a class whose static method appends to its parameter, and a class under
it. -/
def staticMethodProject : ProjectInfo where
  paramNames := Table.ofList
    [(fromStr "m", Table.ofList [(fromStr "m.B.register", ["handlers".toList])])]
  classes := Table.ofList
    [(fromStr "m.B", { fields := [{ kind := .staticMethod, name := "register".toList }] }),
      (fromStr "m.C", { bases := [fromStr "m.B"] })]
  classBases := Table.ofList [(fromStr "m.C", [fromStr "m.B"])]
  functions := Table.ofList [(fromStr "m.B.register", fromStr "m")]
  mutatedParams := Table.ofList [(fromStr "m.B.register", [fromStr "handlers"])]

/-- The call `<cls>.register(sys.path)`. -/
def registerCall (cls : String) : Effect where
  kind := .functionCall
  name := appendStr (fromStr cls) "register".toList
  data := .call { hasUnsafeArgs := true, importedArgs := { unsafeArgIndices := 1 } }

/-- Through the subclass, the call consults the method of the base class, whose mutated
parameter receives the imported argument, and the mutation is not found. -/
theorem inherited_mutation_missed :
    staticMethodProject.resolveCallable (registerCall "m.C").name =
        some (fromStr "m.B.register") ∧
      staticMethodProject.callMutatesImportedArg (registerCall "m.B") = true ∧
      staticMethodProject.callMutatesImportedArg (registerCall "m.C") = false ∧
      ¬staticMethodProject.MutationDispatchMatches (registerCall "m.C") := by
  refine ⟨by decide +kernel, by decide +kernel, by decide +kernel, fun h => ?_⟩
  have hmem := h false
    { callerModule := fromStr "m", effect := registerCall "m.C",
      func := (registerCall "m.C").name }
    {} rfl (fun _ hn => by cases hn) (fromStr "m.B.register") (by decide +kernel)
  revert hmem
  decide +kernel

end ProjectInfo

end Lifeguard
