import Lifeguard.Project
import Lifeguard.Lib.Saturation

/-!
# The parameters a function mutates

`compute_mutated_params` (`project/mutations.rs`): the parameters a function mutates
itself, and those it forwards into a parameter that a callee mutates.

- `MutatesParam`: the least relation with these two rules, over the effects of the
  project;
- `mutationSeeds`, `mutationEdges`: what the scan of the effect table collects;
- `computeMutatedParams`: the worklist over the collected edges, read backwards;
- `mutated_params_least`: the worklist runs empty and finds `MutatesParam`, whatever the
  order in which the functions and the edges were collected.
-/

namespace Lifeguard

open Lib
open scoped List

/-- A function and one of its parameters. -/
abbrev FunctionParam := ModuleName × ModuleName

namespace ProjectInfo

variable (info : ProjectInfo)

/-! ## What the scan collects -/

/-- The recorded parameter names of a callee. -/
def ownerParamNames (owner : ModuleName) : Option (List Str) :=
  (info.functions.get? owner).bind fun m =>
    (info.paramNames.get? m).bind fun defs => defs.get? owner

/-- The callee's parameters that a forwarded argument reaches. -/
def slotTargets (names : Option (List Str)) (argOffset : Nat) : ArgSlot → List ModuleName
  | .keyword name => [name]
  | .positional idx => (names.bind fun names => names[idx + argOffset]?).toList
  | .starExpansion start => (names.getD []).drop (start + argOffset)

/-- Seed: a parameter mutated directly in its function. -/
def effectSeeds (scope : ModuleName) (eff : Effect) : List FunctionParam :=
  if eff.kind = .paramMethodCall then [(scope, eff.name)] else []

/-- The forwarding edges of one effect, each from the callee's parameter to the caller's. -/
def effectEdges (scope : ModuleName) (eff : Effect) : List (FunctionParam × FunctionParam) :=
  if eff.kind = .paramMethodCall then []
  else
    eff.callData.toList.flatMap fun callData =>
      (iterCallees eff info.classes).flatMap fun owner =>
        callData.forwardedParams.flatMap fun forwarded =>
          (slotTargets (info.ownerParamNames owner.1) owner.2 forwarded.1).map fun target =>
            ((owner.1, target), (scope, forwarded.2))

/-- The seeds of every scope, in the order of the effect table. -/
def mutationSeeds : List FunctionParam :=
  info.effectTable.entries.flatMap fun e => e.2.flatMap (effectSeeds e.1)

/-- The edges of every scope, in the order of the effect table. -/
def mutationEdges : List (FunctionParam × FunctionParam) :=
  info.effectTable.entries.flatMap fun e => e.2.flatMap (info.effectEdges e.1)

end ProjectInfo

/-! ## The worklist -/

/-- The mutated parameters of each function. -/
abbrev MutatedParamTable := Table ModuleName (List ModuleName)

/-- The parameter is in the function's set. -/
def MutatedParamTable.Holds (mutated : MutatedParamTable) (x : FunctionParam) : Prop :=
  x.2 ∈ (mutated.get? x.1).getD []

instance (mutated : MutatedParamTable) (x : FunctionParam) : Decidable (mutated.Holds x) :=
  inferInstanceAs (Decidable (x.2 ∈ (mutated.get? x.1).getD []))

/-- `mutated.entry(f).or_default().insert(p)`: `none` where the set had it already. -/
def MutatedParamTable.insertParam (mutated : MutatedParamTable) (x : FunctionParam) :
    Option MutatedParamTable :=
  if mutated.Holds x then none
  else some (mutated.upsert x.1 (fun params => params ++ [x.2]) [x.2])

/-- `dependents.get`: the callers' parameters that forward into the parameter. -/
def dependents (edges : List (FunctionParam × FunctionParam)) (x : FunctionParam) :
    List FunctionParam :=
  (edges.filter fun e => decide (e.1 = x)).map Prod.snd

/-- The loop of `compute_mutated_params` over what was collected. An item is pushed when
it is new, so the seeds and the edges bound the number of turns. -/
def mutatedParamsFrom (seeds : List FunctionParam)
    (edges : List (FunctionParam × FunctionParam)) :
    Saturation MutatedParamTable FunctionParam :=
  Saturation.saturate MutatedParamTable.insertParam (dependents edges)
    (seeds.length + edges.length) Table.empty seeds

/-- `compute_mutated_params`. -/
def ProjectInfo.computeMutatedParams (info : ProjectInfo) : MutatedParamTable :=
  (mutatedParamsFrom info.mutationSeeds info.mutationEdges).found

theorem inserts_insertParam :
    Inserts MutatedParamTable.Holds MutatedParamTable.insertParam where
  none_iff mutated x := by
    unfold MutatedParamTable.insertParam
    split <;> simp [*]
  some_mem mutated x mutated' h y := by
    unfold MutatedParamTable.insertParam at h
    split at h
    · cases h
    cases h
    unfold MutatedParamTable.Holds
    rw [Table.get?_upsert]
    by_cases hfunc : y.1 = x.1
    · rw [if_pos hfunc, hfunc]
      have hpair : y = x ↔ y.2 = x.2 :=
        ⟨fun h => congrArg Prod.snd h, fun h => Prod.ext hfunc h⟩
      rw [hpair]
      cases mutated.get? x.1 with
      | none => simp
      | some params => simp
    · rw [if_neg hfunc]
      refine (or_iff_left ?_).symm
      rintro rfl
      exact hfunc rfl

theorem mem_dependents {edges : List (FunctionParam × FunctionParam)} {x y : FunctionParam} :
    y ∈ dependents edges x ↔ (x, y) ∈ edges := by
  simp only [dependents, List.mem_map, List.mem_filter, decide_eq_true_eq]
  constructor
  · rintro ⟨e, ⟨he, rfl⟩, rfl⟩
    exact he
  · intro h
    exact ⟨(x, y), ⟨h, rfl⟩, rfl⟩

/-- The loop runs empty, and what it finds is the least set over the collected edges. -/
theorem mutatedParamsFrom_spec (seeds : List FunctionParam)
    (edges : List (FunctionParam × FunctionParam)) :
    (mutatedParamsFrom seeds edges).work = [] ∧
      ∀ x, (mutatedParamsFrom seeds edges).found.Holds x ↔
        Reach (· ∈ seeds) (fun x y => (x, y) ∈ edges) x := by
  let bound : Finset FunctionParam := seeds.toFinset ∪ (edges.map Prod.snd).toFinset
  have hempty : ∀ x, ¬MutatedParamTable.Holds Table.empty x := by
    intro x h
    simp [MutatedParamTable.Holds] at h
  have hseeds : ∀ x ∈ seeds, x ∈ bound :=
    fun x hx => Finset.mem_union_left _ (List.mem_toFinset.mpr hx)
  have hnext : ∀ x, ∀ y ∈ dependents edges x, y ∈ bound := by
    intro x y hy
    refine Finset.mem_union_right _ (List.mem_toFinset.mpr ?_)
    exact List.mem_map.mpr ⟨(x, y), mem_dependents.mp hy, rfl⟩
  have hfuel : bound.card ≤ seeds.length + edges.length := by
    refine (Finset.card_union_le _ _).trans (Nat.add_le_add (List.toFinset_card_le _) ?_)
    exact (List.toFinset_card_le _).trans (List.length_map _).le
  refine ⟨Saturation.saturate_rest inserts_insertParam hseeds hnext hfuel, ?_⟩
  intro x
  rw [mutatedParamsFrom,
    Saturation.mem_saturate inserts_insertParam hempty hseeds hnext hfuel]
  simp only [mem_dependents]

/-! ## The least relation -/

/-- The parameter `q` of a callee that an argument in the slot reaches, the receiver
skipped. -/
inductive SlotReaches (names : Option (List Str)) (argOffset : Nat) :
    ArgSlot → ModuleName → Prop
  | keyword (q : ModuleName) : SlotReaches names argOffset (.keyword q) q
  | positional {ns : List Str} {idx : Nat} {q : ModuleName} (hnames : names = some ns)
      (hq : ns[idx + argOffset]? = some q) :
      SlotReaches names argOffset (.positional idx) q
  | starExpansion {ns : List Str} {start i : Nat} {q : ModuleName} (hnames : names = some ns)
      (hi : start + argOffset ≤ i) (hq : ns[i]? = some q) :
      SlotReaches names argOffset (.starExpansion start) q

/-- A call in `f` passes its parameter `p` into a slot that reaches the parameter `q` of
the callee `g`. -/
structure ForwardsInto (info : ProjectInfo) (f p g q : ModuleName) (eff : Effect)
    (callData : CallData) (slot : ArgSlot) (argOffset : Nat) : Prop where
  effect : ∃ effs, info.effectTable.get? f = some effs ∧ eff ∈ effs
  kind : eff.kind ≠ .paramMethodCall
  data : eff.callData = some callData
  forwarded : (slot, p) ∈ callData.forwardedParams
  callee : (g, argOffset) ∈ iterCallees eff info.classes
  reaches : SlotReaches (info.ownerParamNames g) argOffset slot q

/-- The least relation that holds of the seeds and goes up along the forwardings. -/
inductive MutatesParam (info : ProjectInfo) : ModuleName → ModuleName → Prop
  | seed {f : ModuleName} {effs : List Effect} {eff : Effect}
      (heffs : info.effectTable.get? f = some effs) (heff : eff ∈ effs)
      (hkind : eff.kind = .paramMethodCall) : MutatesParam info f eff.name
  | forward {f p g q : ModuleName} {eff : Effect} {callData : CallData} {slot : ArgSlot}
      {argOffset : Nat} (h : ForwardsInto info f p g q eff callData slot argOffset)
      (hmut : MutatesParam info g q) : MutatesParam info f p

section Least

variable {info : ProjectInfo}

theorem mem_slotTargets {names : Option (List Str)} {argOffset : Nat} {slot : ArgSlot}
    {q : ModuleName} :
    q ∈ ProjectInfo.slotTargets names argOffset slot ↔ SlotReaches names argOffset slot q := by
  cases slot with
  | keyword name =>
    constructor
    · intro h
      rw [List.mem_singleton.mp h]
      exact .keyword name
    · rintro ⟨⟩
      exact List.mem_singleton_self _
  | positional idx =>
    simp only [ProjectInfo.slotTargets, Option.mem_toList, Option.bind_eq_some_iff]
    constructor
    · rintro ⟨ns, hnames, hq⟩
      exact .positional hnames hq
    · rintro (_ | ⟨hnames, hq⟩)
      exact ⟨_, hnames, hq⟩
  | starExpansion start =>
    simp only [ProjectInfo.slotTargets, List.mem_iff_getElem?, List.getElem?_drop]
    constructor
    · rintro ⟨i, hq⟩
      cases hnames : names with
      | none =>
        rw [hnames] at hq
        simp at hq
      | some ns =>
        rw [hnames, Option.getD_some] at hq
        exact .starExpansion rfl (Nat.le_add_right _ i) hq
    · rintro (_ | _ | ⟨hnames, hi, hq⟩)
      obtain ⟨k, rfl⟩ := Nat.exists_eq_add_of_le hi
      refine ⟨k, ?_⟩
      rw [hnames]
      exact hq

theorem mem_mutationSeeds {f p : ModuleName} :
    (f, p) ∈ info.mutationSeeds ↔ ∃ effs, info.effectTable.get? f = some effs ∧
      ∃ eff ∈ effs, eff.kind = .paramMethodCall ∧ eff.name = p := by
  simp only [ProjectInfo.mutationSeeds, List.mem_flatMap, Prod.exists]
  constructor
  · rintro ⟨scope, effs, hentry, eff, heff, hseed⟩
    unfold ProjectInfo.effectSeeds at hseed
    split at hseed
    · next hkind =>
      cases List.mem_singleton.mp hseed
      exact ⟨effs, Table.mem_entries.mp hentry, eff, heff, hkind, rfl⟩
    · cases hseed
  · rintro ⟨effs, hget, eff, heff, hkind, rfl⟩
    refine ⟨f, effs, Table.mem_entries.mpr hget, eff, heff, ?_⟩
    rw [ProjectInfo.effectSeeds, if_pos hkind]
    exact List.mem_singleton_self _

theorem mem_mutationEdges {g q f p : ModuleName} :
    ((g, q), (f, p)) ∈ info.mutationEdges ↔
      ∃ eff callData slot argOffset, ForwardsInto info f p g q eff callData slot argOffset := by
  simp only [ProjectInfo.mutationEdges, List.mem_flatMap, Prod.exists]
  constructor
  · rintro ⟨scope, effs, hentry, eff, heff, hedge⟩
    unfold ProjectInfo.effectEdges at hedge
    split at hedge
    · cases hedge
    · next hkind =>
      simp only [List.mem_flatMap, Option.mem_toList, Prod.exists, List.mem_map] at hedge
      obtain ⟨callData, hdata, owner, argOffset, howner, slot, param, hforwarded, target,
        htarget, heq⟩ := hedge
      cases heq
      exact ⟨eff, callData, slot, argOffset, ⟨effs, Table.mem_entries.mp hentry, heff⟩, hkind,
        hdata, hforwarded, howner, mem_slotTargets.mp htarget⟩
  · rintro ⟨eff, callData, slot, argOffset, ⟨effs, hget, heff⟩, hkind, hdata, hforwarded,
      hcallee, hreaches⟩
    refine ⟨f, effs, Table.mem_entries.mpr hget, eff, heff, ?_⟩
    unfold ProjectInfo.effectEdges
    rw [if_neg hkind]
    simp only [List.mem_flatMap, Option.mem_toList, Prod.exists, List.mem_map]
    exact ⟨callData, hdata, g, argOffset, hcallee, slot, p, hforwarded, q,
      mem_slotTargets.mpr hreaches, rfl⟩

/-- Reading the collected edges backwards from the seeds is the least relation. -/
theorem reach_iff_mutatesParam {f p : ModuleName} :
    Reach (· ∈ info.mutationSeeds) (fun x y => (x, y) ∈ info.mutationEdges) (f, p) ↔
      MutatesParam info f p := by
  constructor
  · have hall : ∀ x : FunctionParam,
        Reach (· ∈ info.mutationSeeds) (fun x y => (x, y) ∈ info.mutationEdges) x →
          MutatesParam info x.1 x.2 := by
      intro x h
      induction h with
      | seed h =>
        obtain ⟨effs, hget, eff, heff, hkind, hname⟩ := mem_mutationSeeds.mp h
        rw [← hname]
        exact .seed hget heff hkind
      | next _ hedge ih =>
        obtain ⟨eff, callData, slot, argOffset, hforward⟩ := mem_mutationEdges.mp hedge
        exact .forward hforward ih
    exact hall (f, p)
  · intro h
    induction h with
    | seed hget heff hkind => exact .seed (mem_mutationSeeds.mpr ⟨_, hget, _, heff, hkind, rfl⟩)
    | forward hforward _ ih =>
      exact .next ih (mem_mutationEdges.mpr ⟨_, _, _, _, hforward⟩)

end Least

/-- The loop runs empty, and what it has found depends on no order of what was collected. -/
theorem mutatedParamsFrom_perm (info : ProjectInfo) {seeds : List FunctionParam}
    {edges : List (FunctionParam × FunctionParam)} (hseeds : seeds ~ info.mutationSeeds)
    (hedges : edges ~ info.mutationEdges) :
    (mutatedParamsFrom seeds edges).work = [] ∧
      ∀ f p, (mutatedParamsFrom seeds edges).found.Holds (f, p) ↔ MutatesParam info f p := by
  obtain ⟨hrest, hfound⟩ := mutatedParamsFrom_spec seeds edges
  refine ⟨hrest, fun f p => ?_⟩
  rw [hfound, ← reach_iff_mutatesParam]
  have hseed : (· ∈ seeds) = (· ∈ info.mutationSeeds) := by
    funext x
    exact propext hseeds.mem_iff
  have hnext : (fun x y => (x, y) ∈ edges) = fun x y => (x, y) ∈ info.mutationEdges := by
    funext x y
    exact propext hedges.mem_iff
  rw [hseed, hnext]

/-- Whatever the order in which the seeds and the edges were collected, the loop runs
empty and the mutated parameters it finds are the least relation: those of
`compute_mutated_params`. -/
theorem mutated_params_least (info : ProjectInfo) {seeds : List FunctionParam}
    {edges : List (FunctionParam × FunctionParam)} (hseeds : seeds ~ info.mutationSeeds)
    (hedges : edges ~ info.mutationEdges) :
    (mutatedParamsFrom seeds edges).work = [] ∧
      (∀ f p, (mutatedParamsFrom seeds edges).found.Holds (f, p) ↔ MutatesParam info f p) ∧
      ∀ f p, info.computeMutatedParams.Holds (f, p) ↔
        (mutatedParamsFrom seeds edges).found.Holds (f, p) := by
  obtain ⟨hrest, hfound⟩ := mutatedParamsFrom_perm info hseeds hedges
  obtain ⟨-, hcomputed⟩ := mutatedParamsFrom_perm info (List.Perm.refl _) (List.Perm.refl _)
  exact ⟨hrest, hfound, fun f p => (hcomputed f p).trans (hfound f p).symm⟩

/-- `m.f(x)` mutates `x` and calls `m.g(x)`; `m.g(y)` calls `m.f(y)`. -/
def recursiveProject : ProjectInfo where
  effectTable := Table.ofList
    [(fromStr "m.f",
        [{ kind := .paramMethodCall, name := fromStr "x" },
          { kind := .functionCall, name := fromStr "m.g"
            data := .call { forwardedParams := [(.positional 0, fromStr "x")] } }]),
      (fromStr "m.g",
        [{ kind := .functionCall, name := fromStr "m.f"
           data := .call { forwardedParams := [(.positional 0, fromStr "y")] } }])]
  functions := Table.ofList
    [(fromStr "m.f", fromStr "m"), (fromStr "m.g", fromStr "m")]
  paramNames := Table.ofList
    [(fromStr "m", Table.ofList
      [(fromStr "m.f", [fromStr "x"]), (fromStr "m.g", [fromStr "y"])])]

theorem mutated_params_least_recursive :
    ((mutatedParamsFrom recursiveProject.mutationSeeds
        recursiveProject.mutationEdges.reverse).found.Holds (fromStr "m.g", fromStr "y") ↔
      MutatesParam recursiveProject (fromStr "m.g") (fromStr "y")) ∧
    recursiveProject.computeMutatedParams.Holds (fromStr "m.g", fromStr "y") := by
  have h := mutated_params_least recursiveProject (List.Perm.refl _) (List.reverse_perm _)
  exact ⟨h.2.1 _ _, (h.2.2 _ _).mpr (by decide +kernel)⟩

end Lifeguard
