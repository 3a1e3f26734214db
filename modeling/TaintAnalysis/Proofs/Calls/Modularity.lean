import TaintAnalysis.Proofs.Calls.Outcomes

/-!
# The outcome of a function depends on what it calls, and on nothing else

Functions may be deleted from a program. The components of those that stay are
the same as before if no component is torn apart, although the levels on which
they stand may differ. A component that stays is analyzed against a table in which
its callees have, by induction on how many functions they can call, the outcomes
they had before; and a callee that was deleted is not listed, which looks like a
callee that failed. So the outcomes of the functions that stay are the same if the
deleted callees of theirs had failed (`outcome_restrict`).

Two cases matter. No callee is deleted if the functions that stay call nothing
else of the program, so a part of a program that is closed under calls can be
analyzed on its own. And since a component fails as a whole, one that failed can
be deleted without any effect on the rest.
-/

namespace TaintAnalysis

namespace Program

variable {p : Program} {config : Config} {keep : String → Bool} {a b name : String}

/-- The functions of a program whose name is to be kept, in their order. -/
def restrict (p : Program) (keep : String → Bool) : Program where
  functions := p.functions.filter fun f => keep f.name
  distinct := p.distinct.sublist (List.filter_sublist.map _)

theorem names_restrict (p : Program) (keep : String → Bool) :
    (p.restrict keep).names = p.names.filter keep := by
  rw [names, names, restrict, List.filter_map]
  rfl

theorem function?_restrict (ha : keep a = true) :
    (p.restrict keep).function? a = p.function? a := by
  refine Option.ext fun f => ?_
  rw [function?_eq_some_iff, function?_eq_some_iff, restrict, List.mem_filter]
  constructor
  · exact fun h => ⟨h.1.1, h.2⟩
  · exact fun h => ⟨⟨h.1, h.2 ▸ ha⟩, h.2⟩

theorem mem_names_restrict : a ∈ (p.restrict keep).names ↔ a ∈ p.names ∧ keep a = true := by
  rw [names_restrict, List.mem_filter]

theorem calls_restrict_iff :
    (p.restrict keep).Calls a b ↔ p.Calls a b ∧ keep a = true ∧ keep b = true := by
  constructor
  · intro h
    obtain ⟨hb, hkeep⟩ := mem_names_restrict.mp h.right_mem
    have ha := (mem_names_restrict.mp h.left_mem).2
    obtain ⟨f, hf, hcallee, -⟩ := h
    exact ⟨⟨f, function?_restrict ha ▸ hf, hcallee, hb⟩, ha, hkeep⟩
  · intro h
    obtain ⟨⟨f, hf, hcallee, hb⟩, ha, hkeep⟩ := h
    exact ⟨f, (function?_restrict ha).trans hf, hcallee, mem_names_restrict.mpr ⟨hb, hkeep⟩⟩

/-! ## Components that stay -/

/-- No component is kept in part. -/
def KeepsComponents (p : Program) (keep : String → Bool) : Prop :=
  ∀ a b, p.Mutual a b → keep a = true → keep b = true

/-- The way from a function to another one and back stays in their component. -/
theorem canCall_restrict (hkeep : p.KeepsComponents keep) (ha : keep a = true)
    (h : p.CanCall a b) (hback : p.CanCall b a) : (p.restrict keep).CanCall a b := by
  induction h with
  | refl => exact .refl
  | @tail x y hax hxy ih =>
      have hxa : p.CanCall x a := .head hxy hback
      have hx := hkeep a x ⟨hax, hxa⟩ ha
      have hy := hkeep a y ⟨hax.tail hxy, hback⟩ ha
      exact (ih hxa).tail (calls_restrict_iff.mpr ⟨hxy, hx, hy⟩)

theorem mutual_restrict_iff (hkeep : p.KeepsComponents keep) (ha : keep a = true) :
    (p.restrict keep).Mutual a b ↔ p.Mutual a b := by
  have hcalls : (p.restrict keep).Calls ≤ p.Calls := fun _ _ h => (calls_restrict_iff.mp h).1
  have hsub {x y : String} (h : (p.restrict keep).CanCall x y) : p.CanCall x y :=
    Relation.ReflTransGen.mono hcalls x y h
  constructor
  · exact fun h => ⟨hsub h.1, hsub h.2⟩
  · intro h
    exact ⟨canCall_restrict hkeep ha h.1 h.2, canCall_restrict hkeep (hkeep a b h ha) h.2 h.1⟩

open CallGraph

theorem componentOf_restrict (hkeep : p.KeepsComponents keep) (hap : a ∈ p.names)
    (ha : keep a = true) :
    (ofProgram (p.restrict keep)).componentOf a = (ofProgram p).componentOf a := by
  have haq : a ∈ (p.restrict keep).names := mem_names_restrict.mpr ⟨hap, ha⟩
  have hmembers : (ofProgram (p.restrict keep)).functions.filter
      ((ofProgram (p.restrict keep)).sameComponent a) =
        (ofProgram p).functions.filter ((ofProgram p).sameComponent a) := by
    rw [functions_ofProgram, functions_ofProgram, names_restrict, List.filter_filter]
    refine List.filter_congr fun b hb => Bool.eq_iff_iff.mpr ?_
    rw [Bool.and_eq_true, sameComponent_iff hap hb]
    constructor
    · intro h
      have hbq := mem_names_restrict.mpr ⟨hb, h.2⟩
      exact (mutual_restrict_iff hkeep ha).mp ((sameComponent_iff haq hbq).mp h.1)
    · intro h
      have hb' := hkeep a b h ha
      have hbq := mem_names_restrict.mpr ⟨hb, hb'⟩
      exact ⟨(sameComponent_iff haq hbq).mpr ((mutual_restrict_iff hkeep ha).mpr h), hb'⟩
  have hself : a ∈ (ofProgram (p.restrict keep)).successors a ↔
      a ∈ (ofProgram p).successors a := by
    rw [mem_successors_iff, mem_successors_iff, calls_restrict_iff]
    exact ⟨fun h => h.1, fun h => ⟨h, ha, ha⟩⟩
  rw [componentOf, componentOf, hmembers, decide_eq_decide.mpr hself]

/-! ## Outcomes that stay -/

/-- A function that stays has the same outcome, if the callees that do not stay were not
visible anyway. -/
theorem outcome_restrict (hkeep : p.KeepsComponents keep)
    (hlost : ∀ a b, p.Calls a b → keep a = true → keep b = false →
      (p.progress config).table.ready? b = none) (ha : keep a = true) :
    ((p.restrict keep).summarize config).get? a = (p.summarize config).get? a := by
  obtain ⟨hsynced, hnone, hsettled⟩ := progress_settled p config
  obtain ⟨hsynced', hnone', hsettled'⟩ := progress_settled (p.restrict keep) config
  induction hn : (ofProgram p).callDepth a using Nat.strong_induction_on generalizing a with
  | _ n ih =>
  by_cases hap : a ∈ p.names
  · have haq : a ∈ (p.restrict keep).names := mem_names_restrict.mpr ⟨hap, ha⟩
    have hc := componentOf_mem_components hap
    have hcq := componentOf_mem_components haq
    have hself := mem_componentOf_self hap
    rw [componentOf_restrict hkeep hap ha] at hcq
    have hstay (x : String) (hx : x ∈ ((ofProgram p).componentOf a).functions) : keep x = true :=
      hkeep a x ((mem_componentOf_iff hap).mp hx) ha
    have hsame : Component.analyze (p.restrict keep) config
        ((p.restrict keep).progress config).table ((ofProgram p).componentOf a) =
          Component.analyze p config (p.progress config).table ((ofProgram p).componentOf a) := by
      refine Component.analyze_congr hc (fun x hx => function?_restrict (hstay x hx)) ?_
      intro x hx f hf b hb hout
      have hxa := (mem_componentOf_iff hap).mp hx
      by_cases hbp : b ∈ p.names
      · have hcall : p.Calls x b := ⟨f, hf, hb, hbp⟩
        cases hkb : keep b with
        | true =>
            refine hsynced.ready?_congr hsynced' (ih _ ?_ hkb rfl)
            -- a callee outside of the component cannot call back
            have hless := callDepth_lt hcall fun hback =>
              hout ((mem_componentOf_iff hap).mpr (hxa.trans ⟨.single hcall, hback⟩))
            exact hn ▸ Nat.lt_of_lt_of_le hless (callDepth_le hxa.1 hap)
        | false =>
            have hbq : b ∉ (p.restrict keep).names := fun h =>
              Bool.false_ne_true (hkb.symm.trans (mem_names_restrict.mp h).2)
            rw [hlost x b hcall (hstay x hx) hkb, SummaryTable.ready?, hsynced' b,
              ← summarize_eq, hnone' b hbq]
            rfl
      · refine hsynced.ready?_congr hsynced' ?_
        rw [← summarize_eq, ← summarize_eq, hnone b hbp,
          hnone' b fun h => hbp (mem_names_restrict.mp h).1]
    obtain ⟨e, he, rfl⟩ : ∃ e ∈ Component.analyze p config (p.progress config).table
        ((ofProgram p).componentOf a), e.1 = a := by
      rw [← Component.analyze_keys config (p.progress config).table hc] at hself
      exact List.mem_map.mp hself
    rw [hsettled _ hc e he, hsettled' _ hcq e (hsame ▸ he)]
  · rw [hnone a hap, hnone' a fun h => hap (mem_names_restrict.mp h).1]

/-- What is known of a function is what analyzing its component gives. -/
theorem mem_analyze_componentOf {r : FunctionResult} (ha : a ∈ p.names)
    (h : (p.summarize config).get? a = some (.ok r)) :
    (a, .ok r) ∈ Component.analyze p config (p.progress config).table
      ((ofProgram p).componentOf a) := by
  obtain ⟨-, -, hsettled⟩ := progress_settled p config
  have hc := componentOf_mem_components ha
  have hself := mem_componentOf_self ha
  rw [← Component.analyze_keys config (p.progress config).table hc] at hself
  obtain ⟨e, he, rfl⟩ := List.mem_map.mp hself
  rw [hsettled _ hc e he, Option.some.injEq] at h
  rwa [← h]

/-- Every function of a program has an outcome. -/
theorem outcome_isSome (config : Config) (ha : a ∈ p.names) :
    ((p.summarize config).get? a).isSome := by
  obtain ⟨-, -, hsettled⟩ := progress_settled p config
  have hc := componentOf_mem_components ha
  have hself := mem_componentOf_self ha
  rw [← Component.analyze_keys config (p.progress config).table hc] at hself
  obtain ⟨e, he, rfl⟩ := List.mem_map.mp hself
  rw [hsettled _ hc e he]
  rfl

/-- If one function of a component failed, then no function of it is visible. -/
theorem not_ready_of_failed {c : Component} (hc : c ∈ (ofProgram p).components)
    {e : NonConvergence} (ha : a ∈ c.functions)
    (hfailed : (p.summarize config).get? a = some (.error e)) :
    ∀ b ∈ c.functions, (p.progress config).table.ready? b = none := by
  intro b hb
  obtain ⟨hsynced, -, hsettled⟩ := progress_settled p config
  have hkeys := Component.analyze_keys config (p.progress config).table hc
  rw [← hkeys] at ha hb
  obtain ⟨x, hx, rfl⟩ := List.mem_map.mp ha
  obtain ⟨y, hy, rfl⟩ := List.mem_map.mp hb
  rw [hsettled c hc x hx, Option.some.injEq] at hfailed
  have hx' : (x.1, Except.error e) ∈ Component.analyze p config (p.progress config).table c := by
    rw [← hfailed]
    exact hx
  obtain ⟨e', he'⟩ := Component.analyze_failed hc hx' y hy
  rw [SummaryTable.ready?, hsynced, ← summarize_eq, hsettled c hc y hy, he']
  rfl

/-- The interprocedural analysis is modular and isolates failures. Every function has an outcome.
A part of the program that calls no function outside of it has the same outcomes on its own.
Deleting a component that failed does not change the outcome of any other function. -/
theorem summarize_modular (p : Program) (config : Config) :
    (∀ name ∈ p.names, ((p.summarize config).get? name).isSome) ∧
    (∀ keep : String → Bool,
      (∀ f ∈ p.functions, keep f.name = true → ∀ callee ∈ f.callees, callee ∈ p.names →
        keep callee = true) →
      ∀ name, keep name = true →
        ((p.restrict keep).summarize config).get? name = (p.summarize config).get? name) ∧
    (∀ c ∈ (CallGraph.ofProgram p).components,
      (∃ name ∈ c.functions, ∃ e, (p.summarize config).get? name = some (.error e)) →
      ∀ name, name ∉ c.functions →
        ((p.restrict fun n => decide (n ∉ c.functions)).summarize config).get? name =
          (p.summarize config).get? name) := by
  refine ⟨fun name => outcome_isSome config, fun keep hclosed name hname => ?_,
    fun c hc hfailed name hname => ?_⟩
  · have hcalls (a b : String) (h : p.Calls a b) (ha : keep a = true) : keep b = true := by
      obtain ⟨f, hf, hb, hbp⟩ := h
      obtain ⟨hmem, rfl⟩ := function?_eq_some_iff.mp hf
      exact hclosed f hmem ha b hb hbp
    refine outcome_restrict (fun a b h ha => ?_) (fun a b h ha hb => ?_) hname
    · have hcan := h.1
      induction hcan with
      | refl => exact ha
      | @tail x y hax hxy ih => exact hcalls x y hxy (ih ⟨hax, .head hxy h.2⟩)
    · exact absurd (hb.symm.trans (hcalls a b h ha)) Bool.false_ne_true
  · obtain ⟨failed, hmem, e, he⟩ := hfailed
    refine outcome_restrict (fun a b h ha => ?_) (fun a b _ _ hb => ?_) (decide_eq_true hname)
    · refine decide_eq_true fun hb => of_decide_eq_true ha ?_
      exact (mem_component_iff hc hb).mpr h.symm
    · exact not_ready_of_failed hc hmem he b
        (Classical.not_not.mp (of_decide_eq_false hb))

end Program

/-! ## A program with a component that fails -/

/-- A configuration that gives a recursive component a single pass. -/
def hurried : Config :=
  { Config.standard with maxBlockVisits := 50, maxPasses := 1 }

/-- A function of one block, with a parameter `n` and a variable `x`. -/
def straight (name : String) (instructions : List Instruction) (result : VarId) : Function where
  name := name
  returns := .int 32
  vars := [⟨"n", .int 32, .param⟩, ⟨"x", .int 32, .local⟩]
  blocks := .ofList [(0, ⟨instructions, .ret (some (.var result))⟩)]
  entry := 0
  nextBlock := 1

/-- `ping` and `pong` call each other, `twice` calls `leaf`, and `top` calls both. -/
def switchboard : Program where
  functions :=
    [straight "top" [.call (some 1) (.direct "ping") [.var 0],
        .call (some 1) (.direct "twice") [.var 1]] 1,
      straight "ping" [.call (some 1) (.direct "pong") [.var 0]] 0,
      straight "pong" [.call (some 1) (.direct "ping") [.var 0]] 1,
      straight "twice" [.call (some 1) (.direct "leaf") [.var 0]] 1,
      straight "leaf" [] 0]
  distinct := by decide

theorem summarize_modular_switchboard :
    (switchboard.summarize hurried).get? "ping" = some (.error ⟨"ping, pong", 1⟩) ∧
    ((switchboard.restrict fun n => decide (n ∉ ["ping", "pong"])).summarize hurried).get? "top" =
      (switchboard.summarize hurried).get? "top" ∧
    (∀ f ∈ switchboard.functions, decide (f.name ∈ ["twice", "leaf"]) = true →
      ∀ callee ∈ f.callees, callee ∈ switchboard.names →
        decide (callee ∈ ["twice", "leaf"]) = true) ∧
    ((switchboard.restrict fun n => decide (n ∈ ["twice", "leaf"])).summarize hurried).get?
        "twice" = (switchboard.summarize hurried).get? "twice" := by
  have hfailed : (switchboard.summarize hurried).get? "ping" =
      some (.error ⟨"ping, pong", 1⟩) := by
    cbv
  have hmem : (⟨["ping", "pong"], true⟩ : Component) ∈
      (CallGraph.ofProgram switchboard).components := by
    decide_cbv
  have hclosed : ∀ f ∈ switchboard.functions, decide (f.name ∈ ["twice", "leaf"]) = true →
      ∀ callee ∈ f.callees, callee ∈ switchboard.names →
        decide (callee ∈ ["twice", "leaf"]) = true := by
    decide
  obtain ⟨-, hpart, hrest⟩ := Program.summarize_modular switchboard hurried
  exact ⟨hfailed, hrest _ hmem ⟨"ping", by decide, _, hfailed⟩ "top" (by decide), hclosed,
    hpart _ hclosed "twice" (by decide)⟩

end TaintAnalysis
