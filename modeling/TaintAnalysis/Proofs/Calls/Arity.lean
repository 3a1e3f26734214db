import TaintAnalysis.Proofs.Calls.CallOrder
import TaintAnalysis.Proofs.Program.Validation
import TaintAnalysis.Proofs.Solver.Formals

/-!
# Summaries fit the calls that they are put into

A summary speaks of formal parameters by position, and a call site looks each of them up
among the arguments. Where there is no argument, the taint is dropped without notice.
This does not happen in a validated program. What a summary mentions are parameters of
the function that it was made for, whatever table the function was analyzed against, and
whether the summary is that of one run or the join of several; and every call of the
function has as many arguments as the function has parameters.

`Fits` is the first half for a table. It holds of every table that is ever consulted: of
those that the levels leave behind, since they record summaries of runs, and of those in
the middle of a pass, since the families there are learned from runs.
-/

namespace TaintAnalysis

variable {p q : Program} {config : Config} {name : String} {table : SummaryTable}

/-- Every summary of the table is about the parameters of the function that it is for. -/
def SummaryTable.Fits (p : Program) (table : SummaryTable) : Prop :=
  ∀ name summary, table.ready? name = some summary →
    ∃ f, p.function? name = some f ∧ summary.Within f.paramCount

/-! ## Tables -/

/-- No summary is of a function that the program does not have. -/
theorem SummaryTable.Fits.ready?_eq_none (h : table.Fits p) (hname : name ∉ p.names) :
    table.ready? name = none := by
  refine Option.eq_none_iff_forall_ne_some.mpr fun summary hready => ?_
  obtain ⟨f, hf, -⟩ := h name summary hready
  exact hname (Program.mem_names_iff.mpr ⟨f, hf⟩)

namespace Component

variable {c : Component} {family : String → Summary} {peers : List String} {t : SummaryTable}

theorem summary_within_of_analyzeFunction {r : FunctionResult}
    (h : analyzeFunction p config t peers name = some (.ok r)) :
    ∃ f, p.function? name = some f ∧ r.summary.Within f.paramCount := by
  obtain ⟨f, hf, hrun⟩ := Option.map_eq_some_iff.mp h
  refine ⟨f, hf, ?_⟩
  rw [Run.summary_of_ok hrun]
  exact Run.within_summary f config t peers

/-- What is learned about a function is about its parameters. -/
theorem Learned.within (h : Learned p config c table family) {f : Function}
    (hf : p.function? name = some f) : (family name).Within f.paramCount := by
  induction h with
  | start => exact Summary.within_empty _
  | @learn family learned r _ _ hrun ih =>
      by_cases hname : name = learned
      · subst hname
        obtain ⟨g, hg, hwithin⟩ := summary_within_of_analyzeFunction hrun
        obtain rfl : f = g := Option.some.inj (hf.symm.trans hg)
        rw [Function.update_self]
        exact ih.join hwithin
      · rw [Function.update_of_ne hname]
        exact ih

theorem fits_tableWith (hc : c ∈ (CallGraph.ofProgram p).components) (htable : table.Fits p)
    (h : Learned p config c table family) : (c.tableWith table family).Fits p := by
  intro name summary hready
  rw [ready?_tableWith] at hready
  split at hready
  · next hname =>
    obtain ⟨f, hf⟩ := Option.isSome_iff_exists.mp (known_of_mem_components hc name hname)
    exact ⟨f, hf, Option.some.inj hready ▸ h.within hf⟩
  · exact htable name summary hready

theorem Consults.fits {u : SummaryTable} (hc : c ∈ (CallGraph.ofProgram p).components)
    (htable : table.Fits p) (h : Consults p config c table name u) : u.Fits p := by
  rcases h.learned hc with rfl | ⟨family, hfamily, rfl⟩
  · exact htable
  · exact fits_tableWith hc htable hfamily

/-- The summaries that the analysis of a component returns are about the parameters. -/
theorem summary_within_of_analyze (hc : c ∈ (CallGraph.ofProgram p).components) {r : FunctionResult}
    (h : (name, .ok r) ∈ analyze p config table c) :
    ∃ f, p.function? name = some f ∧ r.summary.Within f.paramCount := by
  obtain ⟨_, -, hrun⟩ := exists_consulted hc h
  exact summary_within_of_analyzeFunction hrun

end Component

namespace Progress

variable {g : Progress}

theorem fits_record (hg : g.table.Fits p) {outcome : Outcome}
    (h : ∀ r, outcome = .ok r → ∃ f, p.function? name = some f ∧ r.summary.Within f.paramCount) :
    (g.record name outcome).table.Fits p := by
  intro n summary hready
  rw [record, SummaryTable.ready?, OrderedMap.get?_insert] at hready
  split at hready
  · next s hget =>
    obtain rfl := Option.some.inj hready
    split at hget
    · next hn =>
      cases outcome with
      | error e =>
          exact absurd hget (by simp only [CalleeSummary.ofOutcome, Option.some.injEq,
            reduceCtorEq, not_false_eq_true])
      | ok r =>
          obtain rfl := CalleeSummary.ready.inj (Option.some.inj hget)
          exact hn ▸ h r rfl
    · exact hg n s (by rw [SummaryTable.ready?, hget])
  · exact absurd hready.symm (Option.some_ne_none summary)

theorem fits_level (hg : g.table.Fits p) {components : List Component}
    (h : ∀ c ∈ components, c ∈ (CallGraph.ofProgram p).components) :
    (level p config g components).table.Fits p := by
  refine List.foldlRecOn (motive := fun g' : Progress => g'.table.Fits p) _ _ hg
    fun g' hg' ⟨name, outcome⟩ he => fits_record hg' fun r hr => ?_
  obtain ⟨c, hc, hanalyzed⟩ := List.mem_flatMap.mp he
  obtain rfl : outcome = .ok r := hr
  exact Component.summary_within_of_analyze (h c hc) hanalyzed

/-- The tables that the levels begin with fit the functions. -/
theorem fits_before (p : Program) (config : Config) (i : Nat) : (before p config i).table.Fits p := by
  refine List.foldlRecOn (motive := fun g : Progress => g.table.Fits p) _ _
    (fun _ _ h => nomatch h) fun g hg components hmem => fits_level hg fun c hc => ?_
  exact Program.mem_flatten_levels.mp
    (List.mem_flatten.mpr ⟨components, List.mem_of_mem_take hmem, hc⟩)

/-- A component is analyzed against a table that has, of its callees, what is known at the end. -/
theorem analyze_before {c : Component} {i : Nat} (hc : CallGraph.OnLevel p c i) :
    c.analyze p config (before p config i).table = c.analyze p config (p.progress config).table := by
  obtain ⟨hsynced, hnone, -⟩ := Program.progress_settled p config
  refine Component.analyze_congr hc.mem_components (fun _ _ => rfl) fun a ha f hf b hb hout => ?_
  by_cases hbp : b ∈ p.names
  · obtain ⟨hbefore, hkept⟩ := before_outcomes config (hc.mem_take ha ⟨f, hf, hb, hbp⟩ hout)
    exact hsynced.ready?_congr hbefore hkept
  · rw [(fits_before p config i).ready?_eq_none hbp, SummaryTable.ready?, hsynced b,
      ← Program.summarize_eq, hnone b hbp]
    rfl

end Progress

/-! ## Calls -/

/-- Every formal parameter that the value mentions has an actual one, and what depending on it
amounts to is part of what the value means for the caller. -/
def Value.Passed (actuals : List Value) (v : Value) : Prop :=
  ∀ e ∈ v.entries, ∃ actual, actuals[e.1]? = some actual ∧
    throughFormal e.2 actual ≤ v.substitute actuals

theorem Value.Within.passed {v : Value} {actuals : List Value} (h : v.Within actuals.length) :
    v.Passed actuals := by
  intro e he
  have hlt := h e.1 (List.mem_map_of_mem he)
  refine ⟨actuals[e.1], List.getElem?_eq_getElem hlt, ?_⟩
  have hkind := (mem_entries_iff.mp he).1
  exact throughFormal_le_substitute (List.getElem?_eq_getElem hlt) (hkind ▸ Kind.le_refl _)

/-- Every argument is evaluated. -/
theorem length_mapM_evalArgument (p : Problem) (s : State) (args : List Expr) (m : Memory) :
    ((args.mapM (p.evalArgument s)).run m).1.length = args.length := by
  induction args generalizing m with
  | nil => rfl
  | cons arg rest ih =>
      rw [List.mapM_cons]
      exact congrArg (· + 1) (ih _)

namespace Program

/-- Validation compares the number of arguments of a call with that of the parameters. -/
theorem length_args_of_validate (h : p.validate config = .ok q) {f g : Function}
    (hf : f ∈ q.functions) {dst : Option VarId} {args : List Expr}
    (hcall : .call dst (.direct name) args ∈ f.instructions) (hg : q.function? name = some g) :
    args.length = g.paramCount := by
  have hcheck := forM_eq_ok_iff.mp ((validate_eq_ok_iff.mp h).2.2.1 f hf).2 _ hcall
  rw [Function.checkCall, hg] at hcheck
  dsimp only at hcheck
  split at hcheck
  · next hlen => exact hlen.symm
  · exact nomatch hcheck

/-- The runs of the solver that the analysis of a program is made of: a function of a component is
analyzed against a table that it consults, with the component as its peers if that is recursive. -/
inductive Makes (p : Program) (config : Config) (f : Function) :
    SummaryTable → List String → Prop where
  | run {c : Component} {i : Nat} {name : String} {table : SummaryTable}
      (hc : CallGraph.OnLevel p c i) (hname : name ∈ c.functions) (hf : p.function? name = some f)
      (hconsults : c.Consults p config (Progress.before p config i).table name table) :
      Makes p config f table (if c.isRecursive then c.functions else [])

variable {f : Function} {peers : List String}

theorem Makes.fits (h : p.Makes config f table peers) : f ∈ p.functions ∧ table.Fits p := by
  obtain ⟨hc, hname, hf, hconsults⟩ := h
  exact ⟨(function?_eq_some_iff.mp hf).1,
    hconsults.fits hc.mem_components (Progress.fits_before p config _)⟩

/-- Each result of the analysis is that of such a run. -/
theorem exists_makes {result : FunctionResult}
    (h : (p.summarize config).get? name = some (.ok result)) :
    ∃ f table peers, p.function? name = some f ∧ p.Makes config f table peers ∧
      (Run.ofFunction f config table peers).result = .ok result := by
  have hname : name ∈ p.names := by
    by_contra hno
    rw [(progress_settled p config).2.1 name hno] at h
    exact Option.some_ne_none _ h.symm
  have hmem := mem_analyze_componentOf hname h
  obtain ⟨i, hc⟩ := CallGraph.exists_onLevel_iff.mpr (CallGraph.componentOf_mem_components hname)
  rw [← Progress.analyze_before hc] at hmem
  obtain ⟨u, hconsults, hrun⟩ := Component.exists_consulted hc.mem_components hmem
  obtain ⟨f, hf, hresult⟩ := Option.map_eq_some_iff.mp hrun
  exact ⟨f, u, _, hf, .run hc (CallGraph.mem_componentOf_self hname) hf hconsults, hresult⟩

/-- The summary that a run finds for a call is about the arguments. -/
theorem Makes.within_args {given : Config} (hrun : q.Makes config f table peers)
    (hvalid : p.validate given = .ok q) {b : BlockId} {dst : Option VarId} {args : List Expr}
    {around : Surroundings} {s : State} {m : Memory} {summary : Summary}
    (hcall : (Run.ofFunction f config table peers).Executes b (.call dst (.direct name) args)
      around s m)
    (hready : table.ready? name = some summary) : summary.Within args.length := by
  obtain ⟨hf, hfits⟩ := hrun.fits
  obtain ⟨g, hg, hwithin⟩ := hfits name summary hready
  have hmem : .call dst (.direct name) args ∈ f.instructions := by
    obtain ⟨k, block, before, after, -, hblock, his, -, -⟩ := hcall
    exact List.mem_flatMap.mpr ⟨block, OrderedMap.mem_values_iff.mpr ⟨b, hblock⟩,
      his ▸ List.mem_append_right _ List.mem_cons_self⟩
  rwa [length_args_of_validate hvalid hf hmem hg]

/-- Summaries fit the calls of a validated program, in every run of its analysis; each outcome that
is a result is that of one of these runs. All that a run stores is about the parameters of its
function, at the start and after each visit, and where an instruction is executed. So a call of a
function that has a summary puts the values of its arguments into the summary without leaving
anything out: whatever formal parameter the summary mentions has an argument. -/
theorem summaries_fit_calls {given : Config} (hvalid : p.validate given = .ok q) :
    (∀ name result, (q.summarize config).get? name = some (.ok result) →
      ∃ f table peers, q.function? name = some f ∧ q.Makes config f table peers ∧
        (Run.ofFunction f config table peers).result = .ok result) ∧
    ∀ f table peers, q.Makes config f table peers →
      let r := Run.ofFunction f config table peers
      (∀ k ∈ r.start :: r.visits.map Prod.snd, k.Within f.paramCount) ∧
      (∀ b i around s m, r.Executes b i around s m →
        s.Within f.paramCount ∧ m.Within f.paramCount) ∧
      r.summary.Within f.paramCount ∧
      ∀ b dst callee args around s m summary,
        r.Executes b (.call dst (.direct callee) args) around s m →
        table.ready? callee = some summary →
        let x := (args.mapM (r.problem.evalArgument s)).run m
        (r.problem.transfer around s (.call dst (.direct callee) args)).run m =
            (r.problem.callKnown around s dst (.direct callee) args x.1 summary).run x.2 ∧
          summary.returned.Passed x.1 ∧
          ∀ e ∈ summary.outs, (∃ arg, args[e.1]? = some arg) ∧ e.2.Passed x.1 := by
  refine ⟨fun name result h => exists_makes h, ?_⟩
  intro f table peers hrun r
  refine ⟨fun k hk => Run.within_of_mem hk, fun b i around s m h => h.within,
    Run.within_summary f config table peers, ?_⟩
  intro b dst callee args around s m summary hcall hready x
  have hwithin := hrun.within_args hvalid hcall hready
  have hpassed {v : Value} (hv : v.Within args.length) : v.Passed x.1 :=
    Value.Within.passed (length_mapM_evalArgument r.problem s args m ▸ hv)
  refine ⟨?_, hpassed hwithin.returned, fun e he => ?_⟩
  · have hsummary : r.problem.summaryOf? (.direct callee) = some summary := hready
    rw [Problem.transfer, hsummary]
    rfl
  · obtain ⟨hlt, hv⟩ := hwithin.outs e he
    exact ⟨⟨args[e.1], List.getElem?_eq_getElem hlt⟩, hpassed hv⟩

end Program

/-! ## A call between two passes -/

/-- The function of `relay` that reads through its pointer and hands it back. -/
def relayPull : Function :=
  relay.functions[1]

/-- What the other one writes through its pointer: its number, at a place that the pointer decides. -/
def relayWritten : Value :=
  (Value.single 1 Kind.directOnly).join (.single 0 Kind.indirectOnly)

/-- What the first pass over the two functions learns. -/
def relayLearned : SummaryTable :=
  .ofList
    [("pull", .ready (.tabulate (.single 1 Kind.directOnly) .empty fun _ => Value.bottom)),
      ("push", .ready (.tabulate (.single 1 Kind.directOnly) (.singleton 0) fun _ => relayWritten))]

/-- The function is analyzed against it in the second pass. -/
theorem makes_relay : relay.Makes .standard relayPull relayLearned ["pull", "push"] := by
  have hlevel : CallGraph.OnLevel relay ⟨["pull", "push"], true⟩ 0 := by
    have hlowest : (CallGraph.ofProgram relay).levels[0]? = some [⟨["pull", "push"], true⟩] := by
      decide_cbv
    exact ⟨_, hlowest, List.mem_singleton.mpr rfl⟩
  have hpass : (Component.pass relay .standard ⟨["pull", "push"], true⟩
      (Component.startTable ⟨["pull", "push"], true⟩ .empty)).toOption.map
        (fun pass => (pass.changed, pass.table)) = some (true, relayLearned) := by
    decide_cbv
  have hfollows : Component.Follows relay .standard ⟨["pull", "push"], true⟩
      (Component.startTable ⟨["pull", "push"], true⟩ .empty) relayLearned := by
    cases hdone : Component.pass relay .standard ⟨["pull", "push"], true⟩
      (Component.startTable ⟨["pull", "push"], true⟩ .empty) with
    | error e =>
        rw [hdone] at hpass
        exact absurd hpass.symm (Option.some_ne_none _)
    | ok done =>
        rw [hdone] at hpass
        obtain ⟨hchanged, htable⟩ := Prod.mk.inj (Option.some.inj hpass)
        exact ⟨done, hdone, hchanged, htable⟩
  have hfirst : [].foldlM (Component.passStep relay .standard ⟨["pull", "push"], true⟩)
      ⟨relayLearned, false, []⟩ = .ok ⟨relayLearned, false, []⟩ := rfl
  have hsplit : ["pull", "push"] = [] ++ "pull" :: ["push"] := rfl
  exact .run hlevel List.mem_cons_self rfl (.inPass rfl (.single hfollows) hsplit hfirst)

/-- The run of the function in the second pass. -/
def relayRun : Run :=
  .ofFunction relayPull .standard relayLearned ["pull", "push"]

/-- The call comes after what is read through the pointer. -/
theorem relayRun_executes : ∃ around s m,
    relayRun.Executes 0 (.call (some 2) (.direct "push") [.var 0, .var 2]) around s m :=
  ⟨_, _, _, relayRun.start, ⟨[.load 2 (.deref (.var 0)),
    .call (some 2) (.direct "push") [.var 0, .var 2]], .ret (some (.var 1))⟩,
    [.load 2 (.deref (.var 0))], [], by decide_cbv, rfl, rfl, rfl, rfl⟩

theorem summaries_fit_calls_relay :
    relay.validate .standard = .ok relay ∧
    relay.Makes .standard relayPull relayLearned ["pull", "push"] ∧
    ∃ around s m,
      relayRun.Executes 0 (.call (some 2) (.direct "push") [.var 0, .var 2]) around s m ∧
      m.Within 2 ∧ relayWritten.sources.elems = [0, 1] ∧
      relayWritten.Passed
        (([Expr.var 0, .var 2].mapM (relayRun.problem.evalArgument s)).run m).1 := by
  have hvalid : relay.validate .standard = .ok relay := by cbv
  obtain ⟨-, hruns⟩ := Program.summaries_fit_calls hvalid
  obtain ⟨-, hwithin, -, hcalls⟩ := hruns _ _ _ makes_relay
  obtain ⟨around, s, m, hexec⟩ := relayRun_executes
  obtain ⟨-, -, houts⟩ := hcalls _ _ _ _ _ _ _ _ hexec rfl
  exact ⟨hvalid, makes_relay, around, s, m, hexec, (hwithin _ _ _ _ _ hexec).2, by decide,
    (houts _ List.mem_cons_self).2⟩

end TaintAnalysis
