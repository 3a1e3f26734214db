import Mathlib.Logic.Function.Basic
import Mathlib.Logic.Relation
import TaintAnalysis.Calls.Summarize
import TaintAnalysis.Proofs.Calls.Components
import TaintAnalysis.Proofs.Program.Validation
import TaintAnalysis.Proofs.Solver.LeastSolution

/-!
# Recursive components

The passes over a recursive component rewrite the table in place: a function
that is analyzed late in a pass sees what the earlier ones learned in it, and
what is kept for a function is the join of all its summaries so far, not the
last one. Two things could go wrong. The passes could overshoot, and the joined
summary, which the functions of the component were analyzed against, could
differ from the summary of the last pass, which callers get to see.

Neither happens, and both for the same reason: the summary of a run grows with
the summaries it is given (`summary_below`). Every table of every pass holds, for
the functions of the component, a family of summaries that was learned one run
after the other from the empty one (`Learned`). By induction on that, a learned
family lies below every family that its own runs reproduce, and below what runs
produce from anything above it. At the end the second says that the family lies
below the summaries of the last pass, and the last pass has added nothing, so
the two are the same.
-/

namespace TaintAnalysis

/-! ## The summary of a run grows with the summaries it is given -/

namespace Run

variable {f : Function} {config : Config} {t u : SummaryTable} {peers : List String}
  {result : FunctionResult}

/-- A run reports no more than a run on a larger table that converged. -/
theorem summary_below (hf : f.AddressFree) (htu : t.Below u)
    (hok : (ofFunction f config u peers).result = .ok result) :
    (ofFunction f config t peers).summary.Below result.summary := by
  have hposed (table : SummaryTable) : (Problem.ofFunction f config table peers).1.WellPosed _ :=
    Problem.wellPosed_of_addressFree hf
  have hpost := Problem.next_below_of_exhausted (hposed u)
    (fun b _ block hblock => Problem.watched_of_addressFree hf hblock) reached_ofFunction
    (exhausted_of_ok hok)
  have hsized := (Problem.sound_of_reached (hposed u) reached_ofFunction).sized.assignment
  -- what the run on the larger table knows satisfies the equations of the smaller one
  have hnext := (Problem.next_mono (p := (Problem.ofFunction f config t peers).1) (u := u) htu
    (fun b => Nat.le_of_eq (hsized b)) (.refl _)).trans hpost
  have hσ := Problem.below_of_reached (hposed t) hnext reached_ofFunction
  rw [summary_of_ok hok]
  exact summary_below_of_le (hposed t) hσ.returned hσ.outs

end Run

/-! ## Tables and families -/

namespace Component

variable {p : Program} {config : Config} {c : Component} {table : SummaryTable}
  {family other : String → Summary} {name : String} {s : Summary}

/-- The table in which every function of the component has its summary from the family. -/
def tableWith (c : Component) (table : SummaryTable) (family : String → Summary) : SummaryTable :=
  c.functions.foldl (fun t name => t.insert name (.ready (family name))) table

/-- The analysis of a function of the component when every function of the
component has its summary from the family. -/
def rerun (p : Program) (config : Config) (c : Component) (table : SummaryTable)
    (family : String → Summary) (name : String) : Option Outcome :=
  analyzeFunction p config (c.tableWith table family) c.functions name

/-- The family is what the analysis of the functions against it returns. -/
def Reproduces (p : Program) (config : Config) (c : Component) (table : SummaryTable)
    (family : String → Summary) : Prop :=
  ∀ name ∈ c.functions, ∃ result,
    rerun p config c table family name = some (.ok result) ∧ result.summary = family name

/-- What the results say about a function. -/
def published (results : List (String × FunctionResult)) (name : String) : Summary :=
  ((results.lookup name).map (·.summary)).getD .empty

theorem get?_tableWith (c : Component) (table : SummaryTable) (family : String → Summary)
    (name : String) : (c.tableWith table family).get? name =
      if name ∈ c.functions then some (.ready (family name)) else table.get? name := by
  rw [← OrderedMap.get?_foldl_insert (fun name => CalleeSummary.ready (family name)),
    List.foldl_map, tableWith]

theorem ready?_tableWith (c : Component) (table : SummaryTable) (family : String → Summary)
    (name : String) : (c.tableWith table family).ready? name =
      if name ∈ c.functions then some (family name) else table.ready? name := by
  rw [SummaryTable.ready?, get?_tableWith]
  by_cases hname : name ∈ c.functions
  · rw [if_pos hname, if_pos hname]
  · rw [if_neg hname, if_neg hname, SummaryTable.ready?]

theorem keys_tableWith (c : Component) (table : SummaryTable) (family other : String → Summary) :
    (c.tableWith table family).keys = (c.tableWith table other).keys := by
  have h := OrderedMap.keys_foldl_insert_congr (fun name => CalleeSummary.ready (family name))
    (fun name => .ready (other name)) c.functions (Eq.refl table.keys)
  rwa [List.foldl_map, List.foldl_map] at h

theorem tableWith_congr (h : ∀ name ∈ c.functions, family name = other name) :
    c.tableWith table family = c.tableWith table other := by
  refine OrderedMap.eq_of_keys_eq (keys_tableWith c table family other) ?_
  intro name
  rw [get?_tableWith, get?_tableWith]
  by_cases hname : name ∈ c.functions
  · rw [if_pos hname, if_pos hname, h name hname]
  · rw [if_neg hname, if_neg hname]

/-- Recording a summary for a function of the component changes the family there. -/
theorem insert_tableWith (hname : name ∈ c.functions) :
    (c.tableWith table family).insert name (.ready s) =
      c.tableWith table (Function.update family name s) := by
  refine OrderedMap.eq_of_keys_eq ?_ fun n => ?_
  · have hmem : name ∈ (c.tableWith table family).keys :=
      OrderedMap.mem_keys_iff_exists.mpr ⟨_, (get?_tableWith c table family name).trans
        (if_pos hname)⟩
    rw [OrderedMap.keys_insert, if_pos hmem]
    exact keys_tableWith c table _ _
  · rw [OrderedMap.get?_insert, get?_tableWith, get?_tableWith]
    by_cases hn : n = name
    · subst hn
      rw [if_pos rfl, if_pos hname, Function.update_self]
    · rw [if_neg hn, Function.update_of_ne hn]

theorem tableWith_below {table' : SummaryTable} (htable : table.Below table')
    (h : ∀ name ∈ c.functions, (family name).Below (other name)) :
    (c.tableWith table family).Below (c.tableWith table' other) := by
  intro name
  rw [ready?_tableWith, ready?_tableWith]
  by_cases hname : name ∈ c.functions
  · rw [if_pos hname, if_pos hname]
    exact .some (h name hname)
  · rw [if_neg hname, if_neg hname]
    exact htable name

/-! ## What analyzing one function returns -/

/-- No function of the component takes an address. -/
def AddressFree (p : Program) (c : Component) : Prop :=
  ∀ name ∈ c.functions, ∀ f, p.function? name = some f → f.AddressFree

theorem rerun_tainted (hc : AddressFree p c) (hname : name ∈ c.functions) {r : FunctionResult}
    (h : rerun p config c table family name = some (.ok r)) :
    ∀ e ∈ r.summary.outs, e.2 ≠ Value.bottom := by
  obtain ⟨f, hf, hrun⟩ := Option.map_eq_some_iff.mp h
  rw [Run.summary_of_ok hrun]
  exact Run.summary_tainted (Problem.wellPosed_of_addressFree (hc name hname f hf))

theorem rerun_mono (hc : AddressFree p c) (hname : name ∈ c.functions) {r r' : FunctionResult}
    (hle : ∀ name ∈ c.functions, (family name).Below (other name))
    (h : rerun p config c table family name = some (.ok r))
    (h' : rerun p config c table other name = some (.ok r')) : r.summary.Below r'.summary := by
  obtain ⟨f, hf, hrun⟩ := Option.map_eq_some_iff.mp h
  obtain ⟨f', hf', hrun'⟩ := Option.map_eq_some_iff.mp h'
  obtain rfl : f = f' := Option.some.inj (hf.symm.trans hf')
  rw [Run.summary_of_ok hrun]
  exact Run.summary_below (hc name hname f hf) (tableWith_below (.refl _) hle) hrun'

/-! ## Families that passes learn -/

/-- The family is learned from the empty one, by one run after the other. -/
inductive Learned (p : Program) (config : Config) (c : Component) (table : SummaryTable) :
    (String → Summary) → Prop
  | start : Learned p config c table fun _ => .empty
  | learn {family : String → Summary} {name : String} {r : FunctionResult} :
      Learned p config c table family → name ∈ c.functions →
      rerun p config c table family name = some (.ok r) →
      Learned p config c table (Function.update family name ((family name).join r.summary))

theorem update_join_below {r : FunctionResult}
    (hle : ∀ n ∈ c.functions, (family n).Below (other n)) (hr : r.summary.Below (other name)) :
    ∀ n ∈ c.functions,
      (Function.update family name ((family name).join r.summary) n).Below (other n) := by
  intro n hn
  by_cases hname : n = name
  · subst hname
    rw [Function.update_self]
    exact Summary.join_below (hle n hn) hr
  · rw [Function.update_of_ne hname]
    exact hle n hn

theorem below_update_join {r : FunctionResult} (n : String) :
    (family n).Below (Function.update family name ((family name).join r.summary) n) := by
  by_cases hname : n = name
  · subst hname
    rw [Function.update_self]
    exact Summary.below_join_left _ _
  · rw [Function.update_of_ne hname]
    exact .refl _

/-- A learned family stays below another one if runs on families below that one do. -/
theorem Learned.below_of_closed (h : Learned p config c table family)
    (hclosed : ∀ family name r, name ∈ c.functions →
      (∀ n ∈ c.functions, (family n).Below (other n)) →
      rerun p config c table family name = some (.ok r) → r.summary.Below (other name)) :
    ∀ name ∈ c.functions, (family name).Below (other name) := by
  induction h with
  | start => exact fun name _ => Summary.empty_below _
  | learn _ hname hrun ih => exact update_join_below ih (hclosed _ _ _ hname ih hrun)

/-- A learned family has no more than any family that its runs reproduce. -/
theorem Learned.below_of_reproduces (hc : AddressFree p c)
    (h : Learned p config c table family) (hother : Reproduces p config c table other) :
    ∀ name ∈ c.functions, (family name).Below (other name) := by
  refine h.below_of_closed fun family name r hname hle hrun => ?_
  obtain ⟨r', hrun', hr'⟩ := hother _ hname
  exact hr' ▸ rerun_mono hc hname hle hrun hrun'

/-- A learned family has no more than what runs return for any family above it. -/
theorem Learned.below_rerun (hc : AddressFree p c) (h : Learned p config c table family)
    (hle : ∀ name ∈ c.functions, (family name).Below (other name)) {r : FunctionResult}
    (hname : name ∈ c.functions) (hr : rerun p config c table other name = some (.ok r)) :
    (family name).Below r.summary := by
  induction h with
  | start => exact Summary.empty_below _
  | @learn family name' r' hfamily hname' hrun ih =>
      have hle' : ∀ n ∈ c.functions, (family n).Below (other n) := fun n hn =>
        (below_update_join n).trans (hle n hn)
      by_cases hn : name = name'
      · subst hn
        rw [Function.update_self]
        exact Summary.join_below (ih hle') (rerun_mono hc hname hle' hrun hr)
      · rw [Function.update_of_ne hn]
        exact ih hle'

/-! ## Passes -/

/-- One step of a pass: the function is analyzed against the family, and its summary is joined
into the family. If no change is reported, the join changes nothing. -/
theorem passStep_cases (hknown : (p.function? name).isSome) (hname : name ∈ c.functions)
    {start next : Pass} (hstart : start.table = c.tableWith table family)
    (h : passStep p config c start name = .ok next) :
    ∃ r, rerun p config c table family name = some (.ok r) ∧
      next.results = start.results ++ [(name, r)] ∧
      next.table = c.tableWith table
        (Function.update family name ((family name).join r.summary)) ∧
      (next.changed = false → start.changed = false ∧ next.table = start.table ∧
        (family name).join r.summary = family name) := by
  obtain ⟨f, hf⟩ := Option.isSome_iff_exists.mp hknown
  have hold : (start.table.ready? name).getD .empty = family name := by
    rw [hstart, ready?_tableWith, if_pos hname, Option.getD_some]
  rw [passStep, hstart] at h
  cases hrun : analyzeFunction p config (c.tableWith table family) c.functions name with
  | none =>
      rw [analyzeFunction, hf] at hrun
      exact absurd hrun (by simp only [Option.map_some, reduceCtorEq, not_false_eq_true])
  | some outcome =>
      cases outcome with
      | error e =>
          rw [hrun] at h
          exact absurd h (by simp only [reduceCtorEq, not_false_eq_true])
      | ok r =>
          rw [hrun] at h
          simp only [← hstart, hold] at h
          refine ⟨r, hrun, ?_⟩
          split at h
          · obtain rfl := Except.ok.inj h
            exact ⟨rfl, hstart ▸ insert_tableWith hname, nofun⟩
          · next hgrows =>
            obtain rfl := Except.ok.inj h
            have hjoin := Summary.join_eq_of_not_grows hgrows
            exact ⟨rfl, by rw [hjoin, Function.update_eq_self, hstart],
              fun hchanged => ⟨hchanged, rfl, hjoin⟩⟩

/-- What a pass, or a part of it, does to a learned family. If it reports no change, the table is
the one it began with, and each run returned what the table said already. -/
theorem foldlM_passStep (hknown : ∀ name ∈ c.functions, (p.function? name).isSome)
    (names : List String) (hnames : ∀ name ∈ names, name ∈ c.functions) {start done : Pass}
    (hfamily : Learned p config c table family) (hstart : start.table = c.tableWith table family)
    (hdone : names.foldlM (passStep p config c) start = .ok done) :
    (∃ family', Learned p config c table family' ∧ done.table = c.tableWith table family') ∧
      (done.changed = false → start.changed = false ∧ done.table = start.table ∧
        ∃ new, done.results = start.results ++ new ∧ new.map Prod.fst = names ∧
          ∀ e ∈ new, rerun p config c table family e.1 = some (.ok e.2) ∧
            (family e.1).join e.2.summary = family e.1) := by
  induction names generalizing start family with
  | nil =>
      obtain rfl : start = done := Except.ok.inj hdone
      exact ⟨⟨family, hfamily, hstart⟩, fun h => ⟨h, rfl, [], (List.append_nil _).symm, rfl,
        fun e he => absurd he List.not_mem_nil⟩⟩
  | cons name rest ih =>
      have hname := hnames name List.mem_cons_self
      rw [List.foldlM_cons] at hdone
      obtain ⟨next, hstep, hdone⟩ := bind_eq_ok_iff.mp hdone
      obtain ⟨r, hrun, hresults, htable, hsame⟩ :=
        passStep_cases (hknown name hname) hname hstart hstep
      obtain ⟨hlast, hrest⟩ := ih (fun n hn => hnames n (List.mem_cons_of_mem name hn))
        (hfamily.learn hname hrun) htable hdone
      refine ⟨hlast, fun h => ?_⟩
      obtain ⟨hchanged, htable', new, hresults', hkeys, hnew⟩ := hrest h
      obtain ⟨hchanged', htable'', hjoin⟩ := hsame hchanged
      rw [hjoin, Function.update_eq_self] at hnew
      refine ⟨hchanged', htable'.trans htable'', (name, r) :: new, ?_, ?_, ?_⟩
      · rw [hresults', hresults, List.append_assoc, List.singleton_append]
      · rw [List.map_cons, hkeys]
      · intro e he
        rcases List.mem_cons.mp he with rfl | he
        · exact ⟨hrun, hjoin⟩
        · exact hnew e he

/-- One table is followed by the other in the course of the passes. -/
def Follows (p : Program) (config : Config) (c : Component) (t u : SummaryTable) : Prop :=
  ∃ done, pass p config c t = .ok done ∧ done.changed = true ∧ done.table = u

/-- How the passes end: with a pass over a learned family that changes no summary. -/
theorem passes_cases (hknown : ∀ name ∈ c.functions, (p.function? name).isSome) {budget : Nat}
    {results : List (String × FunctionResult)} {start : SummaryTable}
    (hfamily : Learned p config c table family) (hstart : start = c.tableWith table family)
    (h : passes p config c budget start = .ok results) :
    ∃ last family', Relation.ReflTransGen (Follows p config c) start last ∧
      Learned p config c table family' ∧ last = c.tableWith table family' ∧
      pass p config c last = .ok ⟨last, false, results⟩ ∧
      results.map Prod.fst = c.functions ∧
      ∀ e ∈ results, rerun p config c table family' e.1 = some (.ok e.2) ∧
        (family' e.1).join e.2.summary = family' e.1 := by
  induction budget generalizing start family with
  | zero => exact absurd h (by simp only [passes, reduceCtorEq, not_false_eq_true])
  | succ budget ih =>
      rw [passes] at h
      obtain ⟨done, hpass, h⟩ := bind_eq_ok_iff.mp h
      obtain ⟨⟨next, hnext, htable⟩, hsame⟩ := foldlM_passStep hknown c.functions
        (fun _ hn => hn) hfamily hstart hpass
      split at h
      · next hchanged =>
        obtain ⟨last, family', hsteps, hrest⟩ := ih hnext htable h
        exact ⟨last, family', .head ⟨done, hpass, hchanged, rfl⟩ hsteps, hrest⟩
      · next hchanged =>
        rw [Bool.not_eq_true] at hchanged
        obtain rfl := Except.ok.inj h
        obtain ⟨-, htable', new, hresults, hkeys, hnew⟩ := hsame hchanged
        rw [List.nil_append] at hresults
        rw [← hresults] at hkeys hnew
        refine ⟨start, family, .refl, hfamily, hstart, ?_, hkeys, hnew⟩
        obtain ⟨doneTable, doneChanged, doneResults⟩ := done
        obtain rfl : doneTable = start := htable'
        obtain rfl : doneChanged = false := hchanged
        exact hpass

/-! ## Components of a program -/

/-- The functions of a component are functions of the program. -/
theorem known_of_mem_components (hc : c ∈ (CallGraph.ofProgram p).components) :
    ∀ name ∈ c.functions, (p.function? name).isSome := by
  intro name hname
  obtain ⟨f, hf⟩ := Program.mem_names_iff.mp (CallGraph.mem_names_of_mem_component hc hname)
  exact Option.isSome_iff_exists.mpr ⟨f, hf⟩

/-- The passes over a recursive component end with the least family of summaries that
analyzing its functions reproduces, and the table of the last pass holds this family. -/
theorem leastSummaries_of_analyzeRecursive {results : List (String × FunctionResult)}
    (hc : c ∈ (CallGraph.ofProgram p).components) (hfree : AddressFree p c)
    (hok : analyzeRecursive p config c table = .ok results) :
    results.map Prod.fst = c.functions ∧
      Reproduces p config c table (published results) ∧
      (∀ family, Reproduces p config c table family →
        ∀ name ∈ c.functions, (family name).covers (published results name) = true) ∧
      ∃ last, Relation.ReflTransGen (Follows p config c) (c.startTable table) last ∧
        pass p config c last = .ok ⟨last, false, results⟩ ∧
        last = c.tableWith table (published results) ∧
        ∀ e ∈ results, last.ready? e.1 = some e.2.summary := by
  obtain ⟨last, family, hsteps, hlearned, hlast, hpass, hkeys, hruns⟩ :=
    passes_cases (known_of_mem_components hc) .start rfl hok
  -- the family lies below what the last runs returned, and joining that added nothing
  have hsummary : ∀ e ∈ results, family e.1 = e.2.summary := by
    intro e he
    have hname : e.1 ∈ c.functions := hkeys ▸ List.mem_map_of_mem he
    obtain ⟨hrun, hjoin⟩ := hruns e he
    exact (hlearned.below_rerun hfree (fun n _ => .refl _) hname hrun).antisymm
      (Summary.below_of_join_eq (rerun_tainted hfree hname hrun) hjoin)
  have hpublished : ∀ name ∈ c.functions, family name = published results name := by
    intro name hname
    rw [← hkeys] at hname
    obtain ⟨e, he, rfl⟩ := List.mem_map.mp hname
    obtain ⟨r, hr⟩ := Option.isSome_iff_exists.mp
      (List.lookup_isSome_iff.mpr ⟨e, he, beq_self_eq_true e.1⟩)
    obtain ⟨before, after, hsplit, -⟩ := List.lookup_eq_some_iff.mp hr
    rw [published, hr]
    exact hsummary (e.1, r) (hsplit ▸ List.mem_append_right _ List.mem_cons_self)
  have htable : last = c.tableWith table (published results) :=
    hlast.trans (tableWith_congr hpublished)
  refine ⟨hkeys, fun name hname => ?_, fun other hother name hname => ?_, last, hsteps, hpass,
    htable, fun e he => ?_⟩
  · rw [← hkeys] at hname
    obtain ⟨e, he, rfl⟩ := List.mem_map.mp hname
    have hname : e.1 ∈ c.functions := hkeys ▸ List.mem_map_of_mem he
    refine ⟨e.2, ?_, (hsummary e he).symm.trans (hpublished e.1 hname)⟩
    rw [rerun, ← htable, hlast]
    exact (hruns e he).1
  · rw [← hpublished name hname]
    exact Summary.covers_of_below (hlearned.below_of_reproduces hfree hother name hname)
  · rw [hlast, ready?_tableWith, if_pos (hkeys ▸ List.mem_map_of_mem he), hsummary e he]

end Component

/-! ## Two functions that call each other -/

/-- Two functions that pass a pointer back and forth; one writes through it, and the
other one reads what was written. -/
def relay : Program where
  functions :=
    [{ name := "push"
       returns := .int 32
       vars :=
         [⟨"p", .pointer (.int 32), .param⟩, ⟨"n", .int 32, .param⟩, ⟨"x", .int 32, .local⟩]
       blocks := .ofList
         [(0, ⟨[.store (.deref (.var 0)) (.var 1),
            .call (some 2) (.direct "pull") [.var 0, .var 1]], .ret (some (.var 2))⟩)]
       entry := 0
       nextBlock := 1 },
     { name := "pull"
       returns := .int 32
       vars :=
         [⟨"q", .pointer (.int 32), .param⟩, ⟨"m", .int 32, .param⟩, ⟨"y", .int 32, .local⟩]
       blocks := .ofList
         [(0, ⟨[.load 2 (.deref (.var 0)),
            .call (some 2) (.direct "push") [.var 0, .var 2]], .ret (some (.var 1))⟩)]
       entry := 0
       nextBlock := 1 }]
  distinct := by decide

theorem leastSummaries_relay :
    ∃ results,
      Component.analyzeRecursive relay .standard ⟨["pull", "push"], true⟩ .empty = .ok results ∧
      Component.Reproduces relay .standard ⟨["pull", "push"], true⟩ .empty
        (Component.published results) ∧
      ∀ family, Component.Reproduces relay .standard ⟨["pull", "push"], true⟩ .empty family →
        (family "push").covers (Component.published results "push") = true := by
  have hsome : (Component.analyzeRecursive relay .standard ⟨["pull", "push"], true⟩
      .empty).toOption.isSome = true := by
    cbv
  have hmem : (⟨["pull", "push"], true⟩ : Component) ∈
      (CallGraph.ofProgram relay).components := by
    decide_cbv
  have hfree : ∀ f ∈ relay.functions, f.AddressFree := by decide
  cases hrun : Component.analyzeRecursive relay .standard ⟨["pull", "push"], true⟩ .empty with
  | error e =>
      rw [hrun] at hsome
      exact absurd hsome Bool.false_ne_true
  | ok results =>
      obtain ⟨-, hrep, hleast, -⟩ := Component.leastSummaries_of_analyzeRecursive hmem
        (fun name _ f hf => hfree f (List.mem_of_find?_eq_some hf)) hrun
      exact ⟨results, rfl, hrep, fun family hfamily =>
        hleast family hfamily "push" (by decide)⟩

end TaintAnalysis
