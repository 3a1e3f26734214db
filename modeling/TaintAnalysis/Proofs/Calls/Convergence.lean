import TaintAnalysis.Proofs.Calls.Modularity
import TaintAnalysis.Proofs.Solver.Formals

/-!
# The limits are never needed

Two numbers limit the work on a program: how many visits the run of a function may
take, and how many passes a recursive component. Both only guard against a defect.
With limits that are large enough no function fails, and the outcomes do not depend
on the limits.

For a single function that is `Run.exists_result`. A pass over a component adds to
the summaries of its functions, which have room for finitely many changes: they list
only parameters, and have only parameters as sources. So the passes end, and the
levels are finitely many.

The limits that are needed are not computed. `Settles` says that they exist, and it
is kept by sequencing.
-/

namespace TaintAnalysis

/-- The configuration with other limits. -/
def Config.withLimits (config : Config) (visits passes : Nat) : Config :=
  { config with maxBlockVisits := visits, maxPasses := passes }

/-- What is computed from the configuration if the limits are large enough. -/
def Settles (config : Config) {α : Type} (g : Config → α) (x : α) : Prop :=
  ∃ n, ∀ visits passes, n ≤ visits → n ≤ passes → g (config.withLimits visits passes) = x

namespace Settles

variable {config : Config} {α β : Type} {g : Config → α} {x y : α}

theorem const (x : α) : Settles config (fun _ => x) x :=
  ⟨0, fun _ _ _ _ => rfl⟩

theorem bind {h : Config → α → β} {z : β} (hg : Settles config g x)
    (hh : Settles config (fun c => h c x) z) : Settles config (fun c => h c (g c)) z := by
  obtain ⟨n, hn⟩ := hg
  obtain ⟨m, hm⟩ := hh
  refine ⟨max n m, fun visits passes hvisits hpasses => ?_⟩
  show h _ (g _) = z
  rw [hn visits passes (by omega) (by omega)]
  exact hm visits passes (by omega) (by omega)

theorem map (h : α → β) (hg : Settles config g x) : Settles config (fun c => h (g c)) (h x) :=
  hg.bind (.const _)

end Settles

/-! ## Summaries have room for finitely many changes -/

namespace Summary

variable {s t : Summary} {n : Nat}

/-- What a summary says of the result, and of each parameter. -/
def part (s : Summary) : Option Nat → Value
  | none => s.returned
  | some i => s.out i

theorem part_join (s t : Summary) (x : Option Nat) :
    (s.join t).part x = (s.part x).join (t.part x) := by
  cases x with
  | none => rfl
  | some i =>
      by_cases hi : i ∈ (s.join t).outParams
      · exact out_join s t hi
      · -- what the join does not list is listed in neither, or without taint
        rw [mem_outParams_join, not_or, not_exists] at hi
        have ht : t.out i = Value.bottom := by
          by_cases hmem : i ∈ t.outParams
          · by_contra hne
            exact hi.2 (t.out i) ⟨mem_outParams_iff.mp hmem, hne⟩
          · exact out_of_not_mem hmem
        have hjoin : i ∉ (s.join t).outParams := fun h =>
          (mem_outParams_join.mp h).elim hi.1 fun ⟨v, hv⟩ => hi.2 v hv
        show (s.join t).out i = (s.out i).join (t.out i)
        rw [out_of_not_mem hjoin, out_of_not_mem hi.1, ht]
        rfl

/-- A summary that has everything of another one does not grow when that is joined into it. -/
theorem join_eq_of_part_le (h : ∀ x, t.part x ≤ s.part x) : s.join t = s := by
  have hparams : (s.join t).outParams = s.outParams := by
    refine IdSet.ext fun i => ⟨fun hi => ?_, fun hi => mem_outParams_join.mpr (.inl hi)⟩
    refine (mem_outParams_join.mp hi).elim id fun ⟨v, hv, hne⟩ => ?_
    by_contra hmem
    have hle : t.out i ≤ s.out i := h (some i)
    rw [out_eq hv, out_of_not_mem hmem, Value.le_bottom_iff] at hle
    exact hne hle
  have hout : (s.join t).out = s.out :=
    funext fun i => (part_join s t (some i)).trans (Value.join_eq_left_iff.mpr (h (some i)))
  rw [← tabulate_self (s.join t), hparams, hout]
  exact (congrArg (tabulate · s.outParams s.out) (Value.join_eq_left_iff.mpr (h none))).trans
    (tabulate_self s)

/-- The summary is about `n` parameters: no taint is written through others, and no others are
sources. -/
structure Bounded (n : Nat) (s : Summary) : Prop where
  outs : ∀ i, n ≤ i → s.out i = Value.bottom
  clean : ∀ source, n ≤ source → ∀ x, Value.Clean source (s.part x)

theorem Within.bounded (h : s.Within n) : s.Bounded n where
  outs := fun i hi => out_of_not_mem fun hmem =>
    Nat.not_lt.mpr hi (h.outs _ (mem_outParams_iff.mp hmem)).1
  clean := fun source hsource x => by
    cases x with
    | none => exact Value.within_iff_clean.mp h.returned source hsource
    | some i => exact Value.within_iff_clean.mp (h.out i) source hsource

theorem Bounded.join (hs : s.Bounded n) (ht : t.Bounded n) : (s.join t).Bounded n where
  outs := fun i hi => by
    have hjoin := part_join s t (some i)
    rw [part, part, part, hs.outs i hi, ht.outs i hi] at hjoin
    exact hjoin
  clean := fun source hsource x => by
    rw [part_join]
    exact Value.clean_join.mpr ⟨hs.clean source hsource x, ht.clean source hsource x⟩

theorem Bounded.mono {m : Nat} (hs : s.Bounded n) (h : n ≤ m) : s.Bounded m where
  outs := fun i hi => hs.outs i (Nat.le_trans h hi)
  clean := fun source hsource => hs.clean source (Nat.le_trans h hsource)

/-- How much the summaries of some functions can still grow. -/
noncomputable def room (names : List String) (n : Nat) (family : String → Summary) : Nat :=
  Value.room ({name | name ∈ names} ×ˢ insert none (some '' {i | i < n})) n
    fun x : String × Option Nat => (family x.1).part x.2

theorem finite_parts (names : List String) (n : Nat) :
    ({name | name ∈ names} ×ˢ insert none (some '' {i | i < n}) :
      Set (String × Option Nat)).Finite :=
  names.finite_toSet.prod (((Set.finite_lt_nat n).image some).insert none)

variable {names : List String} {name : String} {family : String → Summary}

theorem part_le_update (family : String → Summary) (name : String) (t : Summary)
    (x : String × Option Nat) :
    (family x.1).part x.2 ≤ (Function.update family name ((family name).join t) x.1).part x.2 := by
  by_cases hname : x.1 = name
  · rw [hname, Function.update_self, part_join]
    exact Value.le_join_left _ _
  · rw [Function.update_of_ne hname]
    exact Value.le_refl _

theorem room_update_le (family : String → Summary) (name : String) (t : Summary) :
    room names n (Function.update family name ((family name).join t)) ≤ room names n family :=
  Value.room_le (finite_parts names n) (part_le_update family name t)

theorem room_update_lt (hname : name ∈ names) (hfamily : (family name).Bounded n)
    (ht : t.Bounded n) (hgrows : (family name).join t ≠ family name) :
    room names n (Function.update family name ((family name).join t)) < room names n family := by
  obtain ⟨x, hx⟩ : ∃ x, ¬ t.part x ≤ (family name).part x := by
    by_contra hnone
    exact hgrows (join_eq_of_part_le fun x => not_not.mp (not_exists.mp hnone x))
  have hmem : (name, x) ∈ ({name | name ∈ names} ×ˢ insert none (some '' {i | i < n}) :
      Set (String × Option Nat)) := by
    refine ⟨hname, ?_⟩
    cases x with
    | none => exact Set.mem_insert _ _
    | some i =>
        refine Set.mem_insert_of_mem _ ⟨i, ?_, rfl⟩
        by_contra hi
        have hbottom : t.part (some i) = Value.bottom := ht.outs i (Nat.le_of_not_lt hi)
        exact hx (hbottom ▸ Value.bottom_le _)
  refine Value.room_lt (finite_parts names n) (part_le_update family name t) hmem
    (fun source hsource => ?_) fun hle => hx ?_
  · rw [Function.update_self]
    exact (hfamily.join ht).clean source hsource x
  · rw [Function.update_self, part_join] at hle
    exact (Value.join_le_iff.mp hle).2

end Summary

/-! ## Recursive components -/

namespace Component

variable {p : Program} {config : Config} {c : Component} {table : SummaryTable}
  {family : String → Summary} {peers : List String} {n : Nat} {name : String}

/-- No function of the program has more parameters. -/
def ParamsLe (p : Program) (n : Nat) : Prop :=
  ∀ f ∈ p.functions, f.paramCount ≤ n

theorem exists_paramsLe (p : Program) : ∃ n, ParamsLe p n :=
  ⟨(p.functions.map Function.paramCount).sum, fun _ hf =>
    List.le_sum_of_mem (List.mem_map_of_mem hf)⟩

theorem analyzeFunction_settles (config : Config) (hp : ParamsLe p n)
    (hname : (p.function? name).isSome) (table : SummaryTable) (peers : List String) :
    ∃ r : FunctionResult, r.summary.Bounded n ∧
      Settles config (fun c' => analyzeFunction p c' table peers name) (some (.ok r)) := by
  obtain ⟨f, hf⟩ := Option.isSome_iff_exists.mp hname
  obtain ⟨r, hr⟩ := Run.exists_result f config table peers
  have hrun (limit : Nat) (hlimit : r.visits ≤ limit) :
      (Run.ofFunction f { config with maxBlockVisits := limit } table peers).result = .ok r := by
    rw [hr limit, if_pos hlimit]
  refine ⟨r, ?_, r.visits, fun visits passes hvisits _ => ?_⟩
  · rw [Run.summary_of_ok (hrun r.visits (Nat.le_refl _))]
    exact (Run.within_summary f _ table peers).bounded.mono (hp f (Program.function?_eq_some_iff.mp hf).1)
  · show (p.function? name).map _ = _
    rw [hf]
    exact congrArg some (hrun visits hvisits)

/-- A step of a pass does not fail, and a change that it reports takes up room. -/
theorem passStep_settles (config : Config) (hp : ParamsLe p n)
    (hknown : (p.function? name).isSome) (hname : name ∈ c.functions) {start : Pass}
    (hstart : start.table = c.tableWith table family) (hfamily : ∀ name, (family name).Bounded n) :
    ∃ next family', Settles config (fun c' => passStep p c' c start name) (.ok next) ∧
      next.table = c.tableWith table family' ∧ (∀ name, (family' name).Bounded n) ∧
      Summary.room c.functions n family' ≤ Summary.room c.functions n family ∧
      (next.changed = true → start.changed = true ∨
        Summary.room c.functions n family' < Summary.room c.functions n family) := by
  obtain ⟨r, hr, hsettles⟩ := analyzeFunction_settles config hp hknown start.table
    c.functions
  have hold : (start.table.ready? name).getD .empty = family name := by
    rw [hstart, ready?_tableWith, if_pos hname, Option.getD_some]
  have hstep : Settles config (fun c' => passStep p c' c start name) (
      if (family name).grows r.summary then
        .ok ⟨start.table.insert name (.ready ((family name).join r.summary)), true,
          start.results ++ [(name, r)]⟩
      else .ok { start with results := start.results ++ [(name, r)] }) := by
    obtain ⟨limit, hlimit⟩ := hsettles
    refine ⟨limit, fun visits passes hvisits hpasses => ?_⟩
    show passStep p (config.withLimits visits passes) c start name = _
    have hrun : analyzeFunction p (config.withLimits visits passes) start.table c.functions name =
        some (.ok r) := hlimit visits passes hvisits hpasses
    rw [passStep, hrun]
    simp only [hold]
  by_cases hgrows : (family name).grows r.summary = true
  · rw [if_pos hgrows] at hstep
    refine ⟨_, _, hstep, hstart ▸ insert_tableWith hname, fun m => ?_,
      Summary.room_update_le family name r.summary, fun _ => .inr ?_⟩
    · by_cases hm : m = name
      · rw [hm, Function.update_self]
        exact (hfamily name).join hr
      · rw [Function.update_of_ne hm]
        exact hfamily m
    · exact Summary.room_update_lt hname (hfamily name) hr (of_decide_eq_true hgrows)
  · rw [if_neg hgrows] at hstep
    exact ⟨_, family, hstep, hstart, hfamily, Nat.le_refl _, .inl⟩

theorem foldlM_passStep_settles (config : Config) (hp : ParamsLe p n)
    (hknown : ∀ name ∈ c.functions, (p.function? name).isSome) {names : List String}
    (hnames : ∀ name ∈ names, name ∈ c.functions) (start : Pass)
    (hstart : start.table = c.tableWith table family) (hfamily : ∀ name, (family name).Bounded n) :
    ∃ done family', Settles config (fun c' => names.foldlM (passStep p c' c) start) (.ok done) ∧
      done.table = c.tableWith table family' ∧ (∀ name, (family' name).Bounded n) ∧
      Summary.room c.functions n family' ≤ Summary.room c.functions n family ∧
      (done.changed = true → start.changed = true ∨
        Summary.room c.functions n family' < Summary.room c.functions n family) := by
  induction names generalizing start family with
  | nil => exact ⟨start, family, .const _, hstart, hfamily, Nat.le_refl _, .inl⟩
  | cons name rest ih =>
      have hname := hnames name List.mem_cons_self
      obtain ⟨next, family₁, hstep, htable, hbounded, hle, hchanged⟩ :=
        passStep_settles config hp (hknown name hname) hname hstart hfamily
      obtain ⟨done, family₂, hrest, htable', hbounded', hle', hchanged'⟩ :=
        ih (fun m hm => hnames m (List.mem_cons_of_mem name hm)) next htable hbounded
      refine ⟨done, family₂, ?_, htable', hbounded', Nat.le_trans hle' hle, fun hdone => ?_⟩
      · refine hstep.bind (h := fun c' x => x >>= fun y => rest.foldlM (passStep p c' c) y) ?_
        exact hrest
      · rcases hchanged' hdone with hnext | hlt
        · exact (hchanged hnext).imp_right fun hlt => by omega
        · exact .inr (by omega)

/-- The passes end: those that change a summary take up room. -/
theorem passes_settle (config : Config) (hp : ParamsLe p n)
    (hknown : ∀ name ∈ c.functions, (p.function? name).isSome)
    (table : SummaryTable) (hfamily : ∀ name, (family name).Bounded n) :
    ∃ results limit, ∀ visits passes budget, limit ≤ visits → limit ≤ passes → limit ≤ budget →
      Component.passes p (config.withLimits visits passes) c budget (c.tableWith table family) =
        .ok results := by
  induction hroom : Summary.room c.functions n family using Nat.strongRecOn generalizing family with
  | ind room ih =>
      subst hroom
      obtain ⟨done, family', ⟨limit, hlimit⟩, htable, hbounded, -, hchanged⟩ :=
        foldlM_passStep_settles config hp hknown (fun _ h => h)
          ⟨c.tableWith table family, false, []⟩ rfl hfamily
      have hpass (visits passes : Nat) (hvisits : limit ≤ visits) (hpasses : limit ≤ passes) :
          pass p (config.withLimits visits passes) c (c.tableWith table family) = .ok done :=
        hlimit visits passes hvisits hpasses
      cases hdone : done.changed with
      | false =>
          refine ⟨done.results, limit + 1, fun visits passes budget hvisits hpasses hbudget => ?_⟩
          obtain ⟨budget, rfl⟩ : ∃ m, budget = m + 1 := ⟨budget - 1, by omega⟩
          rw [Component.passes, hpass visits passes (by omega) (by omega)]
          simp [bind, Except.bind, hdone, pure, Except.pure]
      | true =>
          have hless := (hchanged hdone).resolve_left Bool.false_ne_true
          obtain ⟨results, limit', hrest⟩ := ih _ hless hbounded rfl
          refine ⟨results, max limit limit' + 1, fun visits passes budget hv hp hb => ?_⟩
          obtain ⟨budget, rfl⟩ : ∃ m, budget = m + 1 := ⟨budget - 1, by omega⟩
          rw [Component.passes, hpass visits passes (by omega) (by omega)]
          simp only [bind, Except.bind, hdone, if_true, htable]
          exact hrest visits passes budget (by omega) (by omega) (by omega)

/-! ## Components, levels and programs -/

theorem filterMap_settles (config : Config) (hp : ParamsLe p n) {names : List String}
    (hknown : ∀ name ∈ names, (p.function? name).isSome) (table : SummaryTable) :
    ∃ results : List (String × FunctionResult), Settles config
      (fun c' => names.filterMap fun name =>
        (analyzeFunction p c' table [] name).map fun outcome => (name, outcome))
      (results.map fun e => (e.1, .ok e.2)) := by
  induction names with
  | nil => exact ⟨[], .const _⟩
  | cons name rest ih =>
      obtain ⟨r, -, hr⟩ := analyzeFunction_settles config hp
        (hknown name List.mem_cons_self) table []
      obtain ⟨results, hrest⟩ := ih fun m hm => hknown m (List.mem_cons_of_mem name hm)
      refine ⟨(name, r) :: results, ?_⟩
      obtain ⟨limit, hlimit⟩ := hr
      obtain ⟨limit', hlimit'⟩ := hrest
      refine ⟨max limit limit', fun visits passes hvisits hpasses => ?_⟩
      have htail := hlimit' visits passes (by omega) (by omega)
      simp only [List.filterMap_cons, hlimit visits passes (by omega) (by omega), Option.map_some,
        htail, List.map_cons]

/-- The outcomes for the functions of a component are results. -/
theorem analyze_settles (config : Config) (hp : ParamsLe p n)
    (hc : c ∈ (CallGraph.ofProgram p).components) (table : SummaryTable) :
    ∃ results : List (String × FunctionResult),
      Settles config (fun c' => analyze p c' table c) (results.map fun e => (e.1, .ok e.2)) := by
  have hknown := known_of_mem_components hc
  cases hrec : c.isRecursive with
  | false =>
      obtain ⟨results, hresults⟩ := filterMap_settles config hp hknown table
      refine ⟨results, ?_⟩
      simpa [analyze, hrec] using hresults
  | true =>
      obtain ⟨results, limit, hpasses⟩ := passes_settle config hp hknown table fun _ =>
        (Summary.within_empty n).bounded
      refine ⟨results, limit, fun visits passes hvisits hlimit => ?_⟩
      have hrun : analyzeRecursive p (config.withLimits visits passes) c table = .ok results :=
        hpasses visits passes passes hvisits hlimit hlimit
      show analyze p (config.withLimits visits passes) table c = _
      rw [analyze, if_pos hrec, hrun]

end Component

namespace Progress

variable {p : Program} {config : Config} {n : Nat} {g : Progress}

/-- No function has failed so far. -/
def AllOk (g : Progress) : Prop :=
  ∀ name outcome, g.outcomes.get? name = some outcome → ∃ r, outcome = .ok r

theorem AllOk.foldl_record (hg : g.AllOk) (results : List (String × FunctionResult)) :
    ((results.map fun e => (e.1, (.ok e.2 : Outcome))).foldl
      (fun g (name, outcome) => g.record name outcome) g).AllOk := by
  induction results generalizing g with
  | nil => exact hg
  | cons e rest ih =>
      refine ih fun name outcome h => ?_
      change (g.outcomes.insert e.1 (.ok e.2)).get? name = some outcome at h
      rw [OrderedMap.get?_insert] at h
      split at h
      · exact ⟨e.2, (Option.some.inj h).symm⟩
      · exact hg name outcome h

theorem flatMap_analyze_settles (config : Config) (hp : Component.ParamsLe p n)
    {components : List Component}
    (hlevel : ∀ c ∈ components, c ∈ (CallGraph.ofProgram p).components) (table : SummaryTable) :
    ∃ results : List (String × FunctionResult), Settles config
      (fun c' => components.flatMap (Component.analyze p c' table))
      (results.map fun e => (e.1, .ok e.2)) := by
  induction components with
  | nil => exact ⟨[], .const _⟩
  | cons c rest ih =>
      obtain ⟨here, hhere⟩ := Component.analyze_settles config hp
        (hlevel c List.mem_cons_self) table
      obtain ⟨later, hlater⟩ := ih fun d hd => hlevel d (List.mem_cons_of_mem c hd)
      refine ⟨here ++ later, ?_⟩
      simp only [List.flatMap_cons, List.map_append]
      refine hhere.bind (h := fun c' x => x ++ rest.flatMap (Component.analyze p c' table)) ?_
      exact hlater.map _

theorem foldl_level_settles (config : Config) (hp : Component.ParamsLe p n)
    {levels : List (List Component)}
    (hlevels : ∀ level ∈ levels, ∀ c ∈ level, c ∈ (CallGraph.ofProgram p).components)
    (hg : g.AllOk) :
    ∃ g' : Progress, g'.AllOk ∧ Settles config (fun c' => levels.foldl (level p c') g) g' := by
  induction levels generalizing g with
  | nil => exact ⟨g, hg, .const _⟩
  | cons components rest ih =>
      obtain ⟨results, hresults⟩ := flatMap_analyze_settles config hp
        (hlevels components List.mem_cons_self) g.table
      obtain ⟨g', hg', hrest⟩ := ih (fun l hl => hlevels l (List.mem_cons_of_mem components hl))
        (hg.foldl_record results)
      refine ⟨g', hg', ?_⟩
      exact hresults.bind (h := fun c' es => rest.foldl (level p c')
        (es.foldl (fun g e => g.record e.1 e.2) g)) hrest

end Progress

/-- The limits are only fail-safes. The run of a function takes a number of visits that does not
depend on the limit; if the limit covers it, then the result is always the same and reports that
number, and otherwise the run is cut off at the limit. And if both limits are large enough, then
no function of a program fails, and the results are always the same. -/
theorem limits_are_failsafes :
    (∀ (f : Function) (config : Config) (table : SummaryTable) (peers : List String),
      ∃ result : FunctionResult, ∀ limit,
        (Run.ofFunction f { config with maxBlockVisits := limit } table peers).result =
          if result.visits ≤ limit then .ok result else .error ⟨f.name, limit⟩) ∧
    ∀ (p : Program) (config : Config), ∃ n outcomes,
      (∀ f ∈ p.functions, ∃ result, outcomes.get? f.name = some (.ok result)) ∧
      ∀ visits passes, n ≤ visits → n ≤ passes →
        p.summarize { config with maxBlockVisits := visits, maxPasses := passes } = outcomes := by
  refine ⟨Run.exists_result, fun p config => ?_⟩
  obtain ⟨bound, hp⟩ := Component.exists_paramsLe p
  have hcomponents : ∀ level ∈ (CallGraph.ofProgram p).levels, ∀ c ∈ level,
      c ∈ (CallGraph.ofProgram p).components := fun level hlevel c hc =>
    (CallGraph.flatten_levels p).mem_iff.mp (List.mem_flatten.mpr ⟨level, hlevel, hc⟩)
  have hstart : Progress.AllOk ⟨.empty, .empty⟩ := fun _ _ h =>
    absurd h.symm (Option.some_ne_none _)
  obtain ⟨g, hg, n, hn⟩ := Progress.foldl_level_settles config hp hcomponents hstart
  have hsummarize (visits passes : Nat) (hvisits : n ≤ visits) (hpasses : n ≤ passes) :
      p.summarize (config.withLimits visits passes) = g.outcomes :=
    congrArg Progress.outcomes (hn visits passes hvisits hpasses)
  refine ⟨n, g.outcomes, fun f hf => ?_, hsummarize⟩
  have hname : f.name ∈ p.names := List.mem_map_of_mem hf
  have hsome := Program.outcome_isSome (config.withLimits n n) hname
  rw [hsummarize n n (Nat.le_refl n) (Nat.le_refl n)] at hsome
  obtain ⟨outcome, houtcome⟩ := Option.isSome_iff_exists.mp hsome
  obtain ⟨result, rfl⟩ := hg f.name outcome houtcome
  exact ⟨result, houtcome⟩

/-- Two functions that call each other are analyzed to the end. -/
theorem limits_are_failsafes_relay :
    ∃ n outcomes, (∃ result, outcomes.get? "push" = some (.ok result)) ∧
      ∀ visits passes, n ≤ visits → n ≤ passes →
        relay.summarize { Config.standard with maxBlockVisits := visits, maxPasses := passes } =
          outcomes := by
  obtain ⟨n, outcomes, hok, hsame⟩ := limits_are_failsafes.2 relay .standard
  have hpush := hok (relay.functions.head (by decide)) (List.head_mem _)
  exact ⟨n, outcomes, hpush, hsame⟩

end TaintAnalysis
