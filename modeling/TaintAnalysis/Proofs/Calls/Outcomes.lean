import TaintAnalysis.Proofs.Calls.Levels
import TaintAnalysis.Proofs.Calls.Recursion
import TaintAnalysis.Proofs.Calls.Visibility

/-!
# The outcomes are those of the finished table

A component is analyzed against the table that holds the functions of the lower
levels, and the table goes on growing after that. What a component sees are its
own functions, which the passes begin anew, and its callees, which stand on lower
levels and are recorded for good. So the outcomes of a component are those that
analyzing it against the finished table gives (`Program.progress_settled`), which
says what `summarize` computes without saying in which order it does.

Both steps compare analyses against different tables. They are the same as soon
as the tables agree on what is seen, first for one function, then along the
passes, which insert the same summaries into both tables.
-/

namespace TaintAnalysis

/-! ## Tables that agree -/

/-- The tables show the same summaries for certain functions. -/
def SummaryTable.AgreeOn (seen : String → Prop) (t u : SummaryTable) : Prop :=
  ∀ b, seen b → u.ready? b = t.ready? b

theorem SummaryTable.AgreeOn.insert {seen : String → Prop} {t u : SummaryTable}
    (h : AgreeOn seen t u) (name : String) (s : CalleeSummary) :
    AgreeOn seen (OrderedMap.insert t name s) (OrderedMap.insert u name s) := by
  intro b hb
  rw [ready?, ready?, OrderedMap.get?_insert, OrderedMap.get?_insert]
  by_cases hname : b = name
  · rw [if_pos hname, if_pos hname]
  · rw [if_neg hname, if_neg hname]
    exact h b hb

namespace Component

variable {p q : Program} {config : Config} {c : Component} {t u : SummaryTable}
  {name : String} {peers : List String}

/-- What the analysis of a component looks up: its functions and what they call. -/
def Sees (p : Program) (c : Component) (b : String) : Prop :=
  b ∈ c.functions ∨ ∃ a ∈ c.functions, ∃ f, p.function? a = some f ∧ b ∈ f.callees

theorem analyzeFunction_congr (hfun : q.function? name = p.function? name)
    (h : ∀ f, p.function? name = some f → ∀ b ∈ f.callees, u.ready? b = t.ready? b) :
    analyzeFunction q config u peers name = analyzeFunction p config t peers name := by
  rw [analyzeFunction, analyzeFunction, hfun]
  exact Option.map_congr fun f hf => Run.result_congr (h f hf)

/-- Two passes are the same but for tables that agree on what is seen. -/
inductive PassesAgree (seen : String → Prop) :
    Except NonConvergence Pass → Except NonConvergence Pass → Prop where
  | error (e : NonConvergence) : PassesAgree seen (.error e) (.error e)
  | ok {t u : SummaryTable} (h : t.AgreeOn seen u) (changed : Bool)
      (results : List (String × FunctionResult)) :
      PassesAgree seen (.ok ⟨t, changed, results⟩) (.ok ⟨u, changed, results⟩)

theorem passStep_congr (config : Config)
    (hfun : ∀ a ∈ c.functions, q.function? a = p.function? a)
    (h : t.AgreeOn (c.Sees p) u) (hname : name ∈ c.functions) (changed : Bool)
    (results : List (String × FunctionResult)) :
    PassesAgree (c.Sees p) (passStep p config c ⟨t, changed, results⟩ name)
      (passStep q config c ⟨u, changed, results⟩ name) := by
  have hrun : analyzeFunction q config u c.functions name =
      analyzeFunction p config t c.functions name :=
    analyzeFunction_congr (hfun name hname) fun f hf b hb =>
      h b (.inr ⟨name, hname, f, hf, hb⟩)
  rw [passStep, passStep, hrun]
  dsimp only
  split
  · exact .ok h changed results
  · exact .error _
  · rw [h name (.inl hname)]
    split
    · exact .ok (h.insert _ _) _ _
    · exact .ok h _ _

theorem foldlM_passStep_congr (config : Config)
    (hfun : ∀ a ∈ c.functions, q.function? a = p.function? a)
    {names : List String} (hnames : ∀ name ∈ names, name ∈ c.functions) {x y : Pass}
    (h : PassesAgree (c.Sees p) (.ok x) (.ok y)) :
    PassesAgree (c.Sees p) (names.foldlM (passStep p config c) x)
      (names.foldlM (passStep q config c) y) := by
  induction names generalizing x y with
  | nil => exact h
  | cons name rest ih =>
      cases h with
      | ok hagree changed results =>
          have hstep := passStep_congr config hfun hagree
            (hnames name List.mem_cons_self) changed results
          rw [List.foldlM_cons, List.foldlM_cons]
          generalize passStep p config c _ name = x' at hstep
          generalize passStep q config c _ name = y' at hstep
          have hrest := fun a ha => hnames a (List.mem_cons_of_mem name ha)
          cases hstep with
          | error e => exact .error e
          | ok hagree' changed' results' => exact ih hrest (.ok hagree' changed' results')

theorem passes_congr (hfun : ∀ a ∈ c.functions, q.function? a = p.function? a)
    (h : t.AgreeOn (c.Sees p) u) (budget : Nat) :
    passes q config c budget u = passes p config c budget t := by
  induction budget generalizing t u with
  | zero => rfl
  | succ budget ih =>
      have hpass := foldlM_passStep_congr config hfun (fun _ ha => ha)
        (.ok h false [])
      rw [passes, passes, pass, pass]
      generalize c.functions.foldlM (passStep p config c) _ = x at hpass
      generalize c.functions.foldlM (passStep q config c) _ = y at hpass
      cases hpass with
      | error e => rfl
      | ok hagree changed results =>
          cases changed with
          | false => rfl
          | true => exact ih hagree

/-- The analysis of a component is the same in another program and against another table, if its
functions are the same and the tables agree on what it calls elsewhere. -/
theorem analyze_congr (hc : c ∈ (CallGraph.ofProgram p).components)
    (hfun : ∀ a ∈ c.functions, q.function? a = p.function? a)
    (h : ∀ a ∈ c.functions, ∀ f, p.function? a = some f → ∀ b ∈ f.callees, b ∉ c.functions →
      u.ready? b = t.ready? b) :
    analyze q config u c = analyze p config t c := by
  cases hrec : c.isRecursive with
  | true =>
      have hagree : SummaryTable.AgreeOn (c.Sees p) (c.startTable t) (c.startTable u) := by
        intro b hb
        change (c.tableWith u fun _ => .empty).ready? b = (c.tableWith t fun _ => .empty).ready? b
        rw [ready?_tableWith, ready?_tableWith]
        by_cases hmem : b ∈ c.functions
        · rw [if_pos hmem, if_pos hmem]
        · rw [if_neg hmem, if_neg hmem]
          obtain ⟨a, ha, f, hf, hcallee⟩ := hb.resolve_left hmem
          exact h a ha f hf b hcallee hmem
      rw [analyze, analyze, if_pos hrec, if_pos hrec, analyzeRecursive, analyzeRecursive,
        passes_congr hfun hagree]
  | false =>
      have hno : ¬ c.isRecursive = true := Bool.eq_false_iff.mp hrec
      rw [analyze, analyze, if_neg hno, if_neg hno]
      refine List.filterMap_congr fun a ha => ?_
      rw [analyzeFunction_congr (hfun a ha) fun f hf b hb => h a ha f hf b hb fun hmem => ?_]
      obtain ⟨hsingle, hself⟩ := CallGraph.functions_of_not_recursive hc hrec ha
      obtain rfl : b = a := List.mem_singleton.mp (hsingle ▸ hmem)
      exact hself ⟨f, hf, hb, CallGraph.mem_names_of_mem_component hc hmem⟩

/-- The analysis of a component has one outcome for each of its functions. -/
theorem analyze_keys (config : Config) (t : SummaryTable)
    (hc : c ∈ (CallGraph.ofProgram p).components) :
    (analyze p config t c).map Prod.fst = c.functions := by
  have hknown := known_of_mem_components hc
  rw [analyze]
  split
  · split
    · next results hok =>
      obtain ⟨-, -, -, -, -, -, hkeys, -⟩ := passes_cases hknown .start rfl hok
      rw [List.map_map, ← hkeys]
      rfl
    · rw [List.map_map]
      exact List.map_id _
  · rw [List.map_filterMap]
    refine (List.filterMap_congr fun a ha => ?_).trans List.filterMap_some
    obtain ⟨f, hf⟩ := Option.isSome_iff_exists.mp (hknown a ha)
    rw [analyzeFunction, hf]
    rfl

/-- A component fails as a whole. -/
theorem analyze_failed (hc : c ∈ (CallGraph.ofProgram p).components) {e : NonConvergence}
    (hfailed : (name, .error e) ∈ analyze p config t c) :
    ∀ x ∈ analyze p config t c, ∃ e', x.2 = .error e' := by
  cases hrec : c.isRecursive with
  | true =>
      rw [analyze, if_pos hrec] at hfailed ⊢
      split at hfailed
      · obtain ⟨x, -, hx⟩ := List.mem_map.mp hfailed
        exact absurd (congrArg Prod.snd hx) (by simp only [reduceCtorEq, not_false_eq_true])
      · next e' herror =>
        intro x hx
        obtain ⟨a, -, rfl⟩ := List.mem_map.mp hx
        exact ⟨e', rfl⟩
  | false =>
      have hkeys := analyze_keys config t hc
      have hname : name ∈ c.functions := hkeys ▸ List.mem_map_of_mem hfailed
      rw [(CallGraph.functions_of_not_recursive hc hrec hname).1] at hkeys
      obtain ⟨x, hx, -⟩ := List.map_eq_singleton_iff.mp hkeys
      rw [hx, List.mem_singleton] at hfailed
      rw [hx, ← hfailed]
      exact fun y hy => ⟨e, by rw [List.mem_singleton.mp hy]⟩

end Component

/-! ## Recording outcomes -/

namespace Progress

variable {p : Program} {config : Config} {g : Progress} {name : String}

/-- The table shows what callers see of the outcomes. -/
def Synced (g : Progress) : Prop :=
  ∀ name, g.table.get? name = (g.outcomes.get? name).map CalleeSummary.ofOutcome

theorem Synced.record (h : g.Synced) (name : String) (outcome : Outcome) :
    (g.record name outcome).Synced := by
  intro n
  show (g.table.insert name _).get? n = ((g.outcomes.insert name outcome).get? n).map _
  rw [OrderedMap.get?_insert, OrderedMap.get?_insert]
  split
  · rfl
  · exact h n

/-- Callers see the same of the same outcome. -/
theorem Synced.ready?_congr {g' : Progress} (h : g.Synced) (h' : g'.Synced)
    (houtcome : g'.outcomes.get? name = g.outcomes.get? name) :
    g'.table.ready? name = g.table.ready? name := by
  rw [SummaryTable.ready?, SummaryTable.ready?, h, h', houtcome]

/-- Recording several outcomes, one for each function. -/
theorem foldl_record (hg : g.Synced) {es : List (String × Outcome)}
    (hes : (es.map Prod.fst).Nodup) :
    let g' := es.foldl (fun g e => g.record e.1 e.2) g
    g'.Synced ∧ (∀ e ∈ es, g'.outcomes.get? e.1 = some e.2) ∧
      ∀ name, name ∉ es.map Prod.fst → g'.outcomes.get? name = g.outcomes.get? name := by
  induction es generalizing g with
  | nil => exact ⟨hg, fun e he => absurd he List.not_mem_nil, fun _ _ => rfl⟩
  | cons e rest ih =>
      rw [List.map_cons, List.nodup_cons] at hes
      obtain ⟨hsynced, hmem, hothers⟩ := ih (hg.record e.1 e.2) hes.2
      refine ⟨hsynced, fun x hx => ?_, fun n hn => ?_⟩
      · rcases List.mem_cons.mp hx with rfl | hx
        · exact (hothers x.1 hes.1).trans (OrderedMap.get?_insert_self _ _ _)
        · exact hmem x hx
      · rw [List.map_cons, List.mem_cons, not_or] at hn
        exact (hothers n hn.2).trans
          ((OrderedMap.get?_insert _ _ _ _).trans (if_neg hn.1))

/-! ## The levels -/

open CallGraph

theorem flatMap_analyze_keys {level : List Component} (config : Config) (t : SummaryTable)
    (hlevel : ∀ c ∈ level, c ∈ (ofProgram p).components) :
    (level.flatMap (Component.analyze p config t)).map Prod.fst =
      level.flatMap (·.functions) := by
  rw [List.map_flatMap]
  exact List.flatMap_congr fun c hc => Component.analyze_keys config t (hlevel c hc)

/-- What the analysis of some levels leaves behind: it records the outcomes of their functions
and no others, and these are what the components give against the table at the end. -/
theorem foldl_level (config : Config) {done : List String} {levels : List (List Component)}
    (hlayered : Layered p done levels)
    (hlevels : ∀ c ∈ levels.flatten, c ∈ (ofProgram p).components)
    (hnodup : (done ++ functionsOf levels).Nodup) (hg : g.Synced) :
    let g' := levels.foldl (level p config) g
    g'.Synced ∧ (∀ name, name ∉ functionsOf levels → g'.outcomes.get? name = g.outcomes.get? name) ∧
      ∀ c ∈ levels.flatten, ∀ e ∈ Component.analyze p config g'.table c,
        g'.outcomes.get? e.1 = some e.2 := by
  induction hlayered generalizing g with
  | nil => exact ⟨hg, fun _ _ => rfl, fun c hc => absurd hc List.not_mem_nil⟩
  | @cons done current levels hcalls _ ih =>
      have hcurrent : ∀ c ∈ current, c ∈ (ofProgram p).components := fun c hc =>
        hlevels c (List.mem_append_left _ hc)
      have hsplit : functionsOf (current :: levels) =
          current.flatMap (·.functions) ++ functionsOf levels := List.flatMap_append
      rw [hsplit] at hnodup
      obtain ⟨-, hhere, hapart⟩ := List.nodup_append.mp hnodup
      obtain ⟨hkeys, -, hbelow⟩ := List.nodup_append.mp hhere
      rw [← flatMap_analyze_keys config g.table hcurrent] at hkeys
      obtain ⟨hsynced, hmem, hothers⟩ := foldl_record hg hkeys
      rw [flatMap_analyze_keys config g.table hcurrent] at hothers
      obtain ⟨hsynced', hothers', hsettled⟩ := ih
        (fun c hc => hlevels c (List.mem_append_right _ hc))
        (by rwa [List.append_assoc]) hsynced
      have hframe : ∀ name, name ∉ functionsOf (current :: levels) →
          ((current :: levels).foldl (level p config) g).outcomes.get? name =
            g.outcomes.get? name := by
        intro name hname
        rw [hsplit, List.mem_append, not_or] at hname
        exact (hothers' name hname.2).trans (hothers name hname.1)
      refine ⟨hsynced', hframe, fun c hc e he => ?_⟩
      rcases List.mem_append.mp hc with hc | hc
      · have hc' := hcurrent c hc
        have hsame : Component.analyze p config
            ((current :: levels).foldl (level p config) g).table c =
              Component.analyze p config g.table c := by
          refine Component.analyze_congr hc' (fun _ _ => rfl) fun a ha f hf b hb hout => ?_
          refine hg.ready?_congr hsynced' (hframe b fun hb' => ?_)
          -- a callee is in the component, is done, or is no function of the program
          obtain ⟨d, hd, hbd⟩ := List.mem_flatMap.mp hb'
          have hcall : p.Calls a b :=
            ⟨f, hf, hb, mem_names_of_mem_component (hlevels d hd) hbd⟩
          exact hapart b ((hcalls c hc a ha b hcall).resolve_left hout) b (hsplit ▸ hb') rfl
        rw [hsame] at he
        have hkey : e.1 ∈ c.functions :=
          Component.analyze_keys config g.table hc' ▸ List.mem_map_of_mem he
        refine (hothers' e.1 fun hlater => ?_).trans (hmem e (List.mem_flatMap.mpr ⟨c, hc, he⟩))
        exact hbelow e.1 (List.mem_flatMap.mpr ⟨c, hc, hkey⟩) e.1 hlater rfl
      · exact hsettled c hc e he

end Progress

namespace Program

variable {p : Program} {config : Config} {name : String}

open CallGraph

/-- Where the analysis of a program ends. -/
def progress (p : Program) (config : Config) : Progress :=
  (ofProgram p).levels.foldl (Progress.level p config) ⟨.empty, .empty⟩

theorem summarize_eq (p : Program) (config : Config) :
    p.summarize config = (p.progress config).outcomes :=
  rfl

/-- The outcomes are what analyzing the components against the finished table gives. -/
theorem progress_settled (p : Program) (config : Config) :
    (p.progress config).Synced ∧
      (∀ name, name ∉ p.names → (p.summarize config).get? name = none) ∧
      ∀ c ∈ (ofProgram p).components, ∀ e ∈ c.analyze p config (p.progress config).table,
        (p.summarize config).get? e.1 = some e.2 := by
  have hlevels : ∀ c, c ∈ (ofProgram p).levels.flatten ↔ c ∈ (ofProgram p).components :=
    fun c => (flatten_levels p).mem_iff
  obtain ⟨hsynced, hothers, hsettled⟩ := Progress.foldl_level config
    (layered_levels p) (fun c hc => (hlevels c).mp hc) (nodup_functionsOf_levels p)
    (g := ⟨.empty, .empty⟩) (fun _ => rfl)
  refine ⟨hsynced, fun name hname => hothers name fun hmem => hname ?_, fun c hc =>
    hsettled c ((hlevels c).mpr hc)⟩
  obtain ⟨c, hc, hmem⟩ := List.mem_flatMap.mp hmem
  exact mem_names_of_mem_component ((hlevels c).mp hc) hmem

end Program

end TaintAnalysis
