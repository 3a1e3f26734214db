import TaintAnalysis.Proofs.Calls.Modularity
import TaintAnalysis.Proofs.Solver.Decided
import TaintAnalysis.Proofs.Solver.FoldedRuns

/-!
# Summaries under coarser settings

A run reports no less taint under coarser settings, and with larger summaries of
the functions that it calls (`Run.result_within`). So what the passes over a
recursive component learn stays below the summaries that they end with under the
coarser settings (`Component.learned_below`), and each result of a component is
within the result under the coarser settings if that is so of its callees
(`Component.result_within`). The callees outside of the component can call fewer
functions, and by induction on how many it is so of every function of the program
(`Program.outcome_within`).

Paths have to be followed alike under both settings. Where a pointer is followed
about which nothing is known, the analysis falls back to unknown memory. Under
coarser settings a pointer that was stored elsewhere may be found there, and then
the taint of unknown memory is lost.
-/

namespace TaintAnalysis

/-- The runs of the functions can be compared under both configurations: they follow paths alike,
what addresses name is found among the arrays and what is named beforehand, and each block that
depends on memory is known to. -/
structure Program.Comparable (p : Program) (fine coarse : Config) : Prop where
  alike : ∀ f ∈ p.functions, f.FollowsAlike fine coarse
  named : ∀ f ∈ p.functions, f.addressesNamed fine = true
  listed : ∀ f ∈ p.functions, f.ReadersListed coarse

/-- Programs whose functions take no address and follow no stored pointer are comparable. -/
theorem Program.comparable_of_direct {p : Program} (hfree : ∀ f ∈ p.functions, f.AddressFree)
    (hdirect : ∀ f ∈ p.functions, f.FollowsDirectly) (fine coarse : Config) :
    p.Comparable fine coarse where
  alike := fun f hf => (hdirect f hf).followsAlike fine coarse
  named := fun f hf => Problem.addressesNamed_of_addressFree (hfree f hf)
  listed := fun f hf => (hfree f hf).readersListed coarse

theorem SummaryTable.ready?_filterKeys (t : SummaryTable) (keep : String → Bool) (b : String) :
    SummaryTable.ready? (t.filterKeys keep) b = if keep b then t.ready? b else none := by
  rw [ready?, OrderedMap.get?_filterKeys]
  by_cases hb : keep b = true
  · rw [if_pos hb, if_pos hb, ready?]
  · rw [if_neg hb, if_neg hb]

namespace Component

variable {p : Program} {fine coarse : Config} {c : Component} {t u : SummaryTable}
  {family other : String → Summary} {name : String} {peers : List String} {r r' : FunctionResult}

theorem analyzeFunction_within (hcoarse : coarse.Coarsens fine) (hp : p.Comparable fine coarse)
    (htu : t.Below u) (h : analyzeFunction p fine t peers name = some (.ok r))
    (h' : analyzeFunction p coarse u peers name = some (.ok r')) : r.Within r' := by
  obtain ⟨f, hf, hrun⟩ := Option.map_eq_some_iff.mp h
  obtain ⟨f', hf', hrun'⟩ := Option.map_eq_some_iff.mp h'
  obtain rfl : f = f' := Option.some.inj (hf.symm.trans hf')
  have hmem := (Program.function?_eq_some_iff.mp hf).1
  exact Run.result_within hcoarse (hp.alike f hmem) (hp.named f hmem) (hp.listed f hmem) htu
    hrun hrun'

/-- A summary that was joined into the family under the coarser configuration without effect is
below it. -/
theorem summary_below_of_join (hp : p.Comparable fine coarse)
    (h : rerun p coarse c u other name = some (.ok r'))
    (hjoin : (other name).join r'.summary = other name) : r'.summary.Below (other name) := by
  obtain ⟨f, hf, hrun⟩ := Option.map_eq_some_iff.mp h
  have hmem := (Program.function?_eq_some_iff.mp hf).1
  have hnamed := hp.named f hmem
  rw [f.addressesNamed_congr fine coarse] at hnamed
  refine Summary.below_of_join_eq ?_ hjoin
  rw [Run.summary_of_ok hrun]
  exact Run.summary_tainted (Problem.wellPosed_ofFunction hnamed)

/-- What passes learn stays below the family that they end with under the coarser configuration. -/
theorem learned_below (hcoarse : coarse.Coarsens fine) (hp : p.Comparable fine coarse)
    (htu : t.Below u) (hlearned : Learned p fine c t family)
    (hother : ∀ name ∈ c.functions, ∃ r', rerun p coarse c u other name = some (.ok r') ∧
      (other name).join r'.summary = other name) :
    ∀ name ∈ c.functions, (family name).Below (other name) := by
  refine hlearned.below_of_closed fun family name r hname hle hrun => ?_
  obtain ⟨r', hrun', hjoin⟩ := hother name hname
  have hwithin := analyzeFunction_within hcoarse hp (tableWith_below htu hle) hrun hrun'
  exact hwithin.summary.trans (summary_below_of_join hp hrun' hjoin)

theorem analyzeRecursive_within (hcoarse : coarse.Coarsens fine) (hp : p.Comparable fine coarse)
    (hc : c ∈ (CallGraph.ofProgram p).components) (htu : t.Below u)
    {results results' : List (String × FunctionResult)}
    (hok : analyzeRecursive p fine c t = .ok results)
    (hok' : analyzeRecursive p coarse c u = .ok results')
    (h : (name, r) ∈ results) (h' : (name, r') ∈ results') : r.Within r' := by
  obtain ⟨-, family, -, hlearned, -, -, -, hruns⟩ :=
    passes_cases (known_of_mem_components hc) .start rfl hok
  obtain ⟨-, other, -, -, -, -, hkeys', hruns'⟩ :=
    passes_cases (known_of_mem_components hc) .start rfl hok'
  have hle := learned_below hcoarse hp htu hlearned fun n hn => by
    rw [← hkeys'] at hn
    obtain ⟨e, he, rfl⟩ := List.mem_map.mp hn
    exact ⟨e.2, hruns' e he⟩
  exact analyzeFunction_within hcoarse hp (tableWith_below htu hle) (hruns _ h).1 (hruns' _ h').1

/-- A component reports no less taint under coarser settings and against larger summaries. -/
theorem result_within (hcoarse : coarse.Coarsens fine) (hp : p.Comparable fine coarse)
    (hc : c ∈ (CallGraph.ofProgram p).components) (htu : t.Below u)
    (h : (name, .ok r) ∈ analyze p fine t c) (h' : (name, .ok r') ∈ analyze p coarse u c) :
    r.Within r' := by
  rw [analyze] at h h'
  split at h
  · next hrec =>
    rw [if_pos hrec] at h'
    split at h
    · next results hok =>
      split at h'
      · next results' hok' =>
        obtain ⟨⟨n, x⟩, he, heq⟩ := List.mem_map.mp h
        obtain ⟨⟨n', x'⟩, he', heq'⟩ := List.mem_map.mp h'
        cases heq
        cases heq'
        exact analyzeRecursive_within hcoarse hp hc htu hok hok' he he'
      · simp at h'
    · simp at h
  · next hrec =>
    rw [if_neg hrec] at h'
    obtain ⟨a, -, hrun⟩ := List.mem_filterMap.mp h
    obtain ⟨a', -, hrun'⟩ := List.mem_filterMap.mp h'
    obtain ⟨o, hrun, heq⟩ := Option.map_eq_some_iff.mp hrun
    obtain ⟨o', hrun', heq'⟩ := Option.map_eq_some_iff.mp hrun'
    cases heq
    cases heq'
    exact analyzeFunction_within hcoarse hp htu hrun hrun'

end Component

namespace Program

variable {p : Program} {fine coarse config : Config} {a name : String} {r r' : FunctionResult}

open CallGraph

/-- No function of the program fails. -/
def Converges (p : Program) (config : Config) : Prop :=
  ∀ name ∈ p.names, ∃ r, (p.summarize config).get? name = some (.ok r)

/-- The function has a result with the property. -/
def finds (p : Program) (config : Config) (name : String) (P : FunctionResult → Bool) : Bool :=
  match (p.summarize config).get? name with
  | some (.ok r) => P r
  | _ => false

theorem finds_iff {P : FunctionResult → Bool} : p.finds config name P = true ↔
    ∃ r, (p.summarize config).get? name = some (.ok r) ∧ P r = true := by
  rw [finds]
  constructor
  · intro h
    split at h
    · next r hr => exact ⟨r, hr, h⟩
    · simp at h
  · rintro ⟨r, hr, h⟩
    rw [hr]
    exact h

instance (p : Program) (config : Config) : Decidable (p.Converges config) :=
  decidable_of_iff (∀ name ∈ p.names, p.finds config name (fun _ => true) = true) <|
    forall₂_congr fun _ _ => finds_iff.trans (exists_congr fun _ => and_iff_left rfl)

/-- A component is analyzed against those functions only that can call fewer functions. -/
theorem analyze_componentOf_eq (ha : a ∈ p.names) :
    Component.analyze p config ((p.progress config).table.filterKeys fun b =>
        (ofProgram p).callDepth b < (ofProgram p).callDepth a) ((ofProgram p).componentOf a) =
      Component.analyze p config (p.progress config).table ((ofProgram p).componentOf a) := by
  obtain ⟨hsynced, hnone, -⟩ := progress_settled p config
  refine Component.analyze_congr (componentOf_mem_components ha) (fun _ _ => rfl) ?_
  intro x hx f hf b hb hout
  have hxa := (mem_componentOf_iff ha).mp hx
  rw [SummaryTable.ready?_filterKeys]
  by_cases hbp : b ∈ p.names
  · have hcall : p.Calls x b := ⟨f, hf, hb, hbp⟩
    have hless := callDepth_lt hcall fun hback =>
      hout ((mem_componentOf_iff ha).mpr (hxa.trans ⟨.single hcall, hback⟩))
    rw [if_pos (decide_eq_true (Nat.lt_of_lt_of_le hless (callDepth_le hxa.1 ha)))]
  · simp [SummaryTable.ready?, hsynced b, ← summarize_eq, hnone b hbp]

/-- Each function has a result within that under coarser settings. -/
theorem outcome_within (hcoarse : coarse.Coarsens fine) (hp : p.Comparable fine coarse)
    (hfine : p.Converges fine) (hcoarser : p.Converges coarse) (ha : a ∈ p.names)
    (h : (p.summarize fine).get? a = some (.ok r))
    (h' : (p.summarize coarse).get? a = some (.ok r')) : r.Within r' := by
  obtain ⟨hsynced, hnone, -⟩ := progress_settled p fine
  obtain ⟨hsynced', hnone', -⟩ := progress_settled p coarse
  induction hn : (ofProgram p).callDepth a using Nat.strong_induction_on generalizing a r r' with
  | _ n ih =>
  have hmem := mem_analyze_componentOf ha h
  have hmem' := mem_analyze_componentOf ha h'
  rw [← analyze_componentOf_eq ha] at hmem hmem'
  refine Component.result_within hcoarse hp (componentOf_mem_components ha) (fun b => ?_)
    hmem hmem'
  rw [SummaryTable.ready?_filterKeys, SummaryTable.ready?_filterKeys]
  split
  · next hless =>
    rw [SummaryTable.ready?, SummaryTable.ready?, hsynced b, hsynced' b, ← summarize_eq,
      ← summarize_eq]
    by_cases hb : b ∈ p.names
    · obtain ⟨s, hs⟩ := hfine b hb
      obtain ⟨s', hs'⟩ := hcoarser b hb
      rw [hs, hs']
      exact .some (ih _ (hn ▸ of_decide_eq_true hless) hb hs hs' rfl).summary
    · rw [hnone b hb, hnone' b hb]
      exact .none
  · exact .none

/-- Coarser memory settings lose no source where paths are followed alike: whatever occurs in a
result, an out-parameter or the value of a variable occurs there as well. -/
theorem sources_kept (hcoarse : coarse.Coarsens fine) (hp : p.Comparable fine coarse)
    (hfine : p.Converges fine) (hcoarser : p.Converges coarse) :
    ∀ name ∈ p.names, ∃ r r' : FunctionResult,
      (p.summarize fine).get? name = some (.ok r) ∧
      (p.summarize coarse).get? name = some (.ok r') ∧
      (∀ s ∈ r.summary.returned.sources, s ∈ r'.summary.returned.sources) ∧
      (∀ i value, r.summary.out? i = some value →
        ∃ value', r'.summary.out? i = some value' ∧ ∀ s ∈ value.sources, s ∈ value'.sources) ∧
      ∀ (v : VarId) (value : Value), r.vars[v]? = some value →
        ∃ value' : Value, r'.vars[v]? = some value' ∧ ∀ s ∈ value.sources, s ∈ value'.sources := by
  intro name hname
  obtain ⟨r, hr⟩ := hfine name hname
  obtain ⟨r', hr'⟩ := hcoarser name hname
  have hwithin := outcome_within hcoarse hp hfine hcoarser hname hr hr'
  refine ⟨r, r', hr, hr', fun s hs => Value.mem_sources_of_le hs hwithin.summary.returned,
    fun i value hi => ?_, fun v value hv => ?_⟩
  · obtain ⟨⟨j, value'⟩, he, rfl, hle⟩ :=
      hwithin.summary.outs (i, value) (Summary.out?_eq_some_iff.mp hi)
    exact ⟨value', Summary.out?_eq_some_iff.mpr he, fun s hs => Value.mem_sources_of_le hs hle⟩
  · obtain ⟨hlt, rfl⟩ := List.getElem?_eq_some_iff.mp hv
    have hlength := hwithin.vars.length_eq
    have hle := hwithin.vars.get hlt (hlength ▸ hlt)
    exact ⟨r'.vars[v], List.getElem?_eq_getElem (hlength ▸ hlt), fun s hs =>
      Value.mem_sources_of_le hs hle⟩

end Program

/-! ## A program whose settings may be coarser -/

/-- A configuration that tells apart fields at the first step of a path and the first elements of
arrays only. -/
def shallow : Config :=
  { Config.standard with maxTrackedIndex := 8, maxPathDepth := 1 }

theorem shallow_coarsens : shallow.Coarsens .standard where
  same := rfl
  maxTrackedIndex := by decide
  maxPathDepth := by decide

/-- A function that writes one field and one element and reads others, and a function that it
passes what it has read to. -/
def ledger : Program where
  functions :=
    [{ name := "post"
       returns := .int 32
       vars :=
         [⟨"n", .int 32, .param⟩, ⟨"m", .int 32, .param⟩, ⟨"s", .struct "entry", .local⟩,
          ⟨"a", .array (.int 32) none, .local⟩, ⟨"x", .int 32, .local⟩, ⟨"y", .int 32, .local⟩]
       blocks := .ofList
         [(0, ⟨[.store (.field (.field (.var 2) "date") "year") (.var 0),
            .load 4 (.field (.field (.var 2) "date") "day"),
            .store (.index (.var 3) (.const 10)) (.var 1),
            .load 5 (.index (.var 3) (.const 9)),
            .call (some 5) (.direct "leaf") [.binary .add (.var 4) (.var 5)]],
            .ret (some (.binary .add (.var 0) (.var 5)))⟩)]
       entry := 0
       nextBlock := 1 },
     straight "leaf" [] 0]
  distinct := by decide

theorem sources_kept_ledger :
    ∃ r r' : FunctionResult, (ledger.summarize .standard).get? "post" = some (.ok r) ∧
      (ledger.summarize shallow).get? "post" = some (.ok r') ∧
      (∀ s ∈ r.summary.returned.sources, s ∈ r'.summary.returned.sources) ∧
      1 ∉ r.summary.returned.sources ∧ 1 ∈ r'.summary.returned.sources := by
  have hcomparable : ledger.Comparable .standard shallow :=
    Program.comparable_of_direct (by decide)
      (fun f hf => ⟨by revert f; decide, by revert f; decide⟩) _ _
  obtain ⟨r, r', hr, hr', hreturned, -⟩ := Program.sources_kept shallow_coarsens hcomparable
    (by decide_cbv) (by decide_cbv) "post" (by decide)
  obtain ⟨_, h, hwithout⟩ := Program.finds_iff.mp (show ledger.finds .standard "post"
    (1 ∉ ·.summary.returned.sources) = true by decide_cbv)
  obtain ⟨_, h', hwith⟩ := Program.finds_iff.mp (show ledger.finds shallow "post"
    (1 ∈ ·.summary.returned.sources) = true by decide_cbv)
  cases hr.symm.trans h
  cases hr'.symm.trans h'
  exact ⟨r, r', hr, hr', hreturned, of_decide_eq_true hwithout, of_decide_eq_true hwith⟩

/-! ## Taint that is lost -/

/-- A function that stores a pointer in one field and follows another one, in which no pointer was
stored. -/
def misled : Program where
  functions :=
    [{ name := "f"
       returns := .int 32
       vars :=
         [⟨"q", .int 32, .param⟩, ⟨"s", .struct "node", .local⟩, ⟨"z", .int 32, .local⟩,
          ⟨"w", .int 32, .local⟩, ⟨"x", .int 32, .local⟩]
       blocks := .ofList
         [(0, ⟨[.store (.field (.field (.var 1) "m") "a") (.addrOf (.var 2)),
            .store (.var 3) (.var 0),
            .load 4 (.deref (.field (.field (.var 1) "m") "b"))], .ret (some (.var 4))⟩)]
       entry := 0
       nextBlock := 1 }]
  distinct := by decide

/-- The pointer that is followed is unknown, so the result has the taint of every cell. Under the
coarser settings both fields are the same cell, and the result has that of the target alone. -/
theorem sources_lost_misled :
    misled.validate .standard = .ok misled ∧ misled.validate shallow = .ok misled ∧
      shallow.Coarsens .standard ∧ misled.Converges .standard ∧ misled.Converges shallow ∧
      ∃ r r' : FunctionResult, (misled.summarize .standard).get? "f" = some (.ok r) ∧
        (misled.summarize shallow).get? "f" = some (.ok r') ∧
        0 ∈ r.summary.returned.sources ∧ 0 ∉ r'.summary.returned.sources := by
  obtain ⟨r, hr, hwith⟩ := Program.finds_iff.mp (show misled.finds .standard "f"
    (0 ∈ ·.summary.returned.sources) = true by decide_cbv)
  obtain ⟨r', hr', hwithout⟩ := Program.finds_iff.mp (show misled.finds shallow "f"
    (0 ∉ ·.summary.returned.sources) = true by decide_cbv)
  exact ⟨by cbv, by cbv, shallow_coarsens, by decide_cbv, by decide_cbv, r, r', hr, hr',
    of_decide_eq_true hwith, of_decide_eq_true hwithout⟩

end TaintAnalysis
