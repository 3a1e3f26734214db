import TaintAnalysis.Proofs.Program.Reachable
import TaintAnalysis.Proofs.Solver.Sources
import TaintAnalysis.Proofs.Solver.Surroundings

/-!
# Loops widen what they compute

How often a loop runs is decided by the tests that leave it. Whatever is assigned
in the loop is therefore fully tainted by every source of such a test. Nothing is
asked of the loop: it may share blocks with others, it may be entered at several
places, and its test may be tainted only by what the loop itself computes, since
its blocks are visited again when the taint of the test grows.
-/

namespace TaintAnalysis

theorem Value.has_mono {u v : Value} {s : SourceId} {k : Kind} (h : u.has s k = true)
    (huv : u ≤ v) : v.has s k = true :=
  decide_eq_true (Kind.le_trans (of_decide_eq_true h) (le_iff.mp huv s))

theorem Value.toFull_has {v : Value} {s : SourceId} (h : s ∈ v.sources) :
    v.toFull.has s Kind.fullOnly = true := by
  rw [has, kindOf_toFull]
  exact decide_eq_true (Kind.fullOnly_le_toFull (mem_sources.mp h))

namespace Problem

variable {p : Problem} {k : Knowledge} {a₀ : Arena} {l : Loop} {e b : BlockId} {s : SourceId}

/-- The exit tests of a loop are part of what its blocks add. -/
theorem toFull_le_wideningOf (hl : l ∈ p.loops) (he : e ∈ l.exiting) (hb : b ∈ l.body) :
    (k.branch e).toFull ≤ p.wideningOf k b :=
  Value.le_joins (List.mem_flatMap.mpr
    ⟨l, List.mem_filter.mpr ⟨hl, decide_eq_true hb⟩, List.mem_map.mpr ⟨e, he, rfl⟩⟩)

/-- In a loop, what carries the surroundings has the sources of the tests that leave the loop, and
so has what comes from unknown code. -/
theorem Carries.has_full {value : Value} (h : p.Carries (p.surroundings k b) value)
    (hk : p.Reached a₀ k) (hl : l ∈ p.loops) (he : e ∈ l.exiting) (hb : b ∈ l.body)
    (hs : s ∈ (k.branch e).sources) : value.has s Kind.fullOnly = true := by
  rcases h with hadded | hunknown
  · have hwidening := Value.le_trans (toFull_le_wideningOf hl he hb)
      (Value.join_le_iff.mp hadded).2
    exact Value.has_mono (Value.toFull_has hs) hwidening
  · exact Value.has_mono (allSources_has hk hs) hunknown

end Problem

namespace Run

variable {f : Function} {config : Config} {table : SummaryTable} {peers : List String}
  {result : FunctionResult}

/-- A variable that is assigned in a loop is reported as fully dependent on every source of a
branch that leaves the loop. -/
theorem loop_widens (hf : f.Validated)
    (hok : (ofFunction f config table peers).result = .ok result)
    {l : Loop} (hl : l ∈ (Graph.ofFunction f).loops) {e : BlockId} (he : e ∈ l.exiting)
    {s : SourceId} (hs : s ∈ ((ofFunction f config table peers).final.branch e).sources)
    {b : BlockId} (hb : b ∈ l.body) {block : Block} (hblock : f.block? b = some block)
    {i : Instruction} (hi : i ∈ block.instructions) {v : VarId} (hv : i.defined? = some v) :
    ∃ value, result.vars[v]? = some value ∧ value.has s Kind.fullOnly = true := by
  have hdeclared : v < f.vars.length := hf.declared_of_defined hblock hi hv
  have himbued := Problem.imbued_of_exhausted (p := (ofFunction f config table peers).problem)
    reached_ofFunction (exhausted_of_ok hok) (hf.mem_reversePostorder hblock) hblock
  exact ⟨_, vars_of_ok hok hdeclared, Value.has_mono ((himbued.exit i hi v hv hdeclared).has_full
    reached_ofFunction hl he hb hs) (exit_le_taintOf _ b v)⟩

end Run

/-! ## A test that the loop taints itself -/

/-- A loop whose test is tainted only by the sum that the loop computes. -/
def summing : Function where
  name := "summing"
  returns := .int 32
  vars :=
    [⟨"step", .int 32, .param⟩, ⟨"sum", .int 32, .local⟩, ⟨"rounds", .int 32, .local⟩]
  blocks := .ofList
    [(0, ⟨[.assign 1 (.const 0), .assign 2 (.const 0)], .jump 1⟩),
      (1, ⟨[.assign 2 (.binary .add (.var 2) (.const 1))], .branch (.var 1) 3 2⟩),
      (2, ⟨[.assign 1 (.binary .add (.var 1) (.var 0))], .jump 1⟩),
      (3, ⟨[], .ret (some (.var 2))⟩)]
  entry := 0
  nextBlock := 4

theorem loop_widens_summing : ∃ result value,
    (Run.ofFunction summing .standard .empty []).result = .ok result ∧
      result.vars[2]? = some value ∧ value.has 0 Kind.fullOnly = true := by
  have hvalid : summing.Validated :=
    ⟨⟨[summing], by decide⟩, ⟨[summing], by decide⟩, .standard, by cbv, List.mem_cons_self⟩
  have hok := Run.result_of_exhausted (r := Run.ofFunction summing .standard .empty []) (by cbv)
  have hloop : (⟨1, [1, 2], [2], [1], 0⟩ : Loop) ∈ (Graph.ofFunction summing).loops := by
    decide_cbv
  obtain ⟨value, hvalue⟩ := Run.loop_widens hvalid hok hloop (e := 1) List.mem_cons_self (s := 0)
    (by decide_cbv) (b := 1) List.mem_cons_self rfl List.mem_cons_self rfl
  exact ⟨_, value, hok, hvalue⟩

end TaintAnalysis
