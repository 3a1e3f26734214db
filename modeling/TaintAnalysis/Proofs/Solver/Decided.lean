import TaintAnalysis.Proofs.Flow.Decisions
import TaintAnalysis.Proofs.Program.Reachable
import TaintAnalysis.Proofs.Solver.Sources
import TaintAnalysis.Proofs.Solver.Surroundings

/-!
# The taint of a branch comes to the blocks it decides about

The solver passes the taint of a branch to the blocks that depend on it, and from
there on to the blocks that depend on these. So it arrives at every block that the
branch governs, as indirect taint, and at every variable that is assigned there.

The blocks that a branch governs are found along the ways from its successors. A
way inside of a region that never returns may be lost, and then the taint of the
branch is lost with it.
-/

namespace TaintAnalysis

theorem Value.toIndirect_toIndirect (v : Value) : v.toIndirect.toIndirect = v.toIndirect := by
  refine Value.ext fun s => ?_
  rw [kindOf_toIndirect, kindOf_toIndirect]
  obtain ⟨d, i, f⟩ := v.kindOf s
  rfl

theorem Value.mem_sources_of_le {u v : Value} {s : SourceId} (hs : s ∈ u.sources) (huv : u ≤ v) :
    s ∈ v.sources :=
  Classical.byContradiction fun hno =>
    clean_iff_not_mem.mp ((clean_iff_not_mem.mpr hno).of_le huv) hs

namespace Problem

variable {p : Problem} {k : Knowledge} {a₀ : Arena} {x b : BlockId}

theorem toIndirect_le_controlOf (h : x ∈ p.control.dependences b) :
    ((k.branch x).join (k.control x)).toIndirect ≤ p.controlOf k b :=
  Value.le_joins (List.mem_map.mpr ⟨x, h, rfl⟩)

/-- The taint of a branch is passed along a chain of dependences, if every block on the chain has
taken over its surroundings. -/
theorem toIndirect_le_of_chain
    (hsettled : ∀ y z, y ∈ p.control.dependences z → p.controlOf k y ≤ k.control y)
    (h : Relation.TransGen (fun x y => x ∈ p.control.dependences y) x b) :
    (k.branch x).toIndirect ≤ p.controlOf k b := by
  induction h with
  | single hdep =>
      exact Value.le_trans (Value.toIndirect_mono (Value.le_join_left _ _))
        (toIndirect_le_controlOf hdep)
  | @tail y z _ hdep ih =>
      calc (k.branch x).toIndirect
          = (k.branch x).toIndirect.toIndirect := (Value.toIndirect_toIndirect _).symm
        _ ≤ ((k.branch y).join (k.control y)).toIndirect :=
            Value.toIndirect_mono (Value.le_trans (Value.le_trans ih (hsettled y z hdep))
              (Value.le_join_right _ _))
        _ ≤ p.controlOf k z := toIndirect_le_controlOf hdep

/-- What carries the surroundings of a block has the sources of the branches that govern it, and
so has what comes from unknown code. -/
theorem Carries.mem_sources {value : Value} {s : SourceId}
    (h : p.Carries (p.surroundings k b) value) (hk : p.Reached a₀ k)
    (hle : (k.branch x).toIndirect ≤ p.controlOf k b) (hs : s ∈ (k.branch x).sources) :
    s ∈ value.sources := by
  rcases h with hadded | hunknown
  · have hindirect : s ∈ (k.branch x).toIndirect.sources :=
      Classical.byContradiction fun hno => Value.clean_iff_not_mem.mp
        (Value.clean_toIndirect.mp (Value.clean_iff_not_mem.mpr hno)) hs
    exact Value.mem_sources_of_le hindirect
      (Value.le_trans hle (Value.join_le_iff.mp hadded).1)
  · refine Value.mem_sources_of_le (Value.mem_sources.mpr fun hnone => ?_) hunknown
    have hfull := allSources_has hk hs
    rw [Value.has, hnone] at hfull
    exact absurd hfull (by decide)

end Problem

namespace Run

variable {f : Function} {config : Config} {table : SummaryTable} {peers : List String}
  {result : FunctionResult} {x b s t : BlockId}

/-- A block has the indirect taint of every branch that governs it. -/
theorem branch_le_controlOf (hf : f.Validated)
    (hok : (ofFunction f config table peers).result = .ok result)
    (h : (Graph.ofFunction f).Governs x b) :
    let r := ofFunction f config table peers
    (r.final.branch x).toIndirect ≤ r.problem.controlOf r.final b := by
  refine Problem.toIndirect_le_of_chain (fun y z hy => ?_) h
  obtain ⟨hmem, -⟩ := ControlDependence.mem_dependences_iff.mp hy
  obtain ⟨block, hblock⟩ := Function.exists_block_of_mem_blocks hmem
  exact (Problem.imbued_of_exhausted (p := (ofFunction f config table peers).problem)
    reached_ofFunction (exhausted_of_ok hok) (hf.mem_reversePostorder hblock) hblock).control

/-- If one successor of a branch comes to a block on a way that is followed, and another successor
does not come to it, then the block has the indirect taint of the branch, and what is assigned in
it is reported with every source of the branch. -/
theorem decided_tainted (hf : f.Validated)
    (hok : (ofFunction f config table peers).result = .ok result)
    (hs : s ∈ (Graph.ofFunction f).successors x) (ht : t ∈ (Graph.ofFunction f).successors x)
    (hpath : Relation.ReflTransGen (Graph.ofFunction f).Followed s b)
    (hno : ¬ (Graph.ofFunction f).Reaches t b) :
    let k := (ofFunction f config table peers).final
    (k.branch x).toIndirect ≤ k.control b ∧
      ∀ block, f.block? b = some block → ∀ i ∈ block.instructions, ∀ v, i.defined? = some v →
        ∃ value, result.vars[v]? = some value ∧ ∀ n ∈ (k.branch x).sources, n ∈ value.sources := by
  intro k
  obtain ⟨_, hx⟩ := Function.exists_block_of_mem_blocks (Graph.mem_blocks_of_successor hs)
  have hx' := hf.mem_reversePostorder hx
  have hle := branch_le_controlOf hf hok
    (Graph.governs_of_followed (Graph.ended_ofFunction f) hx' hs ht hpath hno)
  have hb := (Graph.reaches_of_followed hpath).mem_reversePostorder
    (Graph.successor_mem_reversePostorder hx' hs)
  have himbued {block : Block} (hblock : f.block? b = some block) :=
    Problem.imbued_of_exhausted (p := (ofFunction f config table peers).problem)
      reached_ofFunction (exhausted_of_ok hok) hb hblock
  constructor
  · obtain ⟨block, hblock⟩ := hf.exists_block hb
    exact Value.le_trans hle (himbued hblock).control
  · intro block hblock i hi v hv
    have hdeclared := hf.declared_of_defined hblock hi hv
    have hcarries := (himbued hblock).exit i hi v hv hdeclared
    exact ⟨_, vars_of_ok hok hdeclared, fun n hn => Value.mem_sources_of_le
      (hcarries.mem_sources reached_ofFunction hle hn) (exit_le_taintOf _ b v)⟩

end Run

/-! ## Regions that never return -/

/-- A loop without an end that tests a variable in every round. -/
def serving : Function where
  name := "serving"
  returns := .void
  vars := [⟨"n", .int 32, .param⟩, ⟨"m", .int 32, .param⟩, ⟨"x", .int 32, .local⟩]
  blocks := .ofList
    [(0, ⟨[], .branch (.var 0) 1 3⟩),
      (1, ⟨[], .branch (.var 1) 2 1⟩),
      (2, ⟨[.assign 2 (.const 1)], .jump 1⟩),
      (3, ⟨[], .ret none⟩)]
  entry := 0
  nextBlock := 4

theorem decided_tainted_serving : ∃ result value,
    (Run.ofFunction serving .standard .empty []).result = .ok result ∧
      ((Run.ofFunction serving .standard .empty []).final.branch 0).toIndirect ≤
        (Run.ofFunction serving .standard .empty []).final.control 2 ∧
      result.vars[2]? = some value ∧ 0 ∈ value.sources := by
  have hvalid : serving.Validated :=
    ⟨⟨[serving], by decide⟩, ⟨[serving], by decide⟩, .standard, by cbv, List.mem_cons_self⟩
  have hok := Run.result_of_exhausted (r := Run.ofFunction serving .standard .empty []) (by cbv)
  have hpath : Relation.ReflTransGen (Graph.ofFunction serving).Followed 1 2 :=
    .single ⟨by decide_cbv, .inl (by decide_cbv)⟩
  have hno : ¬ (Graph.ofFunction serving).Reaches 3 2 := fun h =>
    absurd (h.eq_of_stuck (by decide_cbv)) (by decide)
  obtain ⟨hcontrol, hvars⟩ := Run.decided_tainted hvalid hok (x := 0) (s := 1) (t := 3)
    (by decide_cbv) (by decide_cbv) hpath hno
  obtain ⟨value, hvalue, hsources⟩ := hvars _ rfl _ List.mem_cons_self 2 rfl
  exact ⟨_, value, hok, hcontrol, hvalue, hsources 0 (by decide_cbv)⟩

/-- A jump inside of a region that never returns. -/
def spinning : Function where
  name := "spin"
  returns := .void
  vars := [⟨"n", .int 32, .param⟩, ⟨"x", .int 32, .local⟩]
  blocks := .ofList
    [(0, ⟨[], .branch (.var 0) 1 3⟩),
      (1, ⟨[], .jump 2⟩),
      (2, ⟨[.assign 1 (.const 1)], .jump 2⟩),
      (3, ⟨[], .ret none⟩)]
  entry := 0
  nextBlock := 4

/-- The taint of the branch is lost at the jump: the variable is assigned on one side of the branch
only, and is reported without taint. -/
theorem spinning_untainted :
    let g := Graph.ofFunction spinning
    let r := Run.ofFunction spinning .standard .empty []
    (Program.validate ⟨[spinning], by decide⟩ .standard = .ok ⟨[spinning], by decide⟩ ∧
      1 ∈ g.successors 0 ∧ 3 ∈ g.successors 0 ∧ g.Reaches 1 2 ∧ ¬ g.Reaches 3 2) ∧
      ∃ result, r.result = .ok result ∧ ¬ (r.final.branch 0).toIndirect ≤ r.final.control 2 ∧
        0 ∈ (r.final.branch 0).sources ∧ result.vars[1]? = some Value.bottom := by
  refine ⟨⟨by cbv, by decide_cbv, by decide_cbv, .single (by decide_cbv), fun h => ?_⟩, ?_⟩
  · exact absurd (h.eq_of_stuck (by decide_cbv)) (by decide)
  · exact ⟨_, Run.result_of_exhausted (by cbv), by decide_cbv, by decide_cbv, by decide_cbv⟩

end TaintAnalysis
