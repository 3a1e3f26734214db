import TaintAnalysis.Proofs.Flow.ClosestDominators
import TaintAnalysis.Proofs.Flow.Worklist

/-!
# The dominance frontier

The frontier of a block is where its dominance is over: the blocks that come after a block it
dominates without being strictly dominated themselves. That definition looks from a block back at
its predecessors. The frontier is collected the other way round, by going down from the block by
closest dominators and looking ahead at the successors. In the forest of closest dominators the
blocks below a block are those that it dominates, so both find the same blocks.

The blocks below are collected with a worklist. It stays among the blocks that have dominators,
and so it runs out.
-/

namespace TaintAnalysis.Dominance

variable {dom : Dominance} {g : Graph} {b c y : BlockId}

/-! ## Below a block -/

namespace Equations

variable {e : Equations}

/-- Going down from a block by closest dominators meets what it dominates. -/
theorem dominates_iff_below (he : e.Rooted) (hb : b ∈ e.blocks) :
    e.solve.dominates b c = true ↔
      Relation.ReflTransGen (fun x y => y ∈ e.solve.children x) b c := by
  have hswap : Relation.ReflTransGen (fun x y => y ∈ e.solve.children x) b c ↔
      Relation.ReflTransGen (fun x y => e.solve.parent? x = some y) c b := by
    rw [← Relation.reflTransGen_swap]
    simp only [mem_children_iff]
  rw [hswap]
  constructor
  · intro h
    exact (dominates_iff_ancestor he (mem_blocks_of_dominates h)).mp h
  · intro h
    have hc : c ∈ e.blocks := by
      rcases h.cases_head with rfl | ⟨m, hm, -⟩
      · exact hb
      · exact mem_blocks_of_dominates (height_le_parent hm).1.1
    exact (dominates_iff_ancestor he hc).mpr h

end Equations

/-- The blocks that a walk down from a block can meet. -/
theorem children_closed (dom : Dominance) (b : BlockId) :
    ∀ x ∈ b :: dom.sets.keys, ∀ y ∈ dom.children x, y ∈ b :: dom.sets.keys := by
  intro x _ y hy
  have hy := BlockId.mem_ascending.mp hy
  exact List.mem_cons_of_mem b (List.mem_filter.mp hy).1

theorem mem_subtree_iff :
    c ∈ dom.subtree b ↔ Relation.ReflTransGen (fun x y => y ∈ dom.children x) b c := by
  have hbudget : (b :: dom.sets.keys).length ≤ dom.sets.size + 1 := by
    simp [OrderedMap.keys, OrderedMap.size]
  rw [subtree, Search.mem_run_iff (dom.children_closed b) hbudget (by simp)]
  simp

/-! ## Past the blocks below -/

/-- The successors of a block that are not strictly dominated. -/
def beyond (dom : Dominance) (g : Graph) (b c : BlockId) : List BlockId :=
  (g.successors c).filter fun s => !dom.dominates b s || s = b

theorem frontier_eq (dom : Dominance) (g : Graph) (b : BlockId) :
    dom.frontier g b = BlockId.ascending ((dom.subtree b).flatMap (dom.beyond g b)) :=
  rfl

theorem mem_beyond_iff :
    y ∈ dom.beyond g b c ↔ c ∈ g.predecessors y ∧ ¬ dom.StrictlyDominates b y := by
  rw [beyond, List.mem_filter, Graph.mem_predecessors_iff, StrictlyDominates, not_and_or, not_not,
    Bool.or_eq_true, Bool.not_eq_true', Bool.not_eq_true, decide_eq_true_eq, eq_comm (a := y)]

theorem mem_frontier_iff : y ∈ dom.frontier g b ↔
    ∃ c, Relation.ReflTransGen (fun x y => y ∈ dom.children x) b c ∧ y ∈ dom.beyond g b c := by
  rw [frontier_eq, BlockId.mem_ascending, List.mem_flatMap]
  simp only [mem_subtree_iff]

/-- The walk down from a block collects its frontier and ends. -/
theorem exists_walk (dom : Dominance) (g : Graph) (b : BlockId) :
    ∃ w, EndsIn (Walk.step dom.children (dom.beyond g b)) (Walk.begin b) w ∧
      ∀ y, y ∈ w.found ↔ y ∈ dom.frontier g b := by
  obtain ⟨w, hend, hfound⟩ :=
    Walk.exists_end (dom.beyond g b) (dom.children_closed b) List.mem_cons_self
  exact ⟨w, hend, fun y => (hfound y).trans mem_frontier_iff.symm⟩

/-- The frontier of a block of a validated function. The walk down the forest of closest dominators
ends, and what it has collected is the frontier. The frontier consists of the blocks with a
predecessor that the block dominates which it does not strictly dominate; so the block itself
belongs to it if it dominates one of its own predecessors, as the header of a loop does. Dominance
is meant by definition: the block lies on every way from the entry. -/
theorem frontier_exact {f : Function} (hf : f.Validated) {b : BlockId}
    (hb : b ∈ (Graph.ofFunction f).blocks) :
    let g := Graph.ofFunction f
    let dom := ofGraph g
    (∃ w, EndsIn (Walk.step dom.children (dom.beyond g b)) (Walk.begin b) w ∧
      ∀ y, y ∈ w.found ↔ y ∈ dom.frontier g b) ∧
    ∀ y, y ∈ dom.frontier g b ↔
      (∃ p ∈ g.predecessors y, ∀ way, g.Way g.entry p way → b ∈ way) ∧
        ¬ ((∀ way, g.Way g.entry y way → b ∈ way) ∧ b ≠ y) := by
  intro g dom
  have hreached : ∀ c ∈ g.blocks, g.Reaches g.entry c := fun c hc => hf.whole.reaches hc
  refine ⟨dom.exists_walk g b, fun y => ?_⟩
  rw [mem_frontier_iff]
  constructor
  · rintro ⟨c, hbelow, hc⟩
    obtain ⟨hpred, hno⟩ := mem_beyond_iff.mp hc
    have hdom := (Equations.dominates_iff_below (rooted_fromEntry g)
      (Graph.mem_reversePostorder_iff.mpr (hreached b hb))).mpr hbelow
    have hstep := Graph.mem_predecessors_iff.mp hpred
    have hcr := hreached c (Graph.mem_blocks_of_successor hstep)
    refine ⟨⟨c, hpred, (dominates_iff_ways hcr).mp hdom⟩, ?_⟩
    rwa [StrictlyDominates, dominates_iff_ways (hcr.tail hstep)] at hno
  · rintro ⟨⟨p, hpred, hways⟩, hno⟩
    have hstep := Graph.mem_predecessors_iff.mp hpred
    have hpr := hreached p (Graph.mem_blocks_of_successor hstep)
    rw [← dominates_iff_ways (hpr.tail hstep)] at hno
    refine ⟨p, ?_, mem_beyond_iff.mpr ⟨hpred, hno⟩⟩
    exact (Equations.dominates_iff_below (rooted_fromEntry g)
      (Graph.mem_reversePostorder_iff.mpr (hreached b hb))).mp ((dominates_iff_ways hpr).mpr hways)

/-- A loop that is entered at two blocks, and that leads back to the entry. -/
def tangled : Function where
  name := "tangled"
  returns := .void
  vars := [⟨"c", .int 32, .param⟩]
  blocks := .ofList
    [(0, ⟨[], .branch (.var 0) 1 2⟩),
      (1, ⟨[], .branch (.var 0) 2 3⟩),
      (2, ⟨[], .branch (.var 0) 1 0⟩),
      (3, ⟨[], .ret none⟩)]
  entry := 0
  nextBlock := 4

theorem validated_tangled : tangled.Validated :=
  ⟨⟨[tangled], by decide⟩, ⟨[tangled], by decide⟩, .standard, by cbv, List.mem_cons_self⟩

/-- The entry is in its own frontier. The blocks at which the loop is entered are in each other's,
as neither dominates the other. -/
theorem frontier_exact_tangled :
    let g := Graph.ofFunction tangled
    let dom := ofGraph g
    tangled.Validated ∧ dom.frontier g 0 = [0] ∧ dom.frontier g 1 = [2] ∧
      (∃ w, EndsIn (Walk.step dom.children (dom.beyond g 1)) (Walk.begin 1) w ∧
        ∀ y, y ∈ w.found ↔ y = 2) ∧
      (∃ p ∈ g.predecessors 0, ∀ way, g.Way 0 p way → 0 ∈ way) ∧
      ¬ ∀ way, g.Way 0 2 way → 1 ∈ way := by
  intro g dom
  obtain ⟨-, hentry⟩ := frontier_exact validated_tangled (b := 0) (by decide)
  obtain ⟨⟨w, hend, hfound⟩, hone⟩ := frontier_exact validated_tangled (b := 1) (by decide)
  have hzero : dom.frontier g 0 = [0] := by decide_cbv
  have htwo : dom.frontier g 1 = [2] := by decide_cbv
  refine ⟨validated_tangled, hzero, htwo, ⟨w, hend, fun y => ?_⟩, ?_, fun hways => ?_⟩
  · rw [hfound, htwo, List.mem_singleton]
  · exact ((hentry 0).mp (hzero ▸ List.mem_cons_self)).1
  · exact ((hone 2).mp (htwo ▸ List.mem_cons_self)).2 ⟨hways, by decide⟩

end TaintAnalysis.Dominance
