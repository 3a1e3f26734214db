import TaintAnalysis.Program.WellFormed
import TaintAnalysis.Proofs.Solver.LeastSolution

/-!
# Visiting a block once more

When the solver stops, visiting a block once more should change nothing. It does
change nothing exactly if the block's equation holds for what is known then
(`stable_iff`), and the invariant of the worklist gives that for every block
that is on the list of blocks that read memory whenever it reads any.

A block that reads memory without being on the list may be left behind. The
pointers that are followed to compute the address of a place are read but not
mentioned, so a block that assigns `&p->next->val` and accesses no memory
otherwise is visited too early in a loop that stores to `p->next` later on
(`leftBehind`).
-/

namespace TaintAnalysis

open Arena

namespace Problem

/-- Visiting the block once more changes no taint. -/
structure Stable (p : Problem) (k : Knowledge) (b : BlockId) : Prop where
  exits : (p.visit k b).exits = k.exits
  cells : (p.visit k b).memory.cells = k.memory.cells
  branchTaint : (p.visit k b).branchTaint = k.branchTaint
  controlTaint : (p.visit k b).controlTaint = k.controlTaint
  returned : (p.visit k b).returned = k.returned
  paramWrites : (p.visit k b).memory.paramWrites = k.memory.paramWrites

variable {p : Problem} {a₀ : Arena} {k : Knowledge} {b : BlockId} {block : Block}

theorem visit_eq_absorb (hblock : p.function.block? b = some block) :
    p.visit k b = p.absorb k b (p.execute k b block) := by
  rw [visit, hblock]

/-- A visit that changes no taint leaves what is known as it is. It may name locations, but
those have no taint. -/
theorem Stable.assignment_eq (hstable : p.Stable k b) (hfits : Fits p a₀ k.memory)
    (hgrow : k.memory.arena.Extends (p.visit k b).memory.arena) :
    (p.visit k b).assignment p.varCount = k.assignment p.varCount := by
  have hview : (p.visit k b).memory.view = k.memory.view := by
    rw [Memory.view, Memory.view, hstable.cells]
    refine List.map_congr_left ?_
    intro e he
    rw [hgrow.location (hfits.keys e he)]
  show Assignment.mk _ _ _ _ _ _ = Assignment.mk _ _ _ _ _ _
  rw [hview, hstable.returned, hstable.exits]
  congr 1
  · funext x
    rw [Knowledge.branch, Knowledge.branch, hstable.branchTaint]
  · funext x
    rw [Knowledge.control, Knowledge.control, hstable.controlTaint]
  · funext i
    rw [Memory.out, Memory.out, hstable.paramWrites]

/-- A block is stable at the end of a run exactly if its equation holds there. -/
theorem stable_iff (hw : p.WellPosed a₀) (h : p.Reached a₀ k) (hdone : k.worklist.isEmpty = true)
    (hb : b ∈ p.order) (hblock : p.function.block? b = some block) :
    p.Stable k b ↔
      Absorbed p (p.blockEffects (k.assignment p.varCount) b (Storage.ofProblem p a₀) block)
        (k.assignment p.varCount) b := by
  have hsound := sound_of_reached hw h
  obtain ⟨ws, hsteps, hexit, hlower, hupper⟩ := execute_bounds hw.ready hsound.fits hsound.sized
    (hw.kept b hb block hblock) b
  have hvisit : p.visit k b = p.absorb k b (p.execute k b block) := visit_eq_absorb hblock
  constructor
  · intro hstable
    -- what a visit did is known after it, and that is what was known before
    have hself := absorbed_absorb (b := b) hexit hsteps
    rw [← hvisit, hstable.assignment_eq hsound.fits (hvisit ▸ hsteps.extend)] at hself
    exact hself.mono hlower (.refl _)
  · intro habs
    have hbelow := hupper (k.assignment p.varCount) (.refl _) habs.writes
    obtain ⟨hcontrol, hexits, hbranch, hreturned, hwrites, houts⟩ := habs.mono hbelow (.refl _)
    obtain ⟨s, hs⟩ := hsound.visited b hb block hblock fun j hj =>
      absurd (IdSet.mem_def.mp hj) (List.isEmpty_iff.mp hdone ▸ List.not_mem_nil)
    obtain ⟨hcells, hparams⟩ := hsteps.same hwrites houts
    have hknown : (k.assignment p.varCount).exit b = s := by
      show (k.exits.get? b).getD _ = s
      rw [hs, Option.getD_some]
    have hle : (p.execute k b block).exit ≤ s := hknown ▸ hexits
    refine ⟨?_, ?_, ?_, ?_, ?_, ?_⟩ <;> rw [hvisit]
    · show Knowledge.joinExit k.exits b _ = k.exits
      rw [Knowledge.joinExit, hs, Option.getD_some,
        State.join_eq_left (Nat.le_of_eq (hexit.trans (hsound.sized b s hs).symm)) hle]
      exact OrderedMap.insert_eq_self hs
    · exact hcells
    · exact OrderedMap.joinAt_eq_self hbranch
    · exact OrderedMap.joinAt_eq_self hcontrol
    · exact Value.join_eq_left_iff.mpr hreturned
    · exact hparams

end Problem

namespace Run

variable {f : Function} {config : Config} {table : SummaryTable} {peers : List String}
  {result : FunctionResult}

/-- After a run that converged, visiting a block once more changes nothing exactly
if the equation of the block holds, and it does if the block is on the list of
blocks that read memory, or reads none. -/
theorem stable_after_run (hok : (ofFunction f config table peers).result = .ok result)
    (hnamed : f.addressesNamed config = true) {b : BlockId} {block : Block}
    (hb : b ∈ (ofFunction f config table peers).problem.order)
    (hblock : f.block? b = some block) :
    let r := ofFunction f config table peers
    let S := Storage.ofProblem r.problem (PointsTo.analyze f config).2
    let σ := r.final.assignment r.problem.varCount
    (r.problem.Stable r.final b ↔ Absorbed r.problem (r.problem.blockEffects σ b S block) σ b) ∧
      ((S.blockReads block = true → b ∈ r.problem.memoryReaders) →
        r.problem.Stable r.final b) := by
  intro r S σ
  have hw : r.problem.WellPosed (PointsTo.analyze f config).2 :=
    Problem.wellPosed_ofFunction hnamed
  have hreached : r.problem.Reached (PointsTo.analyze f config).2 r.final := reached_ofFunction
  have hdone := exhausted_of_ok hok
  have hiff := Problem.stable_iff hw hreached hdone hb hblock
  exact ⟨hiff, fun hlisted => hiff.mpr (Problem.settled_of_exhausted hw hreached hdone hb hblock
    (Problem.watched_of_listed hlisted))⟩

end Run

/-! ## A block that is left behind -/

/-- A configuration under which runs are short. -/
def briefly : Config :=
  { Config.standard with maxBlockVisits := 50 }

/-- A loop that computes the address `&p->next->val` before it changes `p->next`. -/
def leftBehind : Function where
  name := "stale"
  returns := .int 32
  vars :=
    [⟨"p", .pointer (.struct "node"), .param⟩, ⟨"q", .pointer (.struct "node"), .param⟩,
      ⟨"g", .pointer (.struct "node"), .local⟩, ⟨"c", .int 32, .local⟩,
      ⟨"x", .pointer (.int 32), .local⟩]
  blocks := .ofList
    [(0, ⟨[], .jump 1⟩),
      (1, ⟨[.assign 4 (.addrOf (((Place.var 0).arrow "next").arrow "val"))], .jump 2⟩),
      (2, ⟨[.store ((Place.var 0).arrow "next") (.var 2)], .jump 3⟩),
      (3, ⟨[.store (.var 2) (.var 1)], .branch (.var 3) 1 4⟩),
      (4, ⟨[], .ret (some (.var 4))⟩)]
  entry := 0
  nextBlock := 5

theorem leftBehind_exhausted :
    (Run.ofFunction leftBehind briefly .empty []).final.worklist.isEmpty = true := by
  cbv

theorem leftBehind_stable_after_store :
    (Run.ofFunction leftBehind briefly .empty []).problem.Stable
      (Run.ofFunction leftBehind briefly .empty []).final 3 := by
  have hok := Run.result_of_exhausted leftBehind_exhausted
  have hnamed : leftBehind.addressesNamed briefly = true := by decide_cbv
  have hb : (3 : BlockId) ∈ (Graph.ofFunction leftBehind).reversePostorder := by decide_cbv
  refine (Run.stable_after_run hok hnamed hb rfl).2 ?_
  intro _
  show 3 ∈ ((leftBehind.blocks.entries.filter fun e =>
    Problem.readsMemory (PointsTo.analyze leftBehind briefly).2 e.2).map Prod.fst)
  decide_cbv

/-- The block that computes the address does not see what the last block stores:
when the run is over, visiting it once more changes the exit states. -/
theorem leftBehind_not_stable :
    Program.validate ⟨[leftBehind], by decide⟩ briefly = .ok ⟨[leftBehind], by decide⟩ ∧
      (Run.ofFunction leftBehind briefly .empty []).final.worklist.isEmpty = true ∧
      1 ∈ (Run.ofFunction leftBehind briefly .empty []).problem.order ∧
      ¬ (Run.ofFunction leftBehind briefly .empty []).problem.Stable
        (Run.ofFunction leftBehind briefly .empty []).final 1 := by
  refine ⟨by cbv, leftBehind_exhausted, ?_, fun hstable => ?_⟩
  · show 1 ∈ (Graph.ofFunction leftBehind).reversePostorder
    decide_cbv
  · have hexits : ((Problem.ofFunction leftBehind briefly .empty []).1.visit
        (Run.ofFunction leftBehind briefly .empty []).final 1).exits.get? 1 ≠
        (Run.ofFunction leftBehind briefly .empty []).final.exits.get? 1 := by
      decide_cbv
    exact hexits (congrArg (·.get? 1) hstable.exits)

end TaintAnalysis
