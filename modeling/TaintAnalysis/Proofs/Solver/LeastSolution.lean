import Mathlib
import TaintAnalysis.Proofs.Solver.Readers

/-!
# The solver finds the least solution

A guess that has everything its own right-hand sides produce lies above whatever
the solver knows, at any time and in any order of visits (`below_of_reached`):
a visit adds what a block does on less than the guess, and that is part of the
guess. When the worklist runs out, what is known is such a guess itself. So it
is the least one, and by the usual argument it is a solution: its right-hand
sides make up a guess of the same sort, and lie below it.

Both parts read off that a run ends with the same taint whatever blocks it
visits first.
-/

namespace TaintAnalysis

open Arena

namespace Problem

/-- The solution that has no more taint than any other one. -/
structure LeastSolution (p : Problem) (S : Storage) (seeds : Cells) (σ : Assignment) : Prop where
  solves : p.Solves S seeds σ
  least : ∀ τ, p.Solves S seeds τ → σ.Below τ

variable {p : Problem} {a₀ : Arena} {k : Knowledge} {b : BlockId} {block : Block}
  {σ τ : Assignment} {S : Storage} {seeds : Cells}

/-! ## Guesses that have everything they produce -/

theorem effects_eq (hb : b ∈ p.order) (hblock : p.function.block? b = some block) :
    p.effects σ b S = p.blockEffects σ b S block := by
  rw [effects, if_pos hb, hblock]
  rfl

theorem next_below_of_solves (h : p.Solves S seeds τ) : (p.next τ S seeds).Below τ where
  exit := fun b => h.exit b ▸ State.le_refl _
  branch := fun b => h.branch b ▸ Value.le_refl _
  control := fun b => h.control b ▸ Value.le_refl _
  cells := Cells.within_iff.mpr fun l => h.cells l ▸ Value.le_refl _
  returned := h.returned ▸ Value.le_refl _
  outs := fun i => h.outs i ▸ Value.le_refl _

/-- Each block on its own has nothing to add to such a guess. -/
theorem absorbed_of_next_below (h : (p.next τ S seeds).Below τ) (hb : b ∈ p.order)
    (hblock : p.function.block? b = some block) :
    Absorbed p (p.blockEffects τ b S block) τ b := by
  have heffects := effects_eq (σ := τ) (S := S) hb hblock
  have hwrites : (p.effects τ b S).writes.Within (p.writes τ S) := fun e he =>
    Cells.le_taintAt (List.mem_flatMap.mpr ⟨b, hb, he⟩)
  rw [← heffects]
  exact
    { control := h.control b
      exit := h.exit b
      branch := h.branch b
      returned := Value.le_trans (Value.le_joins (List.mem_map.mpr ⟨b, hb, rfl⟩)) h.returned
      writes := (hwrites.trans (.right seeds _)).trans h.cells
      outs := fun i => Value.le_trans (writtenThrough_mono hwrites i) (h.outs i) }

/-- A guess has everything it produces if no block has anything to add. -/
theorem next_below_of_absorbed (hseeds : seeds.Within τ.cells)
    (h : ∀ b ∈ p.order, ∀ block, p.function.block? b = some block →
      Absorbed p (p.blockEffects τ b S block) τ b) : (p.next τ S seeds).Below τ := by
  have heffects : ∀ b, (p.effects τ b S).control ≤ τ.control b ∧
      (p.effects τ b S).exit ≤ τ.exit b ∧ (p.effects τ b S).branch ≤ τ.branch b ∧
      (p.effects τ b S).returned ≤ τ.returned ∧ (p.effects τ b S).writes.Within τ.cells ∧
      ∀ i, p.writtenThrough (p.effects τ b S).writes i ≤ τ.outs i := by
    intro b
    have hnone : p.writtenThrough [] = fun _ => Value.bottom := rfl
    have hidle : p.noEffects.control ≤ τ.control b ∧ p.noEffects.exit ≤ τ.exit b ∧
        p.noEffects.branch ≤ τ.branch b ∧ p.noEffects.returned ≤ τ.returned ∧
        p.noEffects.writes.Within τ.cells ∧
        ∀ i, p.writtenThrough p.noEffects.writes i ≤ τ.outs i :=
      ⟨Value.bottom_le _, State.untainted_le _ _, Value.bottom_le _, Value.bottom_le _, .nil _,
        fun i => Value.bottom_le _⟩
    by_cases hb : b ∈ p.order
    · cases hblock : p.function.block? b with
      | none =>
          rw [effects, if_pos hb, hblock]
          exact hidle
      | some block =>
          obtain ⟨h₁, h₂, h₃, h₄, h₅, h₆⟩ := h b hb block hblock
          rw [effects_eq hb hblock]
          exact ⟨h₁, h₂, h₃, h₄, h₅, h₆⟩
    · rw [effects, if_neg hb]
      exact hidle
  refine ⟨fun b => (heffects b).2.1, fun b => (heffects b).2.2.1, fun b => (heffects b).1,
    .append hseeds fun e he => ?_, ?_, fun i => ?_⟩
  · obtain ⟨b, -, he⟩ := List.mem_flatMap.mp he
    exact (heffects b).2.2.2.2.1 e he
  · refine Value.joins_le_iff.mpr ?_
    intro v hv
    obtain ⟨b, -, rfl⟩ := List.mem_map.mp hv
    exact (heffects b).2.2.2.1
  · refine Cells.gather_le_iff.mpr ?_
    intro e he hi
    obtain ⟨b, -, he⟩ := List.mem_flatMap.mp he
    exact Value.le_trans (Cells.le_gather he hi) ((heffects b).2.2.2.2.2 i)

/-! ## Above the knowledge -/

theorem start_below (h : (p.next τ S (p.seeds a₀)).Below τ) :
    ((p.start a₀).assignment p.varCount).Below τ where
  exit := fun _ => State.untainted_le _ _
  branch := fun _ => Value.bottom_le _
  control := fun _ => Value.bottom_le _
  cells := (Cells.Within.left _ _).trans h.cells
  returned := Value.bottom_le _
  outs := fun _ => Value.bottom_le _

/-- A guess that has everything it produces lies above all that the solver finds. -/
theorem below_of_reached (hw : p.WellPosed a₀)
    (hτ : (p.next τ (Storage.ofProblem p a₀) (p.seeds a₀)).Below τ) (h : p.Reached a₀ k) :
    (k.assignment p.varCount).Below τ := by
  induction h with
  | start => exact start_below hτ
  | visit hk hvisit ih =>
      rename_i k k' b
      have hsound := sound_of_reached hw hk
      obtain ⟨hi, hrest, hb⟩ := hvisit
      rename_i i rest
      have hmem : b ∈ p.order := List.mem_of_getElem? hb
      rw [visit]
      cases hblock : p.function.block? b with
      | none => exact ih
      | some block =>
          obtain ⟨ws, hsteps, hexit, -, hupper⟩ := execute_bounds
            (k := { k with worklist := rest }) hw.ready hsound.fits hsound.sized
            (hw.kept b hmem block hblock) b
          have habs := absorbed_of_next_below hτ hmem hblock
          exact absorb_below hexit hsteps ih
            (habs.mono (hupper τ ih habs.writes) (.refl _))

/-! ## The end of a run -/

theorem next_below_of_exhausted (hw : p.WellPosed a₀)
    (hwatched : ∀ b ∈ p.order, ∀ block, p.function.block? b = some block → p.Watched a₀ b block)
    (h : p.Reached a₀ k) (hdone : k.worklist.isEmpty = true) :
    (p.next (k.assignment p.varCount) (Storage.ofProblem p a₀) (p.seeds a₀)).Below
      (k.assignment p.varCount) :=
  next_below_of_absorbed (sound_of_reached hw h).seeded fun b hb block hblock =>
    settled_of_exhausted hw h hdone hb hblock (hwatched b hb block hblock)

/-- Where the worklist has run out, the least solution is known. -/
theorem leastSolution_of_exhausted (hw : p.WellPosed a₀)
    (hwatched : ∀ b ∈ p.order, ∀ block, p.function.block? b = some block → p.Watched a₀ b block)
    (h : p.Reached a₀ k) (hdone : k.worklist.isEmpty = true) :
    p.LeastSolution (Storage.ofProblem p a₀) (p.seeds a₀) (k.assignment p.varCount) := by
  have hexit := (sound_of_reached hw h).sized.assignment
  have hsized : (k.assignment p.varCount).Sized p.varCount := fun b => Nat.le_of_eq (hexit b)
  have hpost := next_below_of_exhausted hw hwatched h hdone
  have hsized' : (p.next (k.assignment p.varCount) (Storage.ofProblem p a₀) (p.seeds a₀)).Sized
      p.varCount := fun b => Nat.le_of_eq (length_effects_exit hsized b)
  -- the right-hand sides have everything they produce, so what is known lies below them
  have hpre := below_of_reached hw
    (next_mono (u := p.summaries) (.refl p.summaries) hsized' hpost) h
  refine ⟨?_, fun τ hτ => below_of_reached hw (next_below_of_solves hτ) h⟩
  exact
    { exit := fun b => State.le_antisymm
        ((hexit b).trans (length_effects_exit hsized b).symm) (hpre.exit b) (hpost.exit b)
      branch := fun b => Value.le_antisymm (hpre.branch b) (hpost.branch b)
      control := fun b => Value.le_antisymm (hpre.control b) (hpost.control b)
      cells := fun l => Value.le_antisymm (Cells.within_iff.mp hpre.cells l)
        (Cells.within_iff.mp hpost.cells l)
      returned := Value.le_antisymm hpre.returned hpost.returned
      outs := fun i => Value.le_antisymm (hpre.outs i) (hpost.outs i) }

end Problem

/-! ## Functions without addresses -/

namespace Run

theorem out_summary (r : Run) (i : Nat) : r.summary.out i = r.final.memory.out i := by
  rw [summary, Summary.out_tabulate]
  split
  · rfl
  · next hi =>
    rw [Memory.out]
    cases hget : r.final.memory.paramWrites.get? i with
    | none => rfl
    | some v =>
        exact absurd (IdSet.mem_ofList.mpr (OrderedMap.mem_keys_iff_exists.mpr ⟨v, hget⟩)) hi

variable {f : Function} {config : Config} {table : SummaryTable} {peers : List String}
  {result : FunctionResult}

theorem reached_ofFunction : (Problem.ofFunction f config table peers).1.Reached
    (Problem.ofFunction f config table peers).2 (ofFunction f config table peers).final :=
  reached_final _ _ _

theorem result_of_exhausted {r : Run} (h : r.final.worklist.isEmpty = true) :
    r.result = .ok ⟨r.summary, (List.range r.problem.varCount).map r.taintOf, r.visits.length⟩ :=
  if_pos h

theorem summary_of_ok {r : Run} (h : r.result = .ok result) : result.summary = r.summary := by
  rw [Run.result] at h
  split at h
  · exact Except.ok.inj h ▸ rfl
  · exact absurd h (by simp only [reduceCtorEq, not_false_eq_true])

theorem mem_outs_summary {r : Run} {e : Nat × Value} (he : e ∈ r.summary.outs) :
    e ∈ r.final.memory.paramWrites.entries := by
  obtain ⟨hmem, hval⟩ := Summary.mem_outs_tabulate.mp he
  obtain ⟨v, hget⟩ := OrderedMap.mem_keys_iff_exists.mp (IdSet.mem_ofList.mp hmem)
  rw [hget, Option.getD_some] at hval
  rw [← hval] at hget
  exact OrderedMap.get?_eq_some_iff.mp hget

/-- Only parameters that taint is written through are listed in the summary of a run. -/
theorem summary_tainted (hw : (Problem.ofFunction f config table peers).1.WellPosed
      (Problem.ofFunction f config table peers).2) :
    ∀ e ∈ (ofFunction f config table peers).summary.outs, e.2 ≠ Value.bottom := fun e he =>
  (Problem.sound_of_reached hw reached_ofFunction).fits.tainted e (mem_outs_summary he)

/-- The summary of a run lies below that of another one if what the runs know does. -/
theorem summary_below_of_le {r : Run}
    (hw : (Problem.ofFunction f config table peers).1.WellPosed
      (Problem.ofFunction f config table peers).2)
    (hreturned : (ofFunction f config table peers).final.returned ≤ r.final.returned)
    (houts : ∀ i, (ofFunction f config table peers).final.memory.out i ≤ r.final.memory.out i) :
    (ofFunction f config table peers).summary.Below r.summary := by
  refine Summary.below_iff.mpr ⟨hreturned, fun i hi => ?_⟩
  have hle : (ofFunction f config table peers).summary.out i ≤ r.summary.out i := by
    rw [out_summary, out_summary]
    exact houts i
  refine ⟨?_, hle⟩
  by_contra hmem
  rw [Summary.out_of_not_mem hmem, Value.le_bottom_iff] at hle
  exact summary_tainted hw _ (Summary.mem_outParams_iff.mp hi) hle

/-- A run on a function without addresses that converges finds the least solution
of the equations, and any other order of visits finds it as well. -/
theorem leastSolution_of_addressFree (hf : f.AddressFree)
    (hok : (ofFunction f config table peers).result = .ok result) :
    let p := (Problem.ofFunction f config table peers).1
    let a := (Problem.ofFunction f config table peers).2
    let σ := (ofFunction f config table peers).final.assignment p.varCount
    p.LeastSolution (Storage.ofProblem p a) (p.seeds a) σ ∧
      result.summary.returned = σ.returned ∧ (∀ i, result.summary.out i = σ.outs i) ∧
      ∀ k, p.Reached a k → k.worklist.isEmpty = true →
        p.LeastSolution (Storage.ofProblem p a) (p.seeds a) (k.assignment p.varCount) := by
  intro p a σ
  have hany : ∀ k, p.Reached a k → k.worklist.isEmpty = true →
      p.LeastSolution (Storage.ofProblem p a) (p.seeds a) (k.assignment p.varCount) :=
    fun k hk hdone => Problem.leastSolution_of_exhausted
      (Problem.wellPosed_of_addressFree hf)
      (fun b _ block hblock => Problem.watched_of_addressFree hf hblock) hk hdone
  refine ⟨hany _ reached_ofFunction (exhausted_of_ok hok), ?_, fun i => ?_, hany⟩
  · rw [summary_of_ok hok]
    rfl
  · rw [summary_of_ok hok]
    exact out_summary _ i

end Run

/-- A function that stores through a pointer in one branch and calls unknown code
after the join. -/
def guardedStore : Function where
  name := "guarded"
  returns := .int 32
  vars :=
    [⟨"p", .pointer (.int 32), .param⟩, ⟨"n", .int 32, .param⟩, ⟨"x", .int 32, .local⟩]
  blocks := .ofList
    [(0, ⟨[.load 2 (.deref (.var 0))], .branch (.var 1) 1 2⟩),
      (1, ⟨[.store (.deref (.var 0)) (.const 1)], .jump 2⟩),
      (2, ⟨[.call (some 2) (.direct "update") [.var 0, .var 2]], .ret (some (.var 2))⟩)]
  entry := 0
  nextBlock := 3

theorem leastSolution_guardedStore :
    let p := (Problem.ofFunction guardedStore .standard .empty []).1
    let a := (Problem.ofFunction guardedStore .standard .empty []).2
    p.LeastSolution (Storage.ofProblem p a) (p.seeds a)
      ((Run.ofFunction guardedStore .standard .empty []).final.assignment p.varCount) :=
  (Run.leastSolution_of_addressFree (by decide)
    (Run.result_of_exhausted (r := Run.ofFunction guardedStore .standard .empty [])
      (by cbv))).1

end TaintAnalysis
