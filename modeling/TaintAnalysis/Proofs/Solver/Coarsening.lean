import TaintAnalysis.Proofs.Solver.Monotone

/-!
# Solutions pulled back along a relation

Taint that is kept by the locations of one memory is kept by those of another one, if each location
there is given all the taint of the locations that stand for it. So what satisfies the equations
over a memory that tells less apart can be pulled back to the other memory, and satisfies the
equations there (`Problem.exists_next_below`). Only the locations that are written to matter, and
which ones those are does not depend on how much taint there is.
-/

namespace TaintAnalysis

variable {r : Location → Location → Prop}

open Classical in
/-- Each of the locations is given all the taint of the locations that are related to it. -/
theorem Cells.exists_pullback (r : Location → Location → Prop) (ls : List Location) (d : Cells) :
    ∃ c : Cells, c.Under r d ∧
      ∀ w : Cells, (∀ e ∈ w, e.1 ∈ ls) → w.Under r d → w.Within c := by
  refine ⟨ls.map fun l => (l, d.gather fun l' => decide (r l' l)), fun e he v hv => ?_,
    fun w hlocations hw e he => ?_⟩
  · obtain ⟨l, -, rfl⟩ := List.mem_map.mp he
    exact gather_le_iff.mpr fun e' he' hr => hv e' he' (of_decide_eq_true hr)
  · have hgather : e.2 ≤ d.gather fun l' => decide (r l' e.1) :=
      hw e he _ fun e' he' hr => le_gather he' (decide_eq_true hr)
    exact Value.le_trans hgather (le_taintAt (e := (e.1, d.gather fun l' => decide (r l' e.1)))
      (List.mem_map.mpr ⟨e.1, hlocations e he, rfl⟩))

/-! ## Where something is written -/

namespace Storage

variable {S : Storage}

theorem locations_defines (v : VarId) (x y : Value) :
    (S.defines v x).map Prod.fst = (S.defines v y).map Prod.fst := by
  rw [defines, defines]
  split <;> rfl

theorem locations_writesThrough (x y : Value) (arg : Expr) :
    (S.writesThrough x arg).map Prod.fst = (S.writesThrough y arg).map Prod.fst := by
  simp [writesThrough]

theorem locations_summaryWrites (x y : Value) (args : List Expr) (actuals actuals' : List Value)
    (summary : Summary) :
    (S.summaryWrites x args actuals summary).map Prod.fst =
      (S.summaryWrites y args actuals' summary).map Prod.fst := by
  rw [summaryWrites, summaryWrites, List.map_flatMap, List.map_flatMap]
  congr 1
  funext e
  cases args[e.1]? with
  | none => rfl
  | some arg => exact locations_writesThrough _ _ arg

end Storage

namespace Problem

variable {p : Problem} {S T : Storage} {c d : Cells} {s t : State} {a b : Surroundings}

theorem locations_assigned (dst : Option VarId) (x y : Value) :
    (assigned S s dst x).2.map Prod.fst = (assigned S t dst y).2.map Prod.fst := by
  cases dst with
  | none => rfl
  | some v => exact Storage.locations_defines v x y

theorem locations_touched (vars : List VarId) :
    (p.touched S s vars).2.map Prod.fst = (p.touched S t vars).2.map Prod.fst := by
  induction vars generalizing s t with
  | nil => rfl
  | cons v rest ih =>
      simp only [touched, List.map_append]
      rw [ih]

theorem locations_outcome (i : Instruction) :
    (p.outcome S c a s i).2.map Prod.fst = (p.outcome S d b t i).2.map Prod.fst := by
  cases i with
  | assign dst e => exact locations_assigned (some dst) _ _
  | cast dst e ty => exact locations_assigned (some dst) _ _
  | load dst place => exact locations_assigned (some dst) _ _
  | store place src => simp [outcome]
  | call dst callee args =>
      rw [outcome, outcome]
      cases p.summaryOf? callee with
      | none =>
          simp only [List.map_append]
          rw [locations_assigned (t := t) dst]
      | some summary =>
          simp only [List.map_append]
          rw [locations_assigned (t := t) dst, Storage.locations_summaryWrites]
  | opaqueCode vars reason => exact locations_touched vars

theorem locations_outcomes (is : List Instruction) :
    (p.outcomes S c a s is).2.map Prod.fst = (p.outcomes S d b t is).2.map Prod.fst := by
  induction is generalizing s t with
  | nil => rfl
  | cons i rest ih =>
      simp only [outcomes, List.map_append]
      rw [locations_outcome (d := d) (b := b) (t := t), ih]

variable {σ τ : Assignment}

theorem locations_writes (σ τ : Assignment) :
    (p.writes σ S).map Prod.fst = (p.writes τ S).map Prod.fst := by
  rw [writes, writes, List.map_flatMap, List.map_flatMap]
  congr 1
  funext b
  rw [effects, effects]
  split
  · cases p.function.block? b with
    | none => rfl
    | some block => exact locations_outcomes block.instructions
  · rfl

/-! ## Pulling back -/

variable {P : Place → Prop} {u : SummaryTable} (m : PointsTo) (readers : List BlockId)
  {seeds seeds' : Cells}

/-- A guess that has everything it produces over a memory that tells less apart, with larger
summaries, can be pulled back to such a guess over the other memory. -/
theorem exists_next_below (hST : S.Under r P T) (hP : p.Throughout P) (hu : p.summaries.Below u)
    (hseeds : seeds.Under r seeds')
    (hparams : ∀ l l', r l' l → Memory.writtenParams p l ⊆
      Memory.writtenParams (p.withFacts u m readers) l')
    (hσ : σ.Sized p.varCount) (h : ((p.withFacts u m readers).next σ T seeds').Below σ) :
    ∃ τ, (p.next τ S seeds).Below τ ∧ τ.Under r σ := by
  obtain ⟨c, hc, hwithin⟩ :=
    Cells.exists_pullback r ((seeds ++ p.writes σ S).map Prod.fst) σ.cells
  have hτ : Assignment.Under r { σ with cells := c } σ :=
    ⟨fun _ => State.le_refl _, fun _ => Value.le_refl _, fun _ => Value.le_refl _, hc,
      Value.le_refl _, fun _ => Value.le_refl _⟩
  have hsized : Assignment.Sized { σ with cells := c } p.varCount := hσ
  have hnext := (next_under m readers hST hP hu hsized hτ hseeds hparams).trans_below h
  refine ⟨{ σ with cells := c }, ⟨hnext.exit, hnext.branch, hnext.control, hwithin _ ?_ hnext.cells,
    hnext.returned, hnext.outs⟩, hτ⟩
  intro e he
  rw [List.map_append, locations_writes σ { σ with cells := c }, ← List.map_append]
  exact List.mem_map_of_mem he

end Problem

end TaintAnalysis
