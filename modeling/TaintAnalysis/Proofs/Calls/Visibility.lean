import TaintAnalysis.Proofs.Calls.Components
import TaintAnalysis.Proofs.Solver.Monotone

/-!
# Only the summaries of callees are visible

The solver looks into the table of summaries at one place, the call of a function
by name, and asks there whether this function has a summary. So runs on two tables
are the same if the tables agree on the callees: a function that failed and one
that is not listed at all look alike, and other entries do not matter.

Nothing that evaluates an expression asks for a summary, which has to be followed
through the recursion over expressions and places. The other steps follow by the
definitions, up to the run.
-/

namespace TaintAnalysis

namespace Problem

variable {p : Problem} {u : SummaryTable}

mutual

theorem eval_withSummaries (s : State) : ∀ e : Expr, (p.withSummaries u).eval s e = p.eval s e
  | .var _ | .const _ => rfl
  | .unary _ e => eval_withSummaries s e
  | .binary _ l r => by
      rw [eval, eval, eval_withSummaries s l, eval_withSummaries s r]
  | .addrOf place => by
      rw [eval, eval, evalPositions_withSummaries s place]
      rfl

theorem evalPositions_withSummaries (s : State) :
    ∀ place : Place, (p.withSummaries u).evalPositions s place = p.evalPositions s place
  | .var _ => rfl
  | .deref inner => evalPositions_withSummaries s inner
  | .field inner _ => evalPositions_withSummaries s inner
  | .index inner e => by
      rw [evalPositions, evalPositions, evalPositions_withSummaries s inner,
        eval_withSummaries s e]

end

theorem evalArgument_withSummaries (s : State) (arg : Expr) :
    (p.withSummaries u).evalArgument s arg = p.evalArgument s arg := by
  rw [evalArgument, evalArgument, eval_withSummaries]
  rfl

/-- An instruction does the same if what it calls has the same summary. -/
theorem transfer_withSummaries {i : Instruction}
    (h : ∀ name, i.directCallee? = some name → u.ready? name = p.summaries.ready? name)
    (around : Surroundings) (s : State) :
    (p.withSummaries u).transfer around s i = p.transfer around s i := by
  cases i with
  | assign dst e | cast dst e _ =>
      rw [transfer, transfer, eval_withSummaries]
      rfl
  | load dst place =>
      rw [transfer, transfer, evalPositions_withSummaries]
      rfl
  | store place src =>
      rw [transfer, transfer, evalPositions_withSummaries, eval_withSummaries]
      rfl
  | call dst callee args =>
      have hsummary : (p.withSummaries u).summaryOf? callee = p.summaryOf? callee := by
        rw [summaryOf?, summaryOf?]
        cases hname : callee.name? with
        | none => rfl
        | some name => exact h name hname
      rw [transfer, transfer, hsummary, funext (evalArgument_withSummaries s)]
      rfl
  | opaqueCode touched _ => rfl

theorem transferAll_withSummaries {is : List Instruction}
    (h : ∀ i ∈ is, ∀ name, i.directCallee? = some name →
      u.ready? name = p.summaries.ready? name) (around : Surroundings) (s : State) :
    (p.withSummaries u).transferAll around s is = p.transferAll around s is := by
  induction is generalizing s with
  | nil => rfl
  | cons i rest ih =>
      have hrest := fun j hj => h j (List.mem_cons_of_mem i hj)
      rw [transferAll, transferAll, List.foldlM_cons, List.foldlM_cons,
        transfer_withSummaries (h i List.mem_cons_self)]
      exact congrArg _ (funext fun s => ih hrest s)

theorem terminate_withSummaries (around : Surroundings) (s : State) (t : Terminator) :
    (p.withSummaries u).terminate around s t = p.terminate around s t := by
  cases t with
  | branch condition thenBlock elseBlock => rw [terminate, terminate, eval_withSummaries]
  | ret value =>
      cases value with
      | none => rfl
      | some value => rw [terminate, terminate, eval_withSummaries]
  | jump target | missing => rfl

/-- A visit does the same if the callees of the function have the same summaries. -/
theorem visit_withSummaries
    (h : ∀ name ∈ p.function.callees, u.ready? name = p.summaries.ready? name) (k : Knowledge)
    (b : BlockId) : (p.withSummaries u).visit k b = p.visit k b := by
  cases hblock : p.function.block? b with
  | none =>
      have hblock' : (p.withSummaries u).function.block? b = none := hblock
      rw [visit, visit, hblock, hblock']
  | some block =>
      have hblock' : (p.withSummaries u).function.block? b = some block := hblock
      have hcalls : ∀ i ∈ block.instructions, ∀ name, i.directCallee? = some name →
          u.ready? name = p.summaries.ready? name := fun i hi name hname =>
        h name (Function.mem_callees_iff.mpr
          ⟨block, OrderedMap.mem_values_iff.mpr ⟨b, hblock⟩, i, hi, hname⟩)
      have hexecute : (p.withSummaries u).execute k b block = p.execute k b block := by
        rw [execute, execute, transferAll_withSummaries hcalls]
        simp only [terminate_withSummaries]
        rfl
      rw [visit, visit, hblock, hblock']
      exact congrArg (p.absorb k b) hexecute

theorem visits_withSummaries
    (h : ∀ name ∈ p.function.callees, u.ready? name = p.summaries.ready? name) (budget : Nat)
    (k : Knowledge) : (p.withSummaries u).visits budget k = p.visits budget k := by
  induction budget generalizing k with
  | zero => rfl
  | succ budget ih =>
      have hnext : (p.withSummaries u).next? k = p.next? k := by
        rw [next?, next?]
        simp only [visit_withSummaries h]
        rfl
      rw [visits, visits, hnext]
      cases p.next? k with
      | none => rfl
      | some next => exact congrArg _ (ih next.2)

end Problem

/-- Runs on two tables give the same result if the callees have the same summaries. -/
theorem Run.result_congr {f : Function} {config : Config} {t u : SummaryTable}
    {peers : List String} (h : ∀ name ∈ f.callees, u.ready? name = t.ready? name) :
    (Run.ofFunction f config u peers).result = (Run.ofFunction f config t peers).result := by
  let p := (Problem.ofFunction f config t peers).1
  let start := p.start (Problem.ofFunction f config t peers).2
  calc (Run.ofFunction f config u peers).result
      = (Run.mk (p.withSummaries u) start
          ((p.withSummaries u).visits config.maxBlockVisits start)).result := rfl
    _ = (Run.mk (p.withSummaries u) start (p.visits config.maxBlockVisits start)).result := by
        rw [Problem.visits_withSummaries h]
    _ = (Run.ofFunction f config t peers).result := rfl

end TaintAnalysis
