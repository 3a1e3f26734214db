import TaintAnalysis.Proofs.Memory.Overlap
import TaintAnalysis.Proofs.Solver.Growth
import TaintAnalysis.Proofs.Solver.Stability

/-!
# What a call passes along with its arguments

A summary says what the result of a function depends on in terms of its
parameters, and a parameter stands for everything the function can reach through
it. So at a call the taint of an argument has to include that of the memory behind
the argument: not only of the locations that its value refers to, but also of what
the pointers kept there refer to, and so on (`PathFacts.Behind`).

The solver joins the taint of the cells that overlap the direct targets of the
argument and stops there. That is enough where following pointers does not lead
away from the direct targets, or where these are not known anyway. An argument
`&p` with `p = &a` is the smallest case in which something is left out: the taint
of `a` stays behind.
-/

namespace TaintAnalysis

open Arena

namespace PathFacts

variable {m : PathFacts} {arg : Expr} {l t : Location} {v : VarId}

/-- The locations that can be reached from the value of an expression by following pointers
any number of times: from the storage of a pointer variable to what the variable refers to, and
from a location to the targets stored in the cells that overlap it. -/
inductive Behind (m : PathFacts) (arg : Expr) : Location → Prop where
  | direct {l : Location} : l ∈ m.exprTargets arg → Behind m arg l
  | pointer {v : VarId} {t : Location} : Behind m arg ⟨.variable v, []⟩ →
      (m.layout.function.ty? v).any Ty.isPointer = true → t ∈ m.vars v → Behind m arg t
  | stored {l t : Location} : Behind m arg l → t ∈ m.overlapping l → Behind m arg t

/-- Following pointers from the locations of a list leads to locations of the list. -/
structure Closed (m : PathFacts) (ls : List Location) : Prop where
  pointer : ∀ v, ⟨.variable v, []⟩ ∈ ls → (m.layout.function.ty? v).any Ty.isPointer = true →
    ∀ t ∈ m.vars v, t ∈ ls
  stored : ∀ l ∈ ls, ∀ t ∈ m.overlapping l, t ∈ ls

theorem Closed.mem_of_behind (hclosed : m.Closed (m.exprTargets arg)) (h : m.Behind arg l) :
    l ∈ m.exprTargets arg := by
  induction h with
  | direct hl => exact hl
  | pointer _ hpointer ht ih => exact hclosed.pointer _ ih hpointer _ ht
  | stored _ ht ih => exact hclosed.stored _ ih _ ht

end PathFacts

/-! ## The taint of an argument -/

variable {p : Problem} {D : Nat} {m : Memory}

/-- The taint of an argument includes that of the cells that overlap its targets. -/
theorem read_le_evalArgument (hm : Readable p D m) (s : State) (arg : Expr) :
    Cells.read m.view ((p.pointsTo.pathFacts D m.arena).exprTargets arg) ≤
      ((p.evalArgument s arg).run m).1 := by
  obtain ⟨-, hden⟩ := PointsTo.exprTargets_found hm.ready arg
  have hnamed := exprTargets_names arg m hm
  have heval := eval_names s arg _ hnamed.readable
  have hread : Memory.read _ _ = _ := Memory.read_eq (hden.mono heval.extend)
  rw [heval.view_eq hnamed.readable, hnamed.view_eq hm] at hread
  rw [← hread]
  exact Value.le_join_right _ _

/-- Each of several arguments has the taint that it has alone, in a memory in which some more
locations are named. -/
theorem getElem?_mapM_evalArgument (hm : Readable p D m) (s : State) {args : List Expr} {n : Nat}
    {arg : Expr} (harg : args[n]? = some arg) :
    ∃ m', Renamed p D m m' ∧ ((args.mapM (p.evalArgument s)).run m).1[n]? =
      some ((p.evalArgument s arg).run m').1 := by
  induction args generalizing m n with
  | nil => exact absurd harg (by simp only [List.getElem?_nil, reduceCtorEq, not_false_eq_true])
  | cons first rest ih =>
      have hfirst := evalArgument_names s first m hm
      have hcons : (((first :: rest).mapM (p.evalArgument s)).run m).1 =
          ((p.evalArgument s first).run m).1 ::
            ((rest.mapM (p.evalArgument s)).run ((p.evalArgument s first).run m).2).1 := by
        rw [List.mapM_cons]
        rfl
      rw [hcons]
      cases n with
      | zero =>
          obtain rfl := Option.some.inj harg
          exact ⟨m, .refl hm, rfl⟩
      | succ n =>
          obtain ⟨m', hnamed, hget⟩ := ih hfirst.readable (n := n) harg
          exact ⟨m', hfirst.trans hnamed, hget⟩

/-- So each of several arguments has the taint of the cells that overlap its targets. -/
theorem read_le_mapM_evalArgument (hm : Readable p D m) (s : State) {args : List Expr} {n : Nat}
    {arg : Expr} (harg : args[n]? = some arg) :
    ∃ actual, ((args.mapM (p.evalArgument s)).run m).1[n]? = some actual ∧
      Cells.read m.view ((p.pointsTo.pathFacts D m.arena).exprTargets arg) ≤ actual := by
  obtain ⟨m', hnamed, hget⟩ := getElem?_mapM_evalArgument hm s harg
  refine ⟨_, hget, ?_⟩
  rw [← hnamed.view_eq hm, ← facts_eq_of_extends hm hnamed.extend]
  exact read_le_evalArgument hnamed.readable s arg

namespace Run

variable {f : Function} {config : Config} {table : SummaryTable} {peers : List String}

/-- At a call of a function with a summary, the taint of each argument that is put into the
summary includes that of the cells that overlap the targets of the argument. It includes the taint
of all cells behind the argument if the targets are not known, or are closed under following
pointers. -/
theorem actuals_cover {b : BlockId} {dst : Option VarId} {name : String} {args : List Expr}
    {around : Surroundings} {s : State} {m : Memory} {summary : Summary}
    (hcall : (ofFunction f config table peers).Executes b (.call dst (.direct name) args)
      around s m)
    (hready : table.ready? name = some summary) :
    let p := (ofFunction f config table peers).problem
    let facts := p.pointsTo.pathFacts config.maxPathDepth (PointsTo.analyze f config).2
    ∃ actuals m', m'.cells = m.cells ∧
      (p.transfer around s (.call dst (.direct name) args)).run m =
        (p.callKnown around s dst (.direct name) args actuals summary).run m' ∧
      ∀ (n : Nat) (arg : Expr), args[n]? = some arg → ∃ actual, actuals[n]? = some actual ∧
        (∀ l ∈ facts.exprTargets arg, ∀ e ∈ m.view, e.1.overlaps l = true → e.2 ≤ actual) ∧
        (.unknown ∈ facts.exprTargets arg ∨ facts.Closed (facts.exprTargets arg) →
          ∀ l, facts.Behind arg l → ∀ e ∈ m.view, e.1.overlaps l = true → e.2 ≤ actual) := by
  intro p facts
  obtain ⟨hlater, -⟩ := hcall.later
  have hm := hlater.readable
  have hfacts : p.pointsTo.pathFacts config.maxPathDepth m.arena = facts :=
    facts_eq_of_extends (readable_start f config table peers) hlater.extend
  have hsummary : p.summaryOf? (.direct name) = some summary := hready
  refine ⟨((args.mapM (p.evalArgument s)).run m).1, ((args.mapM (p.evalArgument s)).run m).2,
    (Names.mapM (fun arg _ => evalArgument_names s arg) m hm).cells, ?_, fun n arg harg => ?_⟩
  · rw [Problem.transfer, hsummary]
    rfl
  · obtain ⟨actual, hget, hle⟩ := read_le_mapM_evalArgument hm s harg
    rw [hfacts] at hle
    have hdirect : ∀ l ∈ facts.exprTargets arg, ∀ e ∈ m.view, e.1.overlaps l = true →
        e.2 ≤ actual := fun l hl e he hover =>
      Value.le_trans (Cells.le_gather he (List.any_eq_true.mpr ⟨l, hl, hover⟩)) hle
    refine ⟨actual, hget, hdirect, fun hcond l hbehind e he hover => ?_⟩
    rcases hcond with hunknown | hclosed
    · exact hdirect _ hunknown e he e.1.overlaps_unknown
    · exact hdirect l (hclosed.mem_of_behind hbehind) e he hover

end Run

/-! ## One pointer, and a pointer to it -/

/-- Returns what its parameter refers to. -/
def fetch : Function where
  name := "fetch"
  returns := .int 32
  vars := [⟨"p", .pointer (.int 32), .param⟩, ⟨"x", .int 32, .local⟩]
  blocks := .ofList [(0, ⟨[.load 1 (.deref (.var 0))], .ret (some (.var 1))⟩)]
  entry := 0
  nextBlock := 1

/-- Follows its parameter twice. -/
def fetchTwice : Function where
  name := "fetchTwice"
  returns := .int 32
  vars :=
    [⟨"pp", .pointer (.pointer (.int 32)), .param⟩, ⟨"p", .pointer (.int 32), .local⟩,
      ⟨"x", .int 32, .local⟩]
  blocks := .ofList
    [(0, ⟨[.load 1 (.deref (.var 0)), .load 2 (.deref (.var 1))], .ret (some (.var 2))⟩)]
  entry := 0
  nextBlock := 1

/-- Copies its parameter to `a`, and passes `&a` to `fetch` and `&p`, with `p = &a`, to
`fetchTwice`. -/
def passed : Function where
  name := "passed"
  returns := .int 32
  vars :=
    [⟨"s", .int 32, .param⟩, ⟨"a", .int 32, .local⟩, ⟨"p", .pointer (.int 32), .local⟩,
      ⟨"r", .int 32, .local⟩]
  blocks := .ofList
    [(0, ⟨[.assign 1 (.var 0), .call none (.direct "fetch") [.addrOf (.var 1)],
      .assign 2 (.addrOf (.var 1)), .call (some 3) (.direct "fetchTwice") [.addrOf (.var 2)]],
      .ret (some (.var 3))⟩)]
  entry := 0
  nextBlock := 1

/-- The result depends on the parameter, directly and indirectly. -/
def fetched : Summary :=
  .tabulate (.single 0 ⟨true, true, false⟩) .empty fun _ => Value.bottom

theorem summary_fetchTwice : (Run.ofFunction fetchTwice briefly .empty []).summary = fetched := by
  decide_cbv

/-- The summaries of the two functions that are called. -/
def fetchSummaries : SummaryTable :=
  .ofList [("fetch", .ready fetched), ("fetchTwice", .ready fetched)]

/-- The run on the function that calls both. -/
def passedRun : Run :=
  .ofFunction passed briefly fetchSummaries []

/-- What its pointers refer to. -/
def passedFacts : PathFacts :=
  passedRun.problem.pointsTo.pathFacts briefly.maxPathDepth (PointsTo.analyze passed briefly).2

/-- The state and the memory after the first instructions of the run. -/
def passedUntil (before : List Instruction) : State × Memory :=
  (passedRun.problem.transferAll (passedRun.problem.surroundings passedRun.start 0)
    (passedRun.problem.entryState passedRun.start 0) before).run passedRun.start.memory

theorem passedRun_executes (before : List Instruction) {after : List Instruction} {i : Instruction}
    (h : passed.blocks = .ofList [(0, ⟨before ++ i :: after, .ret (some (.var 3))⟩)]) :
    passedRun.Executes 0 i (passedRun.problem.surroundings passedRun.start 0)
      (passedUntil before).1 (passedUntil before).2 := by
  refine ⟨passedRun.start, ⟨before ++ i :: after, .ret (some (.var 3))⟩, before, after,
    by decide_cbv, ?_, rfl, rfl, rfl⟩
  show passed.blocks.get? 0 = _
  rw [h]
  rfl

theorem actuals_cover_passed :
    ∃ around s m actuals m' actual,
      passedRun.Executes 0 (.call none (.direct "fetch") [.addrOf (.var 1)]) around s m ∧
      (passedRun.problem.transfer around s
        (.call none (.direct "fetch") [.addrOf (.var 1)])).run m =
          (passedRun.problem.callKnown around s none (.direct "fetch") [.addrOf (.var 1)] actuals
            fetched).run m' ∧
      actuals[0]? = some actual ∧ passedFacts.Behind (.addrOf (.var 1)) ⟨.variable 1, []⟩ ∧
      Value.single 0 Kind.directOnly ≤ actual := by
  have hexec := passedRun_executes [.assign 1 (.var 0)] rfl
  have hready : fetchSummaries.ready? "fetch" = some fetched := by decide
  have htargets : passedFacts.exprTargets (.addrOf (.var 1)) = [⟨.variable 1, []⟩] := by decide_cbv
  have hclosed : passedFacts.Closed (passedFacts.exprTargets (.addrOf (.var 1))) := by
    rw [htargets]
    refine ⟨fun v hv hpointer => ?_, fun l hl t ht => ?_⟩
    · obtain rfl := Root.variable.inj (Location.mk.inj (List.mem_singleton.mp hv)).1
      exact absurd hpointer (by decide_cbv)
    · rw [List.mem_singleton.mp hl] at ht
      have hnone : passedFacts.overlapping ⟨.variable 1, []⟩ = [] := by decide_cbv
      rw [hnone] at ht
      exact absurd ht List.not_mem_nil
  have hbehind : passedFacts.Behind (.addrOf (.var 1)) ⟨.variable 1, []⟩ :=
    .direct (htargets ▸ List.mem_singleton.mpr rfl)
  obtain ⟨actuals, m', -, hrun, hactuals⟩ := Run.actuals_cover hexec hready
  obtain ⟨actual, hget, -, hcover⟩ := hactuals 0 _ rfl
  refine ⟨_, _, _, actuals, m', actual, hexec, hrun, hget, hbehind, ?_⟩
  exact hcover (.inr hclosed) _ hbehind (⟨.variable 1, []⟩, .single 0 Kind.directOnly)
    (by decide_cbv) rfl

/-- The instructions of `passed` before the second call. -/
def passedBefore : List Instruction :=
  [.assign 1 (.var 0), .call none (.direct "fetch") [.addrOf (.var 1)],
    .assign 2 (.addrOf (.var 1))]

/-- The run ends with nothing left to do, and neither the second call nor the function has the
taint of `a`. -/
theorem passedRun_ends : passedRun.final.worklist.isEmpty = true ∧
    passedRun.summary.returned = Value.bottom ∧
    ((passedRun.problem.evalArgument (passedUntil passedBefore).1
      (.addrOf (.var 2))).run (passedUntil passedBefore).2).1 = Value.bottom := by
  refine ⟨?_, ?_, ?_⟩
  · cbv
  · decide_cbv
  · decide_cbv

/-- The taint of `a` can be reached from `&p`, and `fetchTwice` returns it, but it is not part of
the argument that is passed, and the result of the call does not have it. -/
theorem passedTwice_not_covered :
    let i := Instruction.call (some 3) (.direct "fetchTwice") [.addrOf (.var 2)]
    (Run.ofFunction fetchTwice briefly .empty []).summary = fetched ∧
      passedRun.final.worklist.isEmpty = true ∧ passedRun.summary.returned = Value.bottom ∧
      ∃ around s m, passedRun.Executes 0 i around s m ∧
        passedFacts.Behind (.addrOf (.var 2)) ⟨.variable 1, []⟩ ∧
        ∃ e ∈ m.view, e.1.overlaps ⟨.variable 1, []⟩ = true ∧
          ¬ e.2 ≤ ((passedRun.problem.evalArgument s (.addrOf (.var 2))).run m).1 := by
  intro i
  have hdirect : passedFacts.Behind (.addrOf (.var 2)) ⟨.variable 2, []⟩ := .direct (by decide_cbv)
  have hbehind : passedFacts.Behind (.addrOf (.var 2)) ⟨.variable 1, []⟩ :=
    .pointer hdirect (by decide_cbv) (by decide_cbv)
  have hcell : (⟨.variable 1, []⟩, Value.single 0 Kind.directOnly) ∈
      (passedUntil passedBefore).2.view := by
    decide_cbv
  obtain ⟨hexhausted, hreturned, hargument⟩ := passedRun_ends
  refine ⟨summary_fetchTwice, hexhausted, hreturned, _, _, _,
    passedRun_executes passedBefore rfl, hbehind, _, hcell, rfl, ?_⟩
  rw [hargument]
  decide

end TaintAnalysis
