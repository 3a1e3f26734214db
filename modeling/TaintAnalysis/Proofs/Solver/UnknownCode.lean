import TaintAnalysis.Proofs.Solver.Arguments
import TaintAnalysis.Proofs.Solver.Persistence

/-!
# What unknown code can reach

Code that is not known may change all memory that it can reach, so whatever can be
reached from what is handed over to it becomes fully tainted. From the storage of a
pointer unknown code gets to what the pointer refers to, and from there to what the
pointers kept in that memory refer to, and so on; and a pointer about which nothing
is known may refer to anything, as it does when it is followed to store something
(`PathFacts.Exposed`).

The solver taints the locations that the arguments themselves refer to, and no
others. Everything that can be reached is covered if it overlaps one of these, and
so if the targets of each argument are closed under following pointers, or
include unknown memory. Two kinds of memory are missed: what is behind a second
pointer, and, if an argument is a pointer without known targets, all there is.
-/

namespace TaintAnalysis

open Arena

/-- The value of an expression is a pointer, going by the types of its variables. -/
def Expr.isPointer (f : Function) : Expr → Bool
  | .var v => (f.ty? v).any Ty.isPointer
  | .addrOf _ => true
  | .binary op l r => op.movesPointer && (l.isPointer f || r.isPointer f)
  | .unary .. | .const _ => false

namespace Instruction

/-- The expressions through which an instruction hands memory over. -/
def handedOver : Instruction → List Expr
  | .call _ _ args => args
  | .opaqueCode touched _ => touched.map .var
  | _ => []

/-- The instruction runs code about which nothing is known. -/
inductive RunsUnknown (table : SummaryTable) : Instruction → Prop where
  | indirect (dst : Option VarId) (target : Expr) (args : List Expr) :
      RunsUnknown table (.call dst (.indirect target) args)
  | absent (dst : Option VarId) (name : String) (args : List Expr)
      (h : table.get? name = none) : RunsUnknown table (.call dst (.direct name) args)
  | failed (dst : Option VarId) (name : String) (args : List Expr)
      (h : table.get? name = some .failed) : RunsUnknown table (.call dst (.direct name) args)
  | opaqueCode (touched : List VarId) (reason : String) :
      RunsUnknown table (.opaqueCode touched reason)

end Instruction

namespace PathFacts

variable {m : PathFacts} {arg : Expr} {l : Location}

/-- What can be reached from an expression: its targets, or unknown memory if it is a pointer and
none are known; and from there whatever the pointers refer to that are found on the way, by the
variable whose storage it is, by what was stored, or by the type of the memory. -/
inductive Exposed (m : PathFacts) (arg : Expr) : Location → Prop where
  | direct {l : Location} : l ∈ m.exprTargets arg → Exposed m arg l
  | lost : arg.isPointer m.layout.function = true → m.exprTargets arg = [] →
      Exposed m arg .unknown
  | pointer {v : VarId} {t : Location} : Exposed m arg ⟨.variable v, []⟩ →
      (m.layout.function.ty? v).any Ty.isPointer = true → t ∈ m.derefVar v → Exposed m arg t
  | stored {l t : Location} : Exposed m arg l → t ∈ m.overlapping l → Exposed m arg t
  | held {l t : Location} : Exposed m arg l → m.holdsPointer l = true →
      t ∈ m.storedTargets true l → Exposed m arg t

/-- Nothing but the targets of the expression can be reached from it. -/
structure Enclosed (m : PathFacts) (arg : Expr) : Prop where
  known : arg.isPointer m.layout.function = true → m.exprTargets arg ≠ []
  pointer : ∀ v, ⟨.variable v, []⟩ ∈ m.exprTargets arg →
    (m.layout.function.ty? v).any Ty.isPointer = true →
    ∀ t ∈ m.derefVar v, t ∈ m.exprTargets arg
  stored : ∀ l ∈ m.exprTargets arg, ∀ t ∈ m.overlapping l, t ∈ m.exprTargets arg
  held : ∀ l ∈ m.exprTargets arg, m.holdsPointer l = true →
    ∀ t ∈ m.storedTargets true l, t ∈ m.exprTargets arg

theorem Enclosed.mem (h : m.Enclosed arg) (hl : m.Exposed arg l) : l ∈ m.exprTargets arg := by
  induction hl with
  | direct hl => exact hl
  | lost hpointer hnone => exact absurd hnone (h.known hpointer)
  | pointer _ hpointer ht ih => exact h.pointer _ ih hpointer _ ht
  | stored _ ht ih => exact h.stored _ ih _ ht
  | held _ hholds ht ih => exact h.held _ ih hholds _ ht

end PathFacts

variable {p : Problem} {D : Nat} {m : Memory}

/-! ## Writing through arguments -/

/-- Each target of an expression has what is written through it. -/
theorem le_taintAt_writeThrough (hm : Readable p D m) (v : Value) {arg : Expr} {t : Location}
    (ht : t ∈ (p.pointsTo.pathFacts D m.arena).exprTargets arg) :
    v ≤ ((p.writeThrough v arg).run m).2.view.taintAt t := by
  obtain ⟨-, hden⟩ := PointsTo.exprTargets_found hm.ready arg
  have hnamed := exprTargets_names arg m hm
  obtain ⟨id, hid, rfl⟩ := (hden.2 t).mp ht
  exact le_taintAt_writeAll v hnamed.readable hden.1 hid

theorem le_taintAt_forM_writeThrough (hm : Readable p D m) (v : Value) {args : List Expr}
    {arg : Expr} (harg : arg ∈ args) {t : Location}
    (ht : t ∈ (p.pointsTo.pathFacts D m.arena).exprTargets arg) :
    v ≤ ((args.forM (p.writeThrough v)).run m).2.view.taintAt t := by
  induction args generalizing m with
  | nil => exact absurd harg List.not_mem_nil
  | cons first rest ih =>
      have hfirst := (writeThrough_proceeds (D := D) v first) m hm
      rcases List.mem_cons.mp harg with rfl | harg
      · have hrest : Composed p .all (fun _ => True) _ (rest.forM (p.writeThrough v)) :=
          .forM fun arg _ => writeThrough_composed trivial trivial
        have hwithin := hrest.view_within hfirst.readable
        exact Value.le_trans (le_taintAt_writeThrough hm v ht) (Cells.within_iff.mp hwithin t)
      · have hfacts := facts_eq_of_extends hm hfirst.extend
        exact ih (m := ((p.writeThrough v first).run m).2) hfirst.readable harg
          (hfacts.symm ▸ ht)

/-! ## Unknown code -/

/-- What opaque code does to one of the variables that it touches. -/
def Problem.touch (p : Problem) (s : State) (v : VarId) : Effect State := do
  let s ← p.define s v p.allSources
  p.writeThrough p.allSources (.var v)
  return s

theorem touch_composed (s : State) (v : VarId) :
    Composed p .all (fun _ => True) (fun _ => True) (p.touch s v) :=
  .bind (define_composed (fun _ => trivial) v trivial) fun _ _ =>
    .bind (writeThrough_composed trivial trivial) fun _ _ => .pure trivial

theorem le_taintAt_touched (hm : Readable p D m) {touched : List VarId} {v : VarId}
    (hv : v ∈ touched) (s : State) {t : Location}
    (ht : t ∈ (p.pointsTo.pathFacts D m.arena).exprTargets (.var v)) :
    p.allSources ≤ ((touched.foldlM p.touch s).run m).2.view.taintAt t := by
  induction touched generalizing m s with
  | nil => exact absurd hv List.not_mem_nil
  | cons w rest ih =>
      have hfirst := (touch_composed s w).proceeds (D := D) m hm
      rw [List.foldlM_cons]
      rcases List.mem_cons.mp hv with rfl | hv
      · have hdefine := (define_proceeds (D := D) s v p.allSources) m hm
        rw [← facts_eq_of_extends hm hdefine.extend] at ht
        have hhere := le_taintAt_writeThrough hdefine.readable p.allSources ht
        have hrest : Composed p .all (fun _ => True) _
            (rest.foldlM p.touch ((p.touch s v).run m).1) :=
          .foldlM (fun s _ w _ => touch_composed s w) trivial
        exact Value.le_trans hhere
          (Cells.within_iff.mp (hrest.view_within hfirst.readable) t)
      · refine ih hfirst.readable hv _ ?_
        rwa [facts_eq_of_extends hm hfirst.extend]

theorem summaryOf?_of_runsUnknown {dst : Option VarId} {callee : Callee} {args : List Expr}
    (h : Instruction.RunsUnknown p.summaries (.call dst callee args)) :
    p.summaryOf? callee = none := by
  cases h with
  | indirect => rfl
  | absent _ name _ h => simp [Problem.summaryOf?, Callee.name?, SummaryTable.ready?, h]
  | failed _ name _ h => simp [Problem.summaryOf?, Callee.name?, SummaryTable.ready?, h]

/-- Unknown code taints the targets of everything that it is given. -/
theorem le_taintAt_of_runsUnknown (hm : Readable p D m) {i : Instruction}
    (hi : i.RunsUnknown p.summaries) (around : Surroundings) (s : State) {arg : Expr}
    (harg : arg ∈ i.handedOver) {t : Location}
    (ht : t ∈ (p.pointsTo.pathFacts D m.arena).exprTargets arg) :
    p.allSources ≤ ((p.transfer around s i).run m).2.view.taintAt t := by
  cases i with
  | assign | load | store | cast => exact absurd harg List.not_mem_nil
  | opaqueCode touched reason =>
      obtain ⟨v, hv, rfl⟩ := List.mem_map.mp harg
      exact le_taintAt_touched hm hv s ht
  | call dst callee args =>
      have hactuals := Names.mapM (fun arg _ => evalArgument_names s arg) (l := args) m hm
      have hfacts := facts_eq_of_extends hm hactuals.extend
      rw [Problem.transfer, summaryOf?_of_runsUnknown hi]
      show p.allSources ≤ ((p.callUnknown s dst args).run
        ((args.mapM (p.evalArgument s)).run m).2).2.view.taintAt t
      cases dst with
      | none => exact le_taintAt_forM_writeThrough hactuals.readable _ harg (hfacts.symm ▸ ht)
      | some v =>
          have hdefine := (define_proceeds (D := D) s v p.allSources) _ hactuals.readable
          have hfacts' := facts_eq_of_extends hactuals.readable hdefine.extend
          exact le_taintAt_forM_writeThrough hdefine.readable _ harg
            ((hfacts'.trans hfacts).symm ▸ ht)

namespace Run

variable {f : Function} {config : Config} {table : SummaryTable} {peers : List String}

/-- When code that is not known has been run, a location that can be reached from what it was given
depends fully on every source, from then on to the end of the run, if it overlaps a target of what
was given. That covers all that can be reached from an argument whose targets include unknown
memory, or are closed under following pointers. -/
theorem unknownCode_taints {b : BlockId} {i : Instruction} {around : Surroundings} {s : State}
    {m : Memory} (hexec : (ofFunction f config table peers).Executes b i around s m)
    (hunknown : i.RunsUnknown table) :
    let r := ofFunction f config table peers
    let facts := r.problem.pointsTo.pathFacts config.maxPathDepth (PointsTo.analyze f config).2
    let after := ((r.problem.transfer around s i).run m).2
    after.view.Within r.final.memory.view ∧
      ∀ arg ∈ i.handedOver, ∀ l, facts.Exposed arg l →
        ((∃ other ∈ i.handedOver, ∃ t ∈ facts.exprTargets other, t.overlaps l = true) ∨
          .unknown ∈ facts.exprTargets arg ∨ facts.Enclosed arg) →
        Value.top (List.range f.paramCount) ≤ after.view.read [l] := by
  intro r facts after
  obtain ⟨hlater, -⟩ := hexec.later
  have hm := hlater.readable
  have hfacts : r.problem.pointsTo.pathFacts config.maxPathDepth m.arena = facts :=
    facts_eq_of_extends (readable_start f config table peers) hlater.extend
  refine ⟨hexec.within_final, fun arg harg l hexposed hcond => ?_⟩
  obtain ⟨other, hother, t, ht, hover⟩ : ∃ other ∈ i.handedOver,
      ∃ t ∈ facts.exprTargets other, t.overlaps l = true := by
    rcases hcond with hover | hunknown | henclosed
    · exact hover
    · exact ⟨arg, harg, .unknown, hunknown, l.unknown_overlaps⟩
    · exact ⟨arg, harg, l, henclosed.mem hexposed, l.overlaps_self⟩
  have htaint := le_taintAt_of_runsUnknown (p := r.problem) hm hunknown around s hother
    (hfacts.symm ▸ ht)
  exact Value.le_trans htaint (Cells.taintAt_le_read (List.mem_singleton.mpr rfl) hover)

end Run

/-! ## A pointer, a pointer to it, and one that refers to nothing known -/

/-- Calls a function that is not known with an argument, where `p = &a` and `q` is never set. -/
def handing (arg : Expr) : Function where
  name := "handing"
  returns := .int 32
  vars :=
    [⟨"s", .int 32, .param⟩, ⟨"a", .int 32, .local⟩, ⟨"p", .pointer (.int 32), .local⟩,
      ⟨"q", .pointer (.int 32), .local⟩]
  blocks := .ofList
    [(0, ⟨[.assign 2 (.addrOf (.var 1)), .call none (.direct "ext") [arg]],
      .ret (some (.var 1))⟩)]
  entry := 0
  nextBlock := 1

def handingRun (arg : Expr) : Run :=
  .ofFunction (handing arg) briefly .empty []

def handingFacts (arg : Expr) : PathFacts :=
  (handingRun arg).problem.pointsTo.pathFacts briefly.maxPathDepth
    (PointsTo.analyze (handing arg) briefly).2

/-- The state and the memory before the call. -/
def handingUntil (arg : Expr) : State × Memory :=
  ((handingRun arg).problem.transferAll
    ((handingRun arg).problem.surroundings (handingRun arg).start 0)
    ((handingRun arg).problem.entryState (handingRun arg).start 0)
    [.assign 2 (.addrOf (.var 1))]).run (handingRun arg).start.memory

/-- The memory after the call. -/
def handingAfter (arg : Expr) : Memory :=
  (((handingRun arg).problem.transfer
    ((handingRun arg).problem.surroundings (handingRun arg).start 0) (handingUntil arg).1
    (.call none (.direct "ext") [arg])).run (handingUntil arg).2).2

theorem handingRun_executes (arg : Expr)
    (h : ((handingRun arg).start, 0) ∈ (handingRun arg).visited) :
    (handingRun arg).Executes 0 (.call none (.direct "ext") [arg])
      ((handingRun arg).problem.surroundings (handingRun arg).start 0)
      (handingUntil arg).1 (handingUntil arg).2 :=
  ⟨_, ⟨[.assign 2 (.addrOf (.var 1)), .call none (.direct "ext") [arg]], .ret (some (.var 1))⟩,
    [.assign 2 (.addrOf (.var 1))], [], h, rfl, rfl, rfl, rfl⟩

theorem unknownCode_taints_handing :
    (handingRun (.var 2)).Executes 0 (.call none (.direct "ext") [.var 2])
      ((handingRun (.var 2)).problem.surroundings (handingRun (.var 2)).start 0)
      (handingUntil (.var 2)).1 (handingUntil (.var 2)).2 ∧
    Value.top [0] ≤ (handingAfter (.var 2)).view.read [⟨.variable 1, []⟩] := by
  have hexec := handingRun_executes (.var 2) (by decide_cbv)
  have htargets : (handingFacts (.var 2)).exprTargets (.var 2) = [⟨.variable 1, []⟩] := by
    decide_cbv
  have henclosed : (handingFacts (.var 2)).Enclosed (.var 2) := by
    refine ⟨fun _ => ?_, fun v hv hpointer => ?_, fun l hl t ht => ?_, fun l hl hholds => ?_⟩
    · rw [htargets]
      exact List.cons_ne_nil _ _
    · rw [htargets] at hv
      obtain rfl := Root.variable.inj (Location.mk.inj (List.mem_singleton.mp hv)).1
      exact absurd hpointer (by decide_cbv)
    · rw [htargets] at hl
      rw [List.mem_singleton.mp hl] at ht
      have hnone : (handingFacts (.var 2)).overlapping ⟨.variable 1, []⟩ = [] := by decide_cbv
      exact absurd (hnone ▸ ht) List.not_mem_nil
    · rw [htargets] at hl
      rw [List.mem_singleton.mp hl] at hholds
      exact absurd hholds (by decide_cbv)
  refine ⟨hexec, ?_⟩
  exact (Run.unknownCode_taints hexec (.absent none "ext" _ rfl)).2 (.var 2)
    (List.mem_singleton.mpr rfl) _ (.direct (htargets ▸ List.mem_singleton.mpr rfl))
    (.inr (.inr henclosed))

/-- Behind `&p` there is `a`, and the call leaves it without taint. Behind `q`, about which
nothing is known, there is all memory, and the call leaves it without taint as well. -/
theorem unknownCode_misses :
    (handingFacts (.addrOf (.var 2))).Exposed (.addrOf (.var 2)) ⟨.variable 1, []⟩ ∧
      (handingRun (.addrOf (.var 2))).final.worklist.isEmpty = true ∧
      (handingRun (.addrOf (.var 2))).taintOf 1 = Value.bottom ∧
      (∃ around s m, (handingRun (.addrOf (.var 2))).Executes 0
        (.call none (.direct "ext") [.addrOf (.var 2)]) around s m ∧
        ¬ Value.top [0] ≤ Cells.read (((handingRun (.addrOf (.var 2))).problem.transfer around s
          (.call none (.direct "ext") [.addrOf (.var 2)])).run m).2.view [⟨.variable 1, []⟩]) ∧
      (handingFacts (.var 3)).Exposed (.var 3) .unknown ∧
      (∃ around s m, (handingRun (.var 3)).Executes 0
        (.call none (.direct "ext") [.var 3]) around s m ∧
        ¬ Value.top [0] ≤ Cells.read (((handingRun (.var 3)).problem.transfer around s
          (.call none (.direct "ext") [.var 3])).run m).2.view [.unknown]) := by
  have hdirect : (handingFacts (.addrOf (.var 2))).Exposed (.addrOf (.var 2))
      ⟨.variable 2, []⟩ := .direct (by decide_cbv)
  have hbehind : (handingFacts (.addrOf (.var 2))).Exposed (.addrOf (.var 2))
      ⟨.variable 1, []⟩ := .pointer hdirect (by decide_cbv) (by decide_cbv)
  have hlost : (handingFacts (.var 3)).Exposed (.var 3) .unknown :=
    .lost (by decide_cbv) (by decide_cbv)
  have hbehindTaint : (handingAfter (.addrOf (.var 2))).view.read [⟨.variable 1, []⟩] =
      Value.bottom := by
    decide_cbv
  have hlostTaint : (handingAfter (.var 3)).view.read [.unknown] = Value.bottom := by
    decide_cbv
  refine ⟨hbehind, by cbv, by decide_cbv,
    ⟨_, _, _, handingRun_executes _ (by decide_cbv), fun h => ?_⟩, hlost,
    ⟨_, _, _, handingRun_executes _ (by decide_cbv), fun h => ?_⟩⟩
  · change Value.top [0] ≤ (handingAfter (.addrOf (.var 2))).view.read [⟨.variable 1, []⟩] at h
    rw [hbehindTaint] at h
    exact absurd h (by decide)
  · change Value.top [0] ≤ (handingAfter (.var 3)).view.read [.unknown] at h
    rw [hlostTaint] at h
    exact absurd h (by decide)

end TaintAnalysis
