import TaintAnalysis.Proofs.Flow.Paths
import TaintAnalysis.Proofs.Solver.Arguments
import TaintAnalysis.Proofs.Solver.CallerMemory
import TaintAnalysis.Proofs.Solver.Persistence

/-!
# What a copy carries

A variable whose storage is named has two homes: the state of a program point, and the
cells of memory. A store through a path below the variable reaches only the second one.
So wherever the variable is used as a whole, copied, passed to a call or returned, the
taint of its cells has to come along.

For a scalar it does: its value is read from both homes, and a copy is written to both,
so what was stored in the first variable is loaded from the second one. The value of an
aggregate is that of the state alone. An array that is passed to a call still brings its
cells, as the memory that the argument refers to. A structure leaves behind what was
stored in its fields, whether it is copied, passed or returned.
-/

namespace TaintAnalysis

open Arena

/-- The instruction stands in a block that the entry reaches. -/
def Function.RunsAt (f : Function) (b : BlockId) (i : Instruction) : Prop :=
  (Graph.ofFunction f).Reaches f.entry b ∧ ∃ block, f.block? b = some block ∧
    i ∈ block.instructions

theorem VarId.mem_mentions (v : VarId) : v ∈ (Expr.var v).mentions := by
  simp [Expr.mentions, Expr.reads]

variable {p : Problem} {D : Nat} {m : Memory} {s : State} {around : Surroundings} {v : VarId}
  {place : Place} {t : Location}

theorem livesInMemory_mono {a a' : Arena} (h : a.Extends a')
    (hv : p.pointsTo.livesInMemory a v = true) : p.pointsTo.livesInMemory a' v = true := by
  obtain ⟨hresident, hscalar⟩ := Bool.and_eq_true_iff.mp hv
  exact Bool.and_eq_true_iff.mpr
    ⟨isMemoryResident_iff.mpr (h.has (isMemoryResident_iff.mp hresident)), hscalar⟩

/-! ## The two homes of a scalar -/

/-- The value of a variable that lives in memory includes the taint of its storage. -/
theorem read_le_evalVar (hm : Readable p D m)
    (hv : p.pointsTo.livesInMemory m.arena v = true) :
    Cells.read m.view [⟨.variable v, []⟩] ≤ ((p.evalVar s v).run m).1 := by
  have hnamed := varLocation_names v m hm
  obtain ⟨-, hpoints⟩ := PointsTo.varLocation_found hm.ready v
  have hread : Memory.read ((Effect.naming (p.pointsTo.varLocation v)).run m).2 (.singleton _) =
    _ := Memory.read_eq (.singleton hpoints)
  rw [hnamed.view_eq hm] at hread
  rw [← hread]
  simp only [Problem.evalVar, StateT.run_bind, StateT.run_get, pure_bind]
  rw [if_pos hv]
  exact Value.le_join_right _ _

theorem get_le_evalVar : s.get v ≤ ((p.evalVar s v).run m).1 := by
  simp only [Problem.evalVar, StateT.run_bind, StateT.run_get, pure_bind]
  split
  · exact Value.le_join_left _ _
  · exact Value.le_refl _

/-- A new value of a variable that lives in memory is in its storage as well. -/
theorem le_taintAt_define (hm : Readable p D m)
    (hv : p.pointsTo.livesInMemory m.arena v = true) (value : Value) :
    value ≤ ((p.define s v value).run m).2.view.taintAt ⟨.variable v, []⟩ := by
  have hnamed := varLocation_names v m hm
  obtain ⟨-, hlt, hlocation⟩ := PointsTo.varLocation_found hm.ready v
  simp only [Problem.define, StateT.run_bind, StateT.run_get, pure_bind]
  rw [if_pos hv, ← hlocation]
  exact le_taintAt_writeAll value hnamed.readable
    (fun id hid => List.mem_singleton.mp hid ▸ hlt) (List.mem_singleton.mpr rfl)

/-! ## Stores, copies and loads -/

/-- What is stored is found at each target of the place. -/
theorem storedValue_le_taintAt (hm : Readable p D m) {src : Expr}
    (ht : t ∈ ((p.pointsTo.pathFacts D m.arena).resolve place).targets) :
    ((p.storedValue s place src).run m).1 ≤
      ((p.transfer around s (.store place src)).run m).2.view.taintAt t := by
  obtain ⟨haccess, hden⟩ := access_denotes hm s place
  have hsrc := eval_names s src _ haccess.readable
  obtain ⟨id, hid, rfl⟩ := (hden.2 t).mp ht
  rw [← hsrc.extend.location (hden.1 id hid)]
  have hwritten (value : Value) := le_taintAt_writeAll (p := p) value hsrc.readable
    (fun id hid => hsrc.extend.lt_size (hden.1 id hid)) hid
  exact Value.le_trans (Value.le_trans (Value.le_join_left _ _) (Value.le_join_left _ _))
    (hwritten _)

/-- The value that an assignment gives to a variable. -/
theorem get_transfer_assign {u : VarId} (hu : u < s.vars.length) (e : Expr) :
    ((p.eval s e).run m).1 ≤ ((p.transfer around s (.assign u e)).run m).1.get u := by
  have hset : ((p.transfer around s (.assign u e)).run m).1 = s.set u
      ((((p.eval s e).run m).1.join around.control).join around.widening) :=
    Problem.define_yields s u _ _
  rw [hset, State.get_set, if_pos ⟨rfl, hu⟩]
  exact Value.le_trans (Value.le_join_left _ _) (Value.le_join_left _ _)

theorem eval_le_taintAt_assign (hm : Readable p D m) {u : VarId}
    (hu : p.pointsTo.livesInMemory m.arena u = true) (e : Expr) :
    ((p.eval s e).run m).1 ≤
      ((p.transfer around s (.assign u e)).run m).2.view.taintAt ⟨.variable u, []⟩ := by
  have hnamed := eval_names s e m hm
  have hdefine := le_taintAt_define (s := s) hnamed.readable (livesInMemory_mono hnamed.extend hu)
    ((((p.eval s e).run m).1.join around.control).join around.widening)
  exact Value.le_trans (Value.le_trans (Value.le_join_left _ _) (Value.le_join_left _ _)) hdefine

/-- A load gives a variable the taint of all cells that overlap a target of the place. -/
theorem read_le_load (hm : Readable p D m) {x : VarId} (hx : x < s.vars.length) :
    Cells.read m.view ((p.pointsTo.pathFacts D m.arena).resolve place).targets ≤
      ((p.transfer around s (.load x place)).run m).1.get x := by
  obtain ⟨haccess, hden⟩ := access_denotes hm s place
  have hread : Memory.read _ _ = _ := Memory.read_eq hden
  rw [haccess.view_eq hm] at hread
  have hset (value : Value) := Problem.define_yields (p := p) s x value
    ((p.access s place).run m).2
  rw [show ((p.transfer around s (.load x place)).run m).1 = _ from hset _, State.get_set,
    if_pos ⟨rfl, hx⟩, ← hread]
  exact Value.le_trans (Value.le_trans (Value.le_join_left _ _) (Value.le_join_left _ _))
    (Value.le_join_left _ _)

/-- An argument has the taint of its value. -/
theorem eval_le_mapM_evalArgument (hm : Readable p D m) {args : List Expr} {n : Nat}
    (harg : args[n]? = some (.var v)) (hv : p.pointsTo.livesInMemory m.arena v = true) :
    ∃ actual, ((args.mapM (p.evalArgument s)).run m).1[n]? = some actual ∧
      Cells.read m.view [⟨.variable v, []⟩] ≤ actual := by
  obtain ⟨m', hnamed, hget⟩ := getElem?_mapM_evalArgument hm s harg
  refine ⟨_, hget, ?_⟩
  have htargets := exprTargets_names (.var v) m' hnamed.readable
  have hboth := hnamed.trans htargets
  rw [← hboth.view_eq hm]
  exact Value.le_trans (read_le_evalVar hboth.readable (livesInMemory_mono hboth.extend hv))
    (Value.le_join_left _ _)

/-! ## Copies in a run -/

theorem mem_memoryReaders {f : Function} {config : Config} {table : SummaryTable}
    {peers : List String} {b : BlockId} {block : Block} (hblock : f.block? b = some block)
    (h : Problem.readsMemory (PointsTo.analyze f config).2 block = true) :
    b ∈ (Run.ofFunction f config table peers).problem.memoryReaders :=
  OrderedMap.mem_selected_iff.mpr ⟨block, hblock, h⟩

namespace Run

variable {f : Function} {config : Config} {table : SummaryTable} {peers : List String}
  {result : FunctionResult} {b c : BlockId} {i : Instruction} {st : State} {w u x : VarId}

/-- The variable is a scalar whose storage is named before the run begins. -/
def InMemory (r : Run) (v : VarId) : Prop :=
  r.problem.pointsTo.livesInMemory r.start.memory.arena v = true

instance (r : Run) (v : VarId) : Decidable (r.InMemory v) :=
  inferInstanceAs (Decidable (r.problem.pointsTo.livesInMemory r.start.memory.arena v = true))

/-- The state in which an instruction is executed has all variables of the function. -/
theorem Executes.length (h : (ofFunction f config table peers).Executes b i around st m) :
    st.vars.length = f.vars.length := by
  obtain ⟨k, block, before, after, hk, hblock, his, rfl, hrun⟩ := h
  have hsized := (Problem.allImbued_of_reached (reached_of_mem_visited hk)).sized
  have hentry : ((ofFunction f config table peers).problem.entryState k b).vars.length =
      f.vars.length := by
    rw [entryState_eq hsized,
      Problem.length_entryIn fun b => Nat.le_of_eq (hsized.assignment b)]
    rfl
  have himbues : Yields ((ofFunction f config table peers).problem.transferAll
      ((ofFunction f config table peers).problem.surroundings k b)
      ((ofFunction f config table peers).problem.entryState k b) before) _ :=
    Problem.transferAll_imbues _ before
  have hlength := (himbues k.memory).1.length
  rw [hrun] at hlength
  exact hlength.trans hentry

theorem Executes.facts_eq (h : (ofFunction f config table peers).Executes b i around st m) :
    (ofFunction f config table peers).problem.pointsTo.pathFacts config.maxPathDepth m.arena =
      PointsTo.finalFacts f config :=
  facts_eq_of_extends (readable_start f config table peers) h.between.1.extend

/-- An instruction of a block that reads memory sees all that memory holds in the end. -/
theorem executes_last_of_runsAt
    (hok : (ofFunction f config table peers).result = .ok result) (hruns : f.RunsAt c i)
    (hreads : ∀ block : Block, i ∈ block.instructions →
      Problem.readsMemory (PointsTo.analyze f config).2 block = true) :
    let r := ofFunction f config table peers
    ∃ around st m, r.Executes c i around st m ∧ r.final.memory.view.Within m.view := by
  obtain ⟨hreach, block, hblock, hi⟩ := hruns
  exact executes_last (exhausted_of_ok hok) (Graph.mem_reversePostorder_iff.mpr hreach)
    (mem_memoryReaders hblock (hreads block hi)) hblock hi

theorem readsMemory_of_mentions {a : Arena} {block : Block} (hi : i ∈ block.instructions)
    (hv : v ∈ i.mentions) (hlives : p.pointsTo.livesInMemory a v = true) :
    Problem.readsMemory a block = true := by
  rw [Problem.readsMemory, Bool.or_eq_true, List.any_eq_true]
  refine .inl ⟨i, hi, ?_⟩
  rw [Bool.or_eq_true, List.any_eq_true]
  exact .inr ⟨v, hv, (Bool.and_eq_true_iff.mp hlives).1⟩

/-- What a variable holds in memory at the end, a copy of it holds there as well. -/
theorem taintAt_le_of_copied (hok : (ofFunction f config table peers).result = .ok result)
    (hcopy : f.RunsAt c (.assign u (.var w))) (hw : (ofFunction f config table peers).InMemory w)
    (hu : (ofFunction f config table peers).InMemory u)
    (hover : t.overlaps ⟨.variable w, []⟩ = true) :
    let r := ofFunction f config table peers
    r.final.memory.view.taintAt t ≤ r.final.memory.view.taintAt ⟨.variable u, []⟩ := by
  intro r
  obtain ⟨around, st, m, hexec, hlast⟩ := executes_last_of_runsAt hok hcopy fun block hi =>
    readsMemory_of_mentions hi (v := w) (List.mem_cons_of_mem _ w.mem_mentions) hw
  have hextend := hexec.between.1.extend
  have hm := hexec.between.1.readable
  have hvalue : r.final.memory.view.taintAt t ≤ ((r.problem.eval st (.var w)).run m).1 := by
    rw [Problem.eval]
    exact Value.le_trans (Cells.within_iff.mp hlast t) (Value.le_trans
      (Cells.taintAt_le_read (List.mem_singleton.mpr rfl) hover)
      (read_le_evalVar hm (livesInMemory_mono hextend hw)))
  exact Value.le_trans hvalue (Value.le_trans
    (eval_le_taintAt_assign hm (livesInMemory_mono hextend hu) (.var w))
    (Cells.within_iff.mp hexec.within_final _))

/-- What a store leaves at one of its targets is there at the end of the run. -/
theorem storedValue_le_final {src : Expr}
    (hstore : (ofFunction f config table peers).Executes b (.store place src) around st m)
    (ht : t ∈ ((PointsTo.finalFacts f config).resolve place).targets) :
    let r := ofFunction f config table peers
    ((r.problem.storedValue st place src).run m).1 ≤ r.final.memory.view.taintAt t := by
  intro r
  exact Value.le_trans (storedValue_le_taintAt hstore.between.1.readable (hstore.facts_eq ▸ ht))
    (Cells.within_iff.mp hstore.within_final t)

/-- A load reads what memory holds at the end at a location that overlaps a target. -/
theorem taintAt_le_loaded {other : Place}
    (hok : (ofFunction f config table peers).result = .ok result)
    (hload : f.RunsAt c (.load x other)) (hx : x < f.vars.length) {l : Location}
    (hl : l ∈ ((PointsTo.finalFacts f config).resolve other).targets)
    (hover : t.overlaps l = true) :
    let r := ofFunction f config table peers
    ∃ around st m, r.Executes c (.load x other) around st m ∧
      r.final.memory.view.taintAt t ≤
        ((r.problem.transfer around st (.load x other)).run m).1.get x := by
  intro r
  obtain ⟨around, st, m, hexec, hlast⟩ := executes_last_of_runsAt hok hload fun block hi => by
    rw [Problem.readsMemory, Bool.or_eq_true, List.any_eq_true]
    exact .inl ⟨_, hi, rfl⟩
  have hm := hexec.between.1.readable
  have hread : _ ≤ ((r.problem.transfer around st (.load x other)).run m).1.get x :=
    read_le_load hm (hexec.length.symm ▸ hx)
  rw [hexec.facts_eq] at hread
  exact ⟨around, st, m, hexec, Value.le_trans (Cells.within_iff.mp hlast t)
    (Value.le_trans (Cells.taintAt_le_read hl hover) hread)⟩

/-- An argument brings what memory holds at the end in the storage of the variable, if it lives in
memory, and at the locations that the argument refers to. -/
theorem taintAt_le_passed {dst : Option VarId} {callee : Callee} {args : List Expr} {n : Nat}
    (hok : (ofFunction f config table peers).result = .ok result)
    (hcall : f.RunsAt c (.call dst callee args)) (harg : args[n]? = some (.var w))
    (hcond : ((ofFunction f config table peers).InMemory w ∧
        t.overlaps ⟨.variable w, []⟩ = true) ∨
      ∃ l ∈ (PointsTo.finalFacts f config).exprTargets (.var w), t.overlaps l = true) :
    let r := ofFunction f config table peers
    ∃ around st m, r.Executes c (.call dst callee args) around st m ∧
      ∃ actual, ((args.mapM (r.problem.evalArgument st)).run m).1[n]? = some actual ∧
        r.final.memory.view.taintAt t ≤ actual := by
  intro r
  obtain ⟨around, st, m, hexec, hlast⟩ := executes_last_of_runsAt hok hcall fun block hi => by
    rw [Problem.readsMemory, Bool.or_eq_true, List.any_eq_true]
    exact .inl ⟨_, hi, by rw [Instruction.isCall, Bool.or_true, Bool.true_or]⟩
  have hm := hexec.between.1.readable
  refine ⟨around, st, m, hexec, ?_⟩
  rcases hcond with ⟨hw, hover⟩ | ⟨l, hl, hover⟩
  · obtain ⟨actual, hget, hle⟩ := eval_le_mapM_evalArgument (s := st) hm harg
      (livesInMemory_mono hexec.between.1.extend hw)
    exact ⟨actual, hget, Value.le_trans (Cells.within_iff.mp hlast t)
      (Value.le_trans (Cells.taintAt_le_read (List.mem_singleton.mpr rfl) hover) hle)⟩
  · obtain ⟨actual, hget, hle⟩ := read_le_mapM_evalArgument hm st harg
    rw [hexec.facts_eq] at hle
    exact ⟨actual, hget, Value.le_trans (Cells.within_iff.mp hlast t)
      (Value.le_trans (Cells.taintAt_le_read hl hover) hle)⟩

/-- What memory holds at the end in the storage of a variable is in the result, if the variable
lives in memory and is returned. -/
theorem taintAt_le_returned {block : Block}
    (hok : (ofFunction f config table peers).result = .ok result)
    (hreach : (Graph.ofFunction f).Reaches f.entry c) (hblock : f.block? c = some block)
    (hret : block.terminator = .ret (some (.var w)))
    (hw : (ofFunction f config table peers).InMemory w)
    (hover : t.overlaps ⟨.variable w, []⟩ = true) :
    (ofFunction f config table peers).final.memory.view.taintAt t ≤ result.summary.returned := by
  have hreads : Problem.readsMemory (PointsTo.analyze f config).2 block = true := by
    rw [Problem.readsMemory, Bool.or_eq_true, hret]
    exact .inr (List.any_eq_true.mpr ⟨w, w.mem_mentions, (Bool.and_eq_true_iff.mp hw).1⟩)
  obtain ⟨k, -, hreadable, hextend, hlast, hreturned⟩ := exists_last_visit (exhausted_of_ok hok)
    (Graph.mem_reversePostorder_iff.mpr hreach) (mem_memoryReaders hblock hreads)
  let p := (ofFunction f config table peers).problem
  let x := (p.transferAll (p.surroundings k c) (p.entryState k c) block.instructions).run k.memory
  have hlater : Later p config.maxPathDepth k.memory x.2 :=
    transferAll_proceeds _ _ block.instructions _ hreadable
  have hwithin := hlast.trans (transferAll_within (p := p) (p.surroundings k c) (p.entryState k c)
    block.instructions hreadable)
  have hlives := livesInMemory_mono (p := p) (hextend.trans hlater.extend) hw
  have hreturn : (p.execute k c block).returned =
      ((p.terminate (p.surroundings k c) x.1 block.terminator).run x.2).1.2 := rfl
  rw [hret] at hreturn
  have hvalue : Cells.read x.2.view [⟨.variable w, []⟩] ≤ (p.execute k c block).returned := by
    rw [hreturn]
    exact Value.le_trans (read_le_evalVar (s := x.1) hlater.readable hlives)
      (Value.le_join_left _ _)
  rw [Problem.visit_eq_absorb hblock] at hreturned
  rw [summary_of_ok hok]
  exact Value.le_trans (Cells.within_iff.mp hwithin t) (Value.le_trans
    (Cells.taintAt_le_read (List.mem_singleton.mpr rfl) hover) (Value.le_trans hvalue
      (Value.le_trans (Value.le_join_right _ _) hreturned)))

/-- What was stored below a variable reaches whatever uses the variable as a whole, if the variable
is a scalar: a load below a copy of it, the argument of a call, the result. It reaches every load
that may read the very location, and every argument that refers to it, whatever the type of the
variable; and a copy of any variable has the taint that the variable has at that point. -/
theorem copies_carry {src : Expr}
    (hok : (ofFunction f config table peers).result = .ok result)
    (hstore : (ofFunction f config table peers).Executes b (.store place src) around st m)
    (ht : t ∈ ((PointsTo.finalFacts f config).resolve place).targets)
    (hover : t.overlaps ⟨.variable w, []⟩ = true) :
    let r := ofFunction f config table peers
    let facts := PointsTo.finalFacts f config
    let stored := ((r.problem.storedValue st place src).run m).1
    (∀ c x other, f.RunsAt c (.load x other) → x < f.vars.length →
      (∃ l ∈ (facts.resolve other).targets, t.overlaps l = true ∨
        ∃ c' u, f.RunsAt c' (.assign u (.var w)) ∧ r.InMemory w ∧ r.InMemory u ∧
          Location.overlaps ⟨.variable u, []⟩ l = true) →
      ∃ around st m, r.Executes c (.load x other) around st m ∧
        stored ≤ ((r.problem.transfer around st (.load x other)).run m).1.get x) ∧
    (∀ c dst callee (args : List Expr) (n : Nat), f.RunsAt c (.call dst callee args) →
      args[n]? = some (.var w) →
      (r.InMemory w ∨ ∃ l ∈ facts.exprTargets (.var w), t.overlaps l = true) →
      ∃ around st m, r.Executes c (.call dst callee args) around st m ∧
        ∃ actual, ((args.mapM (r.problem.evalArgument st)).run m).1[n]? = some actual ∧
          stored ≤ actual) ∧
    (∀ c block, (Graph.ofFunction f).Reaches f.entry c → f.block? c = some block →
      block.terminator = .ret (some (.var w)) → r.InMemory w →
      stored ≤ result.summary.returned) ∧
    ∀ c u around st m, r.Executes c (.assign u (.var w)) around st m → u < f.vars.length →
      st.get w ≤ ((r.problem.transfer around st (.assign u (.var w))).run m).1.get u := by
  intro r facts stored
  have hfinal : stored ≤ r.final.memory.view.taintAt t := storedValue_le_final hstore ht
  refine ⟨fun c x other hload hx hcond => ?_, fun c dst callee args n hcall harg hcond => ?_,
    fun c block hreach hblock hret hw => ?_, fun c u around st m hcopy hu => ?_⟩
  · obtain ⟨l, hl, hdirect | ⟨c', u, hcopy, hw, hu, hbelow⟩⟩ := hcond
    · obtain ⟨around, st, m, hexec, hle⟩ := taintAt_le_loaded hok hload hx hl hdirect
      exact ⟨around, st, m, hexec, Value.le_trans hfinal hle⟩
    · obtain ⟨around, st, m, hexec, hle⟩ := taintAt_le_loaded hok hload hx hl hbelow
      exact ⟨around, st, m, hexec, Value.le_trans hfinal
        (Value.le_trans (taintAt_le_of_copied hok hcopy hw hu hover) hle)⟩
  · obtain ⟨around, st, m, hexec, actual, hget, hle⟩ := taintAt_le_passed hok hcall harg
      (hcond.imp (fun hw => ⟨hw, hover⟩) id)
    exact ⟨around, st, m, hexec, actual, hget, Value.le_trans hfinal hle⟩
  · exact Value.le_trans hfinal (taintAt_le_returned hok hreach hblock hret hw hover)
  · have hvalue : ((r.problem.eval st (.var w)).run m).1 ≤
        ((r.problem.transfer around st (.assign u (.var w))).run m).1.get u :=
      get_transfer_assign (hcopy.length.symm ▸ hu) (.var w)
    rw [Problem.eval] at hvalue
    exact Value.le_trans get_le_evalVar hvalue

end Run

/-! ## A copy of a scalar, and one of a structure -/

/-- Stores `a` below `s`, copies `s` to `u`, loads `x` from the same path below `u`, and returns a
variable. -/
def copying (ty : Ty) (below : Place → Place) (returned : VarId) : Function where
  name := "copying"
  returns := .int 32
  vars := [⟨"a", .int 32, .param⟩, ⟨"s", ty, .local⟩, ⟨"u", ty, .local⟩, ⟨"x", .int 32, .local⟩]
  blocks := .ofList
    [(0, ⟨[.store (below (.var 1)) (.var 0), .assign 2 (.var 1), .load 3 (below (.var 2))],
      .ret (some (.var returned))⟩)]
  entry := 0
  nextBlock := 1

def copyingRun (ty : Ty) (below : Place → Place) (returned : VarId) : Run :=
  .ofFunction (copying ty below returned) briefly .empty []

/-- What is stored in the first visit, from the seeds. -/
def copyingStored (ty : Ty) (below : Place → Place) (returned : VarId) : Value :=
  (((copyingRun ty below returned).problem.storedValue
    ((copyingRun ty below returned).problem.entryState (copyingRun ty below returned).start 0)
    (below (.var 1)) (.var 0)).run (copyingRun ty below returned).start.memory).1

theorem copyingRun_executes (ty : Ty) (below : Place → Place) (returned : VarId)
    (h : ((copyingRun ty below returned).start, 0) ∈ (copyingRun ty below returned).visited) :
    (copyingRun ty below returned).Executes 0 (.store (below (.var 1)) (.var 0))
      ((copyingRun ty below returned).problem.surroundings (copyingRun ty below returned).start 0)
      ((copyingRun ty below returned).problem.entryState (copyingRun ty below returned).start 0)
      (copyingRun ty below returned).start.memory :=
  ⟨_, ⟨_, .ret (some (.var returned))⟩, [], [_, _], h, rfl, rfl, rfl, rfl⟩

theorem runsAt_copying {ty : Ty} {below : Place → Place} {returned : VarId} {i : Instruction}
    (hi : i ∈ [.store (below (.var 1)) (.var 0), .assign 2 (.var 1), .load 3 (below (.var 2))]) :
    (copying ty below returned).RunsAt 0 i :=
  ⟨.refl, _, rfl, hi⟩

theorem copies_carry_copying : ∃ around st m,
    (copyingRun (.int 32) id 3).Executes 0 (.load 3 (.var 2)) around st m ∧
      Value.single 0 Kind.directOnly ≤ (((copyingRun (.int 32) id 3).problem.transfer around st
        (.load 3 (.var 2))).run m).1.get 3 := by
  have hok := Run.result_of_exhausted (r := copyingRun (.int 32) id 3) (by cbv)
  have hstore := copyingRun_executes (.int 32) id 3 (by decide_cbv)
  have hload : ⟨.variable 2, []⟩ ∈ ((PointsTo.finalFacts (copying (.int 32) id 3)
      briefly).resolve (.var 2)).targets := by
    decide_cbv
  have hcarry := (Run.copies_carry (w := 1) (t := ⟨.variable 1, []⟩) hok hstore (by decide_cbv)
    (by decide)).1 0 3 (.var 2) (runsAt_copying (by simp)) (by decide)
      ⟨_, hload, .inr ⟨0, 2, runsAt_copying (by simp), by decide_cbv, by decide_cbv, by decide⟩⟩
  have hvalue : copyingStored (.int 32) id 3 = Value.single 0 Kind.directOnly := by decide_cbv
  obtain ⟨around, st, m, hexec, hle⟩ := hcarry
  exact ⟨around, st, m, hexec, hvalue ▸ hle⟩

/-- A field of the structure `s` has the taint of `a`, yet the field loaded from the copy has no
taint, and neither has the structure when it is returned. -/
theorem copied_structure_loses :
    let below : Place → Place := fun place => .field place "val"
    (∃ result, (copyingRun (.struct "node") below 3).result = .ok result ∧
      (∃ around st m, (copyingRun (.struct "node") below 3).Executes 0
        (.store (below (.var 1)) (.var 0)) around st m ∧
        (((copyingRun (.struct "node") below 3).problem.storedValue st (below (.var 1))
          (.var 0)).run m).1 = Value.single 0 Kind.directOnly) ∧
      result.vars[3]? = some Value.bottom ∧ result.summary.returned = Value.bottom) ∧
    ∃ result, (copyingRun (.struct "node") below 1).result = .ok result ∧
      result.vars[1]? = some (Value.single 0 Kind.directOnly) ∧
      result.summary.returned = Value.bottom := by
  intro below
  have hok := Run.result_of_exhausted (r := copyingRun (.struct "node") below 3) (by cbv)
  have hok' := Run.result_of_exhausted (r := copyingRun (.struct "node") below 1) (by cbv)
  have hvalue : copyingStored (.struct "node") below 3 = Value.single 0 Kind.directOnly := by
    decide_cbv
  refine ⟨⟨_, hok, ⟨_, _, _, copyingRun_executes _ _ _ (by decide_cbv), hvalue⟩, ?_, ?_⟩,
    _, hok', ?_, ?_⟩
  · decide_cbv
  · decide_cbv
  · decide_cbv
  · decide_cbv

end TaintAnalysis
