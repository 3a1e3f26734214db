import TaintAnalysis.Proofs.Solver.Growth

/-!
# What an execution writes

Memory joins what is written into its cells, so afterwards it no longer shows what was written
and what was there before. An instruction writes after it has read everything that it reads. It can
therefore be taken apart: first it makes up a plan, which says what is to be written where,
and then it carries the plan out. Where a planned value goes is itself a computation,
since locations are numbered when something is written to them.

Carrying out a plan can be recorded. `Problem.record` does what an instruction does and lists
the values that it writes with the numbers of their cells (`transfer_eq`), and memory holds
afterwards what it held before joined with these values (`execute_gains`).
-/

namespace TaintAnalysis

open Arena

/-- Written values with the numbers of the cells that they are written to. -/
abbrev Ledger := List (LocId × Value)

/-- The joined values that are written to a cell. -/
def Ledger.total (l : Ledger) (id : LocId) : Value :=
  Value.joins ((l.filter fun e => decide (e.1 = id)).map Prod.snd)

/-- The cells to write to, once they are numbered, and the value to write. -/
abbrev PlannedWrite := Naming IdSet × Value

namespace Problem

variable (p : Problem)

/-! ## Planning -/

/-- The state after a value was assigned to a destination, if there is one, and what has to be
written then. -/
def planAssigned (s : State) (dst : Option VarId) (value : Value) : State × List PlannedWrite :=
  match dst with
  | some v => (s.set v value, [(p.storageOf v, value)])
  | none => (s, [])

/-- The same for an opaque instruction. -/
def planTouched : State → List VarId → State × List PlannedWrite
  | s, [] => (s, [])
  | s, v :: rest =>
      let (t, ws) := planTouched (s.set v p.allSources) rest
      (t, (p.storageOf v, p.allSources) :: (p.pointsTo.exprTargets (.var v), p.allSources) :: ws)

/-- What a call to a function that is known by its summary writes through its arguments. -/
def planSummary (control : Value) (args : List Expr) (actuals : List Value)
    (outs : List (Nat × Value)) : List PlannedWrite :=
  outs.filterMap fun e =>
    args[e.1]?.map fun arg => (p.pointsTo.exprTargets arg, (e.2.substitute actuals).join control)

/-- The state after an instruction, and what is left to write. -/
def plan (around : Surroundings) (s : State) : Instruction → Effect (State × List PlannedWrite)
  | .assign dst e | .cast dst e _ => do
      let value ← p.eval s e
      return p.planAssigned s (some dst) ((value.join around.control).join around.widening)
  | .load dst place => do
      let (r, address) ← p.access s place
      let value ← Effect.read r.targets
      return p.planAssigned s (some dst)
        (((value.join address.toIndirect).join around.control).join around.widening)
  | .store place src => do
      let (r, address) ← p.access s place
      let value ← p.eval s src
      return (s, [(pure r.targets, (value.join address.toIndirect).join around.control)])
  | .call dst callee args => do
      let actuals ← args.mapM (p.evalArgument s)
      match p.summaryOf? callee with
      | some summary =>
          let (t, ws) := p.planAssigned s dst (p.callResult around callee actuals summary)
          return (t, ws ++ p.planSummary around.control args actuals summary.outs)
      | none =>
          let (t, ws) := p.planAssigned s dst p.allSources
          return (t, ws ++ args.map fun arg => (p.pointsTo.exprTargets arg, p.allSources))
  | .opaqueCode touched _ => return p.planTouched s touched

/-! ## Carrying out -/

/-- Writes what is planned, and records it. -/
def carryOut (w : PlannedWrite) : Effect Ledger := do
  let ids ← Effect.naming w.1
  Effect.writeAll p ids w.2
  return ids.elems.map fun id => (id, w.2)

def carryAll : List PlannedWrite → Effect Ledger
  | [] => return []
  | w :: rest => do
      let l ← p.carryOut w
      return l ++ (← carryAll rest)

/-- Does what an instruction does, and records what is written. -/
def record (around : Surroundings) (s : State) (i : Instruction) : Effect (State × Ledger) := do
  let x ← p.plan around s i
  return (x.1, ← p.carryAll x.2)

/-- The same for the instructions of a block. -/
def recordAll (around : Surroundings) : State → List Instruction → Effect (State × Ledger)
  | s, [] => return (s, [])
  | s, i :: rest => do
      let x ← p.record around s i
      let y ← recordAll around x.1 rest
      return (y.1, x.2 ++ y.2)

/-- The joined values that executing a block writes to a cell. -/
def written (k : Knowledge) (b : BlockId) (block : Block) (id : LocId) : Value :=
  ((p.recordAll (p.surroundings k b) (p.entryState k b) block.instructions).run k.memory).1.2.total
    id

/-! ## An instruction carries out its plan -/

variable {p} {around : Surroundings} {s t : State} {value : Value} {ws ws' : List PlannedWrite}

/-- Carrying out a plan without a record. -/
def perform (p : Problem) (x : State × List PlannedWrite) : Effect State := do
  let _ ← p.carryAll x.2
  return x.1

theorem carryAll_append (ws ws' : List PlannedWrite) :
    p.carryAll (ws ++ ws') = (do
      let l ← p.carryAll ws
      return l ++ (← p.carryAll ws')) := by
  induction ws with
  | nil => simp only [List.nil_append, carryAll, pure_bind, bind_pure]
  | cons w rest ih =>
      simp only [List.cons_append, carryAll, ih, bind_assoc, pure_bind, List.append_assoc]

theorem writeThrough_eq (value : Value) (arg : Expr) :
    p.writeThrough value arg = (do
      let _ ← p.carryOut (p.pointsTo.exprTargets arg, value)
      return ()) := by
  simp only [writeThrough, carryOut, bind_assoc, pure_bind, bind_pure_unit]

theorem define_eq (s : State) (v : VarId) (value : Value) :
    p.define s v value = p.perform (p.planAssigned s (some v) value) := by
  rw [define_eq_writeAll]
  simp only [perform, planAssigned, carryAll, carryOut, bind_assoc, pure_bind]

theorem touched_eq (vars : List VarId) (s : State) :
    vars.foldlM
      (fun s v => do
        let s ← p.define s v p.allSources
        p.writeThrough p.allSources (.var v)
        return s)
      s = p.perform (p.planTouched s vars) := by
  induction vars generalizing s with
  | nil => simp only [List.foldlM_nil, planTouched, perform, carryAll, pure_bind]
  | cons v rest ih =>
      simp only [List.foldlM_cons, ih, bind_assoc, pure_bind]
      simp only [define_eq, writeThrough_eq, planTouched, planAssigned, perform, carryAll,
        bind_assoc, pure_bind]

theorem summaryLoop_eq (control : Value) (args : List Expr) (actuals : List Value)
    (outs : List (Nat × Value)) (s : State) :
    (do
      for (i, written) in outs do
        if let some arg := args[i]? then
          p.writeThrough ((written.substitute actuals).join control) arg
      return s) = p.perform (s, p.planSummary control args actuals outs) := by
  induction outs with
  | nil => rfl
  | cons out rest ih =>
      obtain ⟨i, written⟩ := out
      rw [List.forIn_cons, planSummary, List.filterMap_cons]
      cases harg : args[i]? with
      | none =>
          simp only [pure_bind, harg]
          exact ih
      | some arg =>
          simp only [bind_assoc, pure_bind, harg, ih]
          simp only [writeThrough_eq, perform, carryAll, bind_assoc, pure_bind, planSummary,
            Option.map_some]

theorem argumentLoop_eq (value : Value) (args : List Expr) (s : State) :
    (do
      args.forM (p.writeThrough value)
      return s) = p.perform (s, args.map fun arg => (p.pointsTo.exprTargets arg, value)) := by
  induction args with
  | nil => rfl
  | cons arg rest ih =>
      have hcons : (arg :: rest).forM (p.writeThrough value) = (do
          p.writeThrough value arg
          rest.forM (p.writeThrough value)) := rfl
      rw [hcons, bind_assoc, ih, writeThrough_eq]
      simp only [perform, List.map_cons, carryAll, bind_assoc, pure_bind]

/-- A destination is assigned before anything else is written. -/
theorem define_perform (s : State) (v : VarId) (value : Value) (ws : List PlannedWrite) :
    let assigned := p.planAssigned s (some v) value
    (do
      let t ← p.define s v value
      p.perform (t, ws)) = p.perform (assigned.1, assigned.2 ++ ws) := by
  simp only [define_eq, perform, carryAll_append, bind_assoc, pure_bind]

theorem callKnown_eq (around : Surroundings) (s : State) (dst : Option VarId) (callee : Callee)
    (args : List Expr) (actuals : List Value) (summary : Summary) :
    let assigned := p.planAssigned s dst (p.callResult around callee actuals summary)
    p.callKnown around s dst callee args actuals summary =
      p.perform (assigned.1,
        assigned.2 ++ p.planSummary around.control args actuals summary.outs) := by
  have hloop := summaryLoop_eq (p := p) around.control args actuals summary.outs
  cases dst with
  | none => exact hloop s
  | some v =>
      refine Eq.trans ?_ (define_perform s v (p.callResult around callee actuals summary) _)
      exact congrArg (p.define s v _ >>= ·) (funext hloop)

theorem callUnknown_eq (s : State) (dst : Option VarId) (args : List Expr) :
    let assigned := p.planAssigned s dst p.allSources
    p.callUnknown s dst args =
      p.perform (assigned.1,
        assigned.2 ++ args.map fun arg => (p.pointsTo.exprTargets arg, p.allSources)) := by
  have hloop := argumentLoop_eq (p := p) p.allSources args
  cases dst with
  | none => exact hloop s
  | some v =>
      refine Eq.trans ?_ (define_perform s v p.allSources _)
      exact congrArg (p.define s v _ >>= ·) (funext hloop)

/-- An instruction writes what it planned to write, after everything that it reads. -/
theorem transfer_eq_plan (around : Surroundings) (s : State) (i : Instruction) :
    p.transfer around s i = p.plan around s i >>= p.perform := by
  cases i with
  | assign dst e => simp only [transfer, plan, bind_assoc, pure_bind, define_eq]
  | cast dst e ty => simp only [transfer, plan, bind_assoc, pure_bind, define_eq]
  | load dst place => simp only [transfer, plan, access, bind_assoc, pure_bind, define_eq]
  | store place src =>
      simp only [transfer, plan, access, bind_assoc, pure_bind, perform, carryAll, carryOut]
      rfl
  | call dst callee args =>
      rw [transfer, plan, bind_assoc]
      refine congrArg _ (funext fun actuals => ?_)
      cases p.summaryOf? callee with
      | some summary => exact callKnown_eq around s dst callee args actuals summary
      | none => exact callUnknown_eq s dst args
  | opaqueCode touched reason => simp only [transfer, plan, pure_bind, touched_eq]

/-- Recording an instruction does the same as the instruction. -/
theorem transfer_eq (around : Surroundings) (s : State) (i : Instruction) :
    p.transfer around s i = Prod.fst <$> p.record around s i := by
  simp only [transfer_eq_plan, record, map_eq_pure_bind, bind_assoc, pure_bind]
  rfl

theorem transferAll_eq (around : Surroundings) (s : State) (is : List Instruction) :
    p.transferAll around s is = Prod.fst <$> p.recordAll around s is := by
  induction is generalizing s with
  | nil => simp only [transferAll, List.foldlM_nil, recordAll, map_pure]
  | cons i rest ih =>
      have hcons : p.transferAll around s (i :: rest) =
          p.transfer around s i >>= fun t => p.transferAll around t rest := List.foldlM_cons
      simp only [hcons, ih, transfer_eq, recordAll, map_eq_pure_bind, bind_assoc, pure_bind]

end Problem

/-! ## What memory holds afterwards -/

namespace Ledger

variable {l l' : Ledger} {id : LocId} {value : Value}

theorem total_le_iff : l.total id ≤ value ↔ ∀ e ∈ l, e.1 = id → e.2 ≤ value := by
  rw [total, Value.joins_le_iff]
  constructor
  · intro h e he hid
    exact h e.2 (List.mem_map.mpr ⟨e, List.mem_filter.mpr ⟨he, decide_eq_true hid⟩, rfl⟩)
  · intro h v hv
    obtain ⟨e, he, rfl⟩ := List.mem_map.mp hv
    exact h e (List.mem_filter.mp he).1 (of_decide_eq_true (List.mem_filter.mp he).2)

theorem le_total {e : LocId × Value} (he : e ∈ l) : e.2 ≤ l.total e.1 :=
  total_le_iff.mp (Value.le_refl _) e he rfl

theorem total_append (id : LocId) : (l ++ l').total id = (l.total id).join (l'.total id) := by
  refine Value.le_antisymm (total_le_iff.mpr ?_) (Value.join_le ?_ ?_)
  · rintro e he rfl
    rcases List.mem_append.mp he with he | he
    · exact Value.le_trans (le_total he) (Value.le_join_left _ _)
    · exact Value.le_trans (le_total he) (Value.le_join_right _ _)
  · refine total_le_iff.mpr ?_
    rintro e he rfl
    exact le_total (List.mem_append_left _ he)
  · refine total_le_iff.mpr ?_
    rintro e he rfl
    exact le_total (List.mem_append_right _ he)

theorem total_singleton (id' : LocId) :
    total [(id', value)] id = if id = id' then value else Value.bottom := by
  refine Value.le_antisymm (total_le_iff.mpr ?_) ?_
  · intro e he hid
    obtain rfl := List.mem_singleton.mp he
    rw [if_pos hid.symm]
    exact Value.le_refl _
  · split
    · next h =>
      subst h
      exact le_total (e := (id, value)) (List.mem_singleton.mpr rfl)
    · exact Value.bottom_le _

end Ledger

/-- The values of a record were joined into the cells of memory. -/
def Memory.Gains (m m' : Memory) (l : Ledger) : Prop :=
  ∀ id, m'.cell id = (m.cell id).join (l.total id)

variable {p : Problem} {D : Nat} {m m' m'' : Memory} {l l' : Ledger}

namespace Memory.Gains

theorem of_cells (h : m'.cells = m.cells) : m.Gains m' [] := fun id => by
  rw [Memory.cell, Memory.cell, h]
  exact (Value.join_bottom _).symm

theorem trans (h : m.Gains m' l) (h' : m'.Gains m'' l') : m.Gains m'' (l ++ l') := fun id => by
  rw [h' id, h id, Ledger.total_append, Value.join_assoc]

end Memory.Gains

theorem write_gains (p : Problem) (m : Memory) (id : LocId) (v : Value) :
    m.Gains (m.write p id v) [(id, v)] := by
  intro id'
  rw [Ledger.total_singleton, Memory.write]
  split
  · next hv =>
    rw [Value.isBottom_iff.mp hv, ite_self, Value.join_bottom]
  · show ((m.cells.joinAt id v).get? id').getD Value.bottom = _
    rw [OrderedMap.getD_joinAt]
    split
    · next h => rw [Memory.cell, h]
    · rw [Value.join_bottom, Memory.cell]

theorem writeAll_gains (p : Problem) (ids : List LocId) (v : Value) (m : Memory) :
    m.Gains (ids.foldl (fun m id => m.write p id v) m) (ids.map fun id => (id, v)) := by
  induction ids generalizing m with
  | nil => exact .of_cells rfl
  | cons id rest ih => exact (write_gains p m id v).trans (ih (m.write p id v))

namespace Problem

variable {around : Surroundings} {s : State}

theorem arena_carryOut (w : PlannedWrite) (m : Memory) :
    ((p.carryOut w).run m).2.arena = (w.1.run m.arena).2 :=
  arena_writeAll p (w.1.run m.arena).1.elems w.2 { m with arena := (w.1.run m.arena).2 }

theorem carryOut_gains (w : PlannedWrite) (m : Memory) :
    m.Gains ((p.carryOut w).run m).2 ((p.carryOut w).run m).1 :=
  writeAll_gains p (w.1.run m.arena).1.elems w.2 { m with arena := (w.1.run m.arena).2 }

theorem carryAll_gains (ws : List PlannedWrite) (m : Memory) :
    m.Gains ((p.carryAll ws).run m).2 ((p.carryAll ws).run m).1 := by
  induction ws generalizing m with
  | nil => exact .of_cells rfl
  | cons w rest ih => exact (carryOut_gains w m).trans (ih ((p.carryOut w).run m).2)

theorem access_names (s : State) (place : Place) : Names p D (p.access s place) :=
  .bind (resolve_names place) fun r =>
    .bind (addressTaint_names s place.base r place) fun _ => .pure _

/-- Nothing is written while a plan is made. -/
theorem plan_names (around : Surroundings) (s : State) (i : Instruction) :
    Names p D (p.plan around s i) := by
  cases i with
  | assign dst e => exact .bind (eval_names s e) fun _ => .pure _
  | cast dst e ty => exact .bind (eval_names s e) fun _ => .pure _
  | load dst place =>
      exact .bind (access_names s place) fun _ => .bind (.read _) fun _ => .pure _
  | store place src =>
      exact .bind (access_names s place) fun _ => .bind (eval_names s src) fun _ => .pure _
  | call dst callee args =>
      refine .bind (.mapM fun arg _ => evalArgument_names s arg) fun actuals => ?_
      cases p.summaryOf? callee with
      | some summary => exact .pure _
      | none => exact .pure _
  | opaqueCode touched reason => exact .pure _

theorem memory_record (around : Surroundings) (s : State) (i : Instruction) (m : Memory) :
    ((p.record around s i).run m).2 = ((p.transfer around s i).run m).2 := by
  rw [transfer_eq]
  rfl

theorem run_transferAll (around : Surroundings) (s : State) (is : List Instruction) (m : Memory) :
    (p.transferAll around s is).run m =
      (((p.recordAll around s is).run m).1.1, ((p.recordAll around s is).run m).2) := by
  rw [transferAll_eq]
  rfl

theorem record_gains (hm : Readable p D m) (around : Surroundings) (s : State) (i : Instruction) :
    m.Gains ((p.record around s i).run m).2 ((p.record around s i).run m).1.2 :=
  (Memory.Gains.of_cells (plan_names around s i m hm).cells).trans
    (carryAll_gains ((p.plan around s i).run m).1.2 ((p.plan around s i).run m).2)

theorem record_readable (hm : Readable p D m) (around : Surroundings) (s : State)
    (i : Instruction) : Readable p D ((p.record around s i).run m).2 := by
  rw [memory_record]
  exact (transfer_proceeds around s i m hm).readable

theorem recordAll_readable (hm : Readable p D m) (around : Surroundings) (s : State)
    (is : List Instruction) : Readable p D ((p.recordAll around s is).run m).2 := by
  have hlater := transferAll_proceeds (D := D) around s is m hm
  rw [run_transferAll] at hlater
  exact hlater.readable

theorem recordAll_gains (hm : Readable p D m) (around : Surroundings) (s : State)
    (is : List Instruction) :
    m.Gains ((p.recordAll around s is).run m).2 ((p.recordAll around s is).run m).1.2 := by
  induction is generalizing s m with
  | nil => exact .of_cells rfl
  | cons i rest ih =>
      exact (record_gains hm around s i).trans (ih (record_readable hm around s i) _)

/-- Executing a block does the instructions and then evaluates what its end asks for. -/
theorem execute_eq (k : Knowledge) (b : BlockId) (block : Block) :
    let x := (p.recordAll (p.surroundings k b) (p.entryState k b) block.instructions).run k.memory
    let y := (p.terminate (p.surroundings k b) x.1.1 block.terminator).run x.2
    p.execute k b block = ⟨p.controlOf k b, x.1.1, y.1.1, y.1.2, y.2⟩ := by
  intro x y
  have hrun : (p.transferAll (p.surroundings k b) (p.entryState k b) block.instructions).run
      k.memory = (x.1.1, x.2) := run_transferAll _ _ _ _
  have hexecute : p.execute k b block =
      let x' := (p.transferAll (p.surroundings k b) (p.entryState k b) block.instructions).run
        k.memory
      let y' := (p.terminate (p.surroundings k b) x'.1 block.terminator).run x'.2
      ⟨p.controlOf k b, x'.1, y'.1.1, y'.1.2, y'.2⟩ := rfl
  rw [hexecute, hrun]

/-- After a block was executed a cell holds what it held before and what the block has written
to it. -/
theorem execute_gains {k : Knowledge} (hk : Readable p D k.memory) (b : BlockId) (block : Block)
    (id : LocId) :
    (p.execute k b block).memory.cell id = (k.memory.cell id).join (p.written k b block id) := by
  have hblock := recordAll_gains hk (p.surroundings k b) (p.entryState k b) block.instructions
  have hreadable := recordAll_readable hk (p.surroundings k b) (p.entryState k b) block.instructions
  have hend (s : State) := terminate_names (p.surroundings k b) s block.terminator _ hreadable
  rw [execute_eq, written, ← hblock id, Memory.cell, (hend _).cells, Memory.cell]

end Problem

end TaintAnalysis
