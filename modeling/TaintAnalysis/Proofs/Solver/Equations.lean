import TaintAnalysis.Proofs.Memory.Resolution
import TaintAnalysis.Proofs.Solver.Cells
import TaintAnalysis.Solver.Run

/-!
# The equations that the solver solves

A run of the solver threads a memory through its visits, names locations as it
goes, and lets every instruction read what the one before it wrote. None of this
is in the equations that it is meant to solve. This file states them: what each
block computes is a function of an `Assignment`, a guess at everything that a
run finds out, and a solution is a guess that every block confirms.

The functions below follow those of the solver one by one, without a state.
Memory is read from one fixed list of `Cells`, and what is written is returned.
`Storage` holds what they have to know about memory beforehand: the pointer
facts, and which variables live in memory. The equations themselves are
`Solves`, at the end.
-/

namespace TaintAnalysis

/-- What is known about memory before the solver starts. -/
structure Storage where
  /-- What pointers may refer to. -/
  facts : PathFacts
  /-- Which variables live in memory. -/
  resident : VarId → Bool

namespace Storage

/-- The storage as the solver finds it: with the pointer facts of the problem,
and the locations that are named when it starts. -/
def ofProblem (p : Problem) (a : Arena) : Storage where
  facts := p.pointsTo.pathFacts a.maxDepth a
  resident := p.pointsTo.livesInMemory a

/-- The taint of a variable. -/
def valueOfVar (S : Storage) (c : Cells) (s : State) (v : VarId) : Value :=
  if S.resident v then (s.get v).join (Cells.read c [⟨.variable v, []⟩]) else s.get v

/-- The taint of everything read to compute the address of a place that starts
at `base` and resolves to `r`. -/
def address (S : Storage) (c : Cells) (s : State) (base : VarId) (r : PathResolution)
    (positions : Value) : Value :=
  ((if r.derefsBase then S.valueOfVar c s base else Value.bottom).join
    (Cells.read c r.pointerCells)).join positions

mutual

/-- The taint of an expression. -/
def value (S : Storage) (c : Cells) (s : State) : Expr → Value
  | .var v => S.valueOfVar c s v
  | .const _ => Value.bottom
  | .unary _ e => S.value c s e
  | .binary _ l r => (S.value c s l).join (S.value c s r)
  | .addrOf place =>
      (S.address c s place.base (S.facts.resolve place) (S.positions c s place)).toIndirect

/-- The joined taint of the index positions of a place. -/
def positions (S : Storage) (c : Cells) (s : State) : Place → Value
  | .var _ => Value.bottom
  | .deref inner | .field inner _ => S.positions c s inner
  | .index inner e => (S.positions c s inner).join (S.value c s e)

end

/-- The taint of the address of a place. -/
def addressOf (S : Storage) (c : Cells) (s : State) (place : Place) : Value :=
  S.address c s place.base (S.facts.resolve place) (S.positions c s place)

/-- The taint of an argument, with that of the memory it refers to. -/
def argument (S : Storage) (c : Cells) (s : State) (arg : Expr) : Value :=
  (S.value c s arg).join (Cells.read c (S.facts.exprTargets arg))

/-- What giving a variable a new value writes. -/
def defines (S : Storage) (v : VarId) (value : Value) : Cells :=
  if S.resident v then [(⟨.variable v, []⟩, value)] else []

/-- What writing a value to the memory behind an argument writes. -/
def writesThrough (S : Storage) (value : Value) (arg : Expr) : Cells :=
  (S.facts.exprTargets arg).map fun l => (l, value)

/-- What a call to a function that is known by its summary writes through its arguments. -/
def summaryWrites (S : Storage) (control : Value) (args : List Expr) (actuals : List Value)
    (summary : Summary) : Cells :=
  summary.outs.flatMap fun e =>
    match args[e.1]? with
    | some arg => S.writesThrough ((e.2.substitute actuals).join control) arg
    | none => []

end Storage

namespace Problem

/-- The taint of the result of a call to a function that is known by its summary. -/
def callResult (p : Problem) (around : Surroundings) (callee : Callee) (actuals : List Value)
    (summary : Summary) : Value :=
  let value := ((summary.returned.substitute actuals).join around.control).join around.widening
  if callee.name?.any fun name => name ∈ p.peers then value.join around.depth else value

/-- The state after a value was assigned to a destination, if there is one, and
what that writes. -/
def assigned (S : Storage) (s : State) (dst : Option VarId) (value : Value) : State × Cells :=
  match dst with
  | some v => (s.set v value, S.defines v value)
  | none => (s, [])

/-- The state after an opaque instruction, and what it writes. -/
def touched (p : Problem) (S : Storage) : State → List VarId → State × Cells
  | s, [] => (s, [])
  | s, v :: rest =>
      let (t, ws) := p.touched S (s.set v p.allSources) rest
      (t, S.defines v p.allSources ++ S.writesThrough p.allSources (.var v) ++ ws)

/-- The state after an instruction, and what it writes. -/
def outcome (p : Problem) (S : Storage) (c : Cells) (around : Surroundings) (s : State) :
    Instruction → State × Cells
  | .assign dst e | .cast dst e _ =>
      assigned S s (some dst) (((S.value c s e).join around.control).join around.widening)
  | .load dst place =>
      assigned S s (some dst)
        ((((Cells.read c (S.facts.resolve place).targets).join
          (S.addressOf c s place).toIndirect).join around.control).join around.widening)
  | .store place src =>
      (s, (S.facts.resolve place).targets.map fun l =>
        (l, ((S.value c s src).join (S.addressOf c s place).toIndirect).join around.control))
  | .call dst callee args =>
      let actuals := args.map (S.argument c s)
      match p.summaryOf? callee with
      | some summary =>
          let (t, ws) := assigned S s dst (p.callResult around callee actuals summary)
          (t, ws ++ S.summaryWrites around.control args actuals summary)
      | none =>
          let (t, ws) := assigned S s dst p.allSources
          (t, ws ++ args.flatMap (S.writesThrough p.allSources))
  | .opaqueCode vars _ => p.touched S s vars

/-- The state after the instructions of a block, and what they write. -/
def outcomes (p : Problem) (S : Storage) (c : Cells) (around : Surroundings) :
    State → List Instruction → State × Cells
  | s, [] => (s, [])
  | s, i :: rest =>
      let (t, ws) := p.outcome S c around s i
      let (u, ws') := p.outcomes S c around t rest
      (u, ws ++ ws')

/-- What the end of a block computes: the taint of a branch condition and that
of a returned value. -/
def finish (S : Storage) (c : Cells) (control : Value) (s : State) : Terminator → Value × Value
  | .branch condition _ _ => (S.value c s condition, Value.bottom)
  | .ret (some value) => (Value.bottom, (S.value c s value).join control)
  | _ => (Value.bottom, Value.bottom)

end Problem

/-- A guess at everything that is found out about a function. -/
structure Assignment where
  /-- The taint of the variables at the end of each block. -/
  exit : BlockId → State
  /-- The taint of the condition of each branch. -/
  branch : BlockId → Value
  /-- The taint of the branches that decide whether each block runs. -/
  control : BlockId → Value
  /-- The taint of memory. -/
  cells : Cells
  /-- The taint of the returned value. -/
  returned : Value
  /-- The taint written through each parameter. -/
  outs : Nat → Value

/-- What one block does. -/
structure Effects where
  control : Value
  exit : State
  branch : Value
  returned : Value
  writes : Cells

namespace Problem

variable (p : Problem) (σ : Assignment) (b : BlockId)

/-- The taint of the variables at the beginning of a block. -/
def entryIn : State :=
  ((p.graph.predecessors b).map σ.exit).foldl State.join
    (if b = p.graph.entry then p.seedState else .untainted p.varCount)

/-- The taint of the branches that decide whether a block runs. -/
def controlIn : Value :=
  .joins ((p.control.dependences b).map fun x => ((σ.branch x).join (σ.control x)).toIndirect)

/-- Full taint from every exit test of a loop around the block. -/
def wideningIn : Value :=
  .joins ((p.loops.filter fun l => b ∈ l.body).flatMap fun l =>
    l.exiting.map fun x => (σ.branch x).toFull)

/-- Full taint from the branches that decide whether the block runs, for calls
back into the recursive component. -/
def depthIn : Value :=
  if p.peers.isEmpty then Value.bottom
  else
    .joins ((p.control.dependences b).map fun x => (σ.branch x).toFull.join (σ.control x).toFull)

/-- What the block adds to whatever its instructions compute. -/
def aroundIn : Surroundings where
  control := p.controlIn σ b
  widening := p.wideningIn σ b
  depth := p.depthIn σ b

/-- What a block does on a guess. -/
def blockEffects (S : Storage) (block : Block) : Effects :=
  let run := p.outcomes S σ.cells (p.aroundIn σ b) (p.entryIn σ b) block.instructions
  let values := finish S σ.cells (p.controlIn σ b) run.1 block.terminator
  ⟨p.controlIn σ b, run.1, values.1, values.2, run.2⟩

/-- A block that is never executed does nothing. -/
def noEffects : Effects :=
  ⟨Value.bottom, .untainted p.varCount, Value.bottom, Value.bottom, []⟩

/-- What the block with a number does on a guess. -/
def effects (S : Storage) : Effects :=
  if b ∈ p.order then ((p.function.block? b).map (p.blockEffects σ b S)).getD p.noEffects
  else p.noEffects

/-- Everything that is written on a guess. -/
def writes (S : Storage) : Cells :=
  p.order.flatMap fun b => (p.effects σ b S).writes

/-- The taint that a list of writes puts behind a parameter. -/
def writtenThrough (ws : Cells) (i : Nat) : Value :=
  Cells.gather ws fun l => decide (i ∈ Memory.writtenParams p l)

/-- What all blocks together do on a guess: the right-hand sides of the equations. -/
def next (S : Storage) (seeds : Cells) : Assignment where
  exit := fun b => (p.effects σ b S).exit
  branch := fun b => (p.effects σ b S).branch
  control := fun b => (p.effects σ b S).control
  cells := seeds ++ p.writes σ S
  returned := .joins (p.order.map fun b => (p.effects σ b S).returned)
  outs := p.writtenThrough (p.writes σ S)

/-- The equations: every block does on the guess what the guess says, and memory
holds the seeds and what is written. -/
structure Solves (S : Storage) (seeds : Cells) (σ : Assignment) : Prop where
  exit : ∀ b, σ.exit b = (p.effects σ b S).exit
  branch : ∀ b, σ.branch b = (p.effects σ b S).branch
  control : ∀ b, σ.control b = (p.effects σ b S).control
  cells : ∀ l, σ.cells.taintAt l = Cells.taintAt (seeds ++ p.writes σ S) l
  returned : σ.returned = .joins (p.order.map fun b => (p.effects σ b S).returned)
  outs : ∀ i, σ.outs i = p.writtenThrough (p.writes σ S) i

end Problem

end TaintAnalysis
