import TaintAnalysis.Solver.Transfer

/-!
# Running the solver

The solver keeps a worklist of positions in reverse postorder and visits the
first block on it until the worklist is empty. A visit executes the block on
what is known about its surroundings and joins the outcome into what is known.
Whatever grows puts the blocks that read it back on the worklist: the successors
of a block whose exit state grew; the blocks that a branch decides about, when
the taint of its condition or of its own surroundings grew; the blocks of a loop
whose exit test grew; the blocks that read memory, when memory grew.

A run is the list of its visits, each with the knowledge after it. It is cut off
after a given number of visits, and has converged if the worklist is empty then.
-/

namespace TaintAnalysis

/-- What is known about a function while its taint is computed. -/
structure Knowledge where
  /-- The positions of the blocks that have to be visited. -/
  worklist : IdSet
  /-- The taint of the variables at the end of each block. -/
  exits : OrderedMap BlockId State
  /-- The taint of the condition of each branch. -/
  branchTaint : OrderedMap BlockId Value
  /-- The taint of the branches that decide whether each block runs. -/
  controlTaint : OrderedMap BlockId Value
  /-- The taint of the returned value. -/
  returned : Value
  memory : Memory
  deriving DecidableEq

/-- The outcome of executing a block once. -/
structure Execution where
  /-- The taint of the branches that decide whether the block runs. -/
  control : Value
  /-- The taint of the variables at the end of the block. -/
  exit : State
  /-- The taint of the condition, for a block that ends in a branch. -/
  branch : Value
  /-- The taint of what is returned, for a block that returns a value. -/
  returned : Value
  memory : Memory
  deriving DecidableEq

namespace Knowledge

/-- The taint of the condition of a branch. -/
def branch (k : Knowledge) (b : BlockId) : Value :=
  (k.branchTaint.get? b).getD Value.bottom

/-- The taint of the branches that decide whether a block runs. -/
def control (k : Knowledge) (b : BlockId) : Value :=
  (k.controlTaint.get? b).getD Value.bottom

/-- Joins a state into the exit state of a block, which is listed from then on. -/
def joinExit (exits : OrderedMap BlockId State) (b : BlockId) (s : State) :
    OrderedMap BlockId State :=
  exits.insert b (((exits.get? b).getD (.untainted s.vars.length)).join s)

end Knowledge

namespace Problem

/-- The taint of the variables on entry: each parameter depends directly on itself. -/
def seedState (p : Problem) : State :=
  p.function.params.zipIdx.foldl
    (fun s (v, i) => s.set v (.single i Kind.directOnly)) (.untainted p.varCount)

/-- The taint of memory on entry: the object of a parameter, and its storage, depend directly on
the parameter. -/
def seedCells (p : Problem) (a : Arena) : OrderedMap LocId Value :=
  p.function.params.zipIdx.foldl
    (fun cells (v, i) =>
      [Location.mk (.paramTarget i) [], ⟨.variable v, []⟩].foldl
        (fun cells l => match a.find? l with
          | some id => cells.insert id (.single i Kind.directOnly)
          | none => cells)
        cells)
    .empty

/-- What is known before the first visit: every block has to be visited. -/
def start (p : Problem) (a : Arena) : Knowledge where
  worklist := .ofList (List.range p.order.length)
  exits := .empty
  branchTaint := .empty
  controlTaint := .empty
  returned := Value.bottom
  memory := { arena := a, cells := p.seedCells a, paramWrites := .empty }

/-! ## The surroundings of a block -/

/-- The taint of the variables at the beginning of a block. -/
def entryState (p : Problem) (k : Knowledge) (b : BlockId) : State :=
  ((p.graph.predecessors b).filterMap k.exits.get?).foldl State.join
    (if b = p.graph.entry then p.seedState else .untainted p.varCount)

/-- The taint of the branches that decide whether a block runs. Their own
surroundings are part of it. -/
def controlOf (p : Problem) (k : Knowledge) (b : BlockId) : Value :=
  .joins ((p.control.dependences b).map fun x => ((k.branch x).join (k.control x)).toIndirect)

/-- Full taint from every exit test of a loop around the block. -/
def wideningOf (p : Problem) (k : Knowledge) (b : BlockId) : Value :=
  .joins ((p.loops.filter fun l => b ∈ l.body).flatMap fun l =>
    l.exiting.map fun x => (k.branch x).toFull)

/-- Full taint from the branches that decide whether the block runs, for calls
back into the recursive component. -/
def depthOf (p : Problem) (k : Knowledge) (b : BlockId) : Value :=
  if p.peers.isEmpty then Value.bottom
  else
    .joins ((p.control.dependences b).map fun x => (k.branch x).toFull.join (k.control x).toFull)

/-- What the block adds to whatever its instructions compute. -/
def surroundings (p : Problem) (k : Knowledge) (b : BlockId) : Surroundings where
  control := p.controlOf k b
  widening := p.wideningOf k b
  depth := p.depthOf k b

/-! ## Visiting a block -/

/-- What the end of a block computes: the taint of a branch condition and that
of a returned value. -/
def terminate (p : Problem) (around : Surroundings) (s : State) :
    Terminator → Effect (Value × Value)
  | .branch condition _ _ => return (← p.eval s condition, Value.bottom)
  | .ret (some value) => return (Value.bottom, (← p.eval s value).join around.control)
  | _ => return (Value.bottom, Value.bottom)

def execute (p : Problem) (k : Knowledge) (b : BlockId) (block : Block) : Execution :=
  let around := p.surroundings k b
  let run : Effect (State × Value × Value) := do
    let s ← p.transferAll around (p.entryState k b) block.instructions
    return (s, ← p.terminate around s block.terminator)
  let ((exit, branch, returned), memory) := StateT.run run k.memory
  ⟨around.control, exit, branch, returned, memory⟩

/-- The blocks of the loops whose end a branch decides about. -/
def loopBlocks (p : Problem) (branch : BlockId) : List BlockId :=
  (p.loops.filter fun l => branch ∈ l.exiting).flatMap (·.body)

/-- The blocks that read something which an execution of `b` makes larger. -/
def affected (p : Problem) (k : Knowledge) (b : BlockId) (e : Execution) : List BlockId :=
  (if (k.branch b).grows e.branch then p.control.controlledBy b ++ p.loopBlocks b else [])
    ++ (if (k.control b).grows e.control then p.control.controlledBy b else [])
    ++ (if ((k.exits.get? b).getD (.untainted p.varCount)).grows e.exit then
          p.graph.successors b else [])
    ++ (if e.memory.cells ≠ k.memory.cells then p.memoryReaders else [])

/-- Joins the outcome of an execution of `b` into what is known. -/
def absorb (p : Problem) (k : Knowledge) (b : BlockId) (e : Execution) : Knowledge where
  worklist := k.worklist ∪ .ofList ((p.affected k b e).filterMap p.position?)
  exits := Knowledge.joinExit k.exits b e.exit
  branchTaint := k.branchTaint.joinAt b e.branch
  controlTaint := k.controlTaint.joinAt b e.control
  returned := k.returned.join e.returned
  memory := e.memory

/-- Visits a block. A block that the function does not have does nothing. -/
def visit (p : Problem) (k : Knowledge) (b : BlockId) : Knowledge :=
  match p.function.block? b with
  | some block => p.absorb k b (p.execute k b block)
  | none => k

/-! ## The run -/

/-- Visits the first block on the worklist. -/
def next? (p : Problem) (k : Knowledge) : Option (BlockId × Knowledge) := do
  let (i, rest) ← k.worklist.popMin?
  let b ← p.order[i]?
  return (b, p.visit { k with worklist := rest } b)

/-- The visits of a run, at most as many as the budget allows, with what is
known after each. -/
def visits (p : Problem) : Nat → Knowledge → List (BlockId × Knowledge)
  | 0, _ => []
  | budget + 1, k =>
      match p.next? k with
      | some (b, k) => (b, k) :: p.visits budget k
      | none => []

end Problem

/-- A run of the solver. -/
structure Run where
  problem : Problem
  start : Knowledge
  /-- The visited blocks, with what is known after each visit. -/
  visits : List (BlockId × Knowledge)

/-- Why a result is missing: the work was cut off before nothing changed any more. -/
structure NonConvergence where
  /-- What was being analyzed. -/
  scope : String
  /-- How often it was tried. -/
  iterations : Nat
  deriving DecidableEq

/-- The text of the error. -/
def NonConvergence.message (e : NonConvergence) : String :=
  e.scope ++ ": analysis did not converge after " ++ toString e.iterations ++ " iterations"

/-- What was learned about a function. -/
structure FunctionResult where
  summary : Summary
  /-- For each variable the taint it may have anywhere, with that of its storage. -/
  vars : List Value
  /-- How many block visits it took. -/
  visits : Nat
  deriving DecidableEq

namespace Run

/-- The run of the solver on a problem, cut off after `budget` visits. -/
def ofProblem (p : Problem) (a : Arena) (budget : Nat) : Run :=
  let start := p.start a
  ⟨p, start, p.visits budget start⟩

def ofFunction (f : Function) (config : Config) (summaries : SummaryTable) (peers : List String) :
    Run :=
  let (p, a) := Problem.ofFunction f config summaries peers
  ofProblem p a config.maxBlockVisits

/-- What is known at the end. -/
def final (r : Run) : Knowledge :=
  (r.visits.getLast?.map Prod.snd).getD r.start

/-- The exit state of each visited block after its visit, in order. -/
def trace (r : Run) : List (BlockId × State) :=
  r.visits.filterMap fun (b, k) => (k.exits.get? b).map fun s => (b, s)

/-- The taint that a variable may have anywhere. -/
def taintOf (r : Run) (v : VarId) : Value :=
  let k := r.final
  let scalar := Value.joins (r.problem.seedState.get v :: k.exits.values.map (·.get v))
  match k.memory.arena.find? ⟨.variable v, []⟩ with
  | some id => scalar.join (k.memory.read (.singleton id))
  | none => scalar

/-- What the function does to its caller. -/
def summary (r : Run) : Summary :=
  let writes := r.final.memory.paramWrites
  .tabulate r.final.returned (.ofList writes.keys) fun i => (writes.get? i).getD Value.bottom

/-- What was learned, or that the run was cut off. -/
def result (r : Run) : Except NonConvergence FunctionResult :=
  if r.final.worklist.isEmpty then
    .ok ⟨r.summary, (List.range r.problem.varCount).map r.taintOf, r.visits.length⟩
  else .error ⟨r.problem.function.name, r.visits.length⟩

end Run

end TaintAnalysis
