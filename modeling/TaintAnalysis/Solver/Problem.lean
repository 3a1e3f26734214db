import TaintAnalysis.Flow.ControlDependence
import TaintAnalysis.Flow.Loop
import TaintAnalysis.Memory.Saturation
import TaintAnalysis.Taint.State
import TaintAnalysis.Taint.Summary

/-!
# What the solver is given

Everything that stays fixed while the taint of one function is computed: the
function with its control flow and its pointer facts, the summaries of the
functions it calls, and the functions it is recursive with.
-/

namespace TaintAnalysis

/-- The fixed part of the analysis of one function. -/
structure Problem where
  function : Function
  /-- The summaries visible to the function. -/
  summaries : SummaryTable
  /-- The functions of the recursive component in hand; none if it is not recursive. -/
  peers : List String
  graph : Graph
  control : ControlDependence
  loops : List Loop
  /-- The blocks to visit, in reverse postorder. -/
  order : List BlockId
  pointsTo : PointsTo
  /-- The blocks whose transfer reads memory. -/
  memoryReaders : List BlockId

namespace Problem

/-- Whether a block reads memory: it accesses memory or calls a function, or it
mentions a variable whose storage is named. -/
def readsMemory (a : Arena) (block : Block) : Bool :=
  (block.instructions.any fun i =>
      i.place?.isSome || i.isCall || i.mentions.any (PointsTo.isMemoryResident a))
    || block.terminator.mentions.any (PointsTo.isMemoryResident a)

/-- The analysis of a function under a configuration, and the locations that are
named before it begins. -/
def ofFunction (f : Function) (config : Config) (summaries : SummaryTable) (peers : List String) :
    Problem × Arena :=
  let graph := Graph.ofFunction f
  let (pointsTo, arena) := PointsTo.analyze f config
  ({ function := f
     summaries := summaries
     peers := peers
     graph := graph
     control := ControlDependence.ofGraph graph (Dominance.postOfGraph graph)
     loops := graph.loops
     order := graph.reversePostorder
     pointsTo := pointsTo
     memoryReaders := (f.blocks.entries.filter fun e => readsMemory arena e.2).map Prod.fst },
    arena)

/-- How many variables the function has. -/
def varCount (p : Problem) : Nat :=
  p.function.vars.length

/-- Full dependence on every parameter of the function. -/
def allSources (p : Problem) : Value :=
  .top (List.range p.function.paramCount)

/-- The position of a block in the visiting order. -/
def position? (p : Problem) (b : BlockId) : Option Nat :=
  p.order.idxOf? b

end Problem

end TaintAnalysis
