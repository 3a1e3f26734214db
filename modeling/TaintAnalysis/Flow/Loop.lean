import TaintAnalysis.Flow.Graph

/-!
# Loops

Every target of a back edge is the header of one loop. Its body is the header
together with the blocks that reach the source of one of its back edges without
passing through the header. Loops are listed in the order in which the search
from the entry discovers their first back edge.
-/

namespace TaintAnalysis

/-- The loop of a header. -/
structure Loop where
  /-- The block at which every round begins. -/
  header : BlockId
  /-- The blocks of the loop, in ascending order. -/
  body : List BlockId
  /-- The sources of the back edges to the header, in order of discovery. -/
  tails : List BlockId
  /-- The blocks of the loop with a successor outside of it, in ascending order. -/
  exiting : List BlockId
  /-- How many other loops contain the header. -/
  depth : Nat
  deriving DecidableEq

namespace Graph

/-- The header and the blocks that reach the tail without passing through it. -/
def loopBody (g : Graph) (header tail : BlockId) : List BlockId :=
  if tail = header then [header]
  else
    header ::
      (Search.run (fun b => (g.predecessors b).filter (· ≠ header)) g.nodeBound [tail]).finished

/-- The targets of back edges, in order of discovery. -/
def headers (g : Graph) : List BlockId :=
  (g.backEdges.map Prod.snd).foldl (fun hs h => if h ∈ hs then hs else hs ++ [h]) []

/-- The loop of a header, without its depth. -/
def loopOf (g : Graph) (header : BlockId) : Loop :=
  let tails := (g.backEdges.filter fun e => e.2 = header).map Prod.fst
  let body := BlockId.ascending (tails.flatMap (g.loopBody header))
  { header := header
    body := body
    tails := tails
    exiting := body.filter fun b => (g.successors b).any (· ∉ body)
    depth := 0 }

/-- The loops of the graph, in order of discovery. -/
def loops (g : Graph) : List Loop :=
  let found := g.headers.map g.loopOf
  found.map fun l =>
    { l with depth := found.countP fun other => other.header ≠ l.header ∧ l.header ∈ other.body }

/-- The loops that contain a block, outermost first. -/
def loopsContaining (g : Graph) (b : BlockId) : List Loop :=
  (g.loops.filter fun l => b ∈ l.body).mergeSort fun l m => decide (l.depth ≤ m.depth)

def isLoopHeader (g : Graph) (b : BlockId) : Bool :=
  g.loops.any fun l => l.header = b

/-- Whether the search from the entry recorded an edge as closing a cycle. -/
def isBackEdge (g : Graph) (source target : BlockId) : Bool :=
  decide ((source, target) ∈ g.backEdges)

end Graph

end TaintAnalysis
