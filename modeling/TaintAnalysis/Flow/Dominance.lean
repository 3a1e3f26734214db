import TaintAnalysis.Flow.Graph

/-!
# Dominance

A block dominates another if every way to the other passes through it: the ways
from the entry for dominance proper, the ways to the end of the function for
post-dominance. Both are the greatest solution of one system of equations. A
root is dominated by itself alone; any other block is dominated by itself and by
what dominates all the blocks from which it is reached.

The solution is found from above: all blocks start out as dominators of every
block that is not a root, and what the equations rule out is removed until
nothing changes.
-/

namespace TaintAnalysis

/-- The dominators of each block. -/
structure Dominance where
  /-- The dominators by block. -/
  sets : OrderedMap BlockId (List BlockId)
  deriving DecidableEq

namespace Dominance

/-- The system of equations that dominance solves. -/
structure Equations where
  /-- The blocks that have dominators, each once. -/
  blocks : List BlockId
  /-- The blocks that are dominated by themselves alone. -/
  roots : List BlockId
  /-- The blocks from which a block is reached. -/
  sources : BlockId → List BlockId

namespace Equations

/-- The candidates for the dominators of each block. -/
abbrev Candidates := OrderedMap BlockId (List BlockId)

/-- The map that gives every block of the system a value. -/
def tabulate (e : Equations) (f : BlockId → List BlockId) : Candidates :=
  .ofList (e.blocks.map fun b => (b, f b))

/-- Every block dominates every block that is not a root. -/
def start (e : Equations) : Candidates :=
  e.tabulate fun b => if b ∈ e.roots then [b] else e.blocks

/-- What dominates all the blocks from which a block is reached, among those
that have dominators. A block that is reached from none has none. -/
def common (e : Equations) (c : Candidates) (b : BlockId) : List BlockId :=
  match (e.sources b).filterMap c.get? with
  | [] => []
  | first :: rest => first.filter fun d => rest.all fun set => d ∈ set

/-- One application of the equations. -/
def step (e : Equations) (c : Candidates) : Candidates :=
  e.tabulate fun b =>
    if b ∈ e.roots then [b]
    else
      let shared := e.common c b
      e.blocks.filter fun d => d = b ∨ d ∈ shared

/-- How many candidates there are over all blocks. -/
def total (c : Candidates) : Nat :=
  c.weight List.length

/-- Applies the equations as long as they remove candidates. -/
def settle (e : Equations) (c : Candidates) : Candidates :=
  let next := e.step c
  if total next < total c then settle e next else next
termination_by total c

/-- The greatest solution. -/
def solve (e : Equations) : Dominance :=
  ⟨e.settle e.start⟩

end Equations

/-- Dominance from the entry. -/
def ofGraph (g : Graph) : Dominance :=
  Equations.solve
    { blocks := g.reversePostorder
      roots := [g.entry]
      sources := g.predecessors }

/-- The blocks at which every way to the end is over: those that end in a return
and those from which no return is reached. -/
def finalBlocks (g : Graph) : List BlockId :=
  let reaching := g.reachingExit
  g.blocks.filter fun b => b ∈ g.exits ∨ b ∉ reaching

/-- Dominance of the ways to the end of the function. -/
def postOfGraph (g : Graph) : Dominance :=
  Equations.solve
    { blocks := g.reversePostorder.reverse
      roots := finalBlocks g
      sources := g.successors }

def dominators? (d : Dominance) (b : BlockId) : Option (List BlockId) :=
  d.sets.get? b

def dominates (d : Dominance) (a b : BlockId) : Bool :=
  (d.dominators? b).any fun set => a ∈ set

def height (d : Dominance) (b : BlockId) : Nat :=
  ((d.dominators? b).map List.length).getD 0

/-- Whether `a` has fewer dominators than `b`, or as many and a smaller number. -/
def below (d : Dominance) (a b : BlockId) : Bool :=
  d.height a < d.height b || (d.height a = d.height b && a < b)

/-- The closest dominator of a block apart from itself: the one that has most
dominators of its own. -/
def parent? (d : Dominance) (b : BlockId) : Option BlockId :=
  (((d.dominators? b).getD []).filter (· ≠ b)).foldl
    (fun best x => match best with
      | some y => if d.below y x then some x else some y
      | none => some x)
    none

/-- The blocks whose closest dominator is `b`, in ascending order. -/
def children (d : Dominance) (b : BlockId) : List BlockId :=
  BlockId.ascending (d.sets.keys.filter fun c => d.parent? c = some b)

/-- The blocks in the subtree of closest dominators below `b`. -/
def subtree (d : Dominance) (b : BlockId) : List BlockId :=
  (Search.run d.children (d.sets.size + 1) [b]).finished

/-- The blocks just past what `b` dominates: the successors of the blocks below
`b` that `b` does not dominate, or that are `b` itself. -/
def frontier (d : Dominance) (g : Graph) (b : BlockId) : List BlockId :=
  BlockId.ascending <|
    (d.subtree b).flatMap fun c => (g.successors c).filter fun s => !d.dominates b s || s = b

end Dominance

end TaintAnalysis
