import TaintAnalysis.Flow.Dominance

/-!
# Control dependence

A block depends on a branch if the branch decides whether the block runs: some
successor of the branch is followed by the block on every way to the end, and
the branch itself is not. The header of a loop that also tests for its end
depends on itself.
-/

namespace TaintAnalysis

/-- Which branches decide about which blocks. -/
structure ControlDependence where
  /-- For each block that depends on a branch, the branches, in ascending order. -/
  branches : OrderedMap BlockId (List BlockId)
  deriving DecidableEq

namespace ControlDependence

/-- The blocks that a branch decides about, as seen from one of its successors. -/
def decidedThrough (post : Dominance) (branch successor : BlockId) : List BlockId :=
  ((post.dominators? successor).getD []).filter fun b => b = branch || !post.dominates b branch

/-- The blocks that a branch decides about. A block with one successor decides nothing. -/
def decidedBy (g : Graph) (post : Dominance) (branch : BlockId) : List BlockId :=
  let next := g.successors branch
  if next.length < 2 then [] else next.flatMap (decidedThrough post branch)

def ofGraph (g : Graph) (post : Dominance) : ControlDependence :=
  let decided := g.blocks.map fun x => (x, decidedBy g post x)
  let blocks := BlockId.ascending (decided.flatMap Prod.snd)
  ⟨.ofList (blocks.map fun b =>
    (b, BlockId.ascending ((decided.filter fun e => b ∈ e.2).map Prod.fst)))⟩

/-- The branches a block depends on, in ascending order. -/
def dependences (c : ControlDependence) (b : BlockId) : List BlockId :=
  (c.branches.get? b).getD []

def isDependent (c : ControlDependence) (b branch : BlockId) : Bool :=
  decide (branch ∈ c.dependences b)

/-- The blocks that depend on a branch, in ascending order. -/
def controlledBy (c : ControlDependence) (branch : BlockId) : List BlockId :=
  (c.branches.entries.filter fun e => branch ∈ e.2).map Prod.fst

end ControlDependence

end TaintAnalysis
