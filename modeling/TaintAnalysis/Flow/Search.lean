/-!
# Depth-first search

One search of a directed graph that is given by the successors of each node. A
node is seen when the search enters it and finished when all its successors have
been dealt with; while it is seen and not finished, it lies on the path from the
start to where the search is. An edge back to such a node closes a cycle and is
recorded.

Nodes are finished in postorder, and each is put in front of those finished
before, so the finished nodes stand in reverse postorder. The search goes at
most as deep as there are nodes, which its users pass as the budget.
-/

namespace TaintAnalysis

/-- How far a depth-first search has come. -/
structure Search (α : Type) where
  /-- The nodes entered so far. -/
  seen : List α
  /-- The nodes left so far, the last one first. -/
  finished : List α
  /-- The edges to a node that was on the path, in order of discovery. -/
  backEdges : List (α × α)
  deriving DecidableEq

namespace Search

variable {α : Type}

/-- A search that has not begun. -/
def begin : Search α := ⟨[], [], []⟩

variable [DecidableEq α]

/-- Searches from a node that has not been seen. -/
def visit (successors : α → List α) : Nat → α → Search α → Search α
  | 0, _, s => s
  | budget + 1, node, s =>
      let s := (successors node).foldl
        (fun s next =>
          if next ∉ s.seen then visit successors budget next s
          else if next ∉ s.finished then { s with backEdges := s.backEdges ++ [(node, next)] }
          else s)
        { s with seen := node :: s.seen }
      { s with finished := node :: s.finished }

/-- Searches from a node unless it has been seen. -/
def visitUnseen (successors : α → List α) (budget : Nat) (s : Search α) (node : α) : Search α :=
  if node ∈ s.seen then s else visit successors budget node s

/-- Searches from each of the nodes in turn. -/
def run (successors : α → List α) (budget : Nat) (starts : List α) : Search α :=
  starts.foldl (visitUnseen successors budget) begin

end Search

end TaintAnalysis
