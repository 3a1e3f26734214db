import TaintAnalysis.Flow.Search
import TaintAnalysis.Program.Function

/-!
# Control-flow graphs

The blocks of a function with the blocks execution may go on in. A block may
name a successor that the function does not have; such a successor takes part in
searches as a block without successors.
-/

namespace TaintAnalysis

/-- The control flow of a function. -/
structure Graph where
  entry : BlockId
  /-- The successors of each block, by block in the order of the function. -/
  edges : OrderedMap BlockId (List BlockId)
  /-- The blocks that end in a return, in order. -/
  exits : List BlockId
  deriving DecidableEq

namespace BlockId

/-- Puts a block number into its place in an ascending list. -/
def place (b : BlockId) : List BlockId → List BlockId
  | [] => [b]
  | c :: rest => if b < c then b :: c :: rest else if b = c then c :: rest else c :: place b rest

/-- The members of a list in ascending order, each once. -/
def ascending (l : List BlockId) : List BlockId :=
  l.foldr place []

theorem mem_place {b c : BlockId} {l : List BlockId} : c ∈ place b l ↔ c = b ∨ c ∈ l := by
  induction l with
  | nil => simp [place]
  | cons d rest ih =>
      unfold place
      split
      · simp
      · split
        · next h => simp [h]
        · simp only [List.mem_cons, ih]
          exact or_left_comm

@[simp] theorem mem_ascending {b : BlockId} {l : List BlockId} : b ∈ ascending l ↔ b ∈ l := by
  induction l with
  | nil => simp [ascending]
  | cons c rest ih =>
      rw [ascending, List.foldr_cons, mem_place, List.mem_cons]
      exact or_congr_right ih

theorem pairwise_place {b : BlockId} {l : List BlockId} (h : l.Pairwise (· < ·)) :
    (place b l).Pairwise (· < ·) := by
  induction l with
  | nil => exact List.pairwise_singleton _ b
  | cons c rest ih =>
      obtain ⟨hc, hrest⟩ := List.pairwise_cons.mp h
      unfold place
      split
      · next hlt =>
        refine List.pairwise_cons.mpr ⟨?_, h⟩
        intro d hd
        rcases List.mem_cons.mp hd with rfl | hd
        · exact hlt
        · exact UInt32.lt_trans hlt (hc d hd)
      · split
        · exact h
        · next hlt hne =>
          have hcb : c < b := UInt32.lt_of_le_of_ne (UInt32.not_lt.mp hlt) fun h => hne h.symm
          refine List.pairwise_cons.mpr ⟨?_, ih hrest⟩
          intro d hd
          rcases mem_place.mp hd with rfl | hd
          · exact hcb
          · exact hc d hd

theorem pairwise_ascending (l : List BlockId) : (ascending l).Pairwise (· < ·) := by
  induction l with
  | nil => exact List.Pairwise.nil
  | cons b rest ih => exact pairwise_place ih

end BlockId

namespace Graph

def ofFunction (f : Function) : Graph where
  entry := f.entry
  edges := f.blocks.mapValues fun _ block => block.successors
  exits := (f.blocks.entries.filter fun e => e.2.terminator.isReturn).map Prod.fst

/-- The blocks of the function, in order. -/
def blocks (g : Graph) : List BlockId :=
  g.edges.keys

/-- The blocks execution may go on in after a block. -/
def successors (g : Graph) (b : BlockId) : List BlockId :=
  (g.edges.get? b).getD []

/-- The blocks after which execution may go on in a block, in order. -/
def predecessors (g : Graph) (b : BlockId) : List BlockId :=
  (g.edges.entries.filter fun e => b ∈ e.2).map Prod.fst

/-- An upper bound on how many blocks a search can meet: the entry, the blocks
of the function, and the successors they name. -/
def nodeBound (g : Graph) : Nat :=
  1 + g.edges.size + g.edges.weight List.length

/-- The depth-first search from the entry along successors. -/
def searchFromEntry (g : Graph) : Search BlockId :=
  Search.run g.successors g.nodeBound [g.entry]

/-- The blocks that the entry reaches, in reverse postorder. -/
def reversePostorder (g : Graph) : List BlockId :=
  g.searchFromEntry.finished

/-- The edges to a block on the path by which the search came, in order of discovery. -/
def backEdges (g : Graph) : List (BlockId × BlockId) :=
  g.searchFromEntry.backEdges

/-- The blocks that a block reaches by any number of steps. -/
def reachableFrom (g : Graph) (b : BlockId) : List BlockId :=
  (Search.run g.successors g.nodeBound [b]).finished

/-- Whether some number of steps leads from one block to another. -/
def hasPath (g : Graph) (a b : BlockId) : Bool :=
  decide (b ∈ g.reachableFrom a)

def reachingExit (g : Graph) : List BlockId :=
  (Search.run g.predecessors g.nodeBound g.exits).finished

end Graph

/-- The blocks that the entry block of a function reaches. -/
def Function.reachableBlocks (f : Function) : List BlockId :=
  (Graph.ofFunction f).reversePostorder

end TaintAnalysis
