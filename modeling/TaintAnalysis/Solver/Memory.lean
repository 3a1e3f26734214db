import TaintAnalysis.Solver.Problem

/-!
# Taint in memory

Memory cells are shared by the whole function, and their taint only ever grows.
Reading a set of locations joins the taint of every cell that overlaps one of
them. Writing to the object of a pointer parameter is also recorded as an effect
on the caller; so is writing to unknown memory, which may lie behind any
parameter that is a pointer.
-/

namespace TaintAnalysis

/-- The taint in memory, with the locations named so far. -/
structure Memory where
  arena : Arena
  /-- The taint of each cell; a cell that is not listed has none. -/
  cells : OrderedMap LocId Value
  /-- The taint written through each parameter. -/
  paramWrites : OrderedMap Nat Value
  deriving DecidableEq

/-- A computation that may name locations and write to memory. -/
abbrev Effect := StateM Memory

/-- Joins a value into the entry of a key. The map stays as it is where nothing grows. -/
def OrderedMap.joinAt {κ : Type} [DecidableEq κ] (m : OrderedMap κ Value) (k : κ) (v : Value) :
    OrderedMap κ Value :=
  let old := (m.get? k).getD Value.bottom
  if old.grows v then m.insert k (old.join v) else m

namespace Memory

/-- The taint of a cell. -/
def cell (m : Memory) (id : LocId) : Value :=
  (m.cells.get? id).getD Value.bottom

/-- The joined taint of the cells that overlap one of the locations. -/
def read (m : Memory) (ids : IdSet) : Value :=
  Value.joins <|
    (m.cells.entries.filter fun e => ids.elems.any (m.arena.overlaps e.1)).map Prod.snd

/-- The parameters through which a write to a location is visible to the caller. -/
def writtenParams (p : Problem) (l : Location) : List Nat :=
  match l.param? with
  | some i => [i]
  | none =>
      if l.isUnknown then
        (p.function.params.zipIdx.filter fun e => !(p.pointsTo.targetsOf e.1).isEmpty).map Prod.snd
      else []

/-- Joins a value into a cell. A value without taint is not written. -/
def write (p : Problem) (m : Memory) (id : LocId) (v : Value) : Memory :=
  if v.isBottom then m
  else
    { m with
      cells := m.cells.joinAt id v
      paramWrites := (writtenParams p (m.arena.location id)).foldl
        (fun writes i => writes.joinAt i v) m.paramWrites }

end Memory

namespace Effect

/-- A computation that only names locations. -/
def naming {α : Type} (n : Naming α) : Effect α := fun m =>
  let (x, arena) := n.run m.arena
  (x, { m with arena := arena })

/-- Reads a set of locations. -/
def read (ids : IdSet) : Effect Value := do
  return (← get).read ids

/-- Writes a value to each of a set of locations. -/
def writeAll (p : Problem) (ids : IdSet) (v : Value) : Effect Unit :=
  modify fun m => ids.elems.foldl (fun m id => m.write p id v) m

end Effect

end TaintAnalysis
