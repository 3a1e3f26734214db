import TaintAnalysis.Config
import TaintAnalysis.Memory.Arena

/-!
# What pointers refer to

For every variable of pointer type, and for every memory location that a pointer
was stored in, the locations that the pointer may refer to. From these facts an
expression has targets and a place has a resolution: the locations it may denote,
and what was read to find them.

Following a pointer about which nothing is known leads to unknown memory; what is
stored in the object of a pointer parameter, as long as nothing better is known,
refers to that object again.
-/

namespace TaintAnalysis

/-- What the pointers of a function may refer to. -/
structure PointsTo where
  /-- The function whose pointers are described. -/
  function : Function
  /-- From this constant index on, the elements of an array of unknown length
  are not told apart. -/
  maxTrackedIndex : Nat
  /-- The targets of pointer variables. -/
  vars : OrderedMap VarId IdSet
  /-- The targets of the pointers stored in memory. -/
  cells : OrderedMap LocId IdSet
  deriving DecidableEq

/-- Where an access path lands, and what was read to compute its address. -/
structure Resolution where
  /-- The locations the place may denote. -/
  targets : IdSet
  /-- The memory cells whose pointers were followed on the way. -/
  pointerCells : IdSet
  /-- Whether the value of the base variable was used as a pointer. -/
  derefsBase : Bool
  deriving DecidableEq

/-- How far an access path has been followed. -/
inductive PathEnd where
  /-- At a variable whose storage has not been named. -/
  | scalar (v : VarId)
  /-- At one of several locations. -/
  | locations (ids : IdSet)
  deriving DecidableEq

/-- A part of an access path that has been followed. -/
structure Followed where
  reached : PathEnd
  pointerCells : IdSet
  derefsBase : Bool
  deriving DecidableEq

namespace PointsTo

/-- Whether a variable is declared as a pointer. -/
def isPointerVar (m : PointsTo) (v : VarId) : Bool :=
  (m.function.ty? v).any Ty.isPointer

/-- Whether a variable is declared as an array. -/
def isArrayVar (m : PointsTo) (v : VarId) : Bool :=
  (m.function.ty? v).any Ty.isArray

/-- The targets known for a variable. -/
def targetsOf (m : PointsTo) (v : VarId) : IdSet :=
  (m.vars.get? v).getD .empty

/-- The storage of a variable. -/
def varLocation (m : PointsTo) (v : VarId) : Naming LocId :=
  Arena.root (.variable v) (m.function.ty? v)

/-- What the value of a variable may refer to: an array stands for its storage. -/
def varTargets (m : PointsTo) (v : VarId) : Naming IdSet := do
  if m.isArrayVar v then return .singleton (← m.varLocation v) else return m.targetsOf v

/-- The targets of the pointers stored in cells that overlap a location. -/
def overlapping (m : PointsTo) (a : Arena) (id : LocId) : IdSet :=
  .unions ((m.cells.entries.filter fun e => a.overlaps e.1 id).map Prod.snd)

/-- What the pointer stored in a location may refer to. Where nothing is known,
`orUnknown` says whether that counts as referring to unknown memory. -/
def storedTargets (m : PointsTo) (orUnknown : Bool) (id : LocId) : Naming IdSet := do
  let a ← get
  let l := a.location id
  if l.isUnknown then return .singleton Arena.unknown
  let known := m.overlapping a id
  if !known.isEmpty then return known
  match l.param? with
  | some i => return .singleton (← Arena.root (.paramTarget i) none)
  | none => return if orUnknown then .singleton Arena.unknown else .empty

/-- Where following a variable as a pointer leads. -/
def derefVar (m : PointsTo) (v : VarId) : Naming IdSet := do
  let targets ← m.varTargets v
  return if targets.isEmpty then .singleton Arena.unknown else targets

/-- Indexing one location: a pointer stored there is followed, an array is entered. -/
def indexed (m : PointsTo) (index : Option Int) (id : LocId) : Naming IdSet := do
  if ((← get).ty? id).any Ty.isPointer then
    Arena.collect (← m.storedTargets true id) fun t => Arena.offset m.maxTrackedIndex t index
  else return .singleton (← Arena.element m.maxTrackedIndex id index)

/-- The locations among `ids` that hold pointers. -/
def holdingPointers (a : Arena) (ids : IdSet) : IdSet :=
  .ofList (ids.elems.filter fun id => (a.ty? id).any Ty.isPointer)

def constantIndex (e : Expr) : Option Int :=
  e.const?.map Int64.toInt

/-- Follows an access path from its base. -/
def follow (m : PointsTo) : Place → Naming Followed
  | .var v => return ⟨.scalar v, .empty, false⟩
  | .deref p => do
      let s ← m.follow p
      match s.reached with
      | .scalar v => return { s with reached := .locations (← m.derefVar v), derefsBase := true }
      | .locations ids =>
          let targets ← Arena.collectAll ids (m.storedTargets true)
          return { s with reached := .locations targets, pointerCells := s.pointerCells ∪ ids }
  | .index p e => do
      let s ← m.follow p
      let index := constantIndex e
      match s.reached with
      | .scalar v =>
          if m.isPointerVar v then
            let targets ← Arena.collect (← m.derefVar v) fun t =>
              Arena.offset m.maxTrackedIndex t index
            return { s with reached := .locations targets, derefsBase := true }
          else
            let id ← Arena.element m.maxTrackedIndex (← m.varLocation v) index
            return { s with reached := .locations (.singleton id) }
      | .locations ids =>
          let pointers := holdingPointers (← get) ids
          let targets ← Arena.collectAll ids (m.indexed index)
          return { s with
            reached := .locations targets
            pointerCells := s.pointerCells ∪ pointers }
  | .field p name => do
      let s ← m.follow p
      match s.reached with
      | .scalar v =>
          let id ← Arena.child (← m.varLocation v) (.field name) none
          return { s with reached := .locations (.singleton id) }
      | .locations ids =>
          let targets ← Arena.collect ids fun id => Arena.child id (.field name) none
          return { s with reached := .locations targets }

/-- The locations a place may denote, and what is read to find them. -/
def resolve (m : PointsTo) (p : Place) : Naming Resolution := do
  let s ← m.follow p
  match s.reached with
  | .scalar v => return ⟨.singleton (← m.varLocation v), s.pointerCells, s.derefsBase⟩
  | .locations ids => return ⟨ids, s.pointerCells, s.derefsBase⟩

/-- The locations the value of an expression may refer to. None are known for an
expression that carries no address. -/
def exprTargets (m : PointsTo) : Expr → Naming IdSet
  | .var v => m.varTargets v
  | .addrOf p => do return (← m.resolve p).targets
  | .binary op l r => do
      if op.movesPointer then
        let left ← m.exprTargets l
        let right ← m.exprTargets r
        Arena.collect (left ∪ right) (Arena.shifted m.maxTrackedIndex)
      else return .empty
  | .unary .. | .const _ => return .empty

/-- Whether the storage of a variable is named, so that it may be reached
through memory. -/
def isMemoryResident (a : Arena) (v : VarId) : Bool :=
  (a.find? ⟨.variable v, []⟩).isSome

/-- Whether a variable is a scalar whose storage may be reached through memory.
The value of a variable that is not declared, or is an aggregate, is not kept there. -/
def livesInMemory (m : PointsTo) (a : Arena) (v : VarId) : Bool :=
  isMemoryResident a v && (m.function.ty? v).any fun ty => !ty.isAggregate

end PointsTo

end TaintAnalysis
