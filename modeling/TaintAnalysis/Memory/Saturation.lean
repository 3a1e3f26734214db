import TaintAnalysis.Memory.PointsTo

/-!
# Computing what pointers refer to

The facts about pointers are propagated through all instructions, regardless of
their order, until a round adds nothing. The locations that places mention are
named beforehand, in the order of the text, so that it is known which variables
are reached through memory.

The loop ends because there are finitely many facts: a fact is a pair of a
variable or location and a location, and the locations are bounded by the names
that occur in the function, the length of paths, and the indices of 64 bits.
`factBits` is a number of bits that is enough to count the facts.
-/

namespace TaintAnalysis

namespace PointsTo

/-- How many facts are known. -/
def size (m : PointsTo) : Nat :=
  m.vars.weight IdSet.size + m.cells.weight IdSet.size

/-- Adds targets of a variable. -/
def addVarTargets (m : PointsTo) (v : VarId) (targets : IdSet) : PointsTo :=
  if targets.isEmpty then m
  else { m with vars := m.vars.insert v (m.targetsOf v ∪ targets) }

/-- Adds targets of the pointers stored in a location. -/
def addCellTargets (m : PointsTo) (targets : IdSet) (id : LocId) : PointsTo :=
  { m with cells := m.cells.insert id ((m.cells.get? id).getD .empty ∪ targets) }

/-- What an instruction adds to the facts. -/
def propagate (m : PointsTo) : Instruction → Naming PointsTo
  | .assign dst e | .cast dst e _ => do
      if m.isPointerVar dst then return m.addVarTargets dst (← m.exprTargets e) else return m
  | .load dst place => do
      if m.isPointerVar dst then
        let r ← m.resolve place
        return m.addVarTargets dst (← Arena.collectAll r.targets (m.storedTargets false))
      else return m
  | .store place src => do
      let stored ← m.exprTargets src
      if stored.isEmpty then return m
      else
        let r ← m.resolve place
        return r.targets.elems.foldl (fun m id => m.addCellTargets stored id) m
  | .call (some dst) _ _ =>
      return if m.isPointerVar dst then m.addVarTargets dst (.singleton Arena.unknown) else m
  | .call none _ _ => return m
  | .opaqueCode touched _ =>
      return (touched.filter m.isPointerVar).foldl
        (fun m v => m.addVarTargets v (.singleton Arena.unknown)) m

/-- Names the storage of the places whose address an expression takes. -/
def registerExpr (m : PointsTo) : Expr → Naming Unit
  | .addrOf p => discard (m.resolve p)
  | .unary _ e => m.registerExpr e
  | .binary _ l r => do
      m.registerExpr l
      m.registerExpr r
  | .var _ | .const _ => return ()

/-- Names the storage of the places an instruction mentions. -/
def registerInstruction (m : PointsTo) (i : Instruction) : Naming Unit := do
  if let some place := i.place? then discard (m.resolve place)
  i.operands.forM m.registerExpr

/-- Names the storage of the places a block mentions. -/
def registerBlock (m : PointsTo) (block : Block) : Naming Unit := do
  block.instructions.forM m.registerInstruction
  block.terminator.operand?.forM m.registerExpr

/-- What is known before any instruction is looked at: each pointer or array
parameter refers to an object of its own. -/
def initial (f : Function) (config : Config) : Naming PointsTo := do
  let m : PointsTo :=
    { function := f, maxTrackedIndex := config.maxTrackedIndex, vars := .empty, cells := .empty }
  f.params.zipIdx.foldlM
    (fun m (v, i) => do
      match (f.ty? v).bind Ty.pointee? with
      | some pointee =>
          return m.addVarTargets v (.singleton (← Arena.root (.paramTarget i) (some pointee)))
      | none => return m)
    m

/-- Propagates through every instruction once. -/
def round (m : PointsTo) : Naming PointsTo :=
  m.function.instructions.foldlM propagate m

/-- A number of bits that is enough to count the facts about the function. -/
def factBits (f : Function) (config : Config) : Nat :=
  let names := f.vars.length + f.occurrences.length
  let steps := (65 + f.fieldNames.length) * config.maxPathDepth
  2 * (names + steps) + 2

/-- Propagates until a round adds no fact. -/
def saturate (bits : Nat) (s : PointsTo × Arena) : PointsTo × Arena :=
  let next := s.1.round.run s.2
  if s.1.size < next.1.size ∧ next.1.size.log2 < bits then saturate bits next else next
termination_by 1 <<< bits - s.1.size
decreasing_by
  rename_i h
  have hgrow : s.1.size < (s.1.round.run s.2).1.size := h.1
  have hfits : (s.1.round.run s.2).1.size < 1 <<< bits := by
    rw [Nat.one_shiftLeft]
    exact (Nat.log2_lt (by omega)).1 h.2
  omega

/-- What the pointers of a function may refer to, with the locations named on the way. -/
def analyze (f : Function) (config : Config) : PointsTo × Arena :=
  let setup : Naming PointsTo := do
    let m ← initial f config
    f.blocks.values.forM m.registerBlock
    return m
  saturate (factBits f config) (setup.run (Arena.new config.maxPathDepth))

end PointsTo

end TaintAnalysis
