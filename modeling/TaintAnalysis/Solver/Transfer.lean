import TaintAnalysis.Solver.Memory

/-!
# What instructions do to taint

A variable is assigned at a program point, so its new taint replaces the old one;
memory only accumulates. What is assigned carries, besides the taint of the
operands, the taint of the branches that decide whether the block runs, and full
taint from what decides how often it runs. Using a value as an address, or as a
position in an array, is an indirect dependence on it.

A call is replaced by the summary of the callee. A call to code that is not known
taints fully everything it can reach directly.
-/

namespace TaintAnalysis

/-- What the block of an instruction adds to whatever the instruction computes. -/
structure Surroundings where
  /-- The taint of the branches that decide whether the block runs. -/
  control : Value
  /-- Full taint from what decides how often the enclosing loops run. -/
  widening : Value
  /-- Full taint from what decides how deep the recursion goes. -/
  depth : Value
  deriving DecidableEq

namespace Problem

/-- The taint of a variable; that of its storage is part of it where it lives in memory. -/
def evalVar (p : Problem) (s : State) (v : VarId) : Effect Value := do
  if p.pointsTo.livesInMemory (← get).arena v then
    let id ← Effect.naming (p.pointsTo.varLocation v)
    return (s.get v).join (← Effect.read (.singleton id))
  else return s.get v

/-- The taint of everything read to compute the address of a place that starts
at `base` and resolves to `r`; `positions` computes the taint of its index
positions. -/
def addressTaint (p : Problem) (s : State) (base : VarId) (r : Resolution)
    (positions : Effect Value) : Effect Value := do
  let value ← if r.derefsBase then p.evalVar s base else pure Value.bottom
  let pointers ← Effect.read r.pointerCells
  return (value.join pointers).join (← positions)

mutual

/-- The taint of an expression. -/
def eval (p : Problem) (s : State) : Expr → Effect Value
  | .var v => p.evalVar s v
  | .const _ => return Value.bottom
  | .unary _ e => p.eval s e
  | .binary _ l r => do
      let left ← p.eval s l
      return left.join (← p.eval s r)
  | .addrOf place => do
      let r ← Effect.naming (p.pointsTo.resolve place)
      return (← p.addressTaint s place.base r (p.evalPositions s place)).toIndirect

/-- The joined taint of the index positions of a place. -/
def evalPositions (p : Problem) (s : State) : Place → Effect Value
  | .var _ => return Value.bottom
  | .deref inner | .field inner _ => p.evalPositions s inner
  | .index inner e => do
      let positions ← p.evalPositions s inner
      return positions.join (← p.eval s e)

end

/-- Gives a variable a new value. A variable that lives in memory is also written there. -/
def define (p : Problem) (s : State) (v : VarId) (value : Value) : Effect State := do
  if p.pointsTo.livesInMemory (← get).arena v then
    let id ← Effect.naming (p.pointsTo.varLocation v)
    Effect.writeAll p (.singleton id) value
  return s.set v value

/-- The taint of an argument, with that of the memory it refers to. -/
def evalArgument (p : Problem) (s : State) (arg : Expr) : Effect Value := do
  let targets ← Effect.naming (p.pointsTo.exprTargets arg)
  let value ← p.eval s arg
  return value.join (← Effect.read targets)

/-- Writes a value to the memory an argument refers to. -/
def writeThrough (p : Problem) (value : Value) (arg : Expr) : Effect Unit := do
  let targets ← Effect.naming (p.pointsTo.exprTargets arg)
  Effect.writeAll p targets value

/-- The summary of what is called, where there is one. -/
def summaryOf? (p : Problem) (callee : Callee) : Option Summary :=
  callee.name?.bind p.summaries.ready?

/-- A call to a function that is known by its summary. -/
def callKnown (p : Problem) (around : Surroundings) (s : State) (dst : Option VarId)
    (callee : Callee) (args : List Expr) (actuals : List Value) (summary : Summary) :
    Effect State := do
  let s ← match dst with
    | some v =>
        let value := ((summary.returned.substitute actuals).join around.control).join around.widening
        let inComponent := callee.name?.any fun name => name ∈ p.peers
        p.define s v (if inComponent then value.join around.depth else value)
    | none => pure s
  for (i, written) in summary.outs do
    if let some arg := args[i]? then
      p.writeThrough ((written.substitute actuals).join around.control) arg
  return s

/-- A call to code that is not known. -/
def callUnknown (p : Problem) (s : State) (dst : Option VarId) (args : List Expr) :
    Effect State := do
  let s ← match dst with
    | some v => p.define s v p.allSources
    | none => pure s
  args.forM (p.writeThrough p.allSources)
  return s

/-- What an instruction does to the taint of the variables, and to memory. -/
def transfer (p : Problem) (around : Surroundings) (s : State) : Instruction → Effect State
  | .assign dst e | .cast dst e _ => do
      let value ← p.eval s e
      p.define s dst ((value.join around.control).join around.widening)
  | .load dst place => do
      let r ← Effect.naming (p.pointsTo.resolve place)
      let address ← p.addressTaint s place.base r (p.evalPositions s place)
      let value ← Effect.read r.targets
      p.define s dst
        (((value.join address.toIndirect).join around.control).join around.widening)
  | .store place src => do
      let r ← Effect.naming (p.pointsTo.resolve place)
      let address ← p.addressTaint s place.base r (p.evalPositions s place)
      let value ← p.eval s src
      Effect.writeAll p r.targets ((value.join address.toIndirect).join around.control)
      return s
  | .call dst callee args => do
      let actuals ← args.mapM (p.evalArgument s)
      match p.summaryOf? callee with
      | some summary => p.callKnown around s dst callee args actuals summary
      | none => p.callUnknown s dst args
  | .opaqueCode touched _ =>
      touched.foldlM
        (fun s v => do
          let s ← p.define s v p.allSources
          p.writeThrough p.allSources (.var v)
          return s)
        s

/-- What the instructions of a block do, one after the other. -/
def transferAll (p : Problem) (around : Surroundings) (s : State) (is : List Instruction) :
    Effect State :=
  is.foldlM (p.transfer around) s

end Problem

end TaintAnalysis
