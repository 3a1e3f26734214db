import TaintAnalysis.Program.Basic

/-!
# Building functions block by block

A function under construction hands out the numbers of its blocks before they
are filled, so that jumps can go forwards. A block is filled through a cursor,
which collects instructions and writes them into the block together with the
terminator that seals it. A block is sealed at most once, whichever cursor tries
it; what a cursor collected without sealing is lost.
-/

namespace TaintAnalysis

/-- Why a building step is refused. -/
inductive BuildError where
  /-- The block has a terminator already. -/
  | sealedBlock (block : BlockId)
  /-- The function has no such block. -/
  | missingBlock (block : BlockId) (function : String)
  /-- The program has a function of this name already. -/
  | duplicateFunction (name : String)
  deriving DecidableEq

namespace BuildError

def message : BuildError → String
  | sealedBlock block => "Builder error: Block " ++ BlockId.text block ++ " already sealed"
  | missingBlock block function =>
      "Builder error: Block " ++ BlockId.text block ++ " does not exist in function " ++ function
  | duplicateFunction name => "Function " ++ name ++ " is defined more than once"

end BuildError

/-- The place of work in a function under construction. -/
structure Cursor where
  /-- The block that is being filled. -/
  block : BlockId
  /-- The instructions collected so far. -/
  pending : List Instruction
  /-- Whether this cursor has sealed its block. -/
  isSealed : Bool
  deriving DecidableEq

namespace Cursor

/-- A cursor at a block that has collected nothing. -/
def atBlock (block : BlockId) : Cursor := ⟨block, [], false⟩

/-- Collects an instruction. -/
def push (c : Cursor) (i : Instruction) : Cursor :=
  { c with pending := c.pending ++ [i] }

/-- Collects the computation of an expression into a fresh temporary. -/
def compute (c : Cursor) (f : Function) (e : Expr) (ty : Ty) : VarId × Function × Cursor :=
  let (v, f) := f.addTemp ty
  (v, f, c.push (.assign v e))

/-- Writes what was collected into the block and ends the block. -/
def finish (c : Cursor) (f : Function) (t : Terminator) : Except BuildError (Function × Cursor) :=
  if c.isSealed then .error (.sealedBlock c.block)
  else
    match f.block? c.block with
    | none => .error (.missingBlock c.block f.name)
    | some block =>
        if block.isTerminated then .error (.sealedBlock c.block)
        else
          .ok
            (f.modifyBlock c.block fun b => ⟨b.instructions ++ c.pending, t⟩,
              { c with pending := [], isSealed := true })

end Cursor

namespace Function

/-- A cursor at a block of the function. -/
def cursor (f : Function) (block : BlockId) : Except BuildError Cursor :=
  if f.blocks.contains block then .ok (.atBlock block) else .error (.missingBlock block f.name)

end Function

/-- A function under construction, together with the numbers of the blocks made for it. -/
structure FunctionBuilder where
  function : Function
  /-- The blocks one may switch to. -/
  created : List BlockId
  deriving DecidableEq

namespace FunctionBuilder

/-- Begins a function, with its entry block. -/
def new (name : String) : FunctionBuilder :=
  ⟨Function.new name, [(Function.new name).entry]⟩

/-- Makes an unfinished block and returns its number. -/
def createBlock (b : FunctionBuilder) : BlockId × FunctionBuilder :=
  let (id, f) := b.function.createBlock
  (id, ⟨f, b.created.insert id⟩)

/-- A cursor at the entry block. -/
def entryBlock (b : FunctionBuilder) : Cursor :=
  .atBlock b.function.entry

/-- A cursor at a new block. -/
def block (b : FunctionBuilder) : Cursor × FunctionBuilder :=
  let (id, b) := b.createBlock
  (.atBlock id, b)

/-- A cursor at a block that was made before. -/
def switchTo (b : FunctionBuilder) (id : BlockId) : Except BuildError Cursor :=
  if id ∈ b.created then .ok (.atBlock id) else .error (.missingBlock id b.function.name)

end FunctionBuilder

namespace Program

/-- Adds a finished function to a program that has none of its name. -/
def build (p : Program) (f : Function) : Except BuildError Program :=
  if p.contains f.name then .error (.duplicateFunction f.name) else .ok (p.add f)

end Program

end TaintAnalysis
