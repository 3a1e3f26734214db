import TaintAnalysis.Program.Instruction

/-!
# Basic blocks

A basic block is a list of instructions and a terminator that says where
execution goes on. A block under construction has no terminator yet, which is
kept as a terminator of its own.
-/

namespace TaintAnalysis

/-- A basic block of a function. Block numbers are words of 32 bits. -/
abbrev BlockId := UInt32

/-- How a basic block ends. -/
inductive Terminator where
  /-- Execution goes on in the target. -/
  | jump (target : BlockId)
  /-- Execution goes on in one of two blocks. -/
  | branch (condition : Expr) (thenBlock elseBlock : BlockId)
  /-- The function returns, possibly with a value. -/
  | ret (value : Option Expr)
  /-- The block is not finished. -/
  | missing
  deriving DecidableEq

/-- Instructions that run one after the other, and how they end. -/
structure Block where
  /-- The instructions, in order. -/
  instructions : List Instruction
  /-- How the block ends. -/
  terminator : Terminator
  deriving DecidableEq

def BlockId.text (b : BlockId) : String :=
  "bb" ++ toString b.toNat

namespace Terminator

/-- The blocks execution may go on in. A branch whose targets agree has one. -/
def successors : Terminator → List BlockId
  | jump target => [target]
  | branch _ thenBlock elseBlock =>
      if thenBlock = elseBlock then [thenBlock] else [thenBlock, elseBlock]
  | ret _ | missing => []

def isReturn : Terminator → Bool
  | ret _ => true
  | _ => false

def condition? : Terminator → Option Expr
  | branch condition _ _ => some condition
  | _ => none

def operand? : Terminator → Option Expr
  | branch condition _ _ => some condition
  | ret value => value
  | jump _ | missing => none

/-- Every variable the terminator mentions, with repetitions and in order. -/
def mentions (t : Terminator) : List VarId :=
  (t.operand?.map Expr.mentions).getD []

/-- Every variable that occurs in the terminator, at any depth. -/
def occurrences (t : Terminator) : List VarId :=
  (t.operand?.map Expr.occurrences).getD []

/-- The field names that occur in the terminator, at any depth. -/
def fieldNames (t : Terminator) : List String :=
  (t.operand?.map Expr.fieldNames).getD []

def text : Terminator → String
  | jump target => "jump " ++ BlockId.text target
  | branch condition thenBlock elseBlock =>
      "br " ++ condition.text ++ ", " ++ BlockId.text thenBlock ++ ", " ++ BlockId.text elseBlock
  | ret (some value) => "ret " ++ value.text
  | ret none => "ret"
  | missing => "<unterminated>"

end Terminator

namespace Block

/-- A block without instructions that is not finished. -/
def unfinished : Block where
  instructions := []
  terminator := .missing

instance : Inhabited Block := ⟨unfinished⟩

def isTerminated (b : Block) : Bool :=
  decide (b.terminator ≠ .missing)

def successors (b : Block) : List BlockId :=
  b.terminator.successors

/-- The names of the functions the block calls by name, with repetitions. -/
def directCallees (b : Block) : List String :=
  b.instructions.filterMap Instruction.directCallee?

/-- Every variable the block mentions, with repetitions and in order. -/
def mentions (b : Block) : List VarId :=
  b.instructions.flatMap Instruction.mentions ++ b.terminator.mentions

/-- Every variable that occurs in the block, at any depth. -/
def occurrences (b : Block) : List VarId :=
  b.instructions.flatMap Instruction.occurrences ++ b.terminator.occurrences

/-- The field names that occur in the block, at any depth. -/
def fieldNames (b : Block) : List String :=
  b.instructions.flatMap Instruction.fieldNames ++ b.terminator.fieldNames

end Block

end TaintAnalysis
