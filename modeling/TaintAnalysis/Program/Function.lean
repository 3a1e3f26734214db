import TaintAnalysis.OrderedMap
import TaintAnalysis.Program.Block

/-!
# Functions

A function is a list of variables, a map from block numbers to basic blocks, and
the number of the block where execution begins. A variable is its position in
the list. Which variables are parameters is recorded with each variable, so the
parameters, and the position of a parameter among them, are read off the list
and cannot disagree with it.
-/

namespace TaintAnalysis

/-- Where a variable comes from. -/
inductive VarKind where
  /-- A formal parameter. -/
  | param
  /-- A variable that the program declares. -/
  | local
  /-- A variable made up while the function was built. -/
  | temp
  deriving DecidableEq

/-- A variable of a function. -/
structure Variable where
  name : String
  ty : Ty
  kind : VarKind
  deriving DecidableEq

/-- A function of a program. -/
structure Function where
  name : String
  returns : Ty
  /-- The variables, in order of declaration. -/
  vars : List Variable
  /-- The basic blocks, in the order in which they were added. -/
  blocks : OrderedMap BlockId Block
  entry : BlockId
  /-- The number that the next created block receives. -/
  nextBlock : BlockId
  deriving DecidableEq

namespace Function

/-- A function without variables whose only block is an unfinished entry block. -/
def new (name : String) : Function where
  name := name
  returns := .void
  vars := []
  blocks := OrderedMap.empty.insert 0 .unfinished
  entry := 0
  nextBlock := 1

instance : Inhabited Function := ⟨new ""⟩

/-! ## Variables -/

def var? (f : Function) (v : VarId) : Option Variable :=
  f.vars[v]?

/-- The variables that are parameters, in order. -/
def params (f : Function) : List VarId :=
  (List.range f.vars.length).filter fun v => (f.var? v).any fun x => x.kind = .param

def paramCount (f : Function) : Nat :=
  f.params.length

/-- The position of a variable among the parameters. -/
def paramIndex? (f : Function) (v : VarId) : Option Nat :=
  f.params.idxOf? v

def ty? (f : Function) (v : VarId) : Option Ty :=
  (f.var? v).map (·.ty)

/-- The name of a variable, or a placeholder for a number that is not declared. -/
def varName (f : Function) (v : VarId) : String :=
  ((f.var? v).map (·.name)).getD "<unknown>"

/-- The first variable with a name. -/
def varNamed? (f : Function) (name : String) : Option VarId :=
  f.vars.findIdx? fun x => x.name = name

def tempCount (f : Function) : Nat :=
  f.vars.countP fun x => x.kind = .temp

/-- Declares one more variable and returns its number. -/
def addVar (f : Function) (name : String) (ty : Ty) (kind : VarKind) : VarId × Function :=
  (f.vars.length, { f with vars := f.vars ++ [⟨name, ty, kind⟩] })

def addParam (f : Function) (name : String) (ty : Ty) : VarId × Function :=
  f.addVar name ty .param

def addLocal (f : Function) (name : String) (ty : Ty) : VarId × Function :=
  f.addVar name ty .local

/-- Makes up a variable. Its name cannot be written in a program. -/
def addTemp (f : Function) (ty : Ty) : VarId × Function :=
  f.addVar ("%t" ++ toString f.tempCount) ty .temp

/-! ## Blocks -/

def block? (f : Function) (b : BlockId) : Option Block :=
  f.blocks.get? b

/-- Adds an unfinished block under the next free number and returns the number. -/
def createBlock (f : Function) : BlockId × Function :=
  (f.nextBlock,
    { f with blocks := f.blocks.insert f.nextBlock .unfinished, nextBlock := f.nextBlock + 1 })

/-- Adds a block under a chosen number, an unfinished one unless another is given.
A block that had the number is replaced where it stands. -/
def insertBlock (f : Function) (b : BlockId) (block : Block := .unfinished) : Function :=
  { f with
    blocks := f.blocks.insert b block
    nextBlock := max f.nextBlock (b + 1) }

def modifyBlock (f : Function) (b : BlockId) (change : Block → Block) : Function :=
  { f with blocks := f.blocks.modify b change }

/-- Appends an instruction to the block with a number. -/
def pushInstruction (f : Function) (b : BlockId) (i : Instruction) : Function :=
  f.modifyBlock b fun block => { block with instructions := block.instructions ++ [i] }

/-- Replaces the terminator of the block with a number. -/
def setTerminator (f : Function) (b : BlockId) (t : Terminator) : Function :=
  f.modifyBlock b fun block => { block with terminator := t }

/-! ## The function as a whole -/

def instructions (f : Function) : List Instruction :=
  f.blocks.values.flatMap (·.instructions)

/-- The names of the functions called by name, in the order of their first call. -/
def callees (f : Function) : List String :=
  (f.blocks.values.flatMap Block.directCallees).foldl
    (fun names name => if name ∈ names then names else names ++ [name]) []

/-- Every variable that occurs in the function's blocks, at any depth. -/
def occurrences (f : Function) : List VarId :=
  f.blocks.values.flatMap Block.occurrences

/-- The field names that occur in the function's blocks, at any depth. -/
def fieldNames (f : Function) : List String :=
  f.blocks.values.flatMap Block.fieldNames

end Function

end TaintAnalysis
