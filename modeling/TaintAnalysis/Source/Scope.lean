import TaintAnalysis.Program.Basic
import TaintAnalysis.Source.Error
import TaintAnalysis.Source.Parser

/-!
# From syntax trees to programs

Looking up names turns the syntax tree of a function into a function. First all
declarations are entered: parameters, the type of the result, local variables,
and the labels of the blocks. Then the statements are resolved in order. The
first fault in that order is the one that is reported.

The first block is the entry block; the others are created in the order in
which they stand in the text. A function without blocks keeps its unfinished
entry block.
-/

namespace TaintAnalysis.Source

/-- The largest constant of a program. -/
def maxConstant : Nat := UInt64.size / 2 - 1

/-- The largest length of an array. -/
def maxLength : Nat := UInt64.size - 1

/-- The value of a number that may not exceed a limit. -/
def Tree.Digits.upTo (limit : Nat) (d : Tree.Digits) : Except SourceError Nat :=
  let value := Nat.ofDigitChars 10 d.written.toList 0
  if value ≤ limit then .ok value else .error (.integerOutOfRange d.written d.line)

def Tree.Ty.resolve : Tree.Ty → Except SourceError TaintAnalysis.Ty
  | .int bits => .ok (.int bits)
  | .void => .ok .void
  | .struct name => .ok (.struct name)
  | .pointer target => do return .pointer (← target.resolve)
  | .array element none => do return .array (← element.resolve) none
  | .array element (some length) => do
      let length ← length.upTo maxLength
      return .array (← element.resolve) (some length)

/-- The names that the body of a function may use. -/
structure Scope where
  function : Function
  /-- The blocks, by label, in the order of the text. -/
  labels : OrderedMap String BlockId

namespace Scope

def var (s : Scope) (n : Tree.Name) : Except SourceError VarId :=
  match s.function.varNamed? n.text with
  | some v => .ok v
  | none => .error (.unknownVariable s.function.name n.text n.line)

def block (s : Scope) (n : Tree.Name) : Except SourceError BlockId :=
  match s.labels.get? n.text with
  | some b => .ok b
  | none => .error (.unknownBlock s.function.name n.text n.line)

mutual

/-- The expression that a written expression stands for. -/
def expr (s : Scope) : Tree.Expr → Except SourceError Expr
  | .int digits => do return .const (Int64.ofNat (← digits.upTo maxConstant))
  | .var n => do return .var (← s.var n)
  | .addrOf p => do return .addrOf (← s.place p)
  | .unary op e => do return .unary op (← s.expr e)
  | .binary op l r => do
      let left ← s.expr l
      return .binary op left (← s.expr r)
  | .group e => s.expr e

def place (s : Scope) : Tree.Place → Except SourceError Place
  | .var n => do return .var (← s.var n)
  | .deref p => do return .deref (← s.place p)
  | .index p e => do
      let inner ← s.place p
      return .index inner (← s.expr e)
  | .field p name => do return .field (← s.place p) name

end

def callee (s : Scope) : Tree.Callee → Except SourceError Callee
  | .direct name => .ok (.direct name)
  | .indirect target => do return .indirect (← s.expr target)

def instruction (s : Scope) : Tree.Statement → Except SourceError Instruction
  | .assign dst e => do
      let dst ← s.var dst
      return .assign dst (← s.expr e)
  | .load dst p => do
      let dst ← s.var dst
      return .load dst (← s.place p)
  | .store p src => do
      let place ← s.place p
      return .store place (← s.expr src)
  | .cast dst ty src => do
      let dst ← s.var dst
      let ty ← ty.resolve
      return .cast dst (← s.expr src) ty
  | .call dst callee args => do
      let dst ← dst.mapM s.var
      let callee ← s.callee callee
      return .call dst callee (← args.mapM s.expr)
  | .opaqueCode touched reason => do return .opaqueCode (← touched.mapM s.var) reason

/-- The terminator that the end of a block stands for. -/
def terminator (s : Scope) : Tree.Terminator → Except SourceError Terminator
  | .jump target => do return .jump (← s.block target)
  | .branch condition thenBlock elseBlock => do
      let condition ← s.expr condition
      let thenBlock ← s.block thenBlock
      return .branch condition thenBlock (← s.block elseBlock)
  | .ret none => .ok (.ret none)
  | .ret (some value) => do return .ret (some (← s.expr value))

/-- The basic block that a written block stands for. -/
def basicBlock (s : Scope) (b : Tree.Block) : Except SourceError Block := do
  let instructions ← b.statements.mapM s.instruction
  return ⟨instructions, ← s.terminator b.terminator⟩

end Scope

def declare (kind : VarKind) (f : Function) (d : Tree.Declaration) :
    Except SourceError Function := do
  let ty ← d.ty.resolve
  if (f.varNamed? d.name).isSome then throw (.duplicateVariable f.name d.name)
  else return (f.addVar d.name ty kind).2

/-- Enters the label of a block: the first one names the entry block, any other a new block. Block
numbers are words, so a function may run out of them; a label that would get the number of another
block is refused. -/
def Scope.label (s : Scope) (b : Tree.Block) : Except SourceError Scope :=
  if s.labels.contains b.label then .error (.duplicateBlock s.function.name b.label)
  else if s.labels.size = 0 then
    .ok { s with labels := s.labels.insert b.label s.function.entry }
  else if s.function.blocks.contains s.function.nextBlock then
    .error (.duplicateBlock s.function.name b.label)
  else
    let (id, f) := s.function.createBlock
    .ok ⟨f, s.labels.insert b.label id⟩

def Scope.ofTree (t : Tree.Function) : Except SourceError Scope := do
  let f ← t.params.foldlM (declare .param) (Function.new t.name)
  let f ← match t.returns with
    | some ty => do pure { f with returns := ← ty.resolve }
    | none => pure f
  let f ← t.locals.foldlM (declare .local) f
  t.blocks.foldlM Scope.label ⟨f, .empty⟩

def Tree.Function.resolve (t : Tree.Function) : Except SourceError TaintAnalysis.Function := do
  let s ← Scope.ofTree t
  let blocks ← t.blocks.mapM s.basicBlock
  return (s.labels.values.zip blocks).foldl
    (fun f (id, block) => f.modifyBlock id fun _ => block) s.function

/-- Adds the function that a syntax tree stands for to a program that has none of its name. -/
def addFunction (p : Program) (t : Tree.Function) : Except SourceError Program := do
  let f ← t.resolve
  if p.contains f.name then throw (.duplicateFunction f.name) else return p.add f

end TaintAnalysis.Source

namespace TaintAnalysis.Program

def ofSource (text : String) : Except SourceError Program :=
  match Source.Tree.parse text with
  | some functions => functions.foldlM Source.addFunction .empty
  | none => .error .malformed

/-- Whether a text fits the grammar of program texts. -/
def isWellFormedSource (text : String) : Bool :=
  (Source.Tree.parse text).isSome

end TaintAnalysis.Program
