import TaintAnalysis.Program.Builder

/-!
# Building as a sequence of operations

A function is built by operations on its builder and on the cursors that the
builder has handed out. A session is all that the operations share: the program
that the function is to join, the builder, and the cursors in the order in which
they were handed out. Nothing keeps the operations apart, so several cursors may
be at work on one block at a time, and the function may be built more than once.

An operation on a cursor that was not handed out does nothing.
-/

namespace TaintAnalysis

/-- The operations of a function builder and of its cursors. A cursor is given by its place
among those that were handed out. -/
inductive Operation where
  | param (name : String) (ty : Ty)
  | local (name : String) (ty : Ty)
  | temp (ty : Ty)
  /-- Sets the type of what the function returns. -/
  | returns (ty : Ty)
  | createBlock
  /-- Hands out a cursor at the entry block. -/
  | entryBlock
  /-- Hands out a cursor at a new block. -/
  | block
  /-- Hands out a cursor at a block that was made before. -/
  | switchTo (id : BlockId)
  /-- Hands out a cursor at any number, whether or not there is such a block. -/
  | cursorAt (id : BlockId)
  | push (cursor : Nat) (i : Instruction)
  /-- Computes an expression into a fresh temporary. -/
  | compute (cursor : Nat) (e : Expr) (ty : Ty)
  /-- Ends the block of a cursor with a terminator. -/
  | finish (cursor : Nat) (t : Terminator)
  /-- Adds the function to the program. -/
  | build

namespace Operation

/-- Whether the operation makes a block. -/
def creates : Operation → Bool
  | createBlock | block => true
  | _ => false

end Operation

/-- A function under construction with everything its operations share. -/
structure Session where
  program : Program
  builder : FunctionBuilder
  /-- The cursors that were handed out, oldest first. -/
  cursors : List Cursor

namespace Session

/-- Begins a function in a program. -/
def start (name : String) (p : Program) : Session :=
  ⟨p, .new name, []⟩

/-- The function as it stands. -/
def function (s : Session) : Function :=
  s.builder.function

def withFunction (s : Session) (f : Function) : Session :=
  { s with builder := { s.builder with function := f } }

def withCursor (s : Session) (c : Cursor) : Session :=
  { s with cursors := s.cursors ++ [c] }

/-- What an operation does, and the error it ends with. -/
def step (s : Session) : Operation → Option BuildError × Session
  | .param name ty => (none, s.withFunction (s.function.addParam name ty).2)
  | .local name ty => (none, s.withFunction (s.function.addLocal name ty).2)
  | .temp ty => (none, s.withFunction (s.function.addTemp ty).2)
  | .returns ty => (none, s.withFunction { s.function with returns := ty })
  | .createBlock => (none, { s with builder := s.builder.createBlock.2 })
  | .entryBlock => (none, s.withCursor s.builder.entryBlock)
  | .block =>
      let (c, builder) := s.builder.block
      (none, { s with builder := builder }.withCursor c)
  | .switchTo id =>
      match s.builder.switchTo id with
      | .ok c => (none, s.withCursor c)
      | .error e => (some e, s)
  | .cursorAt id => (none, s.withCursor (.atBlock id))
  | .push k i => (none, { s with cursors := s.cursors.modify k (·.push i) })
  | .compute k e ty =>
      match s.cursors[k]? with
      | some c =>
          let (_, f, c) := c.compute s.function e ty
          (none, { s.withFunction f with cursors := s.cursors.set k c })
      | none => (none, s)
  | .finish k t =>
      match s.cursors[k]? with
      | some c =>
          match c.finish s.function t with
          | .ok (f, c) => (none, { s.withFunction f with cursors := s.cursors.set k c })
          | .error e => (some e, s)
      | none => (none, s)
  | .build =>
      match s.program.build s.function with
      | .ok p => (none, { s with program := p })
      | .error e => (some e, s)

/-- Carries out operations one after the other, whether or not some of them fail. -/
def run (s : Session) (ops : List Operation) : Session :=
  ops.foldl (fun s op => (s.step op).2) s

end Session

end TaintAnalysis
