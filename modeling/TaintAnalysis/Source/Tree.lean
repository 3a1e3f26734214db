import TaintAnalysis.Program.Expr
import TaintAnalysis.Source.Token

/-!
# Syntax trees of program texts

A syntax tree is what a program text says before names are looked up. Names and
numbers keep their line, because they are what a program can get wrong. Groups
in parentheses are kept: they are what an operator to their right may not reach
into.

An expression is a chain of operands joined by operators. `Tree.Expr.extend`
puts one more operator and operand at the right end of a chain: it goes down the
right edge of the tree, past every operator that binds less tightly, and takes
what it finds there as its left operand. Operators that bind equally tightly
therefore group to the left.
-/

namespace TaintAnalysis

/-- How tightly an operator binds its operands; operators of one level group to the left. -/
def BinOp.level : BinOp → Nat
  | .logicalOr => 1
  | .logicalAnd => 2
  | .or => 3
  | .xor => 4
  | .and => 5
  | .eq | .ne => 6
  | .lt | .le | .gt | .ge => 7
  | .shl | .shr => 8
  | .add | .sub => 9
  | .mul | .div | .rem => 10

end TaintAnalysis

namespace TaintAnalysis.Source.Tree

/-- A name as it stands in a program text. -/
structure Name where
  text : String
  line : Nat
  deriving DecidableEq

/-- A number as it stands in a program text. -/
structure Digits where
  written : String
  line : Nat
  deriving DecidableEq

inductive Ty where
  | int (bits : Nat)
  | void
  | struct (name : String)
  | pointer (target : Ty)
  | array (element : Ty) (length : Option Digits)
  deriving DecidableEq

mutual

inductive Expr where
  | int (digits : Digits)
  | var (name : Name)
  | addrOf (place : Place)
  | unary (op : UnOp) (operand : Expr)
  | binary (op : BinOp) (left right : Expr)
  /-- An expression in parentheses. -/
  | group (inner : Expr)
  deriving DecidableEq

inductive Place where
  | var (name : Name)
  | deref (inner : Place)
  | index (inner : Place) (position : Expr)
  | field (inner : Place) (name : String)
  deriving DecidableEq

end

/-- Adds an operator and its right operand at the right end of a chain. -/
def Expr.extend (chain : Expr) (op : BinOp) (operand : Expr) : Expr :=
  match chain with
  | .binary outer left right =>
      if outer.level < op.level then .binary outer left (right.extend op operand)
      else .binary op (.binary outer left right) operand
  | e => .binary op e operand

inductive Callee where
  | direct (name : String)
  | indirect (target : Expr)
  deriving DecidableEq

inductive Statement where
  | assign (dst : Name) (expr : Expr)
  | load (dst : Name) (place : Place)
  | store (place : Place) (src : Expr)
  | cast (dst : Name) (ty : Ty) (src : Expr)
  | call (dst : Option Name) (callee : Callee) (args : List Expr)
  | opaqueCode (touched : List Name) (reason : String)
  deriving DecidableEq

inductive Terminator where
  | jump (target : Name)
  | branch (condition : Expr) (thenBlock elseBlock : Name)
  | ret (value : Option Expr)
  deriving DecidableEq

structure Block where
  label : String
  statements : List Statement
  terminator : Terminator
  deriving DecidableEq

/-- The declaration of a parameter or of a local variable. -/
structure Declaration where
  name : String
  ty : Ty
  deriving DecidableEq

structure Function where
  name : String
  params : List Declaration
  returns : Option Ty
  locals : List Declaration
  blocks : List Block
  deriving DecidableEq

end TaintAnalysis.Source.Tree
