import TaintAnalysis.Program.Expr
import TaintAnalysis.Program.Ty

/-!
# Instructions

The straight-line steps of a function. Scalars are read and assigned by name;
memory is read by loads and written by stores. A construct that the front end
of a program could not express is kept as an opaque instruction that lists the
variables it touches.
-/

namespace TaintAnalysis

/-- What a call calls. -/
inductive Callee where
  /-- A function by name. -/
  | direct (name : String)
  /-- The function an expression refers to. It is never resolved. -/
  | indirect (target : Expr)
  deriving DecidableEq

/-- One step of a basic block. -/
inductive Instruction where
  /-- Computes an expression into a variable. -/
  | assign (dst : VarId) (expr : Expr)
  /-- Reads memory into a variable. -/
  | load (dst : VarId) (place : Place)
  /-- Writes an expression to memory. -/
  | store (place : Place) (src : Expr)
  /-- Converts an expression to another type. -/
  | cast (dst : VarId) (src : Expr) (ty : Ty)
  /-- Calls a function and keeps its result, if a destination is given. -/
  | call (dst : Option VarId) (callee : Callee) (args : List Expr)
  /-- Does something unknown to the listed variables. -/
  | opaqueCode (touched : List VarId) (reason : String)
  deriving DecidableEq

namespace Callee

def name? : Callee → Option String
  | direct name => some name
  | indirect _ => none

def target? : Callee → Option Expr
  | direct _ => none
  | indirect target => some target

end Callee

namespace Instruction

/-- The scalar variable the instruction defines. An opaque instruction defines
none, whatever it touches. -/
def defined? : Instruction → Option VarId
  | assign dst _ | load dst _ | cast dst _ _ => some dst
  | call dst _ _ => dst
  | store .. | opaqueCode .. => none

def isCall : Instruction → Bool
  | call .. => true
  | _ => false

def directCallee? : Instruction → Option String
  | call _ callee _ => callee.name?
  | _ => none

/-- Every variable the instruction mentions, read or written, with repetitions
and in order. -/
def mentions : Instruction → List VarId
  | assign dst e | cast dst e _ => dst :: e.mentions
  | load dst place => dst :: place.base :: place.addressReads
  | store place src => place.base :: place.addressReads ++ src.mentions
  | call dst callee args =>
      dst.toList ++ (callee.target?.map Expr.mentions).getD [] ++ args.flatMap Expr.mentions
  | opaqueCode touched _ => touched

/-- The expressions the instruction computes, outside of the places it accesses. -/
def operands : Instruction → List Expr
  | assign _ e | cast _ e _ => [e]
  | load .. | opaqueCode .. => []
  | store _ src => [src]
  | call _ callee args => callee.target?.toList ++ args

/-- The memory the instruction accesses by a load or a store. -/
def place? : Instruction → Option Place
  | load _ place | store place _ => some place
  | _ => none

/-- Every variable that occurs in the instruction, at any depth. -/
def occurrences (i : Instruction) : List VarId :=
  i.defined?.toList ++ (i.place?.map Place.occurrences).getD [] ++ i.operands.flatMap Expr.occurrences
    ++ (match i with | opaqueCode touched _ => touched | _ => [])

/-- The field names that occur in the instruction, at any depth. -/
def fieldNames (i : Instruction) : List String :=
  (i.place?.map Place.fieldNames).getD [] ++ i.operands.flatMap Expr.fieldNames

def calleeText : Callee → String
  | .direct name => name
  | .indirect target => "*" ++ target.text

def text : Instruction → String
  | assign dst e => VarId.text dst ++ " = " ++ e.text
  | load dst place => VarId.text dst ++ " = load " ++ place.text
  | store place src => "store " ++ place.text ++ ", " ++ src.text
  | cast dst src ty => VarId.text dst ++ " = cast<" ++ ty.text ++ "> " ++ src.text
  | call dst callee args =>
      (dst.map fun v => VarId.text v ++ " = ").getD "" ++ "call " ++ calleeText callee ++ "("
        ++ String.intercalate ", " (args.map Expr.text) ++ ")"
  | opaqueCode _ reason => "opaque \"" ++ reason ++ "\""

end Instruction

end TaintAnalysis
