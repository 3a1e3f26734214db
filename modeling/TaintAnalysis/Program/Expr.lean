/-!
# Expressions and places

An expression is computed by a single instruction and has no side effect. A
place is an access path to memory: a variable, followed inside out by
dereferences, array indices and fields, so that `p->next` is
`field (deref (var p)) "next"`. The two refer to each other, because taking an
address is an expression and an index is an expression inside a place.

Three lists of variables belong to an expression. Its `reads` are the variables
whose value it uses, and taking an address uses only the indices on the way.
Its `mentions` add the variables whose address is taken. Its `occurrences` are
all of them at any depth.
-/

namespace TaintAnalysis

/-- A variable of a function, numbered in order of declaration. -/
abbrev VarId := Nat

/-- The operators of two operands. -/
inductive BinOp where
  | add | sub | mul | div | rem
  | and | or | xor | shl | shr
  | logicalAnd | logicalOr
  | eq | ne | lt | le | gt | ge
  deriving DecidableEq

/-- The operators of one operand. -/
inductive UnOp where
  | neg | not | bitNot
  deriving DecidableEq

mutual

/-- A side-effect free expression. -/
inductive Expr where
  /-- The value of a variable. -/
  | var (v : VarId)
  /-- An integer constant. -/
  | const (value : Int64)
  /-- An operator applied to one operand. -/
  | unary (op : UnOp) (operand : Expr)
  /-- An operator applied to two operands. -/
  | binary (op : BinOp) (left right : Expr)
  /-- The address of a place. -/
  | addrOf (place : Place)
  deriving DecidableEq

/-- An access path to memory that starts at a variable. -/
inductive Place where
  /-- The variable itself. -/
  | var (base : VarId)
  /-- What the pointer stored in a place refers to. -/
  | deref (inner : Place)
  /-- An element of the array in a place, or of the array a pointer refers to. -/
  | index (inner : Place) (position : Expr)
  /-- A field of the structure in a place. -/
  | field (inner : Place) (name : String)
  deriving DecidableEq

end

namespace BinOp

def symbol : BinOp → String
  | add => "+"
  | sub => "-"
  | mul => "*"
  | div => "/"
  | rem => "%"
  | and => "&"
  | or => "|"
  | xor => "^"
  | shl => "<<"
  | shr => ">>"
  | logicalAnd => "&&"
  | logicalOr => "||"
  | eq => "=="
  | ne => "!="
  | lt => "<"
  | le => "<="
  | gt => ">"
  | ge => ">="

/-- Whether the operator moves a pointer inside the object it refers to. -/
def movesPointer : BinOp → Bool
  | add | sub => true
  | _ => false

/-- The value of the operators that are folded in constant expressions, with
the overflow of 64-bit words. -/
def fold? : BinOp → Int64 → Int64 → Option Int64
  | add, l, r => some (l + r)
  | sub, l, r => some (l - r)
  | mul, l, r => some (l * r)
  | _, _, _ => none

end BinOp

namespace UnOp

def symbol : UnOp → String
  | neg => "-"
  | not => "!"
  | bitNot => "~"

end UnOp

namespace Place

instance : Inhabited Place := ⟨.var 0⟩

def base : Place → VarId
  | var v => v
  | deref p | index p _ | field p _ => p.base

/-- Whether a path follows a pointer by a dereference. -/
def derefs : Place → Bool
  | var _ => false
  | deref _ => true
  | index p _ | field p _ => p.derefs

def isPlainVar : Place → Bool
  | var _ => true
  | _ => false

/-- The place reached by following the pointer and then taking a field. -/
def arrow (p : Place) (name : String) : Place :=
  .field (.deref p) name

end Place

namespace Expr

instance : Inhabited Expr := ⟨.const 0⟩

/-- The value of a constant expression. Negation, sums, differences and
products of constants count as such. -/
def const? : Expr → Option Int64
  | const value => some value
  | unary .neg e => e.const?.map (- ·)
  | binary op l r => do op.fold? (← l.const?) (← r.const?)
  | _ => none

/-- The variables whose address is taken, outside of index positions. -/
def addressRoots : Expr → List VarId
  | addrOf p => [p.base]
  | unary _ e => e.addressRoots
  | binary _ l r => l.addressRoots ++ r.addressRoots
  | var _ | const _ => []

end Expr

mutual

/-- The variables whose value the expression uses, in order. -/
def Expr.reads : Expr → List VarId
  | .var v => [v]
  | .const _ => []
  | .unary _ e => e.reads
  | .binary _ l r => l.reads ++ r.reads
  | .addrOf p => p.indexReads

/-- The variables whose value the index positions of a path use, in order. -/
def Place.indexReads : Place → List VarId
  | .var _ => []
  | .deref p | .field p _ => p.indexReads
  | .index p e => p.indexReads ++ e.reads

end

/-- The variables whose value is used to compute the address of a place: the
base where a pointer is dereferenced, and whatever the index positions read. -/
def Place.addressReads (p : Place) : List VarId :=
  (if p.derefs then [p.base] else []) ++ p.indexReads

/-- What the expression reads, and then the variables whose address it takes. -/
def Expr.mentions (e : Expr) : List VarId :=
  e.reads ++ e.addressRoots

mutual

/-- Every variable that occurs in the expression, at any depth. -/
def Expr.occurrences : Expr → List VarId
  | .var v => [v]
  | .const _ => []
  | .unary _ e => e.occurrences
  | .binary _ l r => l.occurrences ++ r.occurrences
  | .addrOf p => p.occurrences

/-- Every variable that occurs in the place, at any depth. -/
def Place.occurrences : Place → List VarId
  | .var v => [v]
  | .deref p | .field p _ => p.occurrences
  | .index p e => p.occurrences ++ e.occurrences

end

mutual

/-- The field names that occur in the expression, at any depth. -/
def Expr.fieldNames : Expr → List String
  | .var _ | .const _ => []
  | .unary _ e => e.fieldNames
  | .binary _ l r => l.fieldNames ++ r.fieldNames
  | .addrOf p => p.fieldNames

/-- The field names that occur in the place, at any depth. -/
def Place.fieldNames : Place → List String
  | .var _ => []
  | .deref p => p.fieldNames
  | .field p name => p.fieldNames ++ [name]
  | .index p e => p.fieldNames ++ e.fieldNames

end

/-- The text of a variable: its number after a `v`. -/
def VarId.text (v : VarId) : String :=
  "v" ++ toString v

mutual

/-- The text of an expression. Operations of two operands are parenthesised. -/
def Expr.text : Expr → String
  | .var v => VarId.text v
  | .const value => toString value.toInt
  | .unary op e => op.symbol ++ e.text
  | .binary op l r => "(" ++ l.text ++ " " ++ op.symbol ++ " " ++ r.text ++ ")"
  | .addrOf p => "&" ++ p.text

/-- The text of a place. A dereference is parenthesised. -/
def Place.text : Place → String
  | .var v => VarId.text v
  | .deref p => "(*" ++ p.text ++ ")"
  | .index p e => p.text ++ "[" ++ e.text ++ "]"
  | .field p name => p.text ++ "." ++ name

end

end TaintAnalysis
