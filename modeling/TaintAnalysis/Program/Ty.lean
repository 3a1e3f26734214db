/-!
# Types of variables

The types a program gives to its variables. Only three facts about a type
matter to the analysis: whether it is a pointer, whether it is an aggregate,
and how long an array is.
-/

namespace TaintAnalysis

/-- The type of a variable or of a memory location. -/
inductive Ty where
  /-- An integer of the given width in bits. -/
  | int (bits : Nat)
  /-- A pointer to objects of the target type. -/
  | pointer (target : Ty)
  /-- An array of elements, of known or unknown length. -/
  | array (element : Ty) (length : Option Nat)
  /-- A named structure. -/
  | struct (name : String)
  /-- No value at all. -/
  | void
  deriving DecidableEq

namespace Ty

instance : Inhabited Ty := ⟨void⟩

def isPointer : Ty → Bool
  | pointer _ => true
  | _ => false

def isArray : Ty → Bool
  | array .. => true
  | _ => false

/-- Whether values of the type consist of parts that are stored separately. -/
def isAggregate : Ty → Bool
  | array .. | struct _ => true
  | _ => false

def arrayLength? : Ty → Option Nat
  | array _ length => length
  | _ => none

def element? : Ty → Option Ty
  | array element _ => some element
  | _ => none

def pointee? : Ty → Option Ty
  | pointer target => some target
  | array element _ => some element
  | _ => none

def text : Ty → String
  | int bits => "i" ++ toString bits
  | pointer target => "*" ++ target.text
  | array element (some length) => "[" ++ element.text ++ "; " ++ toString length ++ "]"
  | array element none => "[" ++ element.text ++ "]"
  | struct name => "struct " ++ name
  | void => "void"

end Ty

end TaintAnalysis
