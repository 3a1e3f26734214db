import TaintAnalysis.Program.Function

/-!
# Memory locations

A location names a piece of memory by an access path: a root, followed by array
elements and fields. The root is the storage of a variable, the object that a
pointer parameter refers to when the function is entered, or unknown memory,
below which nothing is told apart. An array has one element for every constant
index and a summary element for all others.

Two locations overlap unless their paths part at two different constant indices
or two different fields. A path that ends earlier contains the longer one.
-/

namespace TaintAnalysis

/-- Where an access path begins. -/
inductive Root where
  /-- The storage of a variable. -/
  | variable (v : VarId)
  /-- What parameter `i` refers to when the function is entered. -/
  | paramTarget (i : Nat)
  /-- Memory nothing is known about. -/
  | unknown
  deriving DecidableEq

/-- One step of an access path. -/
inductive Step where
  /-- An element of an array; without a number, the summary element. -/
  | index (i : Option Nat)
  /-- A field of a structure. -/
  | field (name : String)
  deriving DecidableEq

/-- A piece of memory, by its access path. -/
structure Location where
  root : Root
  path : List Step
  deriving DecidableEq

namespace Step

/-- Whether two steps from the same place may lead to the same memory. An index
and a field may: they are two views of the same bytes. -/
def compatible : Step → Step → Bool
  | index (some i), index (some j) => i = j
  | field a, field b => a = b
  | _, _ => true

def text : Step → String
  | index (some i) => "[" ++ toString i ++ "]"
  | index none => "[*]"
  | field name => "." ++ name

/-- Whether the step leads to an element of an array. -/
def isIndex : Step → Bool
  | index _ => true
  | field _ => false

end Step

namespace Location

def unknown : Location := ⟨.unknown, []⟩

instance : Inhabited Location := ⟨unknown⟩

def isUnknown (l : Location) : Bool :=
  decide (l.root = .unknown)

/-- The parameter whose object the location lies in. -/
def param? (l : Location) : Option Nat :=
  match l.root with
  | .paramTarget i => some i
  | _ => none

/-- Whether two locations may share memory. -/
def overlaps (a b : Location) : Bool :=
  a.isUnknown || b.isUnknown
    || (decide (a.root = b.root) && (a.path.zip b.path).all fun p => p.1.compatible p.2)

def extend (l : Location) (step : Step) : Location :=
  ⟨l.root, l.path ++ [step]⟩

/-- The location whose path lacks the last step. -/
def parent? (l : Location) : Option Location :=
  if l.path.isEmpty then none else some ⟨l.root, l.path.dropLast⟩

def rootText (f : Function) : Root → String
  | .variable v => f.varName v
  | .paramTarget i => "*" ++ ((f.params[i]?).map f.varName).getD "?"
  | .unknown => "<unknown>"

/-- The access path as a text, with the names of a function. -/
def text (f : Function) (l : Location) : String :=
  rootText f l.root ++ String.join (l.path.map Step.text)

end Location

end TaintAnalysis
