/-!
# What is wrong with a program text

A text that does not fit the grammar is malformed as a whole. A text that does
may still use names it does not declare, declare names twice, or contain numbers
that are too large.
-/

namespace TaintAnalysis

/-- Why a program text does not describe a program. -/
inductive SourceError where
  /-- The text does not fit the grammar. -/
  | malformed
  /-- A variable is used that the function does not declare. -/
  | unknownVariable (function name : String) (line : Nat)
  /-- A branch or jump goes to a label that the function does not have. -/
  | unknownBlock (function label : String) (line : Nat)
  /-- A function declares two variables of one name. -/
  | duplicateVariable (function name : String)
  /-- A function has two blocks of one label. -/
  | duplicateBlock (function label : String)
  /-- A number is too large for where it stands. -/
  | integerOutOfRange (written : String) (line : Nat)
  /-- Two functions have one name. -/
  | duplicateFunction (name : String)
  deriving DecidableEq

namespace SourceError

/-- The text of an error. -/
def message : SourceError → String
  | malformed => "syntax error"
  | unknownVariable function name line =>
      function ++ ": line " ++ toString line ++ ": unknown variable " ++ name
  | unknownBlock function label line =>
      function ++ ": line " ++ toString line ++ ": unknown block " ++ label
  | duplicateVariable function name => function ++ ": " ++ name ++ " is declared more than once"
  | duplicateBlock function label =>
      function ++ ": block " ++ label ++ " is defined more than once"
  | integerOutOfRange written line =>
      "line " ++ toString line ++ ": integer literal " ++ written ++ " is out of range"
  | duplicateFunction name => "Function " ++ name ++ " is defined more than once"

end SourceError

end TaintAnalysis
