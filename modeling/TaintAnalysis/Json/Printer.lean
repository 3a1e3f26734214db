import TaintAnalysis.Json.Basic

/-!
# Writing JSON

Two layouts. The compact one has no blanks. The indented one puts every item of
an array and every member of an object on a line of its own, two blanks deeper
than what encloses it, and writes an empty array or object on one line.
-/

namespace TaintAnalysis.Json

def quoted (written : String) : String :=
  "\"" ++ written ++ "\""

mutual

/-- The text of a value without blanks. -/
def compact : Json → String
  | null => "null"
  | bool b => if b then "true" else "false"
  | num written => written
  | str written => quoted written
  | arr items => "[" ++ compactItems items ++ "]"
  | obj members => "\x7b" ++ compactMembers members ++ "\x7d"

/-- The items of an array, separated by commas. -/
def compactItems : List Json → String
  | [] => ""
  | [j] => j.compact
  | j :: rest => j.compact ++ "," ++ compactItems rest

/-- The members of an object, separated by commas. -/
def compactMembers : List (String × Json) → String
  | [] => ""
  | [(name, j)] => quoted name ++ ":" ++ j.compact
  | (name, j) :: rest => quoted name ++ ":" ++ j.compact ++ "," ++ compactMembers rest

end

def lineBreak (depth : Nat) : String :=
  "\n" ++ String.ofList (List.replicate (2 * depth) ' ')

mutual

/-- The indented text of a value that is nested `depth` deep. -/
def indented (depth : Nat) : Json → String
  | arr (j :: rest) =>
      "[" ++ indentedItems (depth + 1) (j :: rest) ++ lineBreak depth ++ "]"
  | obj (m :: rest) =>
      "\x7b" ++ indentedMembers (depth + 1) (m :: rest) ++ lineBreak depth ++ "\x7d"
  | j => j.compact

/-- The items of an array, each on a line of its own. -/
def indentedItems (depth : Nat) : List Json → String
  | [] => ""
  | [j] => lineBreak depth ++ j.indented depth
  | j :: rest => lineBreak depth ++ j.indented depth ++ "," ++ indentedItems depth rest

/-- The members of an object, each on a line of its own. -/
def indentedMembers (depth : Nat) : List (String × Json) → String
  | [] => ""
  | [(name, j)] => lineBreak depth ++ quoted name ++ ": " ++ j.indented depth
  | (name, j) :: rest =>
      lineBreak depth ++ quoted name ++ ": " ++ j.indented depth ++ ","
        ++ indentedMembers depth rest

end

def pretty (j : Json) : String :=
  j.indented 0

end TaintAnalysis.Json
