import TaintAnalysis.Json.Basic

/-!
# Reading JSON

The grammar is strict: one value with blanks around it and nothing else, no
comma before a closing bracket, no leading zeros, no control characters in
strings. A string is accepted as soon as its escapes are well formed; whether
it stands for a text is decided by whoever looks at it.

Each function takes the characters that are left and returns what it read with
the characters after it. The nesting of values is bounded by the length of the
text, which `parse` passes as the budget of the recursion.
-/

namespace TaintAnalysis.Json

def isBlank (c : Char) : Bool :=
  c = ' ' || c = '\t' || c = '\n' || c = '\r'

def skipBlanks (cs : List Char) : List Char :=
  cs.dropWhile isBlank

def takeDigits (cs : List Char) : List Char × List Char :=
  (cs.takeWhile Char.isDigit, cs.dropWhile Char.isDigit)

/-- Takes the part of a number before its point: no digit follows a leading zero. -/
def takeWhole : List Char → Option (List Char × List Char)
  | '0' :: rest => if (rest.head?.any Char.isDigit) then none else some (['0'], rest)
  | cs =>
      let (digits, rest) := takeDigits cs
      if digits.isEmpty then none else some (digits, rest)

/-- Takes the point and the digits after it, if there is a point. -/
def takeFraction : List Char → Option (List Char × List Char)
  | '.' :: cs =>
      let (digits, rest) := takeDigits cs
      if digits.isEmpty then none else some ('.' :: digits, rest)
  | cs => some ([], cs)

def takeSign : List Char → List Char × List Char
  | '+' :: rest => (['+'], rest)
  | '-' :: rest => (['-'], rest)
  | cs => ([], cs)

def takeExponent : List Char → Option (List Char × List Char)
  | [] => some ([], [])
  | c :: cs =>
      if c = 'e' ∨ c = 'E' then
        let (sign, afterSign) := takeSign cs
        let (digits, rest) := takeDigits afterSign
        if digits.isEmpty then none else some (c :: sign ++ digits, rest)
      else some ([], c :: cs)

/-- Takes a number without its sign. -/
def takeUnsigned (cs : List Char) : Option (List Char × List Char) := do
  let (whole, rest) ← takeWhole cs
  let (fraction, rest) ← takeFraction rest
  let (exponent, rest) ← takeExponent rest
  return (whole ++ fraction ++ exponent, rest)

def takeNumber : List Char → Option (List Char × List Char)
  | '-' :: cs => do
      let (written, rest) ← takeUnsigned cs
      return ('-' :: written, rest)
  | cs => takeUnsigned cs

/-- Whether a character may be written after a backslash without more. -/
def isSimpleEscape (c : Char) : Bool :=
  (simpleEscape? c).isSome

/-- Takes the rest of a string and its closing quote. -/
def takeString : List Char → Option (List Char × List Char)
  | [] => none
  | '"' :: rest => some ([], rest)
  | '\\' :: 'u' :: a :: b :: c :: d :: rest => do
      let _ ← hexFour? a b c d
      let (written, rest) ← takeString rest
      return ('\\' :: 'u' :: a :: b :: c :: d :: written, rest)
  | '\\' :: c :: rest => do
      if isSimpleEscape c then
        let (written, rest) ← takeString rest
        return ('\\' :: c :: written, rest)
      else none
  | '\\' :: [] => none
  | c :: rest => do
      if c.toNat < 32 then none
      else
        let (written, rest) ← takeString rest
        return (c :: written, rest)

mutual

/-- Reads one value with blanks before it. -/
def readValue : Nat → List Char → Option (Json × List Char)
  | 0, _ => none
  | budget + 1, cs =>
      match skipBlanks cs with
      | 'n' :: 'u' :: 'l' :: 'l' :: rest => some (null, rest)
      | 't' :: 'r' :: 'u' :: 'e' :: rest => some (bool true, rest)
      | 'f' :: 'a' :: 'l' :: 's' :: 'e' :: rest => some (bool false, rest)
      | '"' :: rest => do
          let (written, rest) ← takeString rest
          return (str (String.ofList written), rest)
      | '[' :: rest =>
          match skipBlanks rest with
          | ']' :: rest => some (arr [], rest)
          | rest => do
              let (items, rest) ← readItems budget rest
              return (arr items, rest)
      | '\x7b' :: rest =>
          match skipBlanks rest with
          | '\x7d' :: rest => some (obj [], rest)
          | rest => do
              let (members, rest) ← readMembers budget rest
              return (obj members, rest)
      | rest => do
          let (written, rest) ← takeNumber rest
          return (num (String.ofList written), rest)

/-- Reads the items of an array and its closing bracket. -/
def readItems : Nat → List Char → Option (List Json × List Char)
  | 0, _ => none
  | budget + 1, cs => do
      let (item, rest) ← readValue budget cs
      match skipBlanks rest with
      | ',' :: rest =>
          let (items, rest) ← readItems budget rest
          return (item :: items, rest)
      | ']' :: rest => return ([item], rest)
      | _ => none

/-- Reads the members of an object and its closing brace. -/
def readMembers : Nat → List Char → Option (List (String × Json) × List Char)
  | 0, _ => none
  | budget + 1, cs =>
      match skipBlanks cs with
      | '"' :: rest => do
          let (name, rest) ← takeString rest
          match skipBlanks rest with
          | ':' :: rest =>
              let (value, rest) ← readValue budget rest
              let member := (String.ofList name, value)
              match skipBlanks rest with
              | ',' :: rest =>
                  let (members, rest) ← readMembers budget rest
                  return (member :: members, rest)
              | '\x7d' :: rest => return ([member], rest)
              | _ => none
          | _ => none
      | _ => none

end

/-- Reads a text that is one JSON value. Every two steps of the recursion take
at least one character, so the budget is never used up. -/
def parse (text : String) : Option Json := do
  let cs := text.toList
  let (j, rest) ← readValue (2 * cs.length + 2) cs
  if (skipBlanks rest).isEmpty then some j else none

end TaintAnalysis.Json
