/-!
# JSON texts

A JSON value keeps its numbers and its strings as they are written: a number is
its digits, a string is what stands between its quotes, escapes included. Two
readings of a written string or number belong to it. `unescape` gives the
characters a written string stands for, and fails where an escape names half of
a surrogate pair; `natural?` gives the natural number that a plain sequence of
digits stands for.
-/

namespace TaintAnalysis

/-- A JSON value, with numbers and strings as written. -/
inductive Json where
  | null
  | bool (b : Bool)
  /-- A number, as written. -/
  | num (written : String)
  /-- A string, as written between its quotes. -/
  | str (written : String)
  | arr (items : List Json)
  /-- An object; names are as written between their quotes. -/
  | obj (members : List (String × Json))

namespace Json

instance : Inhabited Json := ⟨null⟩

/-! ## Strings -/

/-- The lower-case hexadecimal digit with a value below sixteen. -/
def hexDigit (n : Nat) : Char :=
  if n < 10 then Char.ofNat (n + 48) else Char.ofNat (n + 87)

/-- How a character is written inside a string: the quote, the backslash and
the control characters are escaped, all others stand for themselves. -/
def escapeChar (c : Char) : List Char :=
  if c = '"' then ['\\', '"']
  else if c = '\\' then ['\\', '\\']
  else if c = '\x08' then ['\\', 'b']
  else if c = '\t' then ['\\', 't']
  else if c = '\n' then ['\\', 'n']
  else if c = '\x0c' then ['\\', 'f']
  else if c = '\r' then ['\\', 'r']
  else if c.toNat < 32 then
    ['\\', 'u', '0', '0', hexDigit (c.toNat / 16), hexDigit (c.toNat % 16)]
  else [c]

def escape (s : String) : String :=
  String.ofList (s.toList.flatMap escapeChar)

def hexValue? (c : Char) : Option Nat :=
  if '0' ≤ c ∧ c ≤ '9' then some (c.toNat - 48)
  else if 'a' ≤ c ∧ c ≤ 'f' then some (c.toNat - 87)
  else if 'A' ≤ c ∧ c ≤ 'F' then some (c.toNat - 55)
  else none

def hexFour? (a b c d : Char) : Option Nat := do
  return ((← hexValue? a) * 16 + (← hexValue? b)) * 256 + (← hexValue? c) * 16 + (← hexValue? d)

/-- The character that a backslash and one letter stand for. -/
def simpleEscape? : Char → Option Char
  | '"' => some '"'
  | '\\' => some '\\'
  | '/' => some '/'
  | 'b' => some '\x08'
  | 'f' => some '\x0c'
  | 'n' => some '\n'
  | 'r' => some '\r'
  | 't' => some '\t'
  | _ => none

/-- The characters a written string stands for. The two halves of a surrogate
pair have to follow each other. -/
def unescapeList : List Char → Option (List Char)
  | [] => some []
  | '\\' :: 'u' :: a :: b :: c :: d :: rest => do
      let n ← hexFour? a b c d
      if 0xDC00 ≤ n ∧ n ≤ 0xDFFF then none
      else if 0xD800 ≤ n ∧ n ≤ 0xDBFF then
        match rest with
        | '\\' :: 'u' :: a' :: b' :: c' :: d' :: rest' => do
            let m ← hexFour? a' b' c' d'
            if 0xDC00 ≤ m ∧ m ≤ 0xDFFF then
              return Char.ofNat (0x10000 + (n - 0xD800) * 0x400 + (m - 0xDC00))
                :: (← unescapeList rest')
            else none
        | _ => none
      else return Char.ofNat n :: (← unescapeList rest)
  | '\\' :: c :: rest => do return (← simpleEscape? c) :: (← unescapeList rest)
  | '\\' :: [] => none
  | c :: rest => do return c :: (← unescapeList rest)

def unescape (written : String) : Option String :=
  (unescapeList written.toList).map String.ofList

/-! ## Values from texts and numbers, and back -/

def string (s : String) : Json :=
  .str (escape s)

def nat (n : Nat) : Json :=
  .num (toString n)

def int (i : Int) : Json :=
  .num (toString i)

/-- An object whose members have the given names. -/
def object (members : List (String × Json)) : Json :=
  .obj (members.map fun m => (escape m.1, m.2))

def optional : Option Json → Json
  | some j => j
  | none => null

def text? : Json → Option String
  | str written => unescape written
  | _ => none

def bool? : Json → Option Bool
  | bool b => some b
  | _ => none

def items? : Json → Option (List Json)
  | arr items => some items
  | _ => none

/-- The value of a number that is written by digits alone. -/
def natural? : Json → Option Nat
  | num written =>
      let digits := written.toList
      if !digits.isEmpty && digits.all Char.isDigit then some (Nat.ofDigitChars 10 digits 0)
      else none
  | _ => none

end Json

end TaintAnalysis
