/-!
# Tokens of program texts

A program text is a sequence of words, digits, strings and signs, separated by
blanks, line breaks and comments that run from two slashes to the end of their
line. A token is as long as it can be: two signs that together spell a longer
sign are that sign, and a word that spells a keyword is that keyword.

Each token carries the number of the line it starts on. Lines are counted from
one by line feeds alone; a carriage return ends a comment but starts no line.
-/

namespace TaintAnalysis.Source

/-- The reserved words. -/
inductive Keyword where
  | fn | let | load | store | cast | call | opaqueCode | br | jump | ret | struct | void
  deriving DecidableEq

/-- The signs. -/
inductive Sign where
  | openParen | closeParen | openBrace | closeBrace | openBracket | closeBracket
  | comma | semicolon | colon | dot | arrow | equals
  | bang | tilde
  | barBar | ampAmp | bar | caret | amp
  | equalsEquals | bangEquals
  | less | lessEquals | greater | greaterEquals
  | lessLess | greaterGreater
  | plus | minus | star | slash | percent
  deriving DecidableEq

/-- A token of a program text. -/
inductive Token where
  /-- A reserved word. -/
  | keyword (k : Keyword)
  /-- A word that is not reserved. -/
  | word (name : String)
  /-- A sequence of digits. -/
  | digits (written : String)
  /-- What stands between two quotes. -/
  | string (text : String)
  /-- A sign. -/
  | sign (s : Sign)
  deriving DecidableEq

/-- A token with the line it starts on. -/
structure Lexeme where
  token : Token
  line : Nat
  deriving DecidableEq

def Keyword.ofWord? : String → Option Keyword
  | "fn" => some .fn
  | "let" => some .let
  | "load" => some .load
  | "store" => some .store
  | "cast" => some .cast
  | "call" => some .call
  | "opaque" => some .opaqueCode
  | "br" => some .br
  | "jump" => some .jump
  | "ret" => some .ret
  | "struct" => some .struct
  | "void" => some .void
  | _ => none

def isWordStart (c : Char) : Bool :=
  c.isAlpha || c = '_'

def isWordChar (c : Char) : Bool :=
  c.isAlphanum || c = '_'

def Token.ofWord (name : String) : Token :=
  match Keyword.ofWord? name with
  | some k => .keyword k
  | none => .word name

mutual

/-- Drops blanks, line breaks and comments, and counts lines on the way. -/
def skipBlanks (line : Nat) : List Char → Nat × List Char
  | '\n' :: rest => skipBlanks (line + 1) rest
  | ' ' :: rest => skipBlanks line rest
  | '\t' :: rest => skipBlanks line rest
  | '\r' :: rest => skipBlanks line rest
  | '/' :: '/' :: rest => skipComment line rest
  | cs => (line, cs)

/-- Drops the rest of a comment and what `skipBlanks` drops after it. -/
def skipComment (line : Nat) : List Char → Nat × List Char
  | [] => (line, [])
  | '\n' :: rest => skipBlanks (line + 1) rest
  | '\r' :: rest => skipBlanks line rest
  | _ :: rest => skipComment line rest

end

/-- Takes the longest sign in front. -/
def takeSign? : List Char → Option (Sign × List Char)
  | '|' :: '|' :: rest => some (.barBar, rest)
  | '&' :: '&' :: rest => some (.ampAmp, rest)
  | '=' :: '=' :: rest => some (.equalsEquals, rest)
  | '!' :: '=' :: rest => some (.bangEquals, rest)
  | '<' :: '<' :: rest => some (.lessLess, rest)
  | '<' :: '=' :: rest => some (.lessEquals, rest)
  | '>' :: '>' :: rest => some (.greaterGreater, rest)
  | '>' :: '=' :: rest => some (.greaterEquals, rest)
  | '-' :: '>' :: rest => some (.arrow, rest)
  | '(' :: rest => some (.openParen, rest)
  | ')' :: rest => some (.closeParen, rest)
  | '\x7b' :: rest => some (.openBrace, rest)
  | '\x7d' :: rest => some (.closeBrace, rest)
  | '[' :: rest => some (.openBracket, rest)
  | ']' :: rest => some (.closeBracket, rest)
  | ',' :: rest => some (.comma, rest)
  | ';' :: rest => some (.semicolon, rest)
  | ':' :: rest => some (.colon, rest)
  | '.' :: rest => some (.dot, rest)
  | '=' :: rest => some (.equals, rest)
  | '!' :: rest => some (.bang, rest)
  | '~' :: rest => some (.tilde, rest)
  | '|' :: rest => some (.bar, rest)
  | '^' :: rest => some (.caret, rest)
  | '&' :: rest => some (.amp, rest)
  | '<' :: rest => some (.less, rest)
  | '>' :: rest => some (.greater, rest)
  | '+' :: rest => some (.plus, rest)
  | '-' :: rest => some (.minus, rest)
  | '*' :: rest => some (.star, rest)
  | '/' :: rest => some (.slash, rest)
  | '%' :: rest => some (.percent, rest)
  | _ => none

/-- Takes the longest token in front. -/
def takeToken? : List Char → Option (Token × List Char)
  | [] => none
  | c :: cs =>
      if isWordStart c then
        some (.ofWord (String.ofList (c :: cs.takeWhile isWordChar)), cs.dropWhile isWordChar)
      else if c.isDigit then
        some (.digits (String.ofList (c :: cs.takeWhile Char.isDigit)), cs.dropWhile Char.isDigit)
      else if c = '"' then
        match cs.dropWhile (· ≠ '"') with
        | _ :: rest => some (.string (String.ofList (cs.takeWhile (· ≠ '"'))), rest)
        | [] => none
      else (takeSign? (c :: cs)).map fun (s, rest) => (.sign s, rest)

def Token.lineBreaks : Token → Nat
  | string text => text.toList.count '\n'
  | _ => 0

/-- Splits a text that starts on the given line into its tokens. -/
def scanFrom : Nat → Nat → List Char → Option (List Lexeme)
  | 0, _, _ => none
  | budget + 1, line, cs =>
      match skipBlanks line cs with
      | (_, []) => some []
      | (line, cs) => do
          let (token, rest) ← takeToken? cs
          return ⟨token, line⟩ :: (← scanFrom budget (line + token.lineBreaks) rest)

/-- Splits a text into its tokens. Each takes at least one character, so the
budget of the recursion is never used up. -/
def scan (text : String) : Option (List Lexeme) :=
  scanFrom (text.length + 1) 1 text.toList

end TaintAnalysis.Source
