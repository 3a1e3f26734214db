import TaintAnalysis.Source.Tree

/-!
# Parsing program texts

The grammar needs one token of lookahead, so a parser takes the tokens that are
left and returns what it read with the tokens after it; once a construct has
begun, a token that does not fit refuses the whole text. The recursion of the
parsers is bounded by a budget, which `Tree.parse` derives from the number of
tokens.
-/

namespace TaintAnalysis.Source

/-- A parser of something at the front of the tokens that are left. -/
abbrev Parser := StateT (List Lexeme) Option

namespace Parser

/-- The next token, which is left where it is. -/
def peek : Parser (Option Token) := do
  return (← get).head?.map (·.token)

def next : Parser Lexeme := fun
  | [] => none
  | l :: rest => some (l, rest)

/-- Takes the next token if it is the given one, and says whether it was. -/
def accept (t : Token) : Parser Bool := do
  if (← peek) = some t then
    let _ ← next
    return true
  else return false

def expect (t : Token) : Parser Unit := do
  let l ← next
  if l.token = t then return () else failure

def sign (s : Sign) : Parser Unit :=
  expect (.sign s)

def keyword (k : Keyword) : Parser Unit :=
  expect (.keyword k)

def name : Parser Tree.Name := do
  let l ← next
  match l.token with
  | .word text => return ⟨text, l.line⟩
  | _ => failure

def digits : Parser Tree.Digits := do
  let l ← next
  match l.token with
  | .digits written => return ⟨written, l.line⟩
  | _ => failure

def string : Parser String := do
  let l ← next
  match l.token with
  | .string text => return text
  | _ => failure

/-- Takes one item or more, separated by commas. -/
def commaSeparated {α : Type} (item : Parser α) : Nat → Parser (List α)
  | 0 => failure
  | budget + 1 => do
      let first ← item
      if ← accept (.sign .comma) then
        return first :: (← commaSeparated item budget)
      else return [first]

/-- Takes items separated by commas up to a closing parenthesis. -/
def parenthesised {α : Type} (item : Parser α) (budget : Nat) : Parser (List α) := do
  sign .openParen
  if ← accept (.sign .closeParen) then return []
  else
    let items ← commaSeparated item budget
    sign .closeParen
    return items

/-- Takes items as long as the next token passes a test. -/
def whileNext {α : Type} (begins : Token → Bool) (item : Parser α) : Nat → Parser (List α)
  | 0 => failure
  | budget + 1 => do
      if (← peek).any begins then
        let first ← item
        return first :: (← whileNext begins item budget)
      else return []

/-! ## Types -/

/-- The width of the integer type that a word names. -/
def intWidth? : String → Option Nat
  | "i8" => some 8
  | "i16" => some 16
  | "i32" => some 32
  | "i64" => some 64
  | _ => none

def ty : Nat → Parser Tree.Ty
  | 0 => failure
  | budget + 1 => do
      let l ← next
      match l.token with
      | .word text =>
          match intWidth? text with
          | some bits => return .int bits
          | none => failure
      | .keyword .void => return .void
      | .keyword .struct => return .struct (← name).text
      | .sign .star => return .pointer (← ty budget)
      | .sign .openBracket =>
          let element ← ty budget
          let length ← if ← accept (.sign .semicolon) then some <$> digits else pure none
          sign .closeBracket
          return .array element length
      | _ => failure

/-! ## Expressions and places -/

/-- The operator of two operands that a token stands for between them. -/
def binOp? : Token → Option BinOp
  | .sign .barBar => some .logicalOr
  | .sign .ampAmp => some .logicalAnd
  | .sign .bar => some .or
  | .sign .caret => some .xor
  | .sign .amp => some .and
  | .sign .equalsEquals => some .eq
  | .sign .bangEquals => some .ne
  | .sign .less => some .lt
  | .sign .lessEquals => some .le
  | .sign .greater => some .gt
  | .sign .greaterEquals => some .ge
  | .sign .lessLess => some .shl
  | .sign .greaterGreater => some .shr
  | .sign .plus => some .add
  | .sign .minus => some .sub
  | .sign .star => some .mul
  | .sign .slash => some .div
  | .sign .percent => some .rem
  | _ => none

/-- The operator of one operand that a token stands for in front of it. -/
def unOp? : Token → Option UnOp
  | .sign .minus => some .neg
  | .sign .bang => some .not
  | .sign .tilde => some .bitNot
  | _ => none

mutual

/-- Takes an expression: operands joined by operators. -/
def expr : Nat → Parser Tree.Expr
  | 0 => failure
  | budget + 1 => do
      let first ← operand budget
      chain budget first

/-- Takes the rest of an expression that begins with `left`. -/
def chain : Nat → Tree.Expr → Parser Tree.Expr
  | 0, _ => failure
  | budget + 1, left => do
      match (← peek).bind binOp? with
      | some op =>
          let _ ← next
          let right ← operand budget
          chain budget (left.extend op right)
      | none => return left

/-- Takes an operand: a primary expression behind any number of operators. -/
def operand : Nat → Parser Tree.Expr
  | 0 => failure
  | budget + 1 => do
      match (← peek).bind unOp? with
      | some op =>
          let _ ← next
          return .unary op (← operand budget)
      | none => primary budget

/-- Takes a number, a variable, an address or a group in parentheses. -/
def primary : Nat → Parser Tree.Expr
  | 0 => failure
  | budget + 1 => do
      let l ← next
      match l.token with
      | .digits written => return .int ⟨written, l.line⟩
      | .word text => return .var ⟨text, l.line⟩
      | .sign .amp => return .addrOf (← place budget)
      | .sign .openParen =>
          let inner ← expr budget
          sign .closeParen
          return .group inner
      | _ => failure

/-- Takes a place. Stars in front apply after everything behind. -/
def place : Nat → Parser Tree.Place
  | 0 => failure
  | budget + 1 => do
      let l ← next
      match l.token with
      | .sign .star => return .deref (← place budget)
      | .word text => suffixes budget (.var ⟨text, l.line⟩)
      | .sign .openParen =>
          let inner ← place budget
          sign .closeParen
          suffixes budget inner
      | _ => failure

def suffixes : Nat → Tree.Place → Parser Tree.Place
  | 0, _ => failure
  | budget + 1, inner => do
      match ← peek with
      | some (.sign .openBracket) =>
          let _ ← next
          let position ← expr budget
          sign .closeBracket
          suffixes budget (.index inner position)
      | some (.sign .dot) =>
          let _ ← next
          suffixes budget (.field inner (← name).text)
      | some (.sign .arrow) =>
          let _ ← next
          suffixes budget (.field (.deref inner) (← name).text)
      | _ => return inner

end

/-! ## Statements -/

def callTail (budget : Nat) : Parser (Tree.Callee × List Tree.Expr) := do
  let callee ←
    if ← accept (.sign .star) then Tree.Callee.indirect <$> primary budget
    else (fun n => Tree.Callee.direct n.text) <$> name
  let args ← parenthesised (expr budget) budget
  return (callee, args)

/-- Takes what follows the equals sign of a statement that defines `dst`. -/
def definition (budget : Nat) (dst : Tree.Name) : Parser Tree.Statement := do
  match ← peek with
  | some (.keyword .load) =>
      let _ ← next
      return .load dst (← place budget)
  | some (.keyword .cast) =>
      let _ ← next
      sign .less
      let ty ← ty budget
      sign .greater
      return .cast dst ty (← expr budget)
  | some (.keyword .call) =>
      let _ ← next
      let (callee, args) ← callTail budget
      return .call (some dst) callee args
  | _ => return .assign dst (← expr budget)

def statementBody (budget : Nat) : Parser Tree.Statement := do
  let l ← next
  match l.token with
  | .word text =>
      sign .equals
      definition budget ⟨text, l.line⟩
  | .keyword .store =>
      let place ← place budget
      sign .comma
      return .store place (← expr budget)
  | .keyword .call =>
      let (callee, args) ← callTail budget
      return .call none callee args
  | .keyword .opaqueCode =>
      let touched ← parenthesised name budget
      return .opaqueCode touched (← string)
  | _ => failure

def statement (budget : Nat) : Parser Tree.Statement := do
  let s ← statementBody budget
  sign .semicolon
  return s

def beginsStatement : Token → Bool
  | .word _ | .keyword .store | .keyword .call | .keyword .opaqueCode => true
  | _ => false

def terminatorBody (budget : Nat) : Parser Tree.Terminator := do
  let l ← next
  match l.token with
  | .keyword .br =>
      let condition ← expr budget
      sign .comma
      let thenBlock ← name
      sign .comma
      let elseBlock ← name
      return .branch condition thenBlock elseBlock
  | .keyword .jump => return .jump (← name)
  | .keyword .ret =>
      if (← peek) = some (.sign .semicolon) then return .ret none
      else return .ret (some (← expr budget))
  | _ => failure

def terminator (budget : Nat) : Parser Tree.Terminator := do
  let t ← terminatorBody budget
  sign .semicolon
  return t

/-- Takes a block: its label, its statements and its terminator. -/
def block (budget : Nat) : Parser Tree.Block := do
  let label ← name
  sign .colon
  let statements ← whileNext beginsStatement (statement budget) budget
  return ⟨label.text, statements, ← terminator budget⟩

/-! ## Functions -/

def declaration (budget : Nat) : Parser Tree.Declaration := do
  let n ← name
  sign .colon
  return ⟨n.text, ← ty budget⟩

def localDeclaration (budget : Nat) : Parser Tree.Declaration := do
  keyword .let
  let d ← declaration budget
  sign .semicolon
  return d

def function (budget : Nat) : Parser Tree.Function := do
  keyword .fn
  let n ← name
  let params ← parenthesised (declaration budget) budget
  let returns ← if ← accept (.sign .arrow) then some <$> ty budget else pure none
  sign .openBrace
  let locals ← whileNext (· = .keyword .let) (localDeclaration budget) budget
  let blocks ← whileNext (· matches .word _) (block budget) budget
  sign .closeBrace
  return ⟨n.text, params, returns, locals, blocks⟩

end Parser

/-- Parses the tokens of a whole text. The recursion takes at most three steps
to a token, so the budget is never used up. -/
def Tree.parseTokens (tokens : List Lexeme) : Option (List Tree.Function) :=
  let budget := 4 * tokens.length + 4
  let functions := Parser.whileNext (fun _ => true) (Parser.function budget) budget
  (functions.run tokens).bind fun (fs, rest) => if rest.isEmpty then some fs else none

def Tree.parse (text : String) : Option (List Tree.Function) :=
  (scan text).bind Tree.parseTokens

end TaintAnalysis.Source
