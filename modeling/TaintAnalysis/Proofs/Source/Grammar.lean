import TaintAnalysis.Program.Expr
import TaintAnalysis.Proofs.Source.Tokens

/-!
# The grammar of program texts

The grammar on characters. A rule is a pattern that is matched at the front of what is
left of a text. Alternatives are tried in order and the first one that matches is taken
for good, and a repetition takes as much as it can, so a pattern either matches in one
way or is refused.

What a rule has matched becomes a node of the parse tree, unless the rule is silent.
Between the parts of a rule there may be blanks and comments, unless the rule is a token;
then it leaves no nodes inside of its own either, with the exception of strings.

Matching is bounded by a budget. A budget that is too small is told apart from a text
that does not match.
-/

namespace TaintAnalysis.Source

/-! ## Rules -/

inductive Rule where
  | whitespace | comment | endOfInput
  | program | function | params | param | returnType | localVar | block
  | ty | intTy | voidTy | structTy | pointerTy | arrayTy
  | statement | loadStmt | castStmt | callStmt | storeStmt | opaqueStmt | assignStmt
  | dst | callee | indirect | args
  | terminator | branch | jump | ret
  | place | deref | placeAtom | suffixes | index | field | arrow
  | expr | primary | addrOf
  | anyUnary | unary (op : UnOp) | anyBinary | binary (op : BinOp)
  | int | string | stringText | ident | identChar | reserved | keyword (k : Keyword)
  deriving DecidableEq

/-- What a rule leaves in the parse tree, and what may stand between its parts. -/
inductive RuleKind where
  /-- Leaves a node. Between the parts there may be blanks, as around the rule. -/
  | normal
  /-- Leaves the nodes of its parts only. -/
  | silent
  /-- Leaves a node without children. Nothing may stand between the parts. -/
  | token
  /-- Leaves a node with children. Nothing may stand between the parts. -/
  | compound
  deriving DecidableEq

/-- What is going on around a pattern. -/
inductive Mode where
  /-- Between parts there may be blanks. -/
  | spaced
  /-- Inside a token, where no nodes are made. -/
  | inToken
  /-- Between parts there is nothing. -/
  | tight
  deriving DecidableEq

inductive Pattern where
  /-- The given characters. -/
  | text (spelling : List Char)
  /-- One character that passes a test. -/
  | char (test : Char → Bool)
  /-- The end of the text. -/
  | atEnd
  | rule (r : Rule)
  | seq (first second : Pattern)
  /-- The first pattern, or else the second one. -/
  | alt (first second : Pattern)
  | opt (p : Pattern)
  /-- Any number of times. -/
  | many (p : Pattern)
  /-- Any number of times behind something, which blanks may separate it from. -/
  | more (p : Pattern)
  /-- Matches nothing, where the pattern does not match. -/
  | not (p : Pattern)

namespace Pattern

def all : List Pattern → Pattern
  | [] => .text []
  | [p] => p
  | p :: ps => .seq p (all ps)

/-- The first of the patterns that matches. -/
def any : List Pattern → Pattern
  | [] => .not (.text [])
  | [p] => p
  | p :: ps => .alt p (any ps)

def sign (s : Sign) : Pattern :=
  .text s.spelling

def separated (p : Pattern) : Pattern :=
  .seq p (.many (.seq (sign .comma) p))

/-- What may stand between the parts of a rule. -/
def blanks : Pattern :=
  .seq (.many (.rule .whitespace)) (.many (.seq (.rule .comment) (.many (.rule .whitespace))))

def newline : Pattern :=
  any [.text ['\n'], .text ['\r', '\n'], .text ['\r']]

end Pattern

/-- All keywords, in the order in which they are tried. -/
def Keyword.list : List Keyword :=
  [.fn, .let, .load, .store, .cast, .call, .opaqueCode, .br, .jump, .ret, .struct, .void]

/-- The operators of two operands, in the order in which they are tried. -/
def BinOp.tried : List BinOp :=
  [.logicalOr, .logicalAnd, .or, .xor, .and, .eq, .ne, .shl, .le, .lt, .shr, .ge, .gt, .add, .sub,
    .mul, .div, .rem]

namespace Rule

def kind : Rule → RuleKind
  | whitespace | comment | params | statement | callee | args | terminator | placeAtom | suffixes
  | primary | anyUnary | anyBinary | identChar => .silent
  | intTy | voidTy | int | stringText | ident | reserved | keyword _ => .token
  | string => .compound
  | _ => .normal

open Pattern in
def pattern : Rule → Pattern
  | whitespace => any [.text [' '], .text ['\t'], newline]
  | comment => .seq (.text ['/', '/']) (.many (.seq (.not newline) (.char fun _ => true)))
  | endOfInput => .atEnd
  -- what stands in front is the beginning of the text
  | program => all [.text [], .many (.rule function), .rule endOfInput]
  | function =>
      all [.rule (keyword .fn), .rule ident, sign .openParen, .opt (.rule params), sign .closeParen,
        .opt (.rule returnType), sign .openBrace, .many (.rule localVar), .many (.rule block),
        sign .closeBrace]
  | params => separated (.rule param)
  | param => all [.rule ident, sign .colon, .rule ty]
  | returnType => .seq (sign .arrow) (.rule ty)
  | localVar =>
      all [.rule (keyword .let), .rule ident, sign .colon, .rule ty, sign .semicolon]
  | block => all [.rule ident, sign .colon, .many (.rule statement), .rule terminator]
  | ty => any [.rule intTy, .rule voidTy, .rule structTy, .rule pointerTy, .rule arrayTy]
  | intTy =>
      all [.text ['i'], any [.text ['8'], .text ['1', '6'], .text ['3', '2'], .text ['6', '4']],
        .not (.rule identChar)]
  | voidTy => .seq (.text Keyword.void.word.toList) (.not (.rule identChar))
  | structTy => .seq (.rule (keyword .struct)) (.rule ident)
  | pointerTy => .seq (sign .star) (.rule ty)
  | arrayTy =>
      all [sign .openBracket, .rule ty, .opt (.seq (sign .semicolon) (.rule int)),
        sign .closeBracket]
  | statement =>
      any [.rule loadStmt, .rule castStmt, .rule callStmt, .rule storeStmt, .rule opaqueStmt,
        .rule assignStmt]
  | loadStmt =>
      all [.rule ident, sign .equals, .rule (keyword .load), .rule place, sign .semicolon]
  | castStmt =>
      all [.rule ident, sign .equals, .rule (keyword .cast), sign .less, .rule ty, sign .greater,
        .rule expr, sign .semicolon]
  | callStmt =>
      all [.opt (.seq (.rule dst) (sign .equals)), .rule (keyword .call), .rule callee,
        sign .openParen, .opt (.rule args), sign .closeParen, sign .semicolon]
  | storeStmt =>
      all [.rule (keyword .store), .rule place, sign .comma, .rule expr, sign .semicolon]
  | opaqueStmt =>
      all [.rule (keyword .opaqueCode), sign .openParen, .opt (separated (.rule ident)),
        sign .closeParen, .rule string, sign .semicolon]
  | assignStmt => all [.rule ident, sign .equals, .rule expr, sign .semicolon]
  | dst => .rule ident
  | callee => .alt (.rule indirect) (.rule ident)
  | indirect => .seq (sign .star) (.rule primary)
  | args => separated (.rule expr)
  | terminator => any [.rule branch, .rule jump, .rule ret]
  | branch =>
      all [.rule (keyword .br), .rule expr, sign .comma, .rule ident, sign .comma, .rule ident,
        sign .semicolon]
  | jump => all [.rule (keyword .jump), .rule ident, sign .semicolon]
  | ret => all [.rule (keyword .ret), .opt (.rule expr), sign .semicolon]
  | place => all [.many (.rule deref), .rule placeAtom, .many (.rule suffixes)]
  | deref => sign .star
  | placeAtom => .alt (.rule ident) (all [sign .openParen, .rule place, sign .closeParen])
  | suffixes => any [.rule index, .rule field, .rule arrow]
  | index => all [sign .openBracket, .rule expr, sign .closeBracket]
  | field => .seq (sign .dot) (.rule ident)
  | arrow => .seq (sign .arrow) (.rule ident)
  | expr =>
      all [.many (.rule anyUnary), .rule primary,
        .many (all [.rule anyBinary, .many (.rule anyUnary), .rule primary])]
  | primary =>
      any [.rule int, .rule addrOf, .rule ident,
        all [sign .openParen, .rule expr, sign .closeParen]]
  | addrOf => .seq (sign .amp) (.rule place)
  | anyUnary => any [.rule (unary .neg), .rule (unary .not), .rule (unary .bitNot)]
  | unary op => .text op.symbol.toList
  | anyBinary => any (BinOp.tried.map fun op => .rule (binary op))
  | binary op => .text op.symbol.toList
  | int => .seq (.char Char.isDigit) (.many (.char Char.isDigit))
  | string => all [.text ['"'], .rule stringText, .text ['"']]
  | stringText => .many (.seq (.not (.text ['"'])) (.char fun _ => true))
  | ident =>
      all [.not (.rule reserved), .char isWordStart, .many (.rule identChar)]
  | identChar => .char isWordChar
  | reserved =>
      .seq (any (Keyword.list.map fun k => .text k.word.toList)) (.not (.rule identChar))
  | keyword k => .seq (.text k.word.toList) (.not (.rule identChar))

end Rule

/-! ## Matching -/

/-- What is left of a text, and the line it starts on. -/
structure Input where
  line : Nat
  chars : List Char

/-- Takes characters from the front. -/
def Input.advance (i : Input) (n : Nat) : Input :=
  ⟨i.line + (i.chars.take n).count '\n', i.chars.drop n⟩

/-- A node of a parse tree: what a rule has matched, and where. -/
structure Node where
  rule : Rule
  text : String
  line : Nat
  children : List Node

inductive Outcome where
  /-- The budget was too small. -/
  | exhausted
  | refused
  | matched (nodes : List Node) (rest : Input)

def Outcome.andThen (o : Outcome) (next : List Node → Input → Outcome) : Outcome :=
  match o with
  | matched nodes rest => next nodes rest
  | other => other

def Outcome.orElse (o next : Outcome) : Outcome :=
  match o with
  | refused => next
  | other => other

/-- What is going on inside of a rule. -/
def RuleKind.inside : RuleKind → Mode → Mode
  | normal, m | silent, m => m
  | token, _ => .inToken
  | compound, _ => .tight

def RuleKind.leavesNode : RuleKind → Mode → Bool
  | silent, _ => false
  | compound, _ => true
  | normal, m | token, m => m ≠ .inToken

/-- The node that a rule leaves between two places of a text. -/
def Node.between (r : Rule) (children : List Node) (i rest : Input) : Node :=
  ⟨r, String.ofList (i.chars.take (i.chars.length - rest.chars.length)), i.line, children⟩

/-- Matches a pattern at the front of what is left of a text. -/
def Pattern.run : Nat → Mode → Pattern → Input → Outcome
  | 0, _, _, _ => .exhausted
  | n + 1, m, p, i =>
      -- takes the blanks in front of the next part
      let skip (i : Input) : Outcome :=
        if m = .spaced then run n .inToken blanks i else .matched [] i
      let repeated (p : Pattern) (nodes : List Node) (i : Input) : Outcome :=
        (run n m (.more p) i).andThen fun nodes' rest => .matched (nodes ++ nodes') rest
      match p with
      | .text spelling =>
          if spelling.isPrefixOf i.chars then .matched [] (i.advance spelling.length) else .refused
      | .char test => if i.chars.head?.any test then .matched [] (i.advance 1) else .refused
      | .atEnd => if i.chars.isEmpty then .matched [] i else .refused
      | .rule r =>
          (run n (r.kind.inside m) r.pattern i).andThen fun nodes rest =>
            .matched (if r.kind.leavesNode m then [.between r nodes i rest] else nodes) rest
      | .seq p q =>
          (run n m p i).andThen fun nodes i => (skip i).andThen fun _ i =>
            (run n m q i).andThen fun nodes' rest => .matched (nodes ++ nodes') rest
      | .alt p q => (run n m p i).orElse (run n m q i)
      | .opt p => (run n m p i).orElse (.matched [] i)
      | .many p => ((run n m p i).andThen (repeated p)).orElse (.matched [] i)
      | .more p =>
          ((skip i).andThen fun _ i => (run n m p i).andThen (repeated p)).orElse (.matched [] i)
      | .not p =>
          match run n m p i with
          | .matched _ _ => .refused
          | .refused => .matched [] i
          | .exhausted => .exhausted

end TaintAnalysis.Source
