import TaintAnalysis.Source.Parser

/-!
# The phrases of program texts

The grammar of program texts, on tokens. For each construct there is a relation
between a syntax tree and the tokens that spell it. The relations say nothing about
how a text is taken apart: no budget, no lookahead, and no order in which
alternatives are tried.

Expressions have a level. A phrase of a level has no operator in it that binds less
tightly than the level says, except inside parentheses, brackets and calls. The left
operand of an operator is a phrase of the operator's own level, and the right operand
one of the next level, so operators of one level group to the left. What a parser
adds at the right end of a chain with `Tree.Expr.extend` keeps these levels.
-/

namespace TaintAnalysis.Source

/-! ## Sequences -/

section

variable {α : Type}

/-- One phrase or more, with commas between them. -/
inductive Separated (item : α → List Lexeme → Prop) : List α → List Lexeme → Prop where
  | last {a : α} {ls : List Lexeme} : item a ls → Separated item [a] ls
  | comma {a : α} {as : List α} {ls rest : List Lexeme} {line : Nat} :
      item a ls → Separated item as rest →
        Separated item (a :: as) (ls ++ ⟨.sign .comma, line⟩ :: rest)

/-- Phrases separated by commas, in parentheses. -/
inductive Enclosed (item : α → List Lexeme → Prop) : List α → List Lexeme → Prop where
  | none {line line' : Nat} :
      Enclosed item [] [⟨.sign .openParen, line⟩, ⟨.sign .closeParen, line'⟩]
  | some {as : List α} {ls : List Lexeme} {line line' : Nat} : Separated item as ls →
      Enclosed item as (⟨.sign .openParen, line⟩ :: (ls ++ [⟨.sign .closeParen, line'⟩]))

/-- Any number of phrases, one after the other. -/
inductive Repeated (item : α → List Lexeme → Prop) : List α → List Lexeme → Prop where
  | nil : Repeated item [] []
  | cons {a : α} {as : List α} {ls rest : List Lexeme} :
      item a ls → Repeated item as rest → Repeated item (a :: as) (ls ++ rest)

/-- A phrase and the semicolon that ends it. -/
inductive Ended (item : α → List Lexeme → Prop) : α → List Lexeme → Prop where
  | semicolon {a : α} {ls : List Lexeme} {line : Nat} :
      item a ls → Ended item a (ls ++ [⟨.sign .semicolon, line⟩])

end

/-! ## Types, expressions and places -/

inductive TyPhrase : Tree.Ty → List Lexeme → Prop where
  | int {text : String} {bits line : Nat} : Parser.intWidth? text = some bits →
      TyPhrase (.int bits) [⟨.word text, line⟩]
  | void {line : Nat} : TyPhrase .void [⟨.keyword .void, line⟩]
  | struct {name : String} {line line' : Nat} :
      TyPhrase (.struct name) [⟨.keyword .struct, line⟩, ⟨.word name, line'⟩]
  | pointer {target : Tree.Ty} {ls : List Lexeme} {line : Nat} :
      TyPhrase target ls → TyPhrase (.pointer target) (⟨.sign .star, line⟩ :: ls)
  | slice {element : Tree.Ty} {ls : List Lexeme} {line line' : Nat} : TyPhrase element ls →
      TyPhrase (.array element none)
        (⟨.sign .openBracket, line⟩ :: (ls ++ [⟨.sign .closeBracket, line'⟩]))
  | array {element : Tree.Ty} {ls : List Lexeme} {written : String}
      {line line₁ line₂ line₃ : Nat} : TyPhrase element ls →
      TyPhrase (.array element (some ⟨written, line₂⟩))
        (⟨.sign .openBracket, line⟩ :: (ls ++
          [⟨.sign .semicolon, line₁⟩, ⟨.digits written, line₂⟩, ⟨.sign .closeBracket, line₃⟩]))

mutual

/-- An expression that is no operation. -/
inductive PrimaryPhrase : Tree.Expr → List Lexeme → Prop where
  | int {written : String} {line : Nat} :
      PrimaryPhrase (.int ⟨written, line⟩) [⟨.digits written, line⟩]
  | var {name : String} {line : Nat} :
      PrimaryPhrase (.var ⟨name, line⟩) [⟨.word name, line⟩]
  | addrOf {p : Tree.Place} {ls : List Lexeme} {line : Nat} :
      PlacePhrase p ls → PrimaryPhrase (.addrOf p) (⟨.sign .amp, line⟩ :: ls)
  | group {e : Tree.Expr} {ls : List Lexeme} {line line' : Nat} : ExprPhrase 0 e ls →
      PrimaryPhrase (.group e) (⟨.sign .openParen, line⟩ :: (ls ++ [⟨.sign .closeParen, line'⟩]))

/-- A primary expression behind any number of operators. -/
inductive OperandPhrase : Tree.Expr → List Lexeme → Prop where
  | primary {e : Tree.Expr} {ls : List Lexeme} : PrimaryPhrase e ls → OperandPhrase e ls
  | unary {op : UnOp} {e : Tree.Expr} {t : Token} {ls : List Lexeme} {line : Nat} :
      Parser.unOp? t = some op → OperandPhrase e ls → OperandPhrase (.unary op e) (⟨t, line⟩ :: ls)

/-- An expression whose operators outside of parentheses bind at least as tightly as a level. -/
inductive ExprPhrase : Nat → Tree.Expr → List Lexeme → Prop where
  | operand {level : Nat} {e : Tree.Expr} {ls : List Lexeme} :
      OperandPhrase e ls → ExprPhrase level e ls
  | binary {level : Nat} {op : BinOp} {left right : Tree.Expr} {t : Token} {ls rest : List Lexeme}
      {line : Nat} : Parser.binOp? t = some op → level ≤ op.level →
      ExprPhrase op.level left ls → ExprPhrase (op.level + 1) right rest →
        ExprPhrase level (.binary op left right) (ls ++ ⟨t, line⟩ :: rest)

/-- A place that elements and fields can be taken of. -/
inductive StemPhrase : Tree.Place → List Lexeme → Prop where
  | var {name : String} {line : Nat} : StemPhrase (.var ⟨name, line⟩) [⟨.word name, line⟩]
  | group {p : Tree.Place} {ls : List Lexeme} {line line' : Nat} : PlacePhrase p ls →
      StemPhrase p (⟨.sign .openParen, line⟩ :: (ls ++ [⟨.sign .closeParen, line'⟩]))
  | index {p : Tree.Place} {e : Tree.Expr} {ls rest : List Lexeme} {line line' : Nat} :
      StemPhrase p ls → ExprPhrase 0 e rest →
        StemPhrase (.index p e)
          (ls ++ ⟨.sign .openBracket, line⟩ :: (rest ++ [⟨.sign .closeBracket, line'⟩]))
  | field {p : Tree.Place} {name : String} {ls : List Lexeme} {line line' : Nat} :
      StemPhrase p ls →
        StemPhrase (.field p name) (ls ++ [⟨.sign .dot, line⟩, ⟨.word name, line'⟩])
  | arrow {p : Tree.Place} {name : String} {ls : List Lexeme} {line line' : Nat} :
      StemPhrase p ls →
        StemPhrase (.field (.deref p) name) (ls ++ [⟨.sign .arrow, line⟩, ⟨.word name, line'⟩])

inductive PlacePhrase : Tree.Place → List Lexeme → Prop where
  | stem {p : Tree.Place} {ls : List Lexeme} : StemPhrase p ls → PlacePhrase p ls
  | deref {p : Tree.Place} {ls : List Lexeme} {line : Nat} :
      PlacePhrase p ls → PlacePhrase (.deref p) (⟨.sign .star, line⟩ :: ls)

end

/-! ## Statements -/

/-- What is called, and the arguments. -/
inductive CallPhrase : Tree.Callee → List Tree.Expr → List Lexeme → Prop where
  | direct {name : String} {args : List Tree.Expr} {ls : List Lexeme} {line : Nat} :
      Enclosed (ExprPhrase 0) args ls → CallPhrase (.direct name) args (⟨.word name, line⟩ :: ls)
  | indirect {target : Tree.Expr} {args : List Tree.Expr} {ls rest : List Lexeme} {line : Nat} :
      PrimaryPhrase target ls → Enclosed (ExprPhrase 0) args rest →
        CallPhrase (.indirect target) args (⟨.sign .star, line⟩ :: (ls ++ rest))

/-- A name that stands where a variable is expected. -/
inductive NamePhrase : Tree.Name → List Lexeme → Prop where
  | word {name : String} {line : Nat} : NamePhrase ⟨name, line⟩ [⟨.word name, line⟩]

/-- What follows the equals sign of a statement that defines a variable. -/
inductive DefinitionPhrase (dst : Tree.Name) : Tree.Statement → List Lexeme → Prop where
  | assign {e : Tree.Expr} {ls : List Lexeme} :
      ExprPhrase 0 e ls → DefinitionPhrase dst (.assign dst e) ls
  | load {p : Tree.Place} {ls : List Lexeme} {line : Nat} :
      PlacePhrase p ls → DefinitionPhrase dst (.load dst p) (⟨.keyword .load, line⟩ :: ls)
  | cast {ty : Tree.Ty} {e : Tree.Expr} {ls rest : List Lexeme} {line line₁ line₂ : Nat} :
      TyPhrase ty ls → ExprPhrase 0 e rest →
        DefinitionPhrase dst (.cast dst ty e)
          (⟨.keyword .cast, line⟩ :: ⟨.sign .less, line₁⟩ :: (ls ++ ⟨.sign .greater, line₂⟩ :: rest))
  | call {callee : Tree.Callee} {args : List Tree.Expr} {ls : List Lexeme} {line : Nat} :
      CallPhrase callee args ls →
        DefinitionPhrase dst (.call (some dst) callee args) (⟨.keyword .call, line⟩ :: ls)

/-- A statement without the semicolon at its end. -/
inductive StatementPhrase : Tree.Statement → List Lexeme → Prop where
  | define {name : String} {s : Tree.Statement} {ls : List Lexeme} {line line' : Nat} :
      DefinitionPhrase ⟨name, line⟩ s ls →
        StatementPhrase s (⟨.word name, line⟩ :: ⟨.sign .equals, line'⟩ :: ls)
  | store {p : Tree.Place} {e : Tree.Expr} {ls rest : List Lexeme} {line line' : Nat} :
      PlacePhrase p ls → ExprPhrase 0 e rest →
        StatementPhrase (.store p e)
          (⟨.keyword .store, line⟩ :: (ls ++ ⟨.sign .comma, line'⟩ :: rest))
  | call {callee : Tree.Callee} {args : List Tree.Expr} {ls : List Lexeme} {line : Nat} :
      CallPhrase callee args ls →
        StatementPhrase (.call none callee args) (⟨.keyword .call, line⟩ :: ls)
  | opaqueCode {touched : List Tree.Name} {reason : String} {ls : List Lexeme} {line line' : Nat} :
      Enclosed NamePhrase touched ls →
        StatementPhrase (.opaqueCode touched reason)
          (⟨.keyword .opaqueCode, line⟩ :: (ls ++ [⟨.string reason, line'⟩]))

/-- A terminator without the semicolon at its end. -/
inductive TerminatorPhrase : Tree.Terminator → List Lexeme → Prop where
  | jump {target : String} {line line' : Nat} :
      TerminatorPhrase (.jump ⟨target, line'⟩) [⟨.keyword .jump, line⟩, ⟨.word target, line'⟩]
  | branch {condition : Tree.Expr} {thenBlock elseBlock : String} {ls : List Lexeme}
      {line line₁ line₂ line₃ line₄ : Nat} : ExprPhrase 0 condition ls →
      TerminatorPhrase (.branch condition ⟨thenBlock, line₂⟩ ⟨elseBlock, line₄⟩)
        (⟨.keyword .br, line⟩ :: (ls ++ [⟨.sign .comma, line₁⟩, ⟨.word thenBlock, line₂⟩,
          ⟨.sign .comma, line₃⟩, ⟨.word elseBlock, line₄⟩]))
  | retVoid {line : Nat} : TerminatorPhrase (.ret none) [⟨.keyword .ret, line⟩]
  | retValue {e : Tree.Expr} {ls : List Lexeme} {line : Nat} :
      ExprPhrase 0 e ls → TerminatorPhrase (.ret (some e)) (⟨.keyword .ret, line⟩ :: ls)

inductive BlockPhrase : Tree.Block → List Lexeme → Prop where
  | block {label : String} {statements : List Tree.Statement} {terminator : Tree.Terminator}
      {ls rest : List Lexeme} {line line' : Nat} :
      Repeated (Ended StatementPhrase) statements ls → Ended TerminatorPhrase terminator rest →
        BlockPhrase ⟨label, statements, terminator⟩
          (⟨.word label, line⟩ :: ⟨.sign .colon, line'⟩ :: (ls ++ rest))

/-! ## Functions -/

inductive DeclarationPhrase : Tree.Declaration → List Lexeme → Prop where
  | colon {name : String} {ty : Tree.Ty} {ls : List Lexeme} {line line' : Nat} :
      TyPhrase ty ls →
        DeclarationPhrase ⟨name, ty⟩ (⟨.word name, line⟩ :: ⟨.sign .colon, line'⟩ :: ls)

/-- The declaration of a local variable without the semicolon at its end. -/
inductive LocalPhrase : Tree.Declaration → List Lexeme → Prop where
  | declare {d : Tree.Declaration} {ls : List Lexeme} {line : Nat} :
      DeclarationPhrase d ls → LocalPhrase d (⟨.keyword .let, line⟩ :: ls)

/-- The type of the result, which may be left out. -/
inductive ReturnsPhrase : Option Tree.Ty → List Lexeme → Prop where
  | none : ReturnsPhrase none []
  | arrow {ty : Tree.Ty} {ls : List Lexeme} {line : Nat} :
      TyPhrase ty ls → ReturnsPhrase (some ty) (⟨.sign .arrow, line⟩ :: ls)

inductive FunctionPhrase : Tree.Function → List Lexeme → Prop where
  | function {f : Tree.Function} {ps rs vs bs : List Lexeme} {line line₁ line₂ line₃ : Nat} :
      Enclosed DeclarationPhrase f.params ps → ReturnsPhrase f.returns rs →
      Repeated (Ended LocalPhrase) f.locals vs → Repeated BlockPhrase f.blocks bs →
        FunctionPhrase f (⟨.keyword .fn, line⟩ :: ⟨.word f.name, line₁⟩ :: (ps ++ (rs ++
          ⟨.sign .openBrace, line₂⟩ :: (vs ++ (bs ++ [⟨.sign .closeBrace, line₃⟩])))))

/-! ## Chains -/

/-- An operand is not a chain that an operator could be put into. -/
theorem OperandPhrase.extend {e : Tree.Expr} {ls : List Lexeme} (h : OperandPhrase e ls)
    (op : BinOp) (operand : Tree.Expr) : e.extend op operand = .binary op e operand := by
  cases h with
  | unary => rfl
  | primary h => cases h <;> rfl

/-- An operator that binds at least as tightly as a chain does keeps the level of the chain. -/
theorem ExprPhrase.extend {op : BinOp} {operand : Tree.Expr} {t : Token} {rest : List Lexeme}
    (line : Nat) (hop : Parser.binOp? t = some op) (hoperand : OperandPhrase operand rest) :
    ∀ {level : Nat} {chain : Tree.Expr} {ls : List Lexeme}, ExprPhrase level chain ls →
      level ≤ op.level → ExprPhrase level (chain.extend op operand) (ls ++ ⟨t, line⟩ :: rest)
  | _, _, _, .operand h, hlevel => by
      rw [h.extend]
      exact .binary hop hlevel (.operand h) (.operand hoperand)
  | _, _, _, .binary houter houterLevel hl hr, hlevel => by
      rw [Tree.Expr.extend]
      split
      · next htighter =>
        have hright := ExprPhrase.extend line hop hoperand hr htighter
        simpa using ExprPhrase.binary houter houterLevel hl hright
      · next hlooser =>
        refine .binary hop hlevel ?_ (.operand hoperand)
        exact .binary houter (Nat.le_of_not_lt hlooser) hl hr

end TaintAnalysis.Source
