import TaintAnalysis.Proofs.Source.Printing
import TaintAnalysis.Proofs.Source.Recognition

/-!
# Parsing the tokens of a program

The tokens of each construct are a phrase of the grammar, and its syntax tree is the tree
of the construct. In an expression every operation of two operands stands in parentheses,
so each operand of the grammar is a whole expression. A place from which an address is
followed stands in parentheses too.
-/

namespace TaintAnalysis

open Source

/-! ## Syntax trees -/

mutual

def Expr.tree (line : Nat) : Expr → Tree.Expr
  | .var v => .var ⟨VarId.text v, line⟩
  | .const value => .int ⟨toString value.toInt.toNat, line⟩
  | .unary op e => .unary op (e.tree line)
  | .binary op l r => .group (.binary op (l.tree line) (r.tree line))
  | .addrOf p => .addrOf (p.tree line)

def Place.tree (line : Nat) : Place → Tree.Place
  | .var v => .var ⟨VarId.text v, line⟩
  | .deref p => .deref (p.tree line)
  | .index p e => .index (p.tree line) (e.tree line)
  | .field p name => .field (p.tree line) name

end

def Ty.tree (line : Nat) : Ty → Tree.Ty
  | .int bits => .int bits
  | .pointer target => .pointer (target.tree line)
  | .array element length =>
      .array (element.tree line) (length.map fun n => ⟨toString n, line⟩)
  | .struct name => .struct name
  | .void => .void

def Instruction.tree (line : Nat) : Instruction → Tree.Statement
  | .assign dst e => .assign ⟨VarId.text dst, line⟩ (e.tree line)
  | .load dst p => .load ⟨VarId.text dst, line⟩ (p.tree line)
  | .store p e => .store (p.tree line) (e.tree line)
  | .cast dst e ty => .cast ⟨VarId.text dst, line⟩ (ty.tree line) (e.tree line)
  | .call dst callee args =>
      .call (dst.map fun v => ⟨VarId.text v, line⟩)
        (match callee with | .direct name => .direct name | .indirect e => .indirect (e.tree line))
        (args.map (Expr.tree line))
  | .opaqueCode touched reason => .opaqueCode (touched.map fun v => ⟨VarId.text v, line⟩) reason

def Terminator.tree (line : Nat) : Terminator → Tree.Terminator
  | .jump target => .jump ⟨BlockId.text target, line⟩
  | .branch condition thenBlock elseBlock =>
      .branch (condition.tree line) ⟨BlockId.text thenBlock, line⟩ ⟨BlockId.text elseBlock, line⟩
  | .ret value => .ret (value.map (Expr.tree line))
  | .missing => .ret none

def Block.tree (line : Nat) (label : BlockId) (b : Block) : Tree.Block :=
  ⟨BlockId.text label, b.instructions.map (Instruction.tree line), b.terminator.tree line⟩

def Variable.tree (line : Nat) (x : Variable) : Tree.Declaration :=
  ⟨x.name, x.ty.tree line⟩

def Function.tree (line : Nat) (f : Function) : Tree.Function :=
  ⟨f.name, (f.varsOf .param).map (Variable.tree line), some (f.returns.tree line),
    (f.varsOf .local).map (Variable.tree line),
    f.blocks.entries.map fun e => e.2.tree line e.1⟩

namespace Source

/-! ## Types, expressions and places -/

theorem intWidth?_of_mem {bits : Nat} (h : bits ∈ [8, 16, 32, 64]) :
    Parser.intWidth? ("i" ++ toString bits) = some bits := by
  simp only [List.mem_cons, List.not_mem_nil, or_false] at h
  rcases h with rfl | rfl | rfl | rfl <;> rfl

theorem tyPhrase_tree (line : Nat) : ∀ {t : TaintAnalysis.Ty}, t.Printable →
    TyPhrase (t.tree line) (onLine line t.tokens)
  | .int _, ht => .int (intWidth?_of_mem ht)
  | .pointer target, ht => .pointer (tyPhrase_tree line (t := target) ht)
  | .array element (some _), ht => by
      simpa [Ty.tokens, Ty.tree] using TyPhrase.array (tyPhrase_tree line (t := element) ht.1)
  | .array element none, ht => by
      simpa [Ty.tokens, Ty.tree] using TyPhrase.slice (tyPhrase_tree line (t := element) ht.1)
  | .struct _, _ => .struct
  | .void, _ => .void

theorem binOp?_sign (op : BinOp) : Parser.binOp? (.sign op.sign) = some op := by
  cases op <;> rfl

theorem unOp?_sign (op : UnOp) : Parser.unOp? (.sign op.sign) = some op := by
  cases op <;> rfl

mutual

theorem operandPhrase_tree : ∀ (line : Nat) (e : TaintAnalysis.Expr),
    OperandPhrase (e.tree line) (onLine line e.tokens)
  | _, .var _ => .primary .var
  | _, .const _ => .primary .int
  | line, .unary op e => .unary (unOp?_sign op) (operandPhrase_tree line e)
  | line, .binary op l r => by
      have hinner : ExprPhrase 0 _ (_ ++ ⟨_, line⟩ :: _) :=
        .binary (binOp?_sign op) (Nat.zero_le _) (.operand (operandPhrase_tree line l))
          (.operand (operandPhrase_tree line r))
      simpa [Expr.tokens, Expr.tree] using OperandPhrase.primary (.group hinner)
  | line, .addrOf p => .primary (.addrOf (.stem (stemPhrase_tree line p)))

theorem stemPhrase_tree : ∀ (line : Nat) (p : TaintAnalysis.Place),
    StemPhrase (p.tree line) (onLine line p.tokens)
  | _, .var _ => .var
  | line, .deref p => by
      simpa [Place.tokens, Place.tree] using
        StemPhrase.group (.deref (.stem (stemPhrase_tree line p)))
  | line, .index p e => by
      simpa [Place.tokens, Place.tree] using
        StemPhrase.index (stemPhrase_tree line p) (.operand (operandPhrase_tree line e))
  | line, .field p _ => by
      simpa [Place.tokens, Place.tree] using StemPhrase.field (stemPhrase_tree line p)

end

theorem exprPhrase_tree (line : Nat) (e : TaintAnalysis.Expr) :
    ExprPhrase 0 (e.tree line) (onLine line e.tokens) :=
  .operand (operandPhrase_tree line e)

theorem placePhrase_tree (line : Nat) (p : TaintAnalysis.Place) :
    PlacePhrase (p.tree line) (onLine line p.tokens) :=
  .stem (stemPhrase_tree line p)

/-! ## Sequences -/

section

variable {α β : Type} {phrase : β → List Lexeme → Prop} {tokens : α → List Token} {tree : α → β}
  {line : Nat}

theorem separated_withCommas : ∀ {l : List α}, l ≠ [] →
    (∀ x ∈ l, phrase (tree x) (onLine line (tokens x))) →
    Separated phrase (l.map tree) (onLine line (withCommas (l.map tokens)))
  | [x], _, h => by simpa [withCommas] using Separated.last (h x List.mem_cons_self)
  | x :: y :: l, _, h => by
      obtain ⟨hx, hrest⟩ := List.forall_mem_cons.mp h
      simpa [withCommas, List.intercalate_cons_cons] using
        Separated.comma hx (separated_withCommas (List.cons_ne_nil y l) hrest)

theorem enclosed_withCommas {l : List α} (h : ∀ x ∈ l, phrase (tree x) (onLine line (tokens x))) :
    Enclosed phrase (l.map tree) (onLine line
      (.sign .openParen :: (withCommas (l.map tokens) ++ [.sign .closeParen]))) := by
  cases l with
  | nil => exact .none
  | cons x l =>
      simpa using Enclosed.some (separated_withCommas (List.cons_ne_nil x l) h)

theorem ended_semicolon {a : β} {ts : List Token} (h : phrase a (onLine line ts)) :
    Ended phrase a (onLine line (ts ++ [.sign .semicolon])) := by
  simpa using Ended.semicolon h

theorem repeated_flatMap {l : List α} (h : ∀ x ∈ l, phrase (tree x) (onLine line (tokens x))) :
    Repeated phrase (l.map tree) (onLine line (l.flatMap tokens)) := by
  induction l with
  | nil => exact .nil
  | cons x l ih =>
      obtain ⟨hx, hl⟩ := List.forall_mem_cons.mp h
      simpa using Repeated.cons hx (ih hl)

end

/-! ## Statements -/

section

variable {count : Nat} {targets : List BlockId}

theorem statementPhrase_tree (line : Nat) {i : TaintAnalysis.Instruction}
    (hi : i.Printable count) : StatementPhrase (i.tree line) (onLine line i.tokens) := by
  cases i with
  | assign dst e => exact .define (.assign (exprPhrase_tree line e))
  | load dst p => exact .define (.load (placePhrase_tree line p))
  | store p e =>
      simpa [Instruction.tokens, Instruction.tree] using
        StatementPhrase.store (placePhrase_tree line p) (exprPhrase_tree line e)
  | cast dst e ty =>
      have hcast (dst : Tree.Name) : DefinitionPhrase dst _
          (⟨_, line⟩ :: ⟨_, line⟩ :: (_ ++ ⟨_, line⟩ :: _)) :=
        .cast (tyPhrase_tree line hi.2.2) (exprPhrase_tree line e)
      simpa [Instruction.tokens, Instruction.tree] using StatementPhrase.define (hcast _)
  | call dst callee args =>
      cases callee with
      | indirect target => exact hi.elim
      | direct name =>
          have hargs := enclosed_withCommas (l := args) fun e _ => exprPhrase_tree line e
          cases dst with
          | none =>
              simpa [Instruction.tokens, Instruction.tree, Callee.name?] using
                StatementPhrase.call (.direct hargs)
          | some v =>
              simpa [Instruction.tokens, Instruction.tree, Callee.name?] using
                StatementPhrase.define (.call (.direct hargs))
  | opaqueCode touched reason => exact hi.elim

theorem terminatorPhrase_tree (line : Nat) {t : TaintAnalysis.Terminator}
    (ht : t.Printable count targets) : TerminatorPhrase (t.tree line) (onLine line t.tokens) := by
  rcases t with target | ⟨condition, thenBlock, elseBlock⟩ | (_ | value) | _
  case jump => exact .jump
  case branch =>
    simpa [Terminator.tokens, Terminator.tree] using
      TerminatorPhrase.branch (exprPhrase_tree line condition)
  case ret.none => exact .retVoid
  case ret.some => exact .retValue (exprPhrase_tree line value)
  case missing => exact ht.elim

theorem blockPhrase_tree (line : Nat) {b : TaintAnalysis.Block}
    (hb : b.Printable count targets) (label : BlockId) :
    BlockPhrase (b.tree line label) (onLine line (Block.labelled (label, b))) := by
  have hstatements : Repeated (Ended StatementPhrase) (b.instructions.map (Instruction.tree line))
      (onLine line (b.instructions.flatMap Instruction.statement)) :=
    repeated_flatMap fun i hi => ended_semicolon (statementPhrase_tree line (hb.1 i hi))
  have hterminator := ended_semicolon (terminatorPhrase_tree line hb.2)
  simpa [Block.labelled, Block.tokens, Block.tree] using BlockPhrase.block hstatements hterminator

end

/-! ## Functions -/

theorem functionPhrase_tree (line : Nat) {f : TaintAnalysis.Function} (hf : f.Printable) :
    FunctionPhrase (f.tree line) (onLine line f.tokens) := by
  have hdeclared (kind : VarKind) (x : Variable) (hx : x ∈ f.varsOf kind) :
      DeclarationPhrase (x.tree line) (onLine line x.tokens) :=
    .colon (tyPhrase_tree line (hf.types x (List.mem_filter.mp hx).1))
  have hparams := enclosed_withCommas (hdeclared .param)
  have hlocals : Repeated (Ended LocalPhrase) ((f.varsOf .local).map (Variable.tree line))
      (onLine line ((f.varsOf .local).flatMap Variable.localTokens)) :=
    repeated_flatMap fun x hx =>
      have hlocal : LocalPhrase (x.tree line) (onLine line (.keyword .let :: x.tokens)) :=
        .declare (hdeclared .local x hx)
      ended_semicolon hlocal
  have hblocks : Repeated BlockPhrase (f.blocks.entries.map fun e => e.2.tree line e.1)
      (onLine line (f.blocks.entries.flatMap Block.labelled)) :=
    repeated_flatMap fun e he =>
      blockPhrase_tree line (hf.blocks e.2 (List.mem_map_of_mem he)) e.1
  have hreturns : ReturnsPhrase (some (f.returns.tree line)) (⟨_, line⟩ :: _) :=
    .arrow (tyPhrase_tree line hf.returns)
  have hfunction : FunctionPhrase (f.tree line) (⟨_, line⟩ :: ⟨.word f.name, line⟩ :: (_ ++ (_ ++
      ⟨_, line⟩ :: (_ ++ (_ ++ [⟨_, line⟩]))))) :=
    .function hparams hreturns hlocals hblocks
  simpa [Function.tokens] using hfunction

end Source

/-- The text of a printable program is parsed as the syntax trees of its functions. -/
theorem Program.Printable.parse {p : Program} (hp : p.Printable) :
    Tree.parse p.source = some (p.functions.map (Function.tree 1)) := by
  have hfunctions := repeated_flatMap fun f hf => functionPhrase_tree 1 (hp f hf)
  rw [Tree.parse, hp.scan, Option.bind_some, Tree.parseTokens_of_phrase hfunctions]

end TaintAnalysis
