import TaintAnalysis.Program.Basic
import TaintAnalysis.Proofs.Source.Tokens
import TaintAnalysis.Source.Scope

/-!
# Programs as texts

A program is written down by writing the texts of its types, expressions, places,
instructions and terminators where the grammar wants them. Its variables are called
as they are called in these texts: the variable with number `k` is declared as `vk`,
and the block with number `k` gets the label `bbk`.

Not every program can be written. The grammar has no negative constants, four widths
of integers, no name that is a reserved word, and the text of an opaque instruction
does not say what the instruction touches. A program is printable if all of it can be
written.

Each construct has a list of tokens, and its text is split into them.
-/

namespace TaintAnalysis

open Source

/-! ## What can be written -/

def Ty.Printable : Ty → Prop
  | .int bits => bits ∈ [8, 16, 32, 64]
  | .pointer target => target.Printable
  | .array element length => element.Printable ∧ ∀ n ∈ length, n ≤ maxLength
  | .struct name => IsName name
  | .void => True

mutual

/-- An expression over the first `count` variables without negative constants. -/
def Expr.Printable (count : Nat) : Expr → Prop
  | .var v => v < count
  | .const value => 0 ≤ value.toInt
  | .unary _ e => e.Printable count
  | .binary _ l r => l.Printable count ∧ r.Printable count
  | .addrOf p => p.Printable count

def Place.Printable (count : Nat) : Place → Prop
  | .var v => v < count
  | .deref p => p.Printable count
  | .index p e => p.Printable count ∧ e.Printable count
  | .field p name => p.Printable count ∧ IsName name

end

def Instruction.Printable (count : Nat) : Instruction → Prop
  | .assign dst e => dst < count ∧ e.Printable count
  | .load dst p => dst < count ∧ p.Printable count
  | .store p e => p.Printable count ∧ e.Printable count
  | .cast dst e ty => dst < count ∧ e.Printable count ∧ ty.Printable
  | .call dst (.direct name) args =>
      (∀ v ∈ dst, v < count) ∧ IsName name ∧ ∀ e ∈ args, e.Printable count
  | .call _ (.indirect _) _ | .opaqueCode .. => False

def Terminator.Printable (count : Nat) (targets : List BlockId) : Terminator → Prop
  | .jump target => target ∈ targets
  | .branch condition thenBlock elseBlock =>
      condition.Printable count ∧ thenBlock ∈ targets ∧ elseBlock ∈ targets
  | .ret value => ∀ e ∈ value, e.Printable count
  | .missing => False

def Block.Printable (count : Nat) (targets : List BlockId) (b : Block) : Prop :=
  (∀ i ∈ b.instructions, i.Printable count) ∧ b.terminator.Printable count targets

instance Ty.decidablePrintable : ∀ t : Ty, Decidable t.Printable
  | .int bits => inferInstanceAs (Decidable (bits ∈ [8, 16, 32, 64]))
  | .pointer target => target.decidablePrintable
  | .array element none =>
      have := element.decidablePrintable
      inferInstanceAs (Decidable (_ ∧ ∀ n ∈ (none : Option Nat), n ≤ maxLength))
  | .array element (some length) =>
      have := element.decidablePrintable
      inferInstanceAs (Decidable (_ ∧ ∀ n ∈ some length, n ≤ maxLength))
  | .struct name => inferInstanceAs (Decidable (IsName name))
  | .void => inferInstanceAs (Decidable True)

mutual

instance Expr.decidablePrintable (count : Nat) : ∀ e : Expr, Decidable (e.Printable count)
  | .var v => inferInstanceAs (Decidable (v < count))
  | .const value => inferInstanceAs (Decidable (0 ≤ value.toInt))
  | .unary _ e => e.decidablePrintable count
  | .binary _ l r =>
      have := l.decidablePrintable count
      have := r.decidablePrintable count
      inferInstanceAs (Decidable (_ ∧ _))
  | .addrOf p => p.decidablePrintable count

instance Place.decidablePrintable (count : Nat) : ∀ p : Place, Decidable (p.Printable count)
  | .var v => inferInstanceAs (Decidable (v < count))
  | .deref p => p.decidablePrintable count
  | .index p e =>
      have := p.decidablePrintable count
      have := e.decidablePrintable count
      inferInstanceAs (Decidable (_ ∧ _))
  | .field p name =>
      have := p.decidablePrintable count
      inferInstanceAs (Decidable (_ ∧ IsName name))

end

instance (count : Nat) : ∀ i : Instruction, Decidable (i.Printable count)
  | .assign dst e => inferInstanceAs (Decidable (dst < count ∧ e.Printable count))
  | .load dst p => inferInstanceAs (Decidable (dst < count ∧ p.Printable count))
  | .store p e => inferInstanceAs (Decidable (p.Printable count ∧ e.Printable count))
  | .cast dst e ty =>
      inferInstanceAs (Decidable (dst < count ∧ e.Printable count ∧ ty.Printable))
  | .call dst (.direct name) args => inferInstanceAs (Decidable
      ((∀ v ∈ dst, v < count) ∧ IsName name ∧ ∀ e ∈ args, e.Printable count))
  | .call _ (.indirect _) _ | .opaqueCode .. => inferInstanceAs (Decidable False)

instance (count : Nat) (targets : List BlockId) :
    ∀ t : Terminator, Decidable (t.Printable count targets)
  | .jump target => inferInstanceAs (Decidable (target ∈ targets))
  | .branch condition thenBlock elseBlock => inferInstanceAs (Decidable
      (condition.Printable count ∧ thenBlock ∈ targets ∧ elseBlock ∈ targets))
  | .ret value => inferInstanceAs (Decidable (∀ e ∈ value, e.Printable count))
  | .missing => inferInstanceAs (Decidable False)

instance (count : Nat) (targets : List BlockId) (b : Block) :
    Decidable (b.Printable count targets) :=
  inferInstanceAs (Decidable (_ ∧ _))

/-! ## Tokens -/

def BinOp.sign : BinOp → Sign
  | .add => .plus | .sub => .minus | .mul => .star | .div => .slash | .rem => .percent
  | .and => .amp | .or => .bar | .xor => .caret | .shl => .lessLess | .shr => .greaterGreater
  | .logicalAnd => .ampAmp | .logicalOr => .barBar | .eq => .equalsEquals | .ne => .bangEquals
  | .lt => .less | .le => .lessEquals | .gt => .greater | .ge => .greaterEquals

def UnOp.sign : UnOp → Sign
  | .neg => .minus | .not => .bang | .bitNot => .tilde

def Ty.tokens : Ty → List Token
  | .int bits => [.word ("i" ++ toString bits)]
  | .pointer target => .sign .star :: target.tokens
  | .array element (some length) =>
      .sign .openBracket :: (element.tokens ++
        [.sign .semicolon, .digits (toString length), .sign .closeBracket])
  | .array element none => .sign .openBracket :: (element.tokens ++ [.sign .closeBracket])
  | .struct name => [.keyword .struct, .word name]
  | .void => [.keyword .void]

mutual

def Expr.tokens : Expr → List Token
  | .var v => [.word (VarId.text v)]
  | .const value => [.digits (toString value.toInt.toNat)]
  | .unary op e => .sign op.sign :: e.tokens
  | .binary op l r =>
      .sign .openParen :: (l.tokens ++ .sign op.sign :: (r.tokens ++ [.sign .closeParen]))
  | .addrOf p => .sign .amp :: p.tokens

def Place.tokens : Place → List Token
  | .var v => [.word (VarId.text v)]
  | .deref p => .sign .openParen :: .sign .star :: (p.tokens ++ [.sign .closeParen])
  | .index p e => p.tokens ++ .sign .openBracket :: (e.tokens ++ [.sign .closeBracket])
  | .field p name => p.tokens ++ [.sign .dot, .word name]

end

/-- Lists of tokens with commas between them. -/
def withCommas : List (List Token) → List Token :=
  List.intercalate [.sign .comma]

def Instruction.tokens : Instruction → List Token
  | .assign dst e => .word (VarId.text dst) :: .sign .equals :: e.tokens
  | .load dst p => .word (VarId.text dst) :: .sign .equals :: .keyword .load :: p.tokens
  | .store p e => .keyword .store :: (p.tokens ++ .sign .comma :: e.tokens)
  | .cast dst e ty =>
      .word (VarId.text dst) :: .sign .equals :: .keyword .cast :: .sign .less ::
        (ty.tokens ++ .sign .greater :: e.tokens)
  | .call dst callee args =>
      (match dst with | some v => [.word (VarId.text v), .sign .equals] | none => []) ++
        .keyword .call :: .word (callee.name?.getD "") :: .sign .openParen ::
          (withCommas (args.map Expr.tokens) ++ [.sign .closeParen])
  | .opaqueCode .. => []

def Terminator.tokens : Terminator → List Token
  | .jump target => [.keyword .jump, .word (BlockId.text target)]
  | .branch condition thenBlock elseBlock =>
      .keyword .br :: (condition.tokens ++
        [.sign .comma, .word (BlockId.text thenBlock), .sign .comma,
          .word (BlockId.text elseBlock)])
  | .ret (some value) => .keyword .ret :: value.tokens
  | .ret none => [.keyword .ret]
  | .missing => []

def Instruction.statement (i : Instruction) : List Token :=
  i.tokens ++ [.sign .semicolon]

def Block.tokens (b : Block) : List Token :=
  b.instructions.flatMap Instruction.statement ++ (b.terminator.tokens ++ [.sign .semicolon])

def Block.labelled (e : BlockId × Block) : List Token :=
  .word (BlockId.text e.1) :: .sign .colon :: e.2.tokens

def Variable.tokens (x : Variable) : List Token :=
  .word x.name :: .sign .colon :: x.ty.tokens

def Variable.localTokens (x : Variable) : List Token :=
  .keyword .let :: (x.tokens ++ [.sign .semicolon])

/-- The variables of a kind, in order. -/
def Function.varsOf (f : Function) (kind : VarKind) : List Variable :=
  f.vars.filter fun x => x.kind = kind

def Function.tokens (f : Function) : List Token :=
  .keyword .fn :: .word f.name :: .sign .openParen ::
    (withCommas ((f.varsOf .param).map Variable.tokens) ++
      .sign .closeParen :: .sign .arrow :: (f.returns.tokens ++
        .sign .openBrace ::
          ((f.varsOf .local).flatMap Variable.localTokens ++
            (f.blocks.entries.flatMap Block.labelled ++ [.sign .closeBrace]))))

/-! ## Texts of whole programs -/

def Block.source (b : Block) : String :=
  String.join (b.instructions.map fun i => i.text ++ "; ") ++ b.terminator.text ++ "; "

def Variable.source (x : Variable) : String :=
  x.name ++ ": " ++ x.ty.text

def Function.source (f : Function) : String :=
  "fn " ++ f.name ++ "(" ++ String.intercalate ", " ((f.varsOf .param).map Variable.source) ++
    ") -> " ++ f.returns.text ++ " \x7b " ++
    String.join ((f.varsOf .local).map fun x => "let " ++ x.source ++ "; ") ++
    String.join (f.blocks.entries.map fun e => BlockId.text e.1 ++ ": " ++ e.2.source) ++ "\x7d "

def Program.source (p : Program) : String :=
  String.join (p.functions.map Function.source)

/-- A function whose variables and blocks are called by their numbers. Its parameters are declared
before its local variables, it has no temporaries, and its blocks are numbered without gaps. -/
structure Function.Printable (f : Function) : Prop where
  name : IsName f.name
  returns : f.returns.Printable
  types : ∀ x ∈ f.vars, x.ty.Printable
  names : f.vars.map (·.name) = (List.range f.vars.length).map VarId.text
  kinds : f.vars = f.varsOf .param ++ f.varsOf .local
  entry : f.entry = 0
  nonempty : f.blocks.entries ≠ []
  keys : f.blocks.keys = (List.range f.blocks.size).map UInt32.ofNat
  next : f.nextBlock = UInt32.ofNat f.blocks.size
  blocks : ∀ b ∈ f.blocks.values, b.Printable f.vars.length f.blocks.keys

def Program.Printable (p : Program) : Prop :=
  ∀ f ∈ p.functions, f.Printable

/-! ## The characters of the texts -/

/-- The tokens with the line that all of them are on. -/
def onLine (line : Nat) (ts : List Token) : List Lexeme :=
  ts.map fun t => ⟨t, line⟩

@[simp] theorem onLine_nil (line : Nat) : onLine line [] = [] :=
  rfl

@[simp] theorem onLine_cons (line : Nat) (t : Token) (ts : List Token) :
    onLine line (t :: ts) = ⟨t, line⟩ :: onLine line ts :=
  rfl

@[simp] theorem onLine_append (line : Nat) (ts ts' : List Token) :
    onLine line (ts ++ ts') = onLine line ts ++ onLine line ts' :=
  List.map_append

/-- The characters are split into the tokens, wherever they stand. -/
def Spells (cs : List Char) (ts : List Token) : Prop :=
  ∀ ⦃line rest tail⦄, Ends rest → Scans line rest tail →
    Scans line (cs ++ rest) (onLine line ts ++ tail)

/-- The characters are split into the tokens, whatever follows them. -/
def Splits (cs : List Char) (ts : List Token) : Prop :=
  ∀ ⦃line rest tail⦄, Scans line rest tail → Scans line (cs ++ rest) (onLine line ts ++ tail)

theorem splits_join {α : Type} {text : α → String} {tokens : α → List Token} {l : List α}
    (h : ∀ x ∈ l, Splits (text x).toList (tokens x)) :
    Splits (String.join (l.map text)).toList (l.flatMap tokens) := by
  intro line rest tail hrest
  rw [String.toList_join, List.flatMap_map]
  induction l with
  | nil => exact hrest
  | cons x l ih =>
      obtain ⟨hx, hl⟩ := List.forall_mem_cons.mp h
      simp only [List.flatMap_cons, onLine_append, List.append_assoc]
      exact hx (ih hl)

theorem spells_withCommas {α : Type} {text : α → String} {tokens : α → List Token} :
    ∀ {l : List α}, (∀ x ∈ l, Spells (text x).toList (tokens x)) →
      Spells (String.intercalate ", " (l.map text)).toList (withCommas (l.map tokens))
  | [], _, _, _, _, _, h => by simpa [withCommas] using h
  | [x], hl, _, _, _, hends, h => by
      simpa [withCommas] using hl x List.mem_cons_self hends h
  | x :: y :: l, hl, _, _, _, hends, h => by
      obtain ⟨hx, hrest⟩ := List.forall_mem_cons.mp hl
      have hcomma := Scans.lone .comma rfl (fun _ => rfl) (.blank (spells_withCommas hrest hends h))
      have hfirst := hx (ends_cons (by decide)) hcomma
      simpa [withCommas, String.intercalate_cons_cons, List.intercalate_cons_cons] using hfirst

theorem isName_text (v : VarId) : IsName (VarId.text v) := by
  refine isName_append_number (by decide) (fun k => ?_) v
  cases k <;> intro c cs h <;> simp [Keyword.word] at h
  · exact h.1 ▸ rfl

theorem isName_blockText (b : BlockId) : IsName (BlockId.text b) := by
  refine isName_append_number (by decide) (fun k => ?_) b.toNat
  cases k <;> intro c cs h <;> simp [Keyword.word] at h

theorem isName_width (bits : Nat) : IsName ("i" ++ toString bits) := by
  refine isName_append_number (by decide) (fun k => ?_) bits
  cases k <;> intro c cs h <;> simp [Keyword.word] at h

theorem BinOp.toList_symbol (op : BinOp) : op.symbol.toList = op.sign.spelling := by
  cases op <;> simp [symbol, sign, Sign.spelling]

theorem UnOp.toList_symbol (op : UnOp) : op.symbol.toList = op.sign.spelling := by
  cases op <;> simp [symbol, sign, Sign.spelling]

theorem Ty.Printable.spells : ∀ {t : Ty}, t.Printable → Spells t.text.toList t.tokens
  | .int bits, _, _, _, _, hends, h => .name (isName_width bits) hends h
  | .pointer target, ht, _, _, _, hends, h => by
      have htarget := Ty.Printable.spells (t := target) ht hends h
      simpa [text, tokens] using Scans.lone .star rfl (fun _ => rfl) htarget
  | .array element (some length), ht, _, _, _, hends, h => by
      have hclose := Scans.lone .closeBracket rfl (fun _ => rfl) h
      have hlength := Scans.blank (.digits length (ends_cons (by decide)) hclose)
      have hsemicolon := Scans.lone .semicolon rfl (fun _ => rfl) hlength
      have helement := Ty.Printable.spells (t := element) ht.1 (ends_cons (by decide)) hsemicolon
      simpa [text, tokens] using Scans.lone .openBracket rfl (fun _ => rfl) helement
  | .array element none, ht, _, _, _, hends, h => by
      have hclose := Scans.lone .closeBracket rfl (fun _ => rfl) h
      have helement := Ty.Printable.spells (t := element) ht.1 (ends_cons (by decide)) hclose
      simpa [text, tokens] using Scans.lone .openBracket rfl (fun _ => rfl) helement
  | .struct name, ht, _, _, _, hends, h => by
      have hname := Scans.blank (.name ht hends h)
      have hkeyword := Scans.keyword .struct (ends_cons (by decide)) hname
      simpa [text, tokens, Keyword.word] using hkeyword
  | .void, _, _, _, _, hends, h => .keyword .void hends h

/-! An operator of one operand and what follows it do not make a longer sign, and neither do the
sign for an address and the place. -/

theorem Expr.toString_const {value : Int64} (h : 0 ≤ value.toInt) :
    toString value.toInt = toString value.toInt.toNat := by
  rw [← Int.toNat_of_nonneg h]
  rfl

section

variable {count : Nat} {rest : List Char} {c : Char}

theorem Expr.head_text {e : Expr} (h : e.Printable count)
    (hc : c ∈ (e.text.toList ++ rest).head?) : c ≠ '>' ∧ c ≠ '=' := by
  cases e with
  | var v =>
      simp [text, VarId.text] at hc
      subst hc
      decide
  | const value =>
      rw [text, toString_const h] at hc
      cases hdigits : (toString value.toInt.toNat).toList with
      | nil => exact absurd hdigits (toString_ne_nil _)
      | cons d ds =>
          have hd : d.isDigit = true := isDigit_of_mem_toString (hdigits ▸ List.mem_cons_self)
          obtain rfl : d = c := Option.some.inj (by rwa [hdigits] at hc)
          constructor <;> rintro rfl <;> exact absurd hd (by decide)
  | unary op e =>
      cases op <;> simp [text, UnOp.symbol] at hc <;> subst hc <;> decide
  | binary op l r =>
      simp [text] at hc
      subst hc
      decide
  | addrOf p =>
      simp [text] at hc
      subst hc
      decide

theorem Place.head_text : ∀ {p : Place} {rest}, c ∈ (p.text.toList ++ rest).head? → c ≠ '&'
  | .var v, rest, hc => by
      simp [text, VarId.text] at hc
      subst hc
      decide
  | .deref p, rest, hc => by
      simp [text] at hc
      subst hc
      decide
  | .index p e, rest, hc => by
      simp only [text, String.toList_append, List.append_assoc] at hc
      exact Place.head_text hc
  | .field p name, rest, hc => by
      simp only [text, String.toList_append, List.append_assoc] at hc
      exact Place.head_text hc

end

mutual

theorem Expr.Printable.spells {count : Nat} : ∀ {e : Expr}, e.Printable count →
    Spells e.text.toList e.tokens
  | .var v, _, _, _, _, hends, h => .name (isName_text v) hends h
  | .const value, he, _, _, _, hends, h => by
      rw [Expr.text, Expr.tokens, Expr.toString_const he]
      exact .digits _ hends h
  | .unary op e, he, _, rest, _, hends, h => by
      have hext (c : Char) (hc : c ∈ (e.text.toList ++ rest).head?) :
          op.sign.extendedBy c = false := by
        obtain ⟨harrow, heq⟩ := Expr.head_text (e := e) he hc
        cases op <;> simp [UnOp.sign, Sign.extendedBy, harrow, heq]
      have hsign := Scans.sign op.sign hext (Expr.Printable.spells (e := e) he hends h)
      simpa [Expr.text, Expr.tokens, UnOp.toList_symbol] using hsign
  | .binary op l r, he, _, _, _, hends, h => by
      have hclose := Scans.lone .closeParen rfl (fun _ => rfl) h
      have hright := Expr.Printable.spells (e := r) he.2 (ends_cons (by decide)) hclose
      have hop := Scans.blank (.spaced op.sign hright)
      have hleft := Expr.Printable.spells (e := l) he.1 (ends_cons (by decide)) hop
      have hopen := Scans.lone .openParen rfl (fun _ => rfl) hleft
      simpa [Expr.text, Expr.tokens, BinOp.toList_symbol] using hopen
  | .addrOf p, he, _, rest, _, hends, h => by
      have hext (c : Char) (hc : c ∈ (p.text.toList ++ rest).head?) :
          Sign.amp.extendedBy c = false := by
        simp [Sign.extendedBy, Place.head_text hc]
      have hamp := Scans.sign .amp hext (Place.Printable.spells (p := p) he hends h)
      simpa [Expr.text, Expr.tokens, Sign.spelling] using hamp

theorem Place.Printable.spells {count : Nat} : ∀ {p : Place}, p.Printable count →
    Spells p.text.toList p.tokens
  | .var v, _, _, _, _, hends, h => .name (isName_text v) hends h
  | .deref p, hp, _, _, _, hends, h => by
      have hclose := Scans.lone .closeParen rfl (fun _ => rfl) h
      have hinner := Place.Printable.spells (p := p) hp (ends_cons (by decide)) hclose
      have hopen := Scans.lone .openParen rfl (fun _ => rfl) (.lone .star rfl (fun _ => rfl) hinner)
      simpa [Place.text, Place.tokens] using hopen
  | .index p e, hp, _, _, _, hends, h => by
      have hclose := Scans.lone .closeBracket rfl (fun _ => rfl) h
      have hposition := Expr.Printable.spells (e := e) hp.2 (ends_cons (by decide)) hclose
      have hopen := Scans.lone .openBracket rfl (fun _ => rfl) hposition
      have hinner := Place.Printable.spells (p := p) hp.1 (ends_cons (by decide)) hopen
      simpa [Place.text, Place.tokens] using hinner
  | .field p name, hp, _, _, _, hends, h => by
      have hdot := Scans.lone .dot rfl (fun _ => rfl) (.name hp.2 hends h)
      have hinner := Place.Printable.spells (p := p) hp.1 (ends_cons (by decide)) hdot
      simpa [Place.text, Place.tokens] using hinner

end

theorem Ty.head_text {t : Ty} {rest : List Char} {c : Char}
    (hc : c ∈ (t.text.toList ++ rest).head?) : c ≠ '<' ∧ c ≠ '=' := by
  rcases t with bits | target | ⟨element, _ | length⟩ | name | _
  all_goals
    simp [text] at hc
    subst hc
    decide

theorem Instruction.Printable.spells {count : Nat} {i : Instruction} (hi : i.Printable count) :
    Spells i.text.toList i.tokens := by
  intro line rest tail hends h
  cases i with
  | assign dst e =>
      have heq := Scans.spaced .equals (hi.2.spells hends h)
      have hdst := Scans.name (isName_text dst) (ends_cons (by decide)) heq.blank
      simpa [text, tokens, Sign.spelling] using hdst
  | load dst p =>
      have hload := Scans.keyword .load (ends_cons (by decide)) (hi.2.spells hends h).blank
      have heq := Scans.spaced .equals hload
      have hdst := Scans.name (isName_text dst) (ends_cons (by decide)) heq.blank
      simpa [text, tokens, Sign.spelling, Keyword.word] using hdst
  | store p e =>
      have hcomma := Scans.lone .comma rfl (fun _ => rfl) (hi.2.spells hends h).blank
      have hplace := hi.1.spells (ends_cons (by decide)) hcomma
      have hstore := Scans.keyword .store (ends_cons (by decide)) hplace.blank
      simpa [text, tokens, Keyword.word] using hstore
  | cast dst e ty =>
      have hgreater := Scans.spaced .greater (hi.2.1.spells hends h)
      have hty := hi.2.2.spells (ends_cons (by decide)) hgreater
      have hext (c : Char)
          (hc : c ∈ (ty.text.toList ++ '>' :: ' ' :: (e.text.toList ++ rest)).head?) :
          Sign.less.extendedBy c = false := by
        obtain ⟨hless, heq⟩ := Ty.head_text hc
        simp [Sign.extendedBy, hless, heq]
      have hless := Scans.sign .less hext hty
      have hcast := Scans.keyword .cast (ends_cons (by decide)) hless
      have heq := Scans.spaced .equals hcast
      have hdst := Scans.name (isName_text dst) (ends_cons (by decide)) heq.blank
      simpa [text, tokens, Sign.spelling, Keyword.word] using hdst
  | call dst callee args =>
      cases callee with
      | indirect target => exact hi.elim
      | direct name =>
          have hclose := Scans.lone .closeParen rfl (fun _ => rfl) h
          have hargs := spells_withCommas (fun e he => (hi.2.2 e he).spells)
            (ends_cons (by decide)) hclose
          have hopen := Scans.lone .openParen rfl (fun _ => rfl) hargs
          have hname := Scans.name hi.2.1 (ends_cons (by decide)) hopen
          have hcall := Scans.keyword .call (ends_cons (by decide)) hname.blank
          cases dst with
          | none => simpa [text, tokens, calleeText, Callee.name?, Keyword.word] using hcall
          | some v =>
              have heq := Scans.spaced .equals hcall
              have hdst := Scans.name (isName_text v) (ends_cons (by decide)) heq.blank
              simpa [text, tokens, calleeText, Callee.name?, Sign.spelling, Keyword.word] using hdst
  | opaqueCode touched reason => exact hi.elim

theorem Terminator.Printable.spells {count : Nat} {targets : List BlockId} {t : Terminator}
    (ht : t.Printable count targets) : Spells t.text.toList t.tokens := by
  intro line rest tail hends h
  rcases t with target | ⟨condition, thenBlock, elseBlock⟩ | (_ | value) | _
  case jump =>
    have htarget := Scans.name (isName_blockText target) hends h
    have hjump := Scans.keyword .jump (ends_cons (by decide)) htarget.blank
    simpa [text, tokens, Keyword.word] using hjump
  case branch =>
    have helse := Scans.name (isName_blockText elseBlock) hends h
    have hcomma := Scans.lone .comma rfl (fun _ => rfl) helse.blank
    have hthen := Scans.name (isName_blockText thenBlock) (ends_cons (by decide)) hcomma
    have hcomma := Scans.lone .comma rfl (fun _ => rfl) hthen.blank
    have hcondition := ht.1.spells (ends_cons (by decide)) hcomma
    have hbr := Scans.keyword .br (ends_cons (by decide)) hcondition.blank
    simpa [text, tokens, Keyword.word] using hbr
  case ret.none =>
    have hret := Scans.keyword .ret hends h
    simpa [text, tokens, Keyword.word] using hret
  case ret.some =>
    have hvalue := (ht value rfl).spells hends h
    have hret := Scans.keyword .ret (ends_cons (by decide)) hvalue.blank
    simpa [text, tokens, Keyword.word] using hret
  case missing => exact ht.elim

theorem Spells.semicolon {text : String} {ts : List Token} (h : Spells text.toList ts) :
    Splits (text ++ "; ").toList (ts ++ [.sign .semicolon]) := by
  intro line rest tail hrest
  have hsemicolon := Scans.lone .semicolon rfl (fun _ => rfl) hrest.blank
  simpa using h (ends_cons (by decide)) hsemicolon

theorem Block.Printable.splits {count : Nat} {targets : List BlockId} {b : Block}
    (hb : b.Printable count targets) : Splits b.source.toList b.tokens := by
  intro line rest tail hrest
  have hend := hb.2.spells.semicolon hrest
  have hstatement (i : Instruction) (hi : i ∈ b.instructions) :
      Splits (i.text ++ "; ").toList i.statement :=
    (hb.1 i hi).spells.semicolon
  simpa [source, tokens] using splits_join hstatement hend

theorem Variable.spells {x : Variable} (hname : IsName x.name) (hty : x.ty.Printable) :
    Spells x.source.toList x.tokens := by
  intro line rest tail hends h
  have hcolon := Scans.lone .colon rfl (fun _ => rfl) (hty.spells hends h).blank
  simpa [source, tokens] using Scans.name hname (ends_cons (by decide)) hcolon

theorem Function.Printable.var_spells {f : Function} (hf : f.Printable) {kind : VarKind}
    {x : Variable} (hx : x ∈ f.varsOf kind) : Spells x.source.toList x.tokens := by
  have hvar : x ∈ f.vars := (List.mem_filter.mp hx).1
  have hname : x.name ∈ f.vars.map (·.name) := List.mem_map_of_mem hvar
  rw [hf.names] at hname
  obtain ⟨v, -, hv⟩ := List.mem_map.mp hname
  have hx' : IsName x.name := hv ▸ isName_text v
  exact Variable.spells hx' (hf.types x hvar)

theorem Function.Printable.local_splits {f : Function} (hf : f.Printable) {x : Variable}
    (hx : x ∈ f.varsOf .local) :
    Splits ("let " ++ x.source ++ "; ").toList x.localTokens := by
  intro line rest tail hrest
  have hdecl := (hf.var_spells hx).semicolon hrest
  have hlet := Scans.keyword .let (ends_cons (by decide)) hdecl.blank
  simpa [Variable.localTokens, Keyword.word] using hlet

theorem Function.Printable.block_splits {f : Function} (hf : f.Printable) {e : BlockId × Block}
    (he : e ∈ f.blocks.entries) :
    Splits (BlockId.text e.1 ++ ": " ++ e.2.source).toList (Block.labelled e) := by
  intro line rest tail hrest
  have hbody := (hf.blocks e.2 (List.mem_map_of_mem he)).splits hrest
  have hcolon := Scans.lone .colon rfl (fun _ => rfl) hbody.blank
  have hlabel := Scans.name (isName_blockText e.1) (ends_cons (by decide)) hcolon
  simpa [Block.labelled] using hlabel

theorem Function.Printable.splits {f : Function} (hf : f.Printable) :
    Splits f.source.toList f.tokens := by
  intro line rest tail hrest
  have hclose := Scans.lone .closeBrace rfl (fun _ => rfl) hrest.blank
  have hblocks := splits_join (fun _ => hf.block_splits) hclose
  have hlocals := splits_join (fun _ => hf.local_splits) hblocks
  have hopen := Scans.lone .openBrace rfl (fun _ => rfl) hlocals.blank
  have hreturns := hf.returns.spells (ends_cons (by decide)) hopen.blank
  have harrow := Scans.spaced .arrow hreturns
  have hparen := Scans.lone .closeParen rfl (fun _ => rfl) harrow.blank
  have hparams := spells_withCommas (fun x (hx : x ∈ f.varsOf .param) => hf.var_spells hx)
    (ends_cons (by decide)) hparen
  have hopen := Scans.lone .openParen rfl (fun _ => rfl) hparams
  have hname := Scans.name hf.name (ends_cons (by decide)) hopen
  have hfn := Scans.keyword .fn (ends_cons (by decide)) hname.blank
  simpa [source, tokens, Sign.spelling, Keyword.word] using hfn

/-- The text of a printable program is split into the tokens of its functions. -/
theorem Program.Printable.scan {p : Program} (hp : p.Printable) :
    Source.scan p.source = some (onLine 1 (p.functions.flatMap Function.tokens)) := by
  have hall := splits_join (fun f hf => (hp f hf).splits) (Scans.nil : Scans 1 [] [])
  exact scan_of_scans (by simpa [source] using hall)

end TaintAnalysis
