import Mathlib.Data.List.Find
import TaintAnalysis.Proofs.Source.Derivation
import TaintAnalysis.Proofs.Source.Lowering
import TaintAnalysis.Proofs.Source.Scanning

/-!
# Concatenating texts

Two texts of programs with a line break between them are the text of the program that has
the functions of the first and then those of the second, if no function of the second is
called like one of the first.

In the longer text the second one begins further down. A phrase stays a phrase when all of
it moves down, and its syntax tree changes in the numbers of its lines only. These are
looked at only when a name is unknown or a number is too large, so whatever could be
resolved is resolved as before.
-/

namespace TaintAnalysis.Source

/-! ## Syntax trees further down -/

namespace Tree

def Name.moveDown (lines : Nat) (n : Name) : Name :=
  ⟨n.text, n.line + lines⟩

def Digits.moveDown (lines : Nat) (d : Digits) : Digits :=
  ⟨d.written, d.line + lines⟩

def Ty.moveDown (lines : Nat) : Ty → Ty
  | .int bits => .int bits
  | .void => .void
  | .struct name => .struct name
  | .pointer target => .pointer (target.moveDown lines)
  | .array element length => .array (element.moveDown lines) (length.map (Digits.moveDown lines))

mutual

def Expr.moveDown (lines : Nat) : Expr → Expr
  | .int digits => .int (digits.moveDown lines)
  | .var n => .var (n.moveDown lines)
  | .addrOf p => .addrOf (p.moveDown lines)
  | .unary op e => .unary op (e.moveDown lines)
  | .binary op l r => .binary op (l.moveDown lines) (r.moveDown lines)
  | .group e => .group (e.moveDown lines)

def Place.moveDown (lines : Nat) : Place → Place
  | .var n => .var (n.moveDown lines)
  | .deref p => .deref (p.moveDown lines)
  | .index p e => .index (p.moveDown lines) (e.moveDown lines)
  | .field p name => .field (p.moveDown lines) name

end

def Callee.moveDown (lines : Nat) : Callee → Callee
  | .direct name => .direct name
  | .indirect target => .indirect (target.moveDown lines)

def Statement.moveDown (lines : Nat) : Statement → Statement
  | .assign dst e => .assign (dst.moveDown lines) (e.moveDown lines)
  | .load dst p => .load (dst.moveDown lines) (p.moveDown lines)
  | .store p src => .store (p.moveDown lines) (src.moveDown lines)
  | .cast dst ty src => .cast (dst.moveDown lines) (ty.moveDown lines) (src.moveDown lines)
  | .call dst callee args =>
      .call (dst.map (Name.moveDown lines)) (callee.moveDown lines) (args.map (Expr.moveDown lines))
  | .opaqueCode touched reason => .opaqueCode (touched.map (Name.moveDown lines)) reason

def Terminator.moveDown (lines : Nat) : Terminator → Terminator
  | .jump target => .jump (target.moveDown lines)
  | .branch condition thenBlock elseBlock =>
      .branch (condition.moveDown lines) (thenBlock.moveDown lines) (elseBlock.moveDown lines)
  | .ret value => .ret (value.map (Expr.moveDown lines))

def Block.moveDown (lines : Nat) (b : Block) : Block :=
  ⟨b.label, b.statements.map (Statement.moveDown lines), b.terminator.moveDown lines⟩

def Declaration.moveDown (lines : Nat) (d : Declaration) : Declaration :=
  ⟨d.name, d.ty.moveDown lines⟩

def Function.moveDown (lines : Nat) (f : Function) : Function :=
  ⟨f.name, f.params.map (Declaration.moveDown lines), f.returns.map (Ty.moveDown lines),
    f.locals.map (Declaration.moveDown lines), f.blocks.map (Block.moveDown lines)⟩

end Tree

/-! ## Phrases further down -/

section

variable {lines : Nat}

@[simp] theorem moveDown_lexeme (t : Token) (line : Nat) :
    Lexeme.moveDown lines ⟨t, line⟩ = ⟨t, line + lines⟩ :=
  rfl

@[simp] theorem moveDown_digits (written : String) (line : Nat) :
    Tree.Digits.moveDown lines ⟨written, line⟩ = ⟨written, line + lines⟩ :=
  rfl

@[simp] theorem moveDown_name (text : String) (line : Nat) :
    Tree.Name.moveDown lines ⟨text, line⟩ = ⟨text, line + lines⟩ :=
  rfl

section

variable {α : Type} {item : α → List Lexeme → Prop} {move : α → α} {as : List α} {a : α}
  {ls : List Lexeme}

theorem Separated.moveDown
    (hitem : ∀ {a ls}, item a ls → item (move a) (ls.map (Lexeme.moveDown lines)))
    (h : Separated item as ls) : Separated item (as.map move) (ls.map (Lexeme.moveDown lines)) := by
  induction h with
  | last ha => exact .last (hitem ha)
  | comma ha _ ih => simpa using Separated.comma (hitem ha) ih

theorem Enclosed.moveDown
    (hitem : ∀ {a ls}, item a ls → item (move a) (ls.map (Lexeme.moveDown lines)))
    (h : Enclosed item as ls) : Enclosed item (as.map move) (ls.map (Lexeme.moveDown lines)) := by
  cases h with
  | none => exact .none
  | some h => simpa using Enclosed.some (h.moveDown hitem)

theorem Repeated.moveDown
    (hitem : ∀ {a ls}, item a ls → item (move a) (ls.map (Lexeme.moveDown lines)))
    (h : Repeated item as ls) : Repeated item (as.map move) (ls.map (Lexeme.moveDown lines)) := by
  induction h with
  | nil => exact .nil
  | cons ha _ ih => simpa using Repeated.cons (hitem ha) ih

theorem Ended.moveDown
    (hitem : ∀ {a ls}, item a ls → item (move a) (ls.map (Lexeme.moveDown lines)))
    (h : Ended item a ls) : Ended item (move a) (ls.map (Lexeme.moveDown lines)) := by
  cases h with
  | semicolon ha => simpa using Ended.semicolon (hitem ha)

theorem Repeated.append {as bs : List α} {ls us : List Lexeme} (h : Repeated item as ls)
    (h' : Repeated item bs us) : Repeated item (as ++ bs) (ls ++ us) := by
  induction h with
  | nil => exact h'
  | cons ha _ ih =>
      rw [List.append_assoc]
      exact .cons ha ih

end

theorem TyPhrase.moveDown {t : Tree.Ty} {ls : List Lexeme} (h : TyPhrase t ls) :
    TyPhrase (t.moveDown lines) (ls.map (Lexeme.moveDown lines)) := by
  induction h with
  | int h => exact .int h
  | void => exact .void
  | struct => exact .struct
  | pointer _ ih => exact .pointer ih
  | slice _ ih => simpa [Tree.Ty.moveDown] using TyPhrase.slice ih
  | array _ ih => simpa [Tree.Ty.moveDown] using TyPhrase.array ih

mutual

theorem PrimaryPhrase.moveDown : ∀ {e : Tree.Expr} {ls : List Lexeme}, PrimaryPhrase e ls →
    PrimaryPhrase (e.moveDown lines) (ls.map (Lexeme.moveDown lines))
  | _, _, .int => .int
  | _, _, .var => .var
  | _, _, .addrOf h => .addrOf h.moveDown
  | _, _, .group h => by simpa [Tree.Expr.moveDown] using PrimaryPhrase.group h.moveDown

theorem OperandPhrase.moveDown : ∀ {e : Tree.Expr} {ls : List Lexeme}, OperandPhrase e ls →
    OperandPhrase (e.moveDown lines) (ls.map (Lexeme.moveDown lines))
  | _, _, .primary h => .primary h.moveDown
  | _, _, .unary hop h => .unary hop h.moveDown

theorem ExprPhrase.moveDown : ∀ {level : Nat} {e : Tree.Expr} {ls : List Lexeme},
    ExprPhrase level e ls → ExprPhrase level (e.moveDown lines) (ls.map (Lexeme.moveDown lines))
  | _, _, _, .operand h => .operand h.moveDown
  | _, _, _, .binary hop hlevel hl hr => by
      simpa [Tree.Expr.moveDown] using ExprPhrase.binary hop hlevel hl.moveDown hr.moveDown

theorem StemPhrase.moveDown : ∀ {p : Tree.Place} {ls : List Lexeme}, StemPhrase p ls →
    StemPhrase (p.moveDown lines) (ls.map (Lexeme.moveDown lines))
  | _, _, .var => .var
  | _, _, .group h => by simpa using StemPhrase.group h.moveDown
  | _, _, .index hp he => by
      simpa [Tree.Place.moveDown] using StemPhrase.index hp.moveDown he.moveDown
  | _, _, .field hp => by simpa [Tree.Place.moveDown] using StemPhrase.field hp.moveDown
  | _, _, .arrow hp => by simpa [Tree.Place.moveDown] using StemPhrase.arrow hp.moveDown

theorem PlacePhrase.moveDown : ∀ {p : Tree.Place} {ls : List Lexeme}, PlacePhrase p ls →
    PlacePhrase (p.moveDown lines) (ls.map (Lexeme.moveDown lines))
  | _, _, .stem h => .stem h.moveDown
  | _, _, .deref h => .deref h.moveDown

end

theorem CallPhrase.moveDown {callee : Tree.Callee} {args : List Tree.Expr} {ls : List Lexeme}
    (h : CallPhrase callee args ls) :
    CallPhrase (callee.moveDown lines) (args.map (Tree.Expr.moveDown lines))
      (ls.map (Lexeme.moveDown lines)) := by
  cases h with
  | direct hargs => exact .direct (hargs.moveDown ExprPhrase.moveDown)
  | indirect ht hargs =>
      simpa [Tree.Callee.moveDown] using
        CallPhrase.indirect ht.moveDown (hargs.moveDown ExprPhrase.moveDown)

theorem DefinitionPhrase.moveDown {dst : Tree.Name} {s : Tree.Statement} {ls : List Lexeme}
    (h : DefinitionPhrase dst s ls) :
    DefinitionPhrase (dst.moveDown lines) (s.moveDown lines) (ls.map (Lexeme.moveDown lines)) := by
  cases h with
  | assign he => exact .assign he.moveDown
  | load hp => exact .load hp.moveDown
  | cast hty he =>
      simp only [List.map_cons, List.map_append, moveDown_lexeme]
      exact .cast hty.moveDown he.moveDown
  | call h => exact .call h.moveDown

theorem NamePhrase.moveDown {n : Tree.Name} {ls : List Lexeme} (h : NamePhrase n ls) :
    NamePhrase (n.moveDown lines) (ls.map (Lexeme.moveDown lines)) := by
  cases h
  exact .word

theorem StatementPhrase.moveDown {s : Tree.Statement} {ls : List Lexeme}
    (h : StatementPhrase s ls) :
    StatementPhrase (s.moveDown lines) (ls.map (Lexeme.moveDown lines)) := by
  cases h with
  | define h => exact .define h.moveDown
  | store hp he =>
      simpa [Tree.Statement.moveDown] using StatementPhrase.store hp.moveDown he.moveDown
  | call h => exact .call h.moveDown
  | opaqueCode h =>
      simpa [Tree.Statement.moveDown] using
        StatementPhrase.opaqueCode (h.moveDown NamePhrase.moveDown)

theorem TerminatorPhrase.moveDown {t : Tree.Terminator} {ls : List Lexeme}
    (h : TerminatorPhrase t ls) :
    TerminatorPhrase (t.moveDown lines) (ls.map (Lexeme.moveDown lines)) := by
  cases h with
  | jump => exact .jump
  | branch he => simpa [Tree.Terminator.moveDown] using TerminatorPhrase.branch he.moveDown
  | retVoid => exact .retVoid
  | retValue he => exact .retValue he.moveDown

theorem BlockPhrase.moveDown {b : Tree.Block} {ls : List Lexeme} (h : BlockPhrase b ls) :
    BlockPhrase (b.moveDown lines) (ls.map (Lexeme.moveDown lines)) := by
  cases h with
  | block hs ht =>
      simpa [Tree.Block.moveDown] using BlockPhrase.block
        (hs.moveDown (Ended.moveDown StatementPhrase.moveDown))
        (ht.moveDown TerminatorPhrase.moveDown)

theorem DeclarationPhrase.moveDown {d : Tree.Declaration} {ls : List Lexeme}
    (h : DeclarationPhrase d ls) :
    DeclarationPhrase (d.moveDown lines) (ls.map (Lexeme.moveDown lines)) := by
  cases h with
  | colon h => exact .colon h.moveDown

theorem LocalPhrase.moveDown {d : Tree.Declaration} {ls : List Lexeme} (h : LocalPhrase d ls) :
    LocalPhrase (d.moveDown lines) (ls.map (Lexeme.moveDown lines)) := by
  cases h with
  | declare h => exact .declare h.moveDown

theorem ReturnsPhrase.moveDown {t : Option Tree.Ty} {ls : List Lexeme} (h : ReturnsPhrase t ls) :
    ReturnsPhrase (t.map (Tree.Ty.moveDown lines)) (ls.map (Lexeme.moveDown lines)) := by
  cases h with
  | none => exact .none
  | arrow h => exact .arrow h.moveDown

theorem FunctionPhrase.moveDown {f : Tree.Function} {ls : List Lexeme} (h : FunctionPhrase f ls) :
    FunctionPhrase (f.moveDown lines) (ls.map (Lexeme.moveDown lines)) := by
  cases h with
  | function hparams hreturns hlocals hblocks =>
      simp only [List.map_cons, List.map_append, List.map_nil, moveDown_lexeme]
      exact .function (hparams.moveDown DeclarationPhrase.moveDown) hreturns.moveDown
        (hlocals.moveDown (Ended.moveDown LocalPhrase.moveDown))
        (hblocks.moveDown BlockPhrase.moveDown)

end

/-- The tokens of two texts, the second of which is further down. -/
theorem Tree.parseTokens_append {ls us : List Lexeme} {fs gs : List Tree.Function}
    (h : Tree.parseTokens ls = some fs) (h' : Tree.parseTokens us = some gs) (lines : Nat) :
    Tree.parseTokens (ls ++ us.map (Lexeme.moveDown lines)) =
      some (fs ++ gs.map (Tree.Function.moveDown lines)) := by
  rw [Tree.parseTokens_iff] at h h' ⊢
  exact h.append (h'.moveDown FunctionPhrase.moveDown)

/-! ## Resolution further down -/

section

variable {α β : Type}

/-- What succeeds on a list succeeds on the elements moved, if moving an element changes no
result. -/
theorem mapM_move {g : α → Except SourceError β} {as : List α} {bs : List β}
    (has : as.mapM g = .ok bs) (move : α → α) (h : ∀ {a b}, g a = .ok b → g (move a) = .ok b) :
    (as.map move).mapM g = .ok bs := by
  induction as generalizing bs with
  | nil => exact has
  | cons a as ih =>
      rw [List.mapM_cons] at has
      obtain ⟨b, hb, has⟩ := bind_eq_ok has
      obtain ⟨bs', hbs, has⟩ := bind_eq_ok has
      rw [List.map_cons, List.mapM_cons]
      exact bind_eq_ok_iff.mpr ⟨b, h hb, bind_eq_ok_iff.mpr ⟨bs', ih hbs, has⟩⟩

theorem foldlM_move {g : β → α → Except SourceError β} {as : List α} {b b' : β}
    (has : as.foldlM g b = .ok b') (move : α → α)
    (h : ∀ {b a b'}, g b a = .ok b' → g b (move a) = .ok b') :
    (as.map move).foldlM g b = .ok b' := by
  induction as generalizing b with
  | nil => exact has
  | cons a as ih =>
      rw [List.foldlM_cons] at has
      obtain ⟨middle, hmiddle, has⟩ := bind_eq_ok has
      rw [List.map_cons, List.foldlM_cons]
      exact bind_eq_ok_iff.mpr ⟨middle, h hmiddle, ih has⟩

end

section

variable {lines : Nat} {s : Scope}

theorem upTo_moveDown {limit value : Nat} {d : Tree.Digits} (h : d.upTo limit = .ok value) :
    (d.moveDown lines).upTo limit = .ok value := by
  rw [Tree.Digits.upTo] at h ⊢
  split at h
  · next hle => exact (if_pos hle).trans h
  · exact nomatch h

theorem resolve_ty_moveDown : ∀ {t : Tree.Ty} {ty : TaintAnalysis.Ty}, t.resolve = .ok ty →
    (t.moveDown lines).resolve = .ok ty
  | .int _, _, h | .void, _, h | .struct _, _, h => h
  | .pointer target, _, h => by
      obtain ⟨target', htarget, h⟩ := bind_eq_ok h
      exact bind_eq_ok_iff.mpr ⟨target', resolve_ty_moveDown htarget, h⟩
  | .array element none, _, h => by
      obtain ⟨element', helement, h⟩ := bind_eq_ok h
      exact bind_eq_ok_iff.mpr ⟨element', resolve_ty_moveDown helement, h⟩
  | .array element (some length), _, h => by
      obtain ⟨n, hn, h⟩ := bind_eq_ok h
      obtain ⟨element', helement, h⟩ := bind_eq_ok h
      exact bind_eq_ok_iff.mpr
        ⟨n, upTo_moveDown hn, bind_eq_ok_iff.mpr ⟨element', resolve_ty_moveDown helement, h⟩⟩

namespace Scope

theorem var_moveDown {n : Tree.Name} {v : VarId} (h : s.var n = .ok v) :
    s.var (n.moveDown lines) = .ok v := by
  simp only [var, Tree.Name.moveDown] at h ⊢
  split at h
  · exact h
  · cases h

theorem block_moveDown {n : Tree.Name} {b : BlockId} (h : s.block n = .ok b) :
    s.block (n.moveDown lines) = .ok b := by
  simp only [block, Tree.Name.moveDown] at h ⊢
  split at h
  · exact h
  · cases h

mutual

theorem expr_moveDown : ∀ {t : Tree.Expr} {e : Expr}, s.expr t = .ok e →
    s.expr (t.moveDown lines) = .ok e
  | .int digits, e, h => by
      rw [expr] at h
      obtain ⟨n, hn, h⟩ := bind_eq_ok h
      rw [Tree.Expr.moveDown, expr]
      exact bind_eq_ok_iff.mpr ⟨n, upTo_moveDown hn, h⟩
  | .var n, e, h => by
      rw [expr] at h
      obtain ⟨v, hv, h⟩ := bind_eq_ok h
      rw [Tree.Expr.moveDown, expr]
      exact bind_eq_ok_iff.mpr ⟨v, var_moveDown hv, h⟩
  | .addrOf p, e, h => by
      rw [expr] at h
      obtain ⟨p', hp, h⟩ := bind_eq_ok h
      rw [Tree.Expr.moveDown, expr]
      exact bind_eq_ok_iff.mpr ⟨p', place_moveDown hp, h⟩
  | .unary op t, e, h => by
      rw [expr] at h
      obtain ⟨e', he, h⟩ := bind_eq_ok h
      rw [Tree.Expr.moveDown, expr]
      exact bind_eq_ok_iff.mpr ⟨e', expr_moveDown he, h⟩
  | .binary op l r, e, h => by
      rw [expr] at h
      obtain ⟨l', hl, h⟩ := bind_eq_ok h
      obtain ⟨r', hr, h⟩ := bind_eq_ok h
      rw [Tree.Expr.moveDown, expr]
      exact bind_eq_ok_iff.mpr
        ⟨l', expr_moveDown hl, bind_eq_ok_iff.mpr ⟨r', expr_moveDown hr, h⟩⟩
  | .group t, e, h => by
      rw [expr] at h
      rw [Tree.Expr.moveDown, expr]
      exact expr_moveDown h

theorem place_moveDown : ∀ {t : Tree.Place} {p : Place}, s.place t = .ok p →
    s.place (t.moveDown lines) = .ok p
  | .var n, p, h => by
      rw [place] at h
      obtain ⟨v, hv, h⟩ := bind_eq_ok h
      rw [Tree.Place.moveDown, place]
      exact bind_eq_ok_iff.mpr ⟨v, var_moveDown hv, h⟩
  | .deref t, p, h => by
      rw [place] at h
      obtain ⟨p', hp, h⟩ := bind_eq_ok h
      rw [Tree.Place.moveDown, place]
      exact bind_eq_ok_iff.mpr ⟨p', place_moveDown hp, h⟩
  | .index t e, p, h => by
      rw [place] at h
      obtain ⟨p', hp, h⟩ := bind_eq_ok h
      obtain ⟨e', he, h⟩ := bind_eq_ok h
      rw [Tree.Place.moveDown, place]
      exact bind_eq_ok_iff.mpr
        ⟨p', place_moveDown hp, bind_eq_ok_iff.mpr ⟨e', expr_moveDown he, h⟩⟩
  | .field t name, p, h => by
      rw [place] at h
      obtain ⟨p', hp, h⟩ := bind_eq_ok h
      rw [Tree.Place.moveDown, place]
      exact bind_eq_ok_iff.mpr ⟨p', place_moveDown hp, h⟩

end

theorem callee_moveDown {t : Tree.Callee} {callee : Callee} (h : s.callee t = .ok callee) :
    s.callee (t.moveDown lines) = .ok callee := by
  cases t with
  | direct name => exact h
  | indirect target =>
      obtain ⟨e, he, h⟩ := bind_eq_ok h
      exact bind_eq_ok_iff.mpr ⟨e, expr_moveDown he, h⟩

theorem result_moveDown {n : Option Tree.Name} {dst : Option VarId} (h : n.mapM s.var = .ok dst) :
    (n.map (Tree.Name.moveDown lines)).mapM s.var = .ok dst := by
  cases n with
  | none => exact h
  | some n =>
      obtain ⟨v, hv, h⟩ := bind_eq_ok h
      exact bind_eq_ok_iff.mpr ⟨v, var_moveDown hv, h⟩

theorem instruction_moveDown {t : Tree.Statement} {i : Instruction} (h : s.instruction t = .ok i) :
    s.instruction (t.moveDown lines) = .ok i := by
  cases t with
  | assign dst e =>
      obtain ⟨v, hv, h⟩ := bind_eq_ok h
      obtain ⟨e', he, h⟩ := bind_eq_ok h
      exact bind_eq_ok_iff.mpr ⟨v, var_moveDown hv, bind_eq_ok_iff.mpr ⟨e', expr_moveDown he, h⟩⟩
  | load dst p =>
      obtain ⟨v, hv, h⟩ := bind_eq_ok h
      obtain ⟨p', hp, h⟩ := bind_eq_ok h
      exact bind_eq_ok_iff.mpr ⟨v, var_moveDown hv, bind_eq_ok_iff.mpr ⟨p', place_moveDown hp, h⟩⟩
  | store p e =>
      obtain ⟨p', hp, h⟩ := bind_eq_ok h
      obtain ⟨e', he, h⟩ := bind_eq_ok h
      exact bind_eq_ok_iff.mpr ⟨p', place_moveDown hp, bind_eq_ok_iff.mpr ⟨e', expr_moveDown he, h⟩⟩
  | cast dst ty e =>
      obtain ⟨v, hv, h⟩ := bind_eq_ok h
      obtain ⟨ty', hty, h⟩ := bind_eq_ok h
      obtain ⟨e', he, h⟩ := bind_eq_ok h
      exact bind_eq_ok_iff.mpr ⟨v, var_moveDown hv, bind_eq_ok_iff.mpr
        ⟨ty', resolve_ty_moveDown hty, bind_eq_ok_iff.mpr ⟨e', expr_moveDown he, h⟩⟩⟩
  | call dst callee args =>
      obtain ⟨v, hv, h⟩ := bind_eq_ok h
      obtain ⟨callee', hcallee, h⟩ := bind_eq_ok h
      obtain ⟨args', hargs, h⟩ := bind_eq_ok h
      exact bind_eq_ok_iff.mpr ⟨v, result_moveDown hv, bind_eq_ok_iff.mpr
        ⟨callee', callee_moveDown hcallee, bind_eq_ok_iff.mpr
          ⟨args', mapM_move hargs _ expr_moveDown, h⟩⟩⟩
  | opaqueCode touched reason =>
      obtain ⟨vs, hvs, h⟩ := bind_eq_ok h
      exact bind_eq_ok_iff.mpr ⟨vs, mapM_move hvs _ var_moveDown, h⟩

theorem terminator_moveDown {t : Tree.Terminator} {e : Terminator} (h : s.terminator t = .ok e) :
    s.terminator (t.moveDown lines) = .ok e := by
  rcases t with target | ⟨condition, thenBlock, elseBlock⟩ | (_ | value)
  · obtain ⟨b, hb, h⟩ := bind_eq_ok h
    exact bind_eq_ok_iff.mpr ⟨b, block_moveDown hb, h⟩
  · obtain ⟨e', he, h⟩ := bind_eq_ok h
    obtain ⟨b, hb, h⟩ := bind_eq_ok h
    obtain ⟨c, hc, h⟩ := bind_eq_ok h
    exact bind_eq_ok_iff.mpr ⟨e', expr_moveDown he, bind_eq_ok_iff.mpr
      ⟨b, block_moveDown hb, bind_eq_ok_iff.mpr ⟨c, block_moveDown hc, h⟩⟩⟩
  · exact h
  · obtain ⟨e', he, h⟩ := bind_eq_ok h
    exact bind_eq_ok_iff.mpr ⟨e', expr_moveDown he, h⟩

theorem basicBlock_moveDown {b : Tree.Block} {block : Block} (h : s.basicBlock b = .ok block) :
    s.basicBlock (b.moveDown lines) = .ok block := by
  obtain ⟨is, his, h⟩ := bind_eq_ok h
  obtain ⟨t, ht, h⟩ := bind_eq_ok h
  have hstatements : (b.moveDown lines).statements.mapM s.instruction = .ok is :=
    mapM_move his _ instruction_moveDown
  exact bind_eq_ok_iff.mpr ⟨is, hstatements, bind_eq_ok_iff.mpr ⟨t, terminator_moveDown ht, h⟩⟩

end Scope

theorem declare_moveDown {kind : VarKind} {f f' : Function} {d : Tree.Declaration}
    (h : declare kind f d = .ok f') : declare kind f (d.moveDown lines) = .ok f' := by
  obtain ⟨ty, hty, h⟩ := bind_eq_ok h
  exact bind_eq_ok_iff.mpr ⟨ty, resolve_ty_moveDown hty, h⟩

theorem ofTree_moveDown {t : Tree.Function} (h : Scope.ofTree t = .ok s) :
    Scope.ofTree (t.moveDown lines) = .ok s := by
  have hdeclared {kind : VarKind} {ds : List Tree.Declaration} {f f' : Function}
      (h : ds.foldlM (declare kind) f = .ok f') :
      (ds.map (Tree.Declaration.moveDown lines)).foldlM (declare kind) f = .ok f' :=
    foldlM_move h _ declare_moveDown
  have hlabels {s s' : Scope} (h : t.blocks.foldlM Scope.label s = .ok s') :
      (t.blocks.map (Tree.Block.moveDown lines)).foldlM Scope.label s = .ok s' :=
    foldlM_move h _ id
  obtain ⟨f, hf, h⟩ := bind_eq_ok h
  refine bind_eq_ok_iff.mpr ⟨f, hdeclared hf, ?_⟩
  obtain ⟨name, params, returns, locals, blocks⟩ := t
  rcases returns with _ | ty
  · obtain ⟨f', hf', h⟩ := bind_eq_ok h
    obtain ⟨f'', hf'', h⟩ := bind_eq_ok h
    exact bind_eq_ok_iff.mpr ⟨f', hf', bind_eq_ok_iff.mpr ⟨f'', hdeclared hf'', hlabels h⟩⟩
  · obtain ⟨ty', hty', h⟩ := bind_eq_ok h
    obtain ⟨f', hf', h⟩ := bind_eq_ok h
    obtain ⟨f'', hf'', h⟩ := bind_eq_ok h
    exact bind_eq_ok_iff.mpr ⟨ty', resolve_ty_moveDown hty', bind_eq_ok_iff.mpr
      ⟨f', hf', bind_eq_ok_iff.mpr ⟨f'', hdeclared hf'', hlabels h⟩⟩⟩

theorem resolve_moveDown {t : Tree.Function} {f : TaintAnalysis.Function} (h : t.resolve = .ok f) :
    (t.moveDown lines).resolve = .ok f := by
  obtain ⟨s, hs, h⟩ := bind_eq_ok h
  obtain ⟨blocks, hblocks, h⟩ := bind_eq_ok h
  have hmoved : (t.moveDown lines).blocks.mapM s.basicBlock = .ok blocks :=
    mapM_move hblocks _ Scope.basicBlock_moveDown
  exact bind_eq_ok_iff.mpr ⟨s, ofTree_moveDown hs, bind_eq_ok_iff.mpr ⟨blocks, hmoved, h⟩⟩

end

/-! ## Programs -/

theorem Tree.parse_append {s₁ s₂ : String} {ts us : List Tree.Function}
    (h : Tree.parse s₁ = some ts) (h' : Tree.parse s₂ = some us) :
    ∃ lines, Tree.parse (s₁ ++ "\n" ++ s₂) =
      some (ts ++ us.map (Tree.Function.moveDown lines)) := by
  obtain ⟨ls, hls, hts⟩ := Option.bind_eq_some_iff.mp h
  obtain ⟨ls', hls', hus⟩ := Option.bind_eq_some_iff.mp h'
  obtain ⟨lines, hscan⟩ := scan_append hls hls'
  refine ⟨lines, ?_⟩
  rw [Tree.parse, hscan]
  exact Tree.parseTokens_append hts hus lines

/-- The first function whose name is taken is refused. -/
theorem foldlM_addFunction_taken {p : Program} {ts : List Tree.Function}
    {fs : List TaintAnalysis.Function} (hfs : List.Forall₂ (fun t f => t.resolve = .ok f) ts fs)
    (hdistinct : (fs.map (·.name)).Nodup) {name : String}
    (htaken : (fs.map (·.name)).find? (· ∈ p.names) = some name) :
    ts.foldlM addFunction p = .error (.duplicateFunction name) := by
  induction hfs generalizing p with
  | nil => exact nomatch htaken
  | @cons t f ts fs hf _ ih =>
      obtain ⟨hnotMem, hdistinct⟩ := List.nodup_cons.mp hdistinct
      rw [List.foldlM_cons]
      rw [List.map_cons, List.find?_cons] at htaken
      by_cases hmem : f.name ∈ p.names
      · rw [decide_eq_true hmem] at htaken
        obtain rfl := Option.some.inj htaken
        have hcontains : p.contains f.name = true := decide_eq_true hmem
        have hadd : addFunction p t = .error (.duplicateFunction f.name) := by
          rw [addFunction, hf]
          exact if_pos hcontains
        rw [hadd]
        rfl
      · rw [decide_eq_false hmem] at htaken
        obtain ⟨next, hnext, hfunctions⟩ := addFunction_of_resolve hf hmem
        rw [hnext]
        refine ih hdistinct ?_
        -- the name of `f` is new, and none of the functions behind `f` bears it
        refine Eq.trans (List.find?_congr fun other hother => ?_) htaken
        have hnames : next.names = p.names ++ [f.name] := by
          rw [Program.names, hfunctions, List.map_append]
          rfl
        have hne : other ≠ f.name := ne_of_mem_of_not_mem hother hnotMem
        simp [hnames, hne]

end Source

namespace Program

open Source

theorem exists_parse_of_ofSource {text : String} {p : Program} (h : ofSource text = .ok p) :
    ∃ ts, Tree.parse text = some ts ∧ ts.foldlM addFunction .empty = .ok p := by
  rw [ofSource] at h
  split at h
  · next ts hts => exact ⟨ts, hts, h⟩
  · exact nomatch h

/-- The text of one program behind the text of another, with a line break between them, is the text
of a program with the functions of both, one after the other, unless they share a name. Then the
first function of the second program whose name is taken is refused. -/
theorem ofSource_append {s₁ s₂ : String} {p₁ p₂ : Program} (h₁ : ofSource s₁ = .ok p₁)
    (h₂ : ofSource s₂ = .ok p₂) :
    ((∀ name ∈ p₂.names, name ∉ p₁.names) →
      ∃ p, ofSource (s₁ ++ "\n" ++ s₂) = .ok p ∧ p.functions = p₁.functions ++ p₂.functions) ∧
    ∀ name, p₂.names.find? (· ∈ p₁.names) = some name →
      ofSource (s₁ ++ "\n" ++ s₂) = .error (.duplicateFunction name) := by
  obtain ⟨ts, hts, hp₁⟩ := exists_parse_of_ofSource h₁
  obtain ⟨us, hus, hp₂⟩ := exists_parse_of_ofSource h₂
  obtain ⟨lines, hparse⟩ := Tree.parse_append hts hus
  obtain ⟨fs, hfunctions, hresolved⟩ := functions_foldlM hp₂
  obtain rfl : p₂.functions = fs := hfunctions.trans (List.nil_append fs)
  have hmoved : List.Forall₂ (fun t f => t.resolve = .ok f)
      (us.map (Tree.Function.moveDown lines)) p₂.functions :=
    List.forall₂_map_left_iff.mpr (hresolved.imp fun _ _ => resolve_moveDown)
  have hfold : ofSource (s₁ ++ "\n" ++ s₂) =
      (us.map (Tree.Function.moveDown lines)).foldlM addFunction p₁ := by
    rw [ofSource, hparse]
    show List.foldlM addFunction .empty (ts ++ _) = _
    rw [List.foldlM_append, hp₁]
    rfl
  rw [hfold]
  constructor
  · intro hdisjoint
    refine foldlM_addFunction hmoved ?_
    rw [List.map_append, List.nodup_append]
    exact ⟨p₁.distinct, p₂.distinct,
      fun name h₁ other h₂ => ne_of_mem_of_not_mem h₁ fun h => hdisjoint other h₂ h⟩
  · exact fun name => foldlM_addFunction_taken hmoved p₂.distinct

/-- A function that returns what it is given. -/
def identity : Program where
  functions :=
    [{ name := "id"
       returns := .int 32
       vars := [⟨"n", .int 32, .param⟩]
       blocks := .ofList [(0, ⟨[], .ret (some (.var 0))⟩)]
       entry := 0
       nextBlock := 1 }]
  distinct := by decide

/-- A function that calls another one. -/
def caller : Program where
  functions :=
    [{ name := "main"
       returns := .void
       vars := []
       blocks := .ofList [(0, ⟨[.call none (.direct "id") [.const 1]], .ret none⟩)]
       entry := 0
       nextBlock := 1 }]
  distinct := by decide

theorem ofSource_append_caller :
    ofSource "fn id(n: i32) -> i32 \x7b a: ret n; \x7d // the end" = .ok identity ∧
    ofSource "fn main() \x7b b: call id(1); ret; \x7d" = .ok caller ∧
    (∃ p, ofSource ("fn id(n: i32) -> i32 \x7b a: ret n; \x7d // the end" ++ "\n" ++
        "fn main() \x7b b: call id(1); ret; \x7d") = .ok p ∧
      p.functions = identity.functions ++ caller.functions) ∧
    ofSource ("fn id(n: i32) -> i32 \x7b a: ret n; \x7d // the end" ++ "\n" ++
      "fn id(n: i32) -> i32 \x7b a: ret n; \x7d // the end") = .error (.duplicateFunction "id") := by
  have hidentity : ofSource "fn id(n: i32) -> i32 \x7b a: ret n; \x7d // the end" = .ok identity := by
    decide +kernel
  have hcaller : ofSource "fn main() \x7b b: call id(1); ret; \x7d" = .ok caller := by
    decide +kernel
  exact ⟨hidentity, hcaller, (ofSource_append hidentity hcaller).1 (by decide +kernel),
    (ofSource_append hidentity hidentity).2 "id" (by decide +kernel)⟩

end Program

end TaintAnalysis
