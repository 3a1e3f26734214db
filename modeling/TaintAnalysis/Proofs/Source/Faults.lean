import TaintAnalysis.Source.Scope

/-!
# Faults of texts that fit the grammar

Only a text that does not fit the grammar is malformed. Whatever goes wrong when the names
of its syntax tree are looked up is reported as the fault that it is: a variable or a block
that is unknown or there twice, a number out of range, or a function of a known name.
-/

namespace TaintAnalysis.Source

/-- A step does not complain about the form of the text. -/
def Fits {α : Type} (x : Except SourceError α) : Prop :=
  x ≠ .error .malformed

section

variable {α β : Type}

theorem fits_ok (a : α) : Fits (.ok a) :=
  fun h => by cases h

theorem fits_error {e : SourceError} (h : e ≠ .malformed) :
    Fits (.error e : Except SourceError α) :=
  fun he => h (Except.error.inj he)

theorem Fits.bind {x : Except SourceError α} {f : α → Except SourceError β} (hx : Fits x)
    (hf : ∀ a, Fits (f a)) : Fits (x >>= f) := by
  cases x with
  | error e => exact fun h => hx (congrArg Except.error (Except.error.inj h))
  | ok a => exact hf a

theorem Fits.ite {c : Prop} [Decidable c] {x y : Except SourceError α} (hx : Fits x) (hy : Fits y) :
    Fits (if c then x else y) := by
  split
  · exact hx
  · exact hy

theorem fits_mapM {f : α → Except SourceError β} (hf : ∀ a, Fits (f a)) :
    ∀ l : List α, Fits (l.mapM f)
  | [] => fits_ok []
  | a :: l => by
      rw [List.mapM_cons]
      exact (hf a).bind fun b => (fits_mapM hf l).bind fun bs => fits_ok (b :: bs)

theorem fits_foldlM {f : β → α → Except SourceError β} (hf : ∀ b a, Fits (f b a)) :
    ∀ (l : List α) (b : β), Fits (l.foldlM f b)
  | [], b => fits_ok b
  | a :: l, b => by
      rw [List.foldlM_cons]
      exact (hf b a).bind fun b' => fits_foldlM hf l b'

end

theorem Tree.Digits.fits_upTo (d : Tree.Digits) (limit : Nat) : Fits (d.upTo limit) :=
  .ite (fits_ok _) (fits_error fun h => by cases h)

theorem Tree.Ty.fits_resolve : ∀ t : Tree.Ty, Fits t.resolve
  | .int _ => fits_ok _
  | .void => fits_ok _
  | .struct _ => fits_ok _
  | .pointer target => target.fits_resolve.bind fun _ => fits_ok _
  | .array element none => element.fits_resolve.bind fun _ => fits_ok _
  | .array element (some length) => (length.fits_upTo maxLength).bind fun _ =>
      element.fits_resolve.bind fun _ => fits_ok _

namespace Scope

variable (s : Scope)

theorem fits_var (n : Tree.Name) : Fits (s.var n) := by
  rw [var]
  split
  · exact fits_ok _
  · exact fits_error fun h => by cases h

theorem fits_block (n : Tree.Name) : Fits (s.block n) := by
  rw [block]
  split
  · exact fits_ok _
  · exact fits_error fun h => by cases h

mutual

theorem fits_expr : ∀ e : Tree.Expr, Fits (s.expr e)
  | .int digits => (digits.fits_upTo maxConstant).bind fun _ => fits_ok _
  | .var n => (s.fits_var n).bind fun _ => fits_ok _
  | .addrOf p => (fits_place p).bind fun _ => fits_ok _
  | .unary _ e => (fits_expr e).bind fun _ => fits_ok _
  | .binary _ l r => (fits_expr l).bind fun _ => (fits_expr r).bind fun _ => fits_ok _
  | .group e => fits_expr e

theorem fits_place : ∀ p : Tree.Place, Fits (s.place p)
  | .var n => (s.fits_var n).bind fun _ => fits_ok _
  | .deref p => (fits_place p).bind fun _ => fits_ok _
  | .index p e => (fits_place p).bind fun _ => (fits_expr e).bind fun _ => fits_ok _
  | .field p _ => (fits_place p).bind fun _ => fits_ok _

end

theorem fits_callee : ∀ c : Tree.Callee, Fits (s.callee c)
  | .direct _ => fits_ok _
  | .indirect target => (s.fits_expr target).bind fun _ => fits_ok _

theorem fits_result : ∀ dst : Option Tree.Name, Fits (dst.mapM s.var)
  | none => fits_ok none
  | some n => (s.fits_var n).bind fun _ => fits_ok _

theorem fits_instruction : ∀ t : Tree.Statement, Fits (s.instruction t)
  | .assign dst e => (s.fits_var dst).bind fun _ => (s.fits_expr e).bind fun _ => fits_ok _
  | .load dst p => (s.fits_var dst).bind fun _ => (s.fits_place p).bind fun _ => fits_ok _
  | .store p e => (s.fits_place p).bind fun _ => (s.fits_expr e).bind fun _ => fits_ok _
  | .cast dst ty e => (s.fits_var dst).bind fun _ => ty.fits_resolve.bind fun _ =>
      (s.fits_expr e).bind fun _ => fits_ok _
  | .call dst callee args => (s.fits_result dst).bind fun _ => (s.fits_callee callee).bind fun _ =>
      (fits_mapM s.fits_expr args).bind fun _ => fits_ok _
  | .opaqueCode touched _ => (fits_mapM s.fits_var touched).bind fun _ => fits_ok _

theorem fits_terminator : ∀ t : Tree.Terminator, Fits (s.terminator t)
  | .jump target => (s.fits_block target).bind fun _ => fits_ok _
  | .branch condition thenBlock elseBlock => (s.fits_expr condition).bind fun _ =>
      (s.fits_block thenBlock).bind fun _ => (s.fits_block elseBlock).bind fun _ => fits_ok _
  | .ret none => fits_ok _
  | .ret (some value) => (s.fits_expr value).bind fun _ => fits_ok _

theorem fits_basicBlock (b : Tree.Block) : Fits (s.basicBlock b) :=
  (fits_mapM s.fits_instruction b.statements).bind fun _ =>
    (s.fits_terminator b.terminator).bind fun _ => fits_ok _

theorem fits_label (b : Tree.Block) : Fits (s.label b) :=
  .ite (fits_error fun h => by cases h) (.ite (fits_ok _)
    (.ite (fits_error fun h => by cases h) (fits_ok _)))

theorem fits_declare (kind : VarKind) (f : Function) (d : Tree.Declaration) :
    Fits (declare kind f d) :=
  d.ty.fits_resolve.bind fun _ => .ite (fits_error fun h => by cases h) (fits_ok _)

theorem fits_ofTree (t : Tree.Function) : Fits (Scope.ofTree t) := by
  have hlocals (f : Function) : Fits (do
      let f ← t.locals.foldlM (declare .local) f
      t.blocks.foldlM Scope.label ⟨f, .empty⟩) :=
    (fits_foldlM (fits_declare .local) t.locals f).bind fun f =>
      fits_foldlM fits_label t.blocks ⟨f, .empty⟩
  refine (fits_foldlM (fits_declare .param) t.params _).bind fun f => ?_
  cases t.returns with
  | none => exact hlocals f
  | some ty => exact ty.fits_resolve.bind fun ty => hlocals { f with returns := ty }

end Scope

theorem fits_addFunction (p : Program) (t : Tree.Function) : Fits (addFunction p t) := by
  have hresolve : Fits t.resolve := (Scope.fits_ofTree t).bind fun s =>
    (fits_mapM s.fits_basicBlock t.blocks).bind fun _ => fits_ok _
  exact hresolve.bind fun f => .ite (fits_error fun h => by cases h) (fits_ok _)

end TaintAnalysis.Source

namespace TaintAnalysis.Program

/-- A text is malformed if and only if it does not fit the grammar. -/
theorem ofSource_eq_malformed_iff {text : String} :
    ofSource text = .error .malformed ↔ isWellFormedSource text = false := by
  rw [ofSource, isWellFormedSource]
  cases Source.Tree.parse text with
  | none => exact ⟨fun _ => rfl, fun _ => rfl⟩
  | some fs =>
      have hfits := Source.fits_foldlM Source.fits_addFunction fs .empty
      exact ⟨fun h => absurd h hfits, fun h => by cases h⟩

end TaintAnalysis.Program
