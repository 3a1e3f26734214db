import TaintAnalysis.Proofs.Source.ParseTree
import TaintAnalysis.Proofs.Source.Precedence

/-!
# Climbing chains of operators

The children of an expression are operands and operators, from left to right. Climbing
them gives back the syntax tree of a phrase, because what the levels of the operators say
is what the tree of a phrase keeps to: the right operand of an operator ends where an
operator stands that does not bind more tightly.
-/

namespace TaintAnalysis.Source

/-! ## Faults on the way -/

section

variable {α β : Type}

theorem lift_bind (x : Except SourceError α) (f : α → Except SourceError β) :
    lift (x >>= f) = lift x >>= fun a => lift (f a) := by
  cases x <;> rfl

theorem lift_map (f : α → β) (x : Except SourceError α) : lift (f <$> x) = f <$> lift x := by
  cases x <;> rfl

end

/-! ## Climbing -/

/-- The operands and operators of an expression, from left to right. -/
def Tree.Expr.items (s : Scope) : Tree.Expr → List Item
  | .unary op e => .unary op :: e.items s
  | .binary op l r => l.items s ++ .binary op :: r.items s
  | e => [.operand (lift (s.expr e))]

section

variable {s : Scope}

theorem PrimaryPhrase.items {e : Tree.Expr} {ls : List Lexeme} (h : PrimaryPhrase e ls) :
    e.items s = [.operand (lift (s.expr e))] := by
  cases h <;> rfl

/-- Another operator at the right end of a chain stands behind all others. -/
theorem Tree.Expr.items_extend (op : BinOp) (operand : Tree.Expr) : ∀ chain : Tree.Expr,
    (chain.extend op operand).items s = chain.items s ++ .binary op :: operand.items s
  | .binary outer left right => by
      rw [extend]
      split
      · simp [items, items_extend op operand right]
      · rfl
  | .int _ | .var _ | .addrOf _ | .group _ | .unary _ _ => rfl

/-- An operator comes first, and none that binds more tightly than the level. -/
def Stops (level : Nat) (items : List Item) : Prop :=
  items = [] ∨ ∃ op rest, items = .binary op :: rest ∧ op.level ≤ level

theorem Stops.mono {level level' : Nat} {items : List Item} (h : Stops level items)
    (hle : level ≤ level') : Stops level' items :=
  h.imp_right fun ⟨op, rest, hitems, hop⟩ => ⟨op, rest, hitems, hop.trans hle⟩

end

end TaintAnalysis.Source
