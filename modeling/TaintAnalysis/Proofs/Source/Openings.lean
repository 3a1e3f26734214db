import TaintAnalysis.Proofs.Source.Assembly

/-!
# What operands, places and types begin with

A sign that stands in front of an operand, a place or a type is not made longer by it.
The one exception is the sign for an address in front of an operand that begins with it,
and there the longer sign has been tried before. A slash is no operator where a comment
begins, since comments are skipped in front of operators.
-/

namespace TaintAnalysis.Source

/-! ## What terms begin with -/

/-- The character makes no sign longer, and it begins no comment. -/
def StartsPlace (c : Char) : Prop :=
  c ∉ ['|', '&', '=', '<', '>', '/']

/-- The character makes no sign longer, except for the sign of an address. -/
def StartsOperand (c : Char) : Prop :=
  c ∉ ['|', '=', '<', '>', '/']

instance (c : Char) : Decidable (StartsPlace c) :=
  inferInstanceAs (Decidable (_ ∉ _))

instance (c : Char) : Decidable (StartsOperand c) :=
  inferInstanceAs (Decidable (_ ∉ _))

theorem StartsPlace.operand {c : Char} (h : StartsPlace c) : StartsOperand c :=
  fun hmem => h (by simp only [List.mem_cons] at hmem ⊢; exact hmem.imp_right .inr)

theorem StartsPlace.not_extended {c : Char} (h : StartsPlace c) (s : Sign) :
    s.extendedBy c = false := by
  rw [Sign.extendedBy.eq_def]
  split
  case h_11 => rfl
  all_goals exact absurd (by decide) h

theorem StartsOperand.not_extended {c : Char} (h : StartsOperand c) {s : Sign} (hs : s ≠ .amp) :
    s.extendedBy c = false := by
  rw [Sign.extendedBy.eq_def]
  split
  case h_2 => exact absurd rfl hs
  case h_11 => rfl
  all_goals exact absurd (by decide) h

section

variable {n : Nat}

end

/-! ## Operators -/

section

variable {n : Nat}

end

end TaintAnalysis.Source
