import TaintAnalysis.Proofs.Source.Derivation
import TaintAnalysis.Proofs.Source.Faults
import TaintAnalysis.Proofs.Source.Lowering
import TaintAnalysis.Proofs.Source.StatementTrees

/-!
# Parse trees of programs

A function is entered in two rounds. The first one declares its variables and numbers its
labels, the second one fills the blocks. When a block is filled, the function has it and
nobody has ended it: the first label names the block that is there from the beginning,
each further one a block of its own, and a node for a block has one terminator. So the
cursor never refuses, and filling the blocks one by one gives the same function as
resolving all of them first.

Whatever text the grammar accepts, its tokens are parsed to the syntax trees that the
nodes stand for. What is made of the parse tree is therefore the program of the text, or
the fault that is found in it.
-/

namespace TaintAnalysis

section

variable {κ ν : Type} [DecidableEq κ]

end

namespace Source

open Parts

/-! ## Filling blocks -/

/-- A node sets the type of the result. -/
def ReturnsMeans (ty : Tree.Ty) (n : Node) : Prop :=
  n.isKeyword = false ∧ ∀ draft : Draft, draft.add n =
    (fun ty => { draft with scope.function.returns := ty }) <$> lift ty.resolve

theorem BlockMeans.isKeyword {b : Tree.Block} {n : Node} (h : BlockMeans b n) :
    n.isKeyword = false := by
  rw [Node.isKeyword, h.rule]

/-- A label is all that is read of a block when it is numbered. -/
theorem BlockMeans.add {b : Tree.Block} {n : Node} (h : BlockMeans b n) (draft : Draft) :
    draft.add n = (fun s => ⟨s, draft.blocks ++ [n]⟩) <$> lift (draft.scope.label b) := by
  obtain ⟨first, rest, hchildren, hlabel⟩ := h.label
  obtain ⟨text, line, children, rfl⟩ := Node.exists_of_rule h.rule
  obtain rfl : children = first :: rest := hchildren
  have hsame : draft.scope.label ⟨first.text, [], .ret none⟩ = draft.scope.label b := by
    rw [Scope.label, Scope.label, hlabel]
  show lift (draft.scope.label ⟨first.text, [], .ret none⟩) >>= _ = _
  rw [hsame]
  rfl

section

variable {n : Nat}

/-- The type of a result, behind its arrow. -/
inductive ResultPhrase : Tree.Ty → List Lexeme → Prop where
  | arrow {ty : Tree.Ty} {us : List Lexeme} {line : Nat} :
      TyPhrase ty us → ResultPhrase ty (⟨.sign .arrow, line⟩ :: us)

end

/-! ## Functions -/

theorem Parts.Optional.returns {rs : List Node} {us : List Lexeme}
    (h : Optional (Of ResultPhrase (One ReturnsMeans)) rs us) :
    ∃ returns : Option Tree.Ty, ReturnsPhrase returns us ∧
      List.Forall₂ ReturnsMeans returns.toList rs := by
  cases h with
  | none => exact ⟨Option.none, .none, .nil⟩
  | some h =>
      obtain ⟨⟨hphrase⟩, ⟨hmeans⟩⟩ := h
      exact ⟨_, .arrow hphrase, .cons hmeans .nil⟩

section

variable {n : Nat}

end

/-! ## Programs -/

theorem Input.Takes.lexes_nil {i j : Input} (h : i.Takes [] j) : Lexes i [] j := by
  intro ts hts
  rw [h.2, List.count_nil, Nat.add_zero] at hts
  rw [h.1]
  exact hts

section

variable {n : Nat}

end

end Source

end TaintAnalysis
