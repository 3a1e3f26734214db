import TaintAnalysis.Proofs.Source.Climbing
import TaintAnalysis.Proofs.Source.Openings

/-!
# Parse trees of types, expressions and places

A node for a type, an expression or a place stands for the syntax tree of a phrase: taking
the node apart gives the same as looking up the names of the syntax tree, faults included.
Expressions and places contain each other; for them the proof is an induction on the budget.
-/

namespace TaintAnalysis.Source

open Parts

/-! ## Names and numbers -/

/-- A node for a name has the name and nothing below it. -/
def NameMeans (name : Tree.Name) (n : Node) : Prop :=
  n = ⟨.ident, name.text, name.line, []⟩

section

variable {n : Nat}

end

/-! ## Types -/

section

variable {n : Nat}

end

/-! ## Expressions -/

def ExprMeans (e : Tree.Expr) (n : Node) : Prop :=
  n.rule = .expr ∧ ∀ s, lowerExpr s n = lift (s.expr e)

/-- The nodes are the operands and operators of an expression. -/
def ItemsMean (e : Tree.Expr) (ns : List Node) : Prop :=
  ∀ s, lowerItems s ns = e.items s

/-- An operator and its right operand. -/
inductive Joined : Parts where
  | mk {op : BinOp} {line : Nat} {e : Tree.Expr} {ns : List Node} {us : List Lexeme} :
      OperandPhrase e us → ItemsMean e ns →
        Joined (⟨.binary op, op.symbol, line, []⟩ :: ns) (⟨.sign op.sign, line⟩ :: us)

theorem lowerItems_append (s : Scope) (ns ms : List Node) :
    lowerItems s (ns ++ ms) = lowerItems s ns ++ lowerItems s ms := by
  induction ns with
  | nil => rfl
  | cons n ns ih =>
      rw [List.cons_append, lowerItems, ih]
      rfl

/-- A chain goes on with any number of operators and operands. -/
theorem Parts.Several.chain {ns : List Node} {us : List Lexeme} (h : Several Joined ns us) :
    ∀ {e ms vs}, ExprPhrase 0 e vs → ItemsMean e ms →
      Of (ExprPhrase 0) ItemsMean (ms ++ ns) (vs ++ us) := by
  induction h with
  | nil =>
      intro e ms vs hphrase hmeans
      rw [List.append_nil, List.append_nil]
      exact .mk hphrase hmeans
  | cons hfirst _ ih =>
      obtain ⟨hoperand, hitems⟩ := hfirst
      rename_i op line operand ns us
      intro e ms vs hphrase hmeans
      have hextended : ItemsMean (e.extend op operand)
          (ms ++ ⟨.binary op, op.symbol, line, []⟩ :: ns) := fun s => by
        rw [Tree.Expr.items_extend, lowerItems_append, hmeans, lowerItems, hitems]
      have hlonger := hphrase.extend line (binOp?_sign op) hoperand (Nat.zero_le _)
      simpa using ih hlonger hextended

section

variable {n : Nat} {q : Pattern} {A C : Parts}

end

section

variable {n : Nat}

end

/-! ## Places -/

/-- A part of a place that applies to what stands in front of it. -/
def SuffixPhrase (f : Tree.Place → Tree.Place) (us : List Lexeme) : Prop :=
  ∀ ⦃p ls⦄, StemPhrase p ls → StemPhrase (f p) (ls ++ us)

def SuffixMeans (f : Tree.Place → Tree.Place) (n : Node) : Prop :=
  ∀ s stars p rest, (lift (s.place p) >>= fun v => lowerSteps s stars (some v) (n :: rest)) =
    lift (s.place (f p)) >>= fun v => lowerSteps s stars (some v) rest

/-- The nodes are the steps of a place, behind any number of stars. -/
def StepsMean (p : Tree.Place) (ns : List Node) : Prop :=
  ∀ s stars line, lowerSteps s stars none ns >>= stepsTo line =
    Nat.repeat .deref stars <$> lift (s.place p)

theorem Parts.Several.stem {ns : List Node} {us : List Lexeme}
    (h : Several (Of SuffixPhrase (One SuffixMeans)) ns us) {p : Tree.Place} {vs : List Lexeme}
    (hp : StemPhrase p vs) : ∃ q, StemPhrase q (vs ++ us) ∧ ∀ s stars,
      (lift (s.place p) >>= fun v => lowerSteps s stars (some v) ns) =
        (fun v => (stars, some v)) <$> lift (s.place q) := by
  induction h generalizing p vs with
  | nil =>
      refine ⟨p, by rwa [List.append_nil], fun s stars => ?_⟩
      cases lift (s.place p) <;> rfl
  | cons hfirst _ ih =>
      obtain ⟨hphrase, ⟨hmeans⟩⟩ := hfirst
      obtain ⟨q, hq, hsteps⟩ := ih (hphrase hp)
      refine ⟨q, by simpa using hq, fun s stars => ?_⟩
      rw [List.singleton_append, hmeans, hsteps]

theorem repeat_succ {α : Type} (f : α → α) (k : Nat) (a : α) :
    Nat.repeat f (k + 1) a = Nat.repeat f k (f a) := by
  induction k with
  | zero => rfl
  | succ k ih => rw [Nat.repeat, ih, Nat.repeat]

/-- A star in front of a place. -/
inductive Star : Parts where
  | mk {text : String} {line line' : Nat} :
      Star [⟨.deref, text, line, []⟩] [⟨.sign .star, line'⟩]

/-- Stars in front apply to the place behind them. -/
theorem Parts.Several.stars {ns ms : List Node} {us vs : List Lexeme}
    (h : Several Star ns us)
    (hplace : Of PlacePhrase StepsMean ms vs) :
    Of PlacePhrase StepsMean (ns ++ ms) (us ++ vs) := by
  induction h with
  | nil => exact hplace
  | cons hfirst _ ih =>
      cases hfirst
      obtain ⟨hphrase, hmeans⟩ := ih
      refine .mk (.deref hphrase) fun s stars line => ?_
      rw [List.append_assoc, List.singleton_append, lowerSteps, hmeans, Scope.place, lift_bind]
      cases lift (s.place _) with
      | error => rfl
      | ok v => exact congrArg Except.ok (repeat_succ _ _ _)

section

variable {n : Nat}

end

end TaintAnalysis.Source
