import Mathlib.Logic.Function.Basic
import TaintAnalysis.Program.Function

/-!
# Running scalar code

What a function computes, for any reading of its operators. A `Meaning` says what
constants, operators and casts do to values of some type, and which way a branch
goes; nothing else is known about the values.

Only assignments and casts have a meaning here, so an execution that comes to
any other instruction is stuck. Execution goes from block to block and is over
when it returns. It may also never be over, or go to a block that the function
does not have; `ReturnsIn` is about the executions that do return, and counts
the blocks they leave on the way.
-/

namespace TaintAnalysis

/-- What the operators of a program do to values of a type. -/
structure Meaning (V : Type) where
  const : Int64 → V
  unary : UnOp → V → V
  binary : BinOp → V → V → V
  cast : Ty → V → V
  /-- What taking the address of a place gives. Scalar code takes no address. -/
  address : Place → V
  /-- Whether a branch on the value goes to its first target. -/
  truth : V → Bool

/-- A value for each variable. -/
abbrev Valuation (V : Type) := VarId → V

namespace Meaning

variable {V : Type} (m : Meaning V)

/-- The value of an expression. -/
def eval (ρ : Valuation V) : Expr → V
  | .var v => ρ v
  | .const value => m.const value
  | .unary op e => m.unary op (eval ρ e)
  | .binary op l r => m.binary op (eval ρ l) (eval ρ r)
  | .addrOf place => m.address place

def exec (ρ : Valuation V) : Instruction → Option (Valuation V)
  | .assign dst e => some (Function.update ρ dst (m.eval ρ e))
  | .cast dst e ty => some (Function.update ρ dst (m.cast ty (m.eval ρ e)))
  | _ => none

/-- The block in which execution goes on. -/
def target? (ρ : Valuation V) : Terminator → Option BlockId
  | .jump target => some target
  | .branch condition thenBlock elseBlock =>
      some (if m.truth (m.eval ρ condition) then thenBlock else elseBlock)
  | .ret _ | .missing => none

/-- The instructions of a block take one valuation to another. -/
def Runs (f : Function) (b : BlockId) (block : Block) (ρ ρ' : Valuation V) : Prop :=
  f.block? b = some block ∧ block.instructions.foldlM m.exec ρ = some ρ'

/-- From the beginning of a block the function returns a value, or nothing, after it has left
the given number of blocks. -/
inductive ReturnsIn (f : Function) : Nat → BlockId → Valuation V → Option V → Prop
  | ret {b : BlockId} {block : Block} {ρ ρ' : Valuation V} {value : Option Expr} :
      m.Runs f b block ρ ρ' → block.terminator = .ret value →
      ReturnsIn f 0 b ρ (value.map (m.eval ρ'))
  | goes {n : Nat} {b c : BlockId} {block : Block} {ρ ρ' : Valuation V} {r : Option V} :
      m.Runs f b block ρ ρ' → m.target? ρ' block.terminator = some c →
      ReturnsIn f n c ρ' r → ReturnsIn f (n + 1) b ρ r

/-- Execution from the entry returns a value, or nothing. -/
def Returns (f : Function) (ρ : Valuation V) (r : Option V) : Prop :=
  ∃ n, m.ReturnsIn f n f.entry ρ r

variable {m} {f : Function} {b c : BlockId} {block : Block} {ρ ρ' : Valuation V}

theorem mem_successors_of_target? {t : Terminator} (h : m.target? ρ t = some c) :
    c ∈ t.successors := by
  cases t with
  | jump target => exact List.mem_singleton.mpr (Option.some.inj h).symm
  | branch condition thenBlock elseBlock =>
      obtain rfl := Option.some.inj h
      rw [Terminator.successors]
      split
      · next heq =>
        rw [← heq, ite_self]
        exact List.mem_singleton.mpr rfl
      · split
        · exact List.mem_cons_self
        · exact List.mem_cons_of_mem _ (List.mem_singleton.mpr rfl)
  | ret value => exact nomatch h
  | missing => exact nomatch h

end Meaning

/-- What the variables are when a function is entered: the arguments for its parameters, and
whatever they are for the others. -/
def Function.entered {V : Type} (f : Function) (args : Nat → V) (locals : Valuation V) :
    Valuation V := fun v =>
  match f.paramIndex? v with
  | some k => args k
  | none => locals v

end TaintAnalysis
