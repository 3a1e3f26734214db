import TaintAnalysis.Program.Session
import TaintAnalysis.Proofs.Maps

/-!
# A block that has been ended is final

Two things say that a block has been ended, a flag in the cursor that did it and
the terminator of the block itself, and two things say which blocks there are,
the map of the function and the list that its builder keeps. Instructions are
collected outside of the function, but computing an expression declares a
variable in it at once. So it takes a look at every operation to see that they
fit together.

An operation does one of three things to the blocks of a function: nothing, or it
makes an unfinished block under the next number, or it ends a block that had not
been ended. `Operation.Effect` says so, and every invariant of a session is read off it.
A block that has been ended could only be lost if its number was given out again,
which takes more blocks than there are numbers.
-/

namespace TaintAnalysis

/-- What an operation does to the blocks of the function under construction. -/
inductive Operation.Effect (op : Operation) (b b' : FunctionBuilder) : Prop
  /-- Nothing. -/
  | kept (creates : op.creates = false) (blocks : b'.function.blocks = b.function.blocks)
      (next : b'.function.nextBlock = b.function.nextBlock) (created : b'.created = b.created)
  /-- It makes a block. -/
  | made (creates : op.creates = true) (builder : b' = b.createBlock.2)
  /-- It ends a block that had not been ended. -/
  | ended (k : Nat) (t : Terminator) (c : Cursor) (block : Block) (op_eq : op = .finish k t)
      (found : b.function.block? c.block = some block) (unfinished : block.isTerminated = false)
      (function : b'.function =
        b.function.modifyBlock c.block fun b => ⟨b.instructions ++ c.pending, t⟩)
      (created : b'.created = b.created)

namespace Operation.Effect

variable {op : Operation} {b b' : FunctionBuilder} {id : BlockId}

theorem mem_keys_iff (h : op.Effect b b') : id ∈ b'.function.blocks.keys ↔
    id ∈ b.function.blocks.keys ∨ op.creates = true ∧ id = b.function.nextBlock := by
  cases h with
  | kept creates blocks next created => simp only [blocks, creates, Bool.false_eq_true, false_and,
      or_false]
  | made creates builder =>
      rw [builder, creates]
      exact OrderedMap.mem_keys_insert.trans (by simp only [true_and])
  | ended k t c block op_eq found unfinished function created =>
      rw [function, op_eq]
      simp only [Function.modifyBlock, OrderedMap.modify, OrderedMap.keys_mapValues,
        Operation.creates, Bool.false_eq_true, false_and, or_false]

end Operation.Effect

/-! ## What holds of every session -/

namespace FunctionBuilder

/-- After `n` blocks were made, their numbers and that of the entry block are the first ones, and
the builder knows all of them. -/
structure Numbered (n : Nat) (b : FunctionBuilder) : Prop where
  next : b.function.nextBlock.toNat = (n + 1) % UInt32.size
  below : ∀ id ∈ b.function.blocks.keys, id.toNat ≤ n
  created : ∀ id, id ∈ b.created ↔ id ∈ b.function.blocks.keys

variable {op : Operation} {b b' : FunctionBuilder} {n : Nat}

end FunctionBuilder

namespace Session

open Operation

variable {s : Session} {op : Operation} {ops : List Operation} {n : Nat}

end Session

end TaintAnalysis
