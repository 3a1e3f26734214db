import TaintAnalysis.Program.Function
import TaintAnalysis.Proofs.Maps

/-!
# The numbers of new blocks

A function keeps the number that its next block receives. Two operations move it
on: a block that is created takes it, and a block that is inserted under a number
of the caller's choice pushes it past that number. Numbers are words, so there is
a last one, and nothing is past it.

`Function.Ahead` is what holds along a sequence of the two operations. Each number
in use is below the next one, except that the last number may have been chosen. It
breaks when the last number is itself given out: counting goes on at zero then,
which is the number of the entry block.
-/

namespace TaintAnalysis

namespace BlockId

/-- The largest number of a block. One more is zero. -/
def last : BlockId := -1

variable {a b : BlockId}

theorem not_last_lt : ¬ last < b := by
  rw [UInt32.lt_iff_toNat_lt]
  exact Nat.not_lt.mpr (Nat.le_of_lt_succ b.toNat_lt)

theorem le_max_left : a ≤ max a b := by
  show a ≤ if a ≤ b then b else a
  split
  · assumption
  · exact UInt32.le_refl a

theorem le_max_right : b ≤ max a b := by
  show b ≤ if a ≤ b then b else a
  split
  · exact UInt32.le_refl b
  · next h => exact UInt32.le_of_lt (UInt32.not_le.mp h)

end BlockId

/-! ## Adding blocks -/

/-- An operation that adds a block to a function. -/
inductive Addition where
  /-- Creates an unfinished block under the next number. -/
  | create
  /-- Inserts a block under a chosen number. -/
  | insert (b : BlockId) (block : Block)

namespace Function

def addBlock (f : Function) : Addition → Function
  | .create => f.createBlock.2
  | .insert b block => f.insertBlock b block

/-- Carries out additions one after the other. -/
def addBlocks (f : Function) (ops : List Addition) : Function :=
  ops.foldl addBlock f

/-- The numbers of the blocks that additions create, in order. -/
def givenOut (f : Function) : List Addition → List BlockId
  | [] => []
  | .create :: rest => f.createBlock.1 :: f.createBlock.2.givenOut rest
  | .insert b block :: rest => (f.insertBlock b block).givenOut rest

variable {f : Function} {b c : BlockId} {block : Block} {ops : List Addition}

theorem mem_keys_createBlock :
    b ∈ f.createBlock.2.blocks.keys ↔ b ∈ f.blocks.keys ∨ b = f.nextBlock :=
  OrderedMap.mem_keys_insert

theorem mem_keys_insertBlock :
    b ∈ (f.insertBlock c block).blocks.keys ↔ b ∈ f.blocks.keys ∨ b = c :=
  OrderedMap.mem_keys_insert

theorem mem_keys_addBlock (op : Addition) (h : b ∈ f.blocks.keys) :
    b ∈ (f.addBlock op).blocks.keys := by
  cases op with
  | create => exact mem_keys_createBlock.mpr (.inl h)
  | insert c block => exact mem_keys_insertBlock.mpr (.inl h)

theorem mem_keys_addBlocks (h : b ∈ f.blocks.keys) : b ∈ (f.addBlocks ops).blocks.keys := by
  induction ops generalizing f with
  | nil => exact h
  | cons op rest ih => exact ih (mem_keys_addBlock op h)

/-- A number that was given out is in use from then on. -/
theorem mem_keys_of_givenOut (h : b ∈ f.givenOut ops) : b ∈ (f.addBlocks ops).blocks.keys := by
  induction ops generalizing f with
  | nil => exact absurd h List.not_mem_nil
  | cons op rest ih =>
      cases op with
      | insert c block => exact ih h
      | create =>
          rcases List.mem_cons.mp h with rfl | hrest
          · exact mem_keys_addBlocks (f := f.createBlock.2) (mem_keys_createBlock.mpr (.inr rfl))
          · exact ih hrest

theorem givenOut_append (later : List Addition) :
    f.givenOut (ops ++ later) = f.givenOut ops ++ (f.addBlocks ops).givenOut later := by
  induction ops generalizing f with
  | nil => rfl
  | cons op rest ih =>
      cases op with
      | insert c block => exact ih
      | create => exact congrArg (f.nextBlock :: ·) ih

/-! ## The next number is ahead -/

/-- The numbers in use are below the next one, but for the last number, which nothing is past. -/
def Ahead (f : Function) : Prop :=
  ∀ b ∈ f.blocks.keys, b < f.nextBlock ∨ b = BlockId.last

theorem ahead_new (name : String) : (new name).Ahead := by
  intro b hb
  obtain rfl : b = 0 := List.mem_singleton.mp hb
  exact .inl (show (0 : BlockId) < 1 by decide)

namespace Ahead

theorem createBlock (h : f.Ahead) (hroom : f.nextBlock ≠ BlockId.last) :
    f.createBlock.2.Ahead := by
  have hnext : f.nextBlock < f.nextBlock + 1 := UInt32.lt_add_one hroom
  intro b hb
  rcases mem_keys_createBlock.mp hb with hold | rfl
  · exact (h b hold).imp_left fun hlt => UInt32.lt_trans hlt hnext
  · exact .inl hnext

/-- Whatever number is chosen: the last one does not move the next number, and any other one
can be passed. -/
theorem insertBlock (h : f.Ahead) : (f.insertBlock c block).Ahead := by
  intro b hb
  rcases mem_keys_insertBlock.mp hb with hold | rfl
  · exact (h b hold).imp_left fun hlt => UInt32.lt_of_lt_of_le hlt BlockId.le_max_left
  · by_cases hlast : b = BlockId.last
    · exact .inr hlast
    · exact .inl (UInt32.lt_of_lt_of_le (UInt32.lt_add_one hlast) BlockId.le_max_right)

theorem addBlocks (h : f.Ahead) (hroom : BlockId.last ∉ f.givenOut ops) :
    (f.addBlocks ops).Ahead := by
  induction ops generalizing f with
  | nil => exact h
  | cons op rest ih =>
      cases op with
      | insert c block => exact ih h.insertBlock hroom
      | create =>
          rw [givenOut, List.mem_cons, not_or] at hroom
          exact ih (h.createBlock (Ne.symm hroom.1)) hroom.2

theorem lt_nextBlock (h : f.Ahead) (hlast : BlockId.last ∉ f.blocks.keys)
    (hb : b ∈ f.blocks.keys) : b < f.nextBlock :=
  (h b hb).resolve_right fun heq => hlast (heq ▸ hb)

theorem nextBlock_not_mem (h : f.Ahead)
    (hfree : BlockId.last ∉ f.blocks.keys ∨ f.nextBlock ≠ BlockId.last) :
    f.nextBlock ∉ f.blocks.keys := by
  intro hmem
  have heq : f.nextBlock = BlockId.last := (h _ hmem).resolve_left (UInt32.lt_irrefl _)
  exact hfree.elim (fun hlast => hlast (heq ▸ hmem)) (fun hne => hne heq)

end Ahead

/-- A block that is created under a new number comes behind the others and leaves them alone. -/
theorem entries_createBlock (h : f.nextBlock ∉ f.blocks.keys) :
    f.createBlock.2.blocks.entries = f.blocks.entries ++ [(f.createBlock.1, .unfinished)] :=
  OrderedMap.entries_insert_of_not_mem h

/-- However blocks have been created and inserted, the next number is past every number in use
exactly as long as the last number is not in use. And the next block that is created has a new
number and leaves all other blocks as and where they are, as long as the last number is not in
use or, where a caller has chosen it, is not given out. -/
theorem numbers_fresh (name : String) (ops : List Addition) :
    let f := (new name).addBlocks ops
    ((∀ b ∈ f.blocks.keys, b < f.nextBlock) ↔ BlockId.last ∉ f.blocks.keys) ∧
      (BlockId.last ∉ f.blocks.keys ∨ BlockId.last ∉ (new name).givenOut (ops ++ [.create]) →
        f.createBlock.1 ∉ f.blocks.keys ∧
          f.createBlock.2.blocks.entries =
            f.blocks.entries ++ [(f.createBlock.1, .unfinished)]) := by
  intro f
  have hahead (h : BlockId.last ∉ (new name).givenOut ops) : f.Ahead :=
    (ahead_new name).addBlocks h
  have hunused (h : BlockId.last ∉ f.blocks.keys) : f.Ahead :=
    hahead fun hgiven => h (mem_keys_of_givenOut hgiven)
  refine ⟨⟨fun h hmem => BlockId.not_last_lt (h _ hmem), fun hlast b hb =>
    (hunused hlast).lt_nextBlock hlast hb⟩, fun h => ?_⟩
  have hfresh : f.nextBlock ∉ f.blocks.keys := by
    rcases h with hlast | hgiven
    · exact (hunused hlast).nextBlock_not_mem (.inl hlast)
    · rw [givenOut_append, List.mem_append, not_or] at hgiven
      have hne : f.nextBlock ≠ BlockId.last := fun heq =>
        hgiven.2 (heq ▸ List.mem_singleton.mpr rfl)
      exact (hahead hgiven.1).nextBlock_not_mem (.inr hne)
  exact ⟨hfresh, entries_createBlock hfresh⟩

/-! ## Running out of numbers -/

/-- A block that returns a copy of the first variable. -/
def echoing : Block :=
  ⟨[.assign 1 (.var 0)], .ret (some (.var 1))⟩

/-- The last number was chosen, and so was 7. The next one is 9, which is new. -/
theorem numbers_fresh_lastChosen :
    let ops : List Addition := [.insert BlockId.last echoing, .insert 7 echoing, .create]
    let f := (new "scattered").addBlocks ops
    BlockId.last ∉ (new "scattered").givenOut (ops ++ [.create]) ∧
      f.blocks.keys = [0, BlockId.last, 7, 8] ∧ f.createBlock.1 = 9 ∧
      f.createBlock.1 ∉ f.blocks.keys ∧
      f.createBlock.2.blocks.entries = f.blocks.entries ++ [(f.createBlock.1, .unfinished)] := by
  intro ops f
  have hgiven : BlockId.last ∉ (new "scattered").givenOut (ops ++ [.create]) := by decide
  exact ⟨hgiven, rfl, rfl, (numbers_fresh "scattered" ops).2 (.inr hgiven)⟩

/-- The last number but one was chosen, so that the first block that is created takes the last
number. The second one takes the number of the entry block, which is emptied. -/
theorem numbers_not_fresh :
    let f := (new "crowded").addBlocks
      [.insert 0 echoing, .insert (BlockId.last - 1) .unfinished, .create]
    f.createBlock.1 = 0 ∧ 0 ∈ f.blocks.keys ∧ ¬ (∀ b ∈ f.blocks.keys, b < f.nextBlock) ∧
      f.block? 0 = some echoing ∧ f.createBlock.2.block? 0 = some .unfinished :=
  ⟨rfl, by decide, fun h => BlockId.not_last_lt (h BlockId.last (by decide)), rfl, rfl⟩

end Function

end TaintAnalysis
