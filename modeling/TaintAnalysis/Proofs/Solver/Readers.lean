import TaintAnalysis.Proofs.Memory.Saturation
import TaintAnalysis.Proofs.Solver.Fixpoint

/-!
# Which blocks read memory

The solver makes up its list of blocks that read memory from the variables that
a block mentions. This file says what reading memory means for the equations:
`Storage.reads` follows the equations and asks for every cell that is looked at,
the pointers on the way to an address included. A block that reads nothing does
the same whatever memory holds (`blockEffects_congr`).

In a function without address-of expressions the list of the solver is complete.
In general it is not: the pointers that are followed to compute an address do
not count as mentions.
-/

namespace TaintAnalysis

open Arena

namespace Storage

mutual

/-- Whether the taint of an expression depends on memory. -/
def reads (S : Storage) : Expr → Bool
  | .var v => S.resident v
  | .const _ => false
  | .unary _ e => S.reads e
  | .binary _ l r => S.reads l || S.reads r
  | .addrOf place =>
      ((S.facts.resolve place).derefsBase && S.resident place.base)
        || !(S.facts.resolve place).pointerCells.isEmpty || S.positionsRead place

/-- Whether the taint of the index positions of a place depends on memory. -/
def positionsRead (S : Storage) : Place → Bool
  | .var _ => false
  | .deref inner | .field inner _ => S.positionsRead inner
  | .index inner e => S.positionsRead inner || S.reads e

end

/-- Whether an instruction depends on memory. Accesses to memory and calls count
as if they did. -/
def instructionReads (S : Storage) : Instruction → Bool
  | .assign _ e | .cast _ e _ => S.reads e
  | .load .. | .store .. | .call .. => true
  | .opaqueCode .. => false

/-- Whether a block depends on memory. -/
def blockReads (S : Storage) (block : Block) : Bool :=
  block.instructions.any S.instructionReads || block.terminator.operand?.any S.reads

end Storage

/-! ## What is not read does not matter -/

namespace Storage

variable {S : Storage} {c d : Cells} {s : State}

mutual

theorem value_congr : ∀ e : Expr, S.reads e = false → S.value c s e = S.value d s e
  | .var v, h => by
      rw [reads] at h
      rw [value, value, valueOfVar, valueOfVar, h]
      rfl
  | .const _, _ => by rw [value, value]
  | .unary _ e, h => by
      rw [reads] at h
      rw [value, value, value_congr e h]
  | .binary _ l r, h => by
      rw [reads, Bool.or_eq_false_iff] at h
      rw [value, value, value_congr l h.1, value_congr r h.2]
  | .addrOf place, h => by
      rw [reads, Bool.or_eq_false_iff, Bool.or_eq_false_iff, Bool.and_eq_false_iff,
        Bool.not_eq_false', List.isEmpty_iff] at h
      obtain ⟨⟨hbase, hpointers⟩, hpositions⟩ := h
      have hread (c : Cells) : Cells.read c [] = Value.bottom := by
        refine Value.le_bottom_iff.mp (Cells.gather_le_iff.mpr fun _ _ h => ?_)
        exact absurd h Bool.false_ne_true
      have hvalue : (if (S.facts.resolve place).derefsBase = true
          then S.valueOfVar c s place.base else Value.bottom) =
          if (S.facts.resolve place).derefsBase = true
          then S.valueOfVar d s place.base else Value.bottom := by
        rcases hbase with hno | hscalar
        · rw [hno]
          rfl
        · rw [valueOfVar, valueOfVar, hscalar]
          rfl
      rw [value, value, address, address, hvalue, hpointers, hread, hread,
        positions_congr place hpositions]

theorem positions_congr :
    ∀ p : Place, S.positionsRead p = false → S.positions c s p = S.positions d s p
  | .var _, _ => by rw [positions, positions]
  | .deref inner, h => by
      rw [positionsRead] at h
      rw [positions, positions, positions_congr inner h]
  | .field inner _, h => by
      rw [positionsRead] at h
      rw [positions, positions, positions_congr inner h]
  | .index inner e, h => by
      rw [positionsRead, Bool.or_eq_false_iff] at h
      rw [positions, positions, positions_congr inner h.1, value_congr e h.2]

end

end Storage

namespace Problem

variable {p : Problem} {S : Storage} {c d : Cells} {a₀ : Arena} {b : BlockId} {block : Block}

theorem outcome_congr {around : Surroundings} {s : State} {i : Instruction}
    (h : S.instructionReads i = false) : p.outcome S c around s i = p.outcome S d around s i := by
  cases i with
  | assign dst e => rw [outcome, outcome, Storage.value_congr e h]
  | cast dst e ty => rw [outcome, outcome, Storage.value_congr e h]
  | load dst place => exact absurd h.symm Bool.false_ne_true
  | store place src => exact absurd h.symm Bool.false_ne_true
  | call dst callee args => exact absurd h.symm Bool.false_ne_true
  | opaqueCode vars reason => rfl

theorem outcomes_congr {around : Surroundings} {s : State} {is : List Instruction}
    (h : is.any S.instructionReads = false) :
    p.outcomes S c around s is = p.outcomes S d around s is := by
  induction is generalizing s with
  | nil => rfl
  | cons i rest ih =>
      rw [List.any_cons, Bool.or_eq_false_iff] at h
      rw [outcomes, outcomes, outcome_congr (d := d) h.1]
      simp only [ih h.2]

/-- A block that does not depend on memory does the same whatever memory holds. -/
theorem blockEffects_congr (h : S.blockReads block = false) (σ : Assignment) :
    p.blockEffects { σ with cells := c } b S block = p.blockEffects σ b S block := by
  rw [Storage.blockReads, Bool.or_eq_false_iff] at h
  have hend (s : State) (control : Value) : finish S c control s block.terminator =
      finish S σ.cells control s block.terminator := by
    have hoperand := h.2
    cases hterm : block.terminator with
    | jump target => rfl
    | missing => rfl
    | branch condition thenBlock elseBlock =>
        rw [hterm] at hoperand
        rw [finish, finish, Storage.value_congr condition hoperand]
    | ret value =>
        cases value with
        | none => rfl
        | some value =>
            rw [hterm] at hoperand
            rw [finish, finish, Storage.value_congr value hoperand]
  rw [blockEffects, blockEffects]
  show Effects.mk _ _ _ _ _ = Effects.mk _ _ _ _ _
  rw [outcomes_congr (d := σ.cells) h.1, hend]
  rfl

theorem watched_of_listed
    (h : (Storage.ofProblem p a₀).blockReads block = true → b ∈ p.memoryReaders) :
    p.Watched a₀ b block := by
  cases hreads : (Storage.ofProblem p a₀).blockReads block with
  | true => exact .inl (h hreads)
  | false => exact .inr fun σ _ => blockEffects_congr hreads σ

end Problem

/-! ## Functions -/

/-- The storage that the addresses in a function name is that of arrays, or is
named before the solver starts. -/
def Function.addressesNamed (f : Function) (config : Config) : Bool :=
  f.addressed.all fun place => (f.storage? place).all fun v =>
    (f.ty? v).any Ty.isArray || PointsTo.isMemoryResident (PointsTo.analyze f config).2 v

namespace Problem

variable {f : Function} {config : Config} {table : SummaryTable} {peers : List String}

theorem wellPosed_ofFunction (hnamed : f.addressesNamed config = true) :
    (ofFunction f config table peers).1.WellPosed (ofFunction f config table peers).2 := by
  have hadv := PointsTo.analyze_advances f config
  have hfunction : (PointsTo.analyze f config).1.function = f := hadv.function
  have hdepth : (PointsTo.analyze f config).2.maxDepth = config.maxPathDepth :=
    hadv.ready.wellFormed.depth
  have hkept {place : Place} (hplace : place ∈ f.addressed) :
      KeptPlace (ofFunction f config table peers).1 (ofFunction f config table peers).2 place := by
    intro v hv
    rw [show (ofFunction f config table peers).1.pointsTo.function = f from hfunction] at hv
    have hplace := List.all_eq_true.mp hnamed place hplace
    rw [hv, Option.all_some, Bool.or_eq_true, isMemoryResident_iff] at hplace
    refine hplace.imp (fun harray => ?_) id
    show ((PointsTo.analyze f config).1.function.ty? v).any Ty.isArray = true
    rw [hfunction]
    exact harray
  refine ⟨hdepth.symm ▸ hadv.ready, fun b _ block hblock => ?_⟩
  have hvalues : block ∈ f.blocks.values := OrderedMap.mem_values_iff.mpr ⟨b, hblock⟩
  refine ⟨fun i hi => ⟨fun place hp => ?_, fun place hp v hv => .inr ?_⟩, fun place hp => ?_⟩
  · exact hkept (List.mem_flatMap.mpr ⟨block, hvalues,
      List.mem_append_left _ (List.mem_flatMap.mpr ⟨i, hi, hp⟩)⟩)
  · rw [show (ofFunction f config table peers).1.pointsTo.function = f from hfunction] at hv
    exact PointsTo.analyze_has f config hvalues hi hp hv
  · exact hkept (List.mem_flatMap.mpr ⟨block, hvalues, List.mem_append_right _ hp⟩)

end Problem

/-! ## Functions without addresses -/

namespace Storage

variable {S : Storage}

theorem mem_reads_of_reads : ∀ e : Expr, e.addressed = [] → S.reads e = true →
    ∃ v ∈ e.reads, S.resident v = true
  | .var v, _, h => by
      rw [reads] at h
      exact ⟨v, List.mem_cons_self, h⟩
  | .const _, _, h => by
      rw [reads] at h
      exact absurd h Bool.false_ne_true
  | .unary _ e, he, h => by
      rw [reads] at h
      exact mem_reads_of_reads e he h
  | .binary _ l r, he, h => by
      rw [Expr.addressed, List.append_eq_nil_iff] at he
      rw [reads, Bool.or_eq_true] at h
      rcases h with h | h
      · obtain ⟨v, hv, hres⟩ := mem_reads_of_reads l he.1 h
        exact ⟨v, List.mem_append_left _ hv, hres⟩
      · obtain ⟨v, hv, hres⟩ := mem_reads_of_reads r he.2 h
        exact ⟨v, List.mem_append_right _ hv, hres⟩
  | .addrOf place, he, _ => absurd he (List.cons_ne_nil _ _)

end Storage

theorem Instruction.addressed_of_operand {i : Instruction} (hi : i.addressed = []) {e : Expr}
    (he : e ∈ i.operands) : e.addressed = [] :=
  List.flatMap_eq_nil_iff.mp (List.append_eq_nil_iff.mp hi).2 e he

namespace Problem

variable {a : Arena} {p : Problem} {block : Block}

theorem isMemoryResident_of_resident {v : VarId} (h : (Storage.ofProblem p a).resident v = true) :
    PointsTo.isMemoryResident a v = true :=
  (Bool.and_eq_true_iff.mp h).1

/-- Without addresses, what a block reads of memory shows in what it mentions. -/
theorem readsMemory_of_blockReads (hblock : block.addressed = [])
    (h : (Storage.ofProblem p a).blockReads block = true) : readsMemory a block = true := by
  obtain ⟨hinstructions, hterminator⟩ := List.append_eq_nil_iff.mp hblock
  rw [readsMemory, Bool.or_eq_true]
  rcases Bool.or_eq_true_iff.mp h with h | h
  · obtain ⟨i, hi, hreads⟩ := List.any_eq_true.mp h
    have hfree := List.flatMap_eq_nil_iff.mp hinstructions i hi
    refine .inl (List.any_eq_true.mpr ⟨i, hi, ?_⟩)
    have hassign {dst : VarId} {e : Expr} (he : e.addressed = [])
        (hreads : (Storage.ofProblem p a).reads e = true) :
        (dst :: e.mentions).any (PointsTo.isMemoryResident a) = true := by
      obtain ⟨v, hv, hres⟩ := Storage.mem_reads_of_reads e he hreads
      exact List.any_eq_true.mpr ⟨v, List.mem_cons_of_mem dst (List.mem_append_left _ hv),
        isMemoryResident_of_resident hres⟩
    cases i with
    | assign dst e =>
        exact Bool.or_eq_true_iff.mpr (.inr (hassign
          (Instruction.addressed_of_operand hfree List.mem_cons_self) hreads))
    | cast dst e ty =>
        exact Bool.or_eq_true_iff.mpr (.inr (hassign
          (Instruction.addressed_of_operand hfree List.mem_cons_self) hreads))
    | load dst place => rfl
    | store place src => rfl
    | call dst callee args => rfl
    | opaqueCode vars reason => exact absurd hreads Bool.false_ne_true
  · refine .inr ?_
    rw [Terminator.mentions]
    rw [Terminator.addressed] at hterminator
    cases he : block.terminator.operand? with
    | none =>
        rw [he] at h
        exact absurd h Bool.false_ne_true
    | some e =>
        rw [he] at h hterminator
        obtain ⟨v, hv, hres⟩ := Storage.mem_reads_of_reads e hterminator h
        exact List.any_eq_true.mpr ⟨v, List.mem_append_left _ hv, isMemoryResident_of_resident hres⟩

variable {f : Function} {config : Config} {table : SummaryTable} {peers : List String}

theorem addressesNamed_of_addressFree (hf : f.AddressFree) : f.addressesNamed config = true := by
  rw [Function.addressesNamed, hf]
  rfl

theorem wellPosed_of_addressFree (hf : f.AddressFree) :
    (ofFunction f config table peers).1.WellPosed (ofFunction f config table peers).2 :=
  wellPosed_ofFunction (addressesNamed_of_addressFree hf)

/-- In a function without addresses the list of blocks that read memory is complete. -/
theorem listed_of_addressFree (hf : f.AddressFree) {b : BlockId}
    (hblock : (ofFunction f config table peers).1.function.block? b = some block)
    (hreads : (Storage.ofProblem (ofFunction f config table peers).1
      (ofFunction f config table peers).2).blockReads block = true) :
    b ∈ (ofFunction f config table peers).1.memoryReaders := by
  have hfree : block.addressed = [] := hf.block (OrderedMap.mem_values_iff.mpr ⟨b, hblock⟩)
  exact OrderedMap.mem_selected_iff.mpr ⟨block, hblock, readsMemory_of_blockReads hfree hreads⟩

theorem watched_of_addressFree (hf : f.AddressFree) {b : BlockId}
    (hblock : (ofFunction f config table peers).1.function.block? b = some block) :
    (ofFunction f config table peers).1.Watched (ofFunction f config table peers).2 b block :=
  watched_of_listed (listed_of_addressFree hf hblock)

end Problem

end TaintAnalysis
