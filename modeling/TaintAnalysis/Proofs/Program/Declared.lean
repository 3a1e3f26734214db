import Mathlib
import TaintAnalysis.Proofs.Program.Addresses
import TaintAnalysis.Proofs.Program.Validation

/-!
# Which variables of a validated program are declared

Validation checks what a block mentions: the variables that its expressions read
and those whose address they take. That is every variable of the block, with one
gap. Where an address is taken inside an index position, as in `a[&x]`, the path
that is indexed contributes only what the position reads, and an address reads
nothing of its base. So `x` may be undeclared there, and nowhere else.
-/

namespace TaintAnalysis

/-- The places whose address the expression takes inside an index position. -/
def Expr.addressedInPositions : Expr → List Place
  | .var _ | .const _ => []
  | .unary _ e => e.addressedInPositions
  | .binary _ l r => l.addressedInPositions ++ r.addressedInPositions
  | .addrOf p => p.addressedInside

def Instruction.addressedInPositions (i : Instruction) : List Place :=
  (i.place?.map Place.addressedInside).getD [] ++ i.operands.flatMap Expr.addressedInPositions

def Terminator.addressedInPositions (t : Terminator) : List Place :=
  (t.operand?.map Expr.addressedInPositions).getD []

def Block.addressedInPositions (b : Block) : List Place :=
  b.instructions.flatMap Instruction.addressedInPositions ++ b.terminator.addressedInPositions

def Function.addressedInPositions (f : Function) : List Place :=
  f.blocks.values.flatMap Block.addressedInPositions

variable {v : VarId}

/-- The variable is where one of the places begins. -/
def IsBase (v : VarId) (places : List Place) : Prop :=
  ∃ place ∈ places, place.base = v

theorem IsBase.mono {places more : List Place} (h : IsBase v places) (hsub : places ⊆ more) :
    IsBase v more :=
  let ⟨place, hmem, hbase⟩ := h
  ⟨place, hsub hmem, hbase⟩

theorem IsBase.left {l r : List Place} (h : IsBase v l) : IsBase v (l ++ r) :=
  h.mono (List.subset_append_left l r)

theorem IsBase.right {l r : List Place} (h : IsBase v r) : IsBase v (l ++ r) :=
  h.mono (List.subset_append_right l r)

theorem IsBase.flatMap {α : Type} {l : List α} {x : α} {places : α → List Place}
    (h : IsBase v (places x)) (hx : x ∈ l) : IsBase v (l.flatMap places) :=
  h.mono fun _ hp => List.mem_flatMap.mpr ⟨x, hx, hp⟩

/-! ## What an expression leaves out

The three lists of an expression skip different things: its reads skip the bases
of all addresses, and its mentions skip those inside of index positions. -/

mutual

/-- A variable of an expression is read, or its address is taken. -/
theorem Expr.read_of_occurs : ∀ {e : Expr}, v ∈ e.occurrences →
    v ∈ e.reads ∨ IsBase v e.addressed
  | .var _, hv => .inl hv
  | .unary _ e, hv => Expr.read_of_occurs (e := e) hv
  | .binary _ l r, hv => by
      rcases List.mem_append.mp hv with hl | hr
      · exact (Expr.read_of_occurs hl).imp (List.mem_append_left _) IsBase.left
      · exact (Expr.read_of_occurs hr).imp (List.mem_append_right _) IsBase.right
  | .addrOf p, hv => by
      rcases Place.read_of_occurs hv with rfl | hread | hbase
      · exact .inr ⟨p, List.mem_cons_self, rfl⟩
      · exact .inl hread
      · exact .inr (hbase.mono (List.subset_cons_self p _))

/-- A variable of a path is its base, or stands in an index position. -/
theorem Place.read_of_occurs : ∀ {p : Place}, v ∈ p.occurrences →
    v = p.base ∨ v ∈ p.indexReads ∨ IsBase v p.addressedInside
  | .var _, hv => .inl (List.mem_singleton.mp hv)
  | .deref p, hv => Place.read_of_occurs (p := p) hv
  | .field p _, hv => Place.read_of_occurs (p := p) hv
  | .index p e, hv => by
      rcases List.mem_append.mp hv with hp | he
      · rcases Place.read_of_occurs hp with hbase | hread | haddr
        · exact .inl hbase
        · exact .inr (.inl (List.mem_append_left _ hread))
        · exact .inr (.inr haddr.left)
      · exact .inr ((Expr.read_of_occurs he).imp (List.mem_append_right _) IsBase.right)

end

/-- A variable of an expression is mentioned, unless its address is taken in an index position. -/
theorem Expr.mentioned_of_occurs {e : Expr} (hv : v ∈ e.occurrences) :
    v ∈ e.mentions ∨ IsBase v e.addressedInPositions := by
  induction e using Expr.rec (motive_2 := fun _ => True) with
  | var w => exact .inl (List.mem_append_left _ hv)
  | const c => exact absurd hv List.not_mem_nil
  | unary op e ih => exact ih hv
  | binary op l r ihl ihr =>
      simp only [mentions, reads, addressRoots, List.mem_append] at ihl ihr ⊢
      rcases List.mem_append.mp hv with hl | hr
      · rcases ihl hl with h | h
        · exact .inl (h.imp .inl .inl)
        · exact .inr h.left
      · rcases ihr hr with h | h
        · exact .inl (h.imp .inr .inr)
        · exact .inr h.right
  | addrOf p _ =>
      rcases p.read_of_occurs hv with rfl | hread | hbase
      · exact .inl (List.mem_append_right _ List.mem_cons_self)
      · exact .inl (List.mem_append_left _ hread)
      · exact .inr hbase
  | _ => trivial

/-- A variable of a path is its base, or is used to compute the address of the path, unless its
address is taken in an index position. -/
theorem Place.mentioned_of_occurs {p : Place} (hv : v ∈ p.occurrences) :
    v ∈ p.base :: p.addressReads ∨ IsBase v p.addressedInside := by
  rcases p.read_of_occurs hv with rfl | hread | hbase
  · exact .inl List.mem_cons_self
  · exact .inl (List.mem_cons_of_mem _ (List.mem_append_right _ hread))
  · exact .inr hbase

theorem Expr.mentioned_of_mem_flatMap {es : List Expr} (hv : v ∈ es.flatMap Expr.occurrences) :
    v ∈ es.flatMap Expr.mentions ∨ IsBase v (es.flatMap Expr.addressedInPositions) := by
  obtain ⟨e, he, hv⟩ := List.mem_flatMap.mp hv
  rcases e.mentioned_of_occurs hv with h | h
  · exact .inl (List.mem_flatMap.mpr ⟨e, he, h⟩)
  · exact .inr (h.flatMap he)

/-! ## Blocks -/

theorem Instruction.mentioned_of_occurs {i : Instruction} (hv : v ∈ i.occurrences) :
    v ∈ i.mentions ∨ IsBase v i.addressedInPositions := by
  -- a variable of an operand is accounted for in the same way in all instructions
  have hoperand : v ∈ i.operands.flatMap Expr.occurrences →
      v ∈ i.operands.flatMap Expr.mentions ∨ IsBase v i.addressedInPositions := fun h =>
    (Expr.mentioned_of_mem_flatMap h).imp_right IsBase.right
  simp only [occurrences, List.mem_append] at hv
  rcases hv with ((hdst | hplace) | hop) | htouched
  · exact .inl (mem_mentions_of_defined (Option.mem_toList.mp hdst))
  · cases i with
    | load dst p =>
        rcases Place.mentioned_of_occurs (p := p) hplace with h | h
        · exact .inl (List.mem_cons_of_mem _ h)
        · exact .inr h.left
    | store p src =>
        rcases Place.mentioned_of_occurs (p := p) hplace with h | h
        · exact .inl (List.mem_append_left _ h)
        · exact .inr h.left
    | assign dst e | cast dst e _ | call dst callee args | opaqueCode touched reason =>
        exact absurd hplace List.not_mem_nil
  · refine (hoperand hop).imp_left fun h => ?_
    obtain ⟨e, he, hve⟩ := List.mem_flatMap.mp h
    cases i with
    | assign dst src | cast dst src _ =>
        exact List.mem_cons_of_mem _ (List.mem_singleton.mp he ▸ hve)
    | store p src => exact List.mem_append_right _ (List.mem_singleton.mp he ▸ hve)
    | call dst callee args =>
        simp only [mentions, List.mem_append, List.mem_flatMap]
        rcases List.mem_append.mp he with htarget | harg
        · refine .inl (.inr ?_)
          rw [Option.mem_toList.mp htarget]
          exact hve
        · exact .inr ⟨e, harg, hve⟩
    | load dst p | opaqueCode touched reason => exact absurd he List.not_mem_nil
  · cases i with
    | opaqueCode touched reason => exact .inl htouched
    | assign | cast | load | store | call => exact absurd htouched List.not_mem_nil

theorem Terminator.mentioned_of_occurs {t : Terminator} (hv : v ∈ t.occurrences) :
    v ∈ t.mentions ∨ IsBase v t.addressedInPositions := by
  rw [occurrences] at hv
  rw [mentions, addressedInPositions]
  cases ht : t.operand? with
  | none =>
      rw [ht] at hv
      exact absurd hv List.not_mem_nil
  | some e =>
      rw [ht] at hv
      exact e.mentioned_of_occurs hv

theorem Block.mentioned_of_occurs {block : Block} (hv : v ∈ block.occurrences) :
    v ∈ block.mentions ∨ IsBase v block.addressedInPositions := by
  rcases List.mem_append.mp hv with h | h
  · obtain ⟨i, hi, hv⟩ := List.mem_flatMap.mp h
    rcases i.mentioned_of_occurs hv with hv | hbase
    · exact .inl (List.mem_append_left _ (List.mem_flatMap.mpr ⟨i, hi, hv⟩))
    · exact .inr (hbase.flatMap hi).left
  · exact (block.terminator.mentioned_of_occurs h).imp (List.mem_append_right _) IsBase.right

/-- Every variable that occurs in a function of a validated program is declared, except where only
its address is taken, and this inside an index position. -/
theorem Program.declared_of_validate {p q : Program} {config : Config} {f : Function}
    (h : p.validate config = .ok q) (hf : f ∈ q.functions) (hv : v ∈ f.occurrences) :
    v < f.vars.length ∨ ∃ place ∈ f.addressedInPositions, place.base = v := by
  obtain ⟨block, hblock, hv⟩ := List.mem_flatMap.mp hv
  rcases block.mentioned_of_occurs hv with hmentioned | hbase
  · obtain ⟨b, hget⟩ := OrderedMap.mem_values_iff.mp hblock
    exact .inl (Function.Validated.declared ⟨p, q, config, h, hf⟩ hget hmentioned)
  · exact .inr (hbase.flatMap hblock)

/-! ## A position that is not checked -/

/-- A function that loads an element of its array. The position is the address of a variable. -/
def slotOf (slot : VarId) : Function where
  name := "slot_of"
  returns := .int 32
  vars := [⟨"a", .array (.int 32) (some 4), .param⟩, ⟨"x", .int 32, .local⟩]
  blocks := .ofList
    [(0, ⟨[.load 1 (.index (.var 0) (.addrOf (.var slot)))], .ret (some (.var 1))⟩)]
  entry := 0
  nextBlock := 1

theorem declared_slotOf : (0 : VarId) < (slotOf 7).vars.length ∨
    ∃ place ∈ (slotOf 7).addressedInPositions, place.base = 0 :=
  have hvalid : Program.validate ⟨[slotOf 7], by decide⟩ .standard =
      .ok ⟨[slotOf 7], by decide⟩ := by cbv
  Program.declared_of_validate hvalid List.mem_cons_self (by decide)

/-- The program is accepted as it stands, although the position names a variable that the function
does not declare. -/
theorem slotOf_undeclared :
    (Program.mk [slotOf 7] (by decide)).validate .standard = .ok ⟨[slotOf 7], by decide⟩ ∧
      7 ∈ (slotOf 7).occurrences ∧ ¬ 7 < (slotOf 7).vars.length :=
  ⟨by cbv, by decide, by decide⟩

end TaintAnalysis
