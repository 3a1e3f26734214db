import TaintAnalysis.Program.Function

/-!
# The addresses a function takes

The places under an address-of operator, wherever it stands in an expression:
at its top, below other operators, or inside the index position of a place.
-/

namespace TaintAnalysis

mutual

/-- The places whose address the expression takes, at any depth. -/
def Expr.addressed : Expr → List Place
  | .var _ | .const _ => []
  | .unary _ e => e.addressed
  | .binary _ l r => l.addressed ++ r.addressed
  | .addrOf p => p :: p.addressedInside

/-- The places whose address is taken in the index positions of a path. -/
def Place.addressedInside : Place → List Place
  | .var _ => []
  | .deref p | .field p _ => p.addressedInside
  | .index p e => p.addressedInside ++ e.addressed

end

def Instruction.addressed (i : Instruction) : List Place :=
  (i.place?.map Place.addressedInside).getD [] ++ i.operands.flatMap Expr.addressed

def Terminator.addressed (t : Terminator) : List Place :=
  (t.operand?.map Expr.addressed).getD []

def Block.addressed (b : Block) : List Place :=
  b.instructions.flatMap Instruction.addressed ++ b.terminator.addressed

/-- The place that an instruction accesses, and those whose address it takes. -/
def Instruction.places (i : Instruction) : List Place :=
  i.place?.toList ++ i.addressed

def Block.places (b : Block) : List Place :=
  b.instructions.flatMap Instruction.places ++ b.terminator.addressed

def Function.addressed (f : Function) : List Place :=
  f.blocks.values.flatMap Block.addressed

/-- The function has no address-of expression. -/
def Function.AddressFree (f : Function) : Prop :=
  f.addressed = []

instance (f : Function) : Decidable f.AddressFree :=
  inferInstanceAs (Decidable (f.addressed = []))

theorem Function.AddressFree.block {f : Function} (hf : f.AddressFree)
    {block : Block} (hb : block ∈ f.blocks.values) : block.addressed = [] :=
  List.eq_nil_iff_forall_not_mem.mpr fun p hp =>
    List.eq_nil_iff_forall_not_mem.mp hf p (List.mem_flatMap.mpr ⟨block, hb, hp⟩)

end TaintAnalysis
