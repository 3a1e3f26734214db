/-!
# Kinds of dependence

A value depends on a source directly when the source's value was used to
compute it, indirectly when the source decided whether or where the
computation happened, and fully when the source decided how often it was
repeated. A `Kind` is a set of these three, so the kinds observed along
different paths are joined by union; a report shows the gravest of them, the
`Tier`.
-/

namespace TaintAnalysis

/-- A set of kinds of dependence on one source. -/
structure Kind where
  /-- The source was used by expression evaluation. -/
  direct : Bool
  /-- Execution, or an address, depended on the source. -/
  indirect : Bool
  /-- The source controls how many times the value was recomputed. -/
  full : Bool
  deriving DecidableEq

/-- The four grades of taint that a report distinguishes, in ascending order. -/
inductive Tier where
  | none
  | direct
  | indirect
  | full
  deriving DecidableEq

namespace Tier

/-- The position of a tier in the ascending order. -/
def rank : Tier → Nat
  | none => 0
  | direct => 1
  | indirect => 2
  | full => 3

/-- The graver of two tiers. -/
def max (a b : Tier) : Tier :=
  if a.rank ≤ b.rank then b else a

/-- The name of a tier in reports. -/
def name : Tier → String
  | none => "None"
  | direct => "Direct"
  | indirect => "Indirect"
  | full => "Full"

end Tier

namespace Kind

/-- No dependence. -/
def none : Kind := ⟨false, false, false⟩

/-- Direct dependence alone. -/
def directOnly : Kind := ⟨true, false, false⟩

/-- Indirect dependence alone. -/
def indirectOnly : Kind := ⟨false, true, false⟩

/-- Full dependence alone. -/
def fullOnly : Kind := ⟨false, false, true⟩

instance : Inhabited Kind := ⟨none⟩

/-- The kinds in either set. -/
def union (a b : Kind) : Kind :=
  ⟨a.direct || b.direct, a.indirect || b.indirect, a.full || b.full⟩

instance : Union Kind := ⟨union⟩

/-- Whether every kind of `a` is among those of `b`. -/
def le (a b : Kind) : Bool :=
  (!a.direct || b.direct) && (!a.indirect || b.indirect) && (!a.full || b.full)

instance : LE Kind := ⟨fun a b => a.le b = true⟩

instance (a b : Kind) : Decidable (a ≤ b) :=
  inferInstanceAs (Decidable (a.le b = true))

/-- The gravest kind in the set. -/
def tier (k : Kind) : Tier :=
  if k.full then .full
  else if k.indirect then .indirect
  else if k.direct then .direct
  else .none

/-- What depending on a value of this kind through control or through an
address amounts to: direct dependence turns indirect, full dependence stays. -/
def toIndirect (k : Kind) : Kind :=
  ⟨false, k.direct || k.indirect, k.full⟩

/-- Full dependence in place of any dependence. -/
def toFull (k : Kind) : Kind :=
  ⟨false, false, k.direct || k.indirect || k.full⟩

/-- The number of a set of kinds: 1 for direct, 2 for indirect and 4 for full. -/
def code (k : Kind) : Nat :=
  k.direct.toNat + 2 * k.indirect.toNat + 4 * k.full.toNat

/-- The set with a number; bits above the three kinds are ignored. -/
def ofCode (n : Nat) : Kind :=
  ⟨n.testBit 0, n.testBit 1, n.testBit 2⟩

/-- The names of the kinds in the set, joined by bars. -/
def text (k : Kind) : String :=
  String.intercalate " | " <|
    (if k.direct then ["DIRECT"] else [])
      ++ (if k.indirect then ["INDIRECT"] else [])
      ++ (if k.full then ["FULL"] else [])

/-! ## The order and its joins -/

theorem le_def {a b : Kind} : a ≤ b ↔
    (a.direct = true → b.direct = true) ∧ (a.indirect = true → b.indirect = true)
      ∧ (a.full = true → b.full = true) := by
  obtain ⟨a₁, a₂, a₃⟩ := a
  obtain ⟨b₁, b₂, b₃⟩ := b
  show le _ _ = true ↔ _
  cases a₁ <;> cases a₂ <;> cases a₃ <;> simp [le, and_assoc]

@[simp] theorem union_none (a : Kind) : a ∪ none = a := by
  obtain ⟨a₁, a₂, a₃⟩ := a
  show union _ _ = _
  simp [union, none]

@[simp] theorem none_union (a : Kind) : none ∪ a = a := by
  obtain ⟨a₁, a₂, a₃⟩ := a
  show union _ _ = _
  simp [union, none]

theorem union_assoc (a b c : Kind) : a ∪ b ∪ c = a ∪ (b ∪ c) := by
  show union (union _ _) _ = union _ (union _ _)
  simp [union, Bool.or_assoc]

theorem union_comm (a b : Kind) : a ∪ b = b ∪ a := by
  show union _ _ = union _ _
  simp [union, Bool.or_comm]

theorem union_eq_right_iff {a b : Kind} : a ∪ b = b ↔ a ≤ b := by
  obtain ⟨a₁, a₂, a₃⟩ := a
  obtain ⟨b₁, b₂, b₃⟩ := b
  show union _ _ = _ ↔ le _ _ = true
  simp [union, le, Bool.and_assoc]
  cases a₁ <;> cases a₂ <;> cases a₃ <;> simp

@[simp] theorem ofCode_code (k : Kind) : ofCode k.code = k := by
  obtain ⟨a, b, c⟩ := k
  cases a <;> cases b <;> cases c <;> decide

end Kind

end TaintAnalysis
