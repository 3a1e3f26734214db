import Mathlib.Data.Set.Card
import TaintAnalysis.Proofs.Taint.Order

/-!
# How much taint can still be added

Everything that is computed about taint is a family of values that only grows:
the values of the blocks, of the memory cells, of the summaries of a component.
What bounds the computation is the same each time. Only finitely many members of
the family ever change, and only finitely many sources occur in them, so there
are finitely many statements "this member has these kinds from this source" that
are not true yet. `room` counts them, and every real change uses some of it up.
-/

namespace TaintAnalysis

theorem Kind.eq_of_bits {a b : Kind} (h : (a.direct, a.indirect, a.full) =
    (b.direct, b.indirect, b.full)) : a = b := by
  cases a
  cases b
  simpa using h

instance : Finite Kind :=
  Finite.of_injective (fun k => (k.direct, k.indirect, k.full)) fun _ _ h => Kind.eq_of_bits h

namespace Value

variable {ι : Type} {members : Set ι} {n : Nat} {g h : ι → Value}

/-- The kinds that the members of a family have from the sources. -/
def facts (g : ι → Value) : Set (ι × SourceId × Kind) :=
  {x | x.2.2 ≤ (g x.1).kindOf x.2.1}

/-- What can be said about some members of a family and the sources below a number. -/
def statements (members : Set ι) (n : Nat) : Set (ι × SourceId × Kind) :=
  members ×ˢ {s | s < n} ×ˢ Set.univ

/-- How much can be said that is not true of the family yet. -/
noncomputable def room (members : Set ι) (n : Nat) (g : ι → Value) : Nat :=
  (statements members n \ facts g).ncard

theorem finite_statements (hfinite : members.Finite) (n : Nat) : (statements members n).Finite :=
  hfinite.prod ((Set.finite_lt_nat n).prod Set.finite_univ)

theorem facts_mono (hgh : ∀ i, g i ≤ h i) : facts g ⊆ facts h := by
  intro x hx
  exact Kind.le_trans hx (le_iff.mp (hgh x.1) x.2.1)

theorem room_le (hfinite : members.Finite) (hgh : ∀ i, g i ≤ h i) :
    room members n h ≤ room members n g :=
  Set.ncard_le_ncard (Set.sdiff_subset_sdiff_right (facts_mono hgh))
    ((finite_statements hfinite n).subset Set.sdiff_subset)

/-- A member that gets larger takes up some of the room, if it has no other sources. -/
theorem room_lt (hfinite : members.Finite) (hgh : ∀ i, g i ≤ h i) {i : ι} (hi : i ∈ members)
    (hclean : ∀ s, n ≤ s → Clean s (h i)) (hgrows : ¬ h i ≤ g i) :
    room members n h < room members n g := by
  obtain ⟨s, hs⟩ := not_forall.mp (mt le_iff.mpr hgrows)
  have hsn : s < n := by
    by_contra hle
    have hnone : (h i).kindOf s = Kind.none := hclean s (Nat.le_of_not_lt hle)
    exact hs (hnone ▸ Kind.none_le _)
  refine Set.ncard_lt_ncard ⟨Set.sdiff_subset_sdiff_right (facts_mono hgh), fun hsub => ?_⟩
    ((finite_statements hfinite n).subset Set.sdiff_subset)
  have hnew : (i, s, (h i).kindOf s) ∈ statements members n \ facts g :=
    ⟨⟨hi, hsn, trivial⟩, hs⟩
  exact (hsub hnew).2 (Kind.le_refl _)

end Value

end TaintAnalysis
