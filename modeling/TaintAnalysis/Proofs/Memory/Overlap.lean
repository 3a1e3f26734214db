import Mathlib.Logic.Relation
import TaintAnalysis.Memory.Location

/-!
# Overlapping locations

Whether two locations overlap is decided by the steps that both paths have. What stands behind the
end of the shorter path does not count, and neither does a pair of an index and a field. So overlap
is no equivalence: a structure overlaps each of its fields, and these do not overlap each other.

What the rest relies on is that nothing is lost where less is known. A location becomes coarser when
its last steps are left out, when a constant index becomes the summary element, or when nothing is
known of it any more (`Location.Coarsens`). Whatever overlapped it before, overlaps it then, and so
after any number of such changes (`Location.Coarser.overlaps`).
-/

namespace TaintAnalysis

namespace Step

variable {s t : Step}

/-- Two steps of one kind that lead from the same place to different memory. -/
inductive Apart : Step → Step → Prop
  | index {i j : Nat} (h : i ≠ j) : Apart (.index (some i)) (.index (some j))
  | field {a b : String} (h : a ≠ b) : Apart (.field a) (.field b)

theorem compatible_self (s : Step) : s.compatible s = true := by
  cases s with
  | field name => simp [compatible]
  | index i => cases i <;> simp [compatible]

theorem compatible_comm (s t : Step) : s.compatible t = t.compatible s := by
  cases s with
  | field a =>
      cases t with
      | field b => simp only [compatible, eq_comm]
      | index j => cases j <;> rfl
  | index i =>
      cases t with
      | field b => cases i <;> rfl
      | index j =>
          cases i with
          | none => cases j <;> rfl
          | some i =>
              cases j with
              | none => rfl
              | some j => simp only [compatible, eq_comm]

theorem summary_compatible (t : Step) : (index none).compatible t = true := by
  cases t <;> rfl

theorem Apart.not_compatible (h : s.Apart t) : s.compatible t = false := by
  cases h with
  | index h => exact decide_eq_false h
  | field h => exact decide_eq_false h

end Step

namespace Location

variable {l m c : Location}

theorem isUnknown_iff : l.isUnknown = true ↔ l.root = .unknown :=
  decide_eq_true_iff

/-- Locations of known memory overlap if they have the same root and, wherever both paths have a
step, compatible ones. -/
theorem overlaps_iff : l.overlaps m = true ↔ l.isUnknown = true ∨ m.isUnknown = true ∨
    l.root = m.root ∧
      ∀ (i : Nat) s t, l.path[i]? = some s → m.path[i]? = some t → s.compatible t = true := by
  rw [overlaps, Bool.or_eq_true, Bool.or_eq_true, Bool.and_eq_true, decide_eq_true_eq, or_assoc,
    List.all_eq_true]
  refine or_congr_right (or_congr_right (and_congr_right fun _ => ?_))
  constructor
  · intro h i s t hs ht
    exact h (s, t) (List.mem_iff_getElem?.mpr ⟨i, List.getElem?_zip_eq_some.mpr ⟨hs, ht⟩⟩)
  · rintro h ⟨s, t⟩ hmem
    obtain ⟨i, hi⟩ := List.mem_iff_getElem?.mp hmem
    obtain ⟨hs, ht⟩ := List.getElem?_zip_eq_some.mp hi
    exact h i s t hs ht

theorem overlaps_self (l : Location) : l.overlaps l = true :=
  overlaps_iff.mpr <| .inr <| .inr ⟨rfl, fun _ s _ hs ht =>
    Option.some.inj (hs.symm.trans ht) ▸ s.compatible_self⟩

theorem overlaps_comm (l m : Location) : l.overlaps m = m.overlaps l := by
  have hswap {l m : Location} (h : l.overlaps m = true) : m.overlaps l = true := by
    rw [overlaps_iff] at h ⊢
    rcases h with hl | hm | ⟨hroot, hpath⟩
    · exact .inr (.inl hl)
    · exact .inl hm
    · exact .inr (.inr ⟨hroot.symm, fun i s t hs ht => s.compatible_comm t ▸ hpath i t s ht hs⟩)
  exact Bool.eq_iff_iff.mpr ⟨hswap, hswap⟩

theorem unknown_overlaps (l : Location) : Location.unknown.overlaps l = true := rfl

theorem overlaps_unknown (l : Location) : l.overlaps .unknown = true :=
  overlaps_comm l .unknown

/-- Paths from the same root that part at two steps of one kind lead to different memory. -/
theorem not_overlaps_of_apart {i : Nat} {s t : Step} (hknown : l.isUnknown = false)
    (hroot : l.root = m.root) (hs : l.path[i]? = some s) (ht : m.path[i]? = some t)
    (hapart : s.Apart t) : l.overlaps m = false := by
  rw [← Bool.not_eq_true, overlaps_iff]
  rintro (hl | hm | ⟨-, hpath⟩)
  · exact absurd hl (hknown ▸ Bool.false_ne_true)
  · exact absurd (isUnknown_iff.mpr (hroot.trans (isUnknown_iff.mp hm)))
      (hknown ▸ Bool.false_ne_true)
  · exact absurd (hpath i s t hs ht) (hapart.not_compatible ▸ Bool.false_ne_true)

/-! ## Coarser locations -/

/-- A location becomes a coarser one. -/
inductive Coarsens (l : Location) : Location → Prop
  /-- Some of the last steps are left out. -/
  | drop (k : Nat) : Coarsens l ⟨l.root, l.path.take k⟩
  /-- A constant index becomes the summary element. -/
  | summarize (k i : Nat) (h : l.path[k]? = some (.index (some i))) :
      Coarsens l ⟨l.root, l.path.set k (.index none)⟩
  /-- Nothing is known of it any more. -/
  | forget : Coarsens l .unknown

/-- The location `c` comes from `l` by any number of changes that make it coarser. -/
def Coarser (c l : Location) : Prop :=
  Relation.ReflTransGen Coarsens l c

theorem Coarsens.overlaps (h : l.Coarsens c) (hover : l.overlaps m = true) :
    c.overlaps m = true := by
  rw [overlaps_iff] at hover ⊢
  cases h with
  | forget => exact .inl rfl
  | drop k =>
      refine hover.imp_right (Or.imp_right (And.imp_right fun hpath i s t hs ht => ?_))
      rw [List.getElem?_take] at hs
      split at hs
      · exact hpath i s t hs ht
      · exact nomatch hs
  | summarize k j hk =>
      refine hover.imp_right (Or.imp_right (And.imp_right fun hpath i s t hs ht => ?_))
      rw [List.getElem?_set] at hs
      split at hs
      · split at hs
        · exact Option.some.inj hs ▸ t.summary_compatible
        · exact nomatch hs
      · exact hpath i s t hs ht

/-- Whatever overlaps a location overlaps every coarser one. -/
theorem Coarser.overlaps (h : c.Coarser l) (hover : l.overlaps m = true) :
    c.overlaps m = true := by
  induction h with
  | refl => exact hover
  | tail _ hstep ih => exact hstep.overlaps ih

/-- A structure overlaps two of its fields, which do not overlap. -/
example :
    let field (name : String) : Location := ⟨.variable 0, [.field name]⟩
    (field "a").overlaps ⟨.variable 0, []⟩ = true ∧
      Location.overlaps ⟨.variable 0, []⟩ (field "b") = true ∧
      (field "a").overlaps (field "b") = false := by
  decide

end Location

end TaintAnalysis
