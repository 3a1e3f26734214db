import TaintAnalysis.Proofs.Memory.Folding
import TaintAnalysis.Proofs.Memory.Propagation
import TaintAnalysis.Proofs.Memory.Queries

/-!
# Constant offsets from an element of an array

A pointer to element `i` of an array, indexed with the constant `d`, leads to
element `i + d`, and to unknown memory if the array has no such element. The
steps on the way are a shortcut for `d = 0`, the sum as a word of 64 bits, and
the comparisons with zero and with the length, in that order.

The sum is the exact one as long as it is a word. Beyond the greatest word the
analysis goes on as if the index were not a constant, and ends at the summary
element of the array (`offset_overflow`), although every such index is as much
out of bounds as the one before.
-/

namespace TaintAnalysis

namespace Layout

variable {y : Layout} {l : Location} {i n : Nat} {d : Int} {elem : Ty}

/-! ## One step -/

/-- With a known length, an index that is in bounds leads to its element. -/
theorem element_of_length (hty : l.ty? y.function = some (.array elem (some n))) (s : Int) :
    y.element l (some s) =
      if 0 ≤ s ∧ s < n then y.child l (.index (some s.toNat)) else .unknown := by
  simp only [element, hty, Option.bind_some, Ty.arrayLength?]
  split
  · next hneg => rw [if_neg (by omega)]
  · next hnonneg =>
    split
    · next hlen => rw [if_neg (by omega)]
    · next hlen => rw [if_pos (by omega)]

/-- From an element, the offset leads where the exact sum does as an index of the array. -/
theorem offset_within (hty : l.ty? y.function = some (.array elem (some n)))
    (hl : l.isUnknown = false) (hdepth : l.path.length < y.maxDepth) (hi : i < n)
    (hword : i + d ≤ Int64.maxValue.toInt) :
    y.offset (l.extend (.index (some i))) (some d) = y.element l (some (i + d)) := by
  by_cases hd : d = 0
  · -- the shortcut agrees with the sum, because the element is in bounds
    subst hd
    rw [offset_zero, element_of_length hty, if_pos (by omega), child_of_short hl hdepth]
    simp
  · rw [offset_numbered l i hd, Arena.addOffset, if_pos hword]

/-- A sum that is no word counts as an index that is not known. -/
theorem offset_overflow (hl : l.isUnknown = false) (hdepth : l.path.length < y.maxDepth)
    (hover : Int64.maxValue.toInt < i + d) (hd : d ≠ 0) :
    y.offset (l.extend (.index (some i))) (some d) = l.extend (.index none) := by
  rw [offset_numbered l i hd, Arena.addOffset, if_neg (by omega)]
  exact child_of_short hl hdepth

end Layout

/-- A place that indexes a pointer with one target leads where the offset from there does. -/
theorem PathFacts.resolve_index_var {m : PathFacts} {p : VarId} {e : Expr} {l : Location}
    (hptr : m.IsPointer p) (hvars : m.vars p = [l]) : m.resolve (.index (.var p) e) =
      ⟨[m.layout.offset l (PointsTo.constantIndex e)], [], true⟩ := by
  have hderef : m.derefVar p = [l] := by
    rw [derefVar, varTargets_pointer hptr, hvars]
    rfl
  rw [IsPointer] at hptr
  simp only [resolve, follow_index, follow_var, if_pos hptr, hderef, List.map_cons, List.map_nil]

namespace PointsTo

open Arena

variable {f : Function} {config : Config} {arr p : VarId} {elem : Ty} {n i : Nat} {e : Expr}
  {d : Int64}

/-! ## A place -/

theorem resolutionAfter_index_var (hptr : (f.ty? p).any Ty.isPointer = true) {l : Location}
    (htargets : (finalFacts f config).vars p = [l]) (he : e.const? = some d)
    (asked : List Query) : resolutionAfter f config asked (.index (.var p) e) =
      ⟨[(finalFacts f config).layout.offset l (some d.toInt)], [], true⟩ := by
  have hpointer : (finalFacts f config).IsPointer p := by
    rw [PathFacts.IsPointer, layout_finalFacts]
    exact hptr
  obtain ⟨hlands, hcells, hbase⟩ :=
    resolutionAfter_enumerates f config asked (.index (.var p) e)
  rw [PathFacts.resolve_index_var hpointer htargets, constantIndex, he] at hlands hcells hbase
  have hnone := List.eq_nil_iff_forall_not_mem.mpr fun l hl =>
    List.not_mem_nil ((hcells.mem_iff l).mp hl)
  show PathResolution.mk (resolutionAfter f config asked _).targets
    (resolutionAfter f config asked _).pointerCells
    (resolutionAfter f config asked _).derefsBase = _
  rw [hlands.eq_singleton, hnone, hbase]
  rfl

/-- If all that a pointer refers to is element `i` of an array of length `n`, then indexing it
with a constant leads to the element that exact arithmetic gives, or to unknown memory if there
is no such element, as long as the sum is a word. Beyond the greatest word it leads to the
summary element. -/
theorem constant_offset (hdepth : 1 ≤ config.maxPathDepth)
    (harr : f.ty? arr = some (.array elem (some n))) (hi : i < n)
    (hptr : (f.ty? p).any Ty.isPointer = true)
    (htargets : (finalFacts f config).vars p = [⟨.variable arr, [.index (some i)]⟩])
    (he : e.const? = some d) (asked : List Query) :
    (i + d.toInt ≤ Int64.maxValue.toInt →
      resolutionAfter f config asked (.index (.var p) e) =
        ⟨[if 0 ≤ i + d.toInt ∧ i + d.toInt < n
          then ⟨.variable arr, [.index (some (i + d.toInt).toNat)]⟩ else .unknown], [], true⟩) ∧
      (Int64.maxValue.toInt < i + d.toInt → d.toInt ≠ 0 →
        resolutionAfter f config asked (.index (.var p) e) =
          ⟨[⟨.variable arr, [.index none]⟩], [], true⟩) := by
  let y : Layout := ⟨f, config.maxPathDepth, config.maxTrackedIndex⟩
  let array : Location := ⟨.variable arr, []⟩
  have hty : array.ty? y.function = some (.array elem (some n)) := harr
  have hknown : array.isUnknown = false := rfl
  have hshort : array.path.length < y.maxDepth := hdepth
  have hresolve : resolutionAfter f config asked (.index (.var p) e) =
      ⟨[y.offset (array.extend (.index (some i))) (some d.toInt)], [], true⟩ := by
    rw [resolutionAfter_index_var hptr htargets he asked, layout_finalFacts]
    rfl
  constructor
  · intro hword
    rw [hresolve, Layout.offset_within hty hknown hshort hi hword, Layout.element_of_length hty,
      Layout.child_of_short hknown hshort]
    rfl
  · intro hover hd
    rw [hresolve, Layout.offset_overflow hknown hshort hover hd]
    rfl

end PointsTo

/-! ## Offsets from the second element -/

/-- A function whose pointer refers to the second one of four elements. -/
def secondOfFour : Function where
  name := "secondOfFour"
  returns := .void
  vars := [⟨"arr", .array (.int 32) (some 4), .local⟩, ⟨"p", .pointer (.int 32), .local⟩]
  blocks := .ofList [(0, ⟨[.assign 1 (.addrOf (.index (.var 0) (.const 1)))], .ret none⟩)]
  entry := 0
  nextBlock := 1

/-- One element back, three elements on, and as far back as a word goes. -/
theorem constant_offset_secondOfFour :
    (PointsTo.resolutionAfter secondOfFour .standard [] (.index (.var 1) (.const (-1)))).targets =
        [⟨.variable 0, [.index (some 0)]⟩] ∧
      (PointsTo.resolutionAfter secondOfFour .standard []
        (.index (.var 1) (.const 3))).targets = [.unknown] ∧
      (PointsTo.resolutionAfter secondOfFour .standard []
        (.index (.var 1) (.const Int64.minValue))).targets = [.unknown] := by
  have hvars : (PointsTo.finalFacts secondOfFour .standard).vars 1 =
      [⟨.variable 0, [.index (some 1)]⟩] := by decide_cbv
  have hoffset (d : Int64) (hword : (1 : Nat) + d.toInt ≤ Int64.maxValue.toInt) :=
    (PointsTo.constant_offset (by decide) rfl (by decide) rfl hvars
      (show (Expr.const d).const? = some d from rfl) []).1 hword
  refine ⟨?_, ?_, ?_⟩
  · rw [hoffset (-1) (by decide)]
    rfl
  · rw [hoffset 3 (by decide)]
    rfl
  · rw [hoffset Int64.minValue (by decide)]
    rfl

/-- As far on as a word goes, the sum is no word any more, and the offset leads to the summary
element of the array instead of unknown memory. One less leads to unknown memory. -/
theorem constant_offset_beyond :
    (PointsTo.finalFacts secondOfFour .standard).vars 1 = [⟨.variable 0, [.index (some 1)]⟩] ∧
      ¬ (0 ≤ 1 + Int64.maxValue.toInt ∧ 1 + Int64.maxValue.toInt < 4) ∧
      (PointsTo.resolutionAfter secondOfFour .standard []
        (.index (.var 1) (.const Int64.maxValue))).targets = [⟨.variable 0, [.index none]⟩] ∧
      (PointsTo.resolutionAfter secondOfFour .standard []
        (.index (.var 1) (.const (Int64.maxValue - 1)))).targets = [.unknown] := by
  refine ⟨?_, ?_, ?_, ?_⟩ <;> decide_cbv

end TaintAnalysis
