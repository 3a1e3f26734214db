import Mathlib.Data.Option.Basic
import TaintAnalysis.Proofs.Maps
import TaintAnalysis.Proofs.Taint.Order
import TaintAnalysis.Taint.Summary

/-!
# The order of summaries

A summary is below another one if its result is and if everything it lists as
written is listed there with at least as much taint. An entry without taint
counts as listed: a call writes the taint of its surroundings through it all the
same.

Two tables are compared function by function. A function has to have a summary
in both or in neither, because unknown code does not behave like any summary.
-/

namespace TaintAnalysis

namespace Summary

/-- The second summary reports everything that the first one does. -/
structure Below (s t : Summary) : Prop where
  returned : s.returned ≤ t.returned
  outs : ∀ e ∈ s.outs, ∃ e' ∈ t.outs, e'.1 = e.1 ∧ e.2 ≤ e'.2

theorem Below.refl (s : Summary) : s.Below s :=
  ⟨Value.le_refl _, fun e he => ⟨e, he, rfl, Value.le_refl _⟩⟩

theorem mem_outs_tabulate {returned : Value} {params : IdSet} {f : Nat → Value} {e : Nat × Value} :
    e ∈ (tabulate returned params f).outs ↔ e.1 ∈ params ∧ e.2 = f e.1 := by
  obtain ⟨i, v⟩ := e
  show (i, v) ∈ params.elems.map (fun i => (i, f i)) ↔ _
  rw [List.mem_map]
  constructor
  · intro hex
    obtain ⟨j, hj, he⟩ := hex
    obtain ⟨rfl, rfl⟩ := Prod.mk.inj he
    exact ⟨hj, rfl⟩
  · intro hboth
    obtain ⟨hi, hv⟩ := hboth
    exact ⟨i, hi, congrArg (Prod.mk i) hv.symm⟩

/-- Being listed and being found are the same. -/
theorem out?_eq_some_iff {s : Summary} {i : Nat} {v : Value} :
    s.out? i = some v ↔ (i, v) ∈ s.outs := by
  have hnodup : (s.outs.map Prod.fst).Nodup :=
    s.ascending.imp fun hlt => Nat.ne_of_lt hlt
  exact OrderedMap.get?_eq_some_iff (m := ⟨s.outs, hnodup⟩)

theorem out_tabulate (returned : Value) (params : IdSet) (f : Nat → Value) (i : Nat) :
    (tabulate returned params f).out i = if i ∈ params then f i else Value.bottom := by
  rw [out]
  split
  · next hi =>
    have hmem : (i, f i) ∈ (tabulate returned params f).outs := mem_outs_tabulate.mpr ⟨hi, rfl⟩
    rw [out?_eq_some_iff.mpr hmem, Option.getD_some]
  · next hi =>
    cases hout : (tabulate returned params f).out? i with
    | none => rfl
    | some v => exact absurd (mem_outs_tabulate.mp (out?_eq_some_iff.mp hout)).1 hi

theorem mem_outParams_iff {s : Summary} {i : Nat} : i ∈ s.outParams ↔ (i, s.out i) ∈ s.outs := by
  rw [IdSet.mem_def, outParams, List.mem_map]
  constructor
  · intro hex
    obtain ⟨⟨j, v⟩, he, rfl⟩ := hex
    rwa [out, out?_eq_some_iff.mpr he, Option.getD_some]
  · exact fun h => ⟨_, h, rfl⟩

theorem out_eq {s : Summary} {e : Nat × Value} (he : e ∈ s.outs) : s.out e.1 = e.2 := by
  rw [out, out?_eq_some_iff.mpr he, Option.getD_some]

theorem out_of_not_mem {s : Summary} {i : Nat} (h : i ∉ s.outParams) : s.out i = Value.bottom := by
  rw [out]
  cases hout : s.out? i with
  | none => rfl
  | some v =>
      have hi : i ∈ s.outParams := List.mem_map.mpr ⟨_, out?_eq_some_iff.mp hout, rfl⟩
      exact absurd hi h

variable {s t u : Summary}

theorem below_iff : s.Below t ↔ s.returned ≤ t.returned ∧
    ∀ i ∈ s.outParams, i ∈ t.outParams ∧ s.out i ≤ t.out i := by
  constructor
  · refine fun h => ⟨h.returned, fun i hi => ?_⟩
    obtain ⟨e, he, rfl, hle⟩ := h.outs _ (mem_outParams_iff.mp hi)
    exact ⟨List.mem_map_of_mem he, out_eq he ▸ hle⟩
  · refine fun h => ⟨h.1, fun e he => ?_⟩
    obtain ⟨hmem, hle⟩ := h.2 e.1 (List.mem_map_of_mem he)
    exact ⟨_, mem_outParams_iff.mp hmem, rfl, out_eq he ▸ hle⟩

theorem Below.trans (hst : s.Below t) (htu : t.Below u) : s.Below u := by
  rw [below_iff] at hst htu ⊢
  refine ⟨Value.le_trans hst.1 htu.1, fun i hi => ?_⟩
  obtain ⟨hi', hle⟩ := hst.2 i hi
  obtain ⟨hi'', hle'⟩ := htu.2 i hi'
  exact ⟨hi'', Value.le_trans hle hle'⟩

theorem empty_below (s : Summary) : empty.Below s :=
  ⟨Value.bottom_le _, fun _ he => absurd he List.not_mem_nil⟩

theorem eq_of_outs_eq (hreturned : s.returned = t.returned) (houts : s.outs = t.outs) : s = t := by
  obtain ⟨r, outs, hasc⟩ := s
  obtain ⟨r', outs', hasc'⟩ := t
  obtain rfl : r = r' := hreturned
  obtain rfl : outs = outs' := houts
  rfl

/-- A summary is made up of its result, of what it lists and of what it says about that. -/
theorem tabulate_self (s : Summary) : tabulate s.returned s.outParams s.out = s := by
  refine eq_of_outs_eq rfl ?_
  show (s.outs.map Prod.fst).map (fun i => (i, s.out i)) = s.outs
  rw [List.map_map]
  refine (List.map_congr_left fun e he => ?_).trans (List.map_id _)
  rw [Function.comp_apply, out_eq he, id_eq]

theorem Below.antisymm (hst : s.Below t) (hts : t.Below s) : s = t := by
  rw [below_iff] at hst hts
  have hparams : s.outParams = t.outParams :=
    IdSet.ext fun i => ⟨fun hi => (hst.2 i hi).1, fun hi => (hts.2 i hi).1⟩
  have hout : s.out = t.out := by
    funext i
    by_cases hi : i ∈ s.outParams
    · exact Value.le_antisymm (hst.2 i hi).2 (hts.2 i (hparams ▸ hi)).2
    · rw [out_of_not_mem hi, out_of_not_mem (hparams ▸ hi)]
  rw [← tabulate_self s, ← tabulate_self t, hparams, hout, Value.le_antisymm hst.1 hts.1]

/-- A caller that knows the larger summary misses nothing. -/
theorem covers_of_below (h : s.Below t) : t.covers s = true := by
  rw [covers, Bool.and_eq_true, List.all_eq_true]
  refine ⟨h.returned, fun e he => ?_⟩
  obtain ⟨e', he', hfst, hle⟩ := h.outs e he
  rw [← hfst, out_eq he']
  exact hle

theorem mem_outParams_join {i : Nat} :
    i ∈ (s.join t).outParams ↔ i ∈ s.outParams ∨ ∃ v, (i, v) ∈ t.outs ∧ v ≠ Value.bottom := by
  have hmem : i ∈ (s.join t).outParams ↔ i ∈ s.outParams ∪
      .ofList ((t.outs.filter fun e => !e.2.isBottom).map Prod.fst) := by
    rw [mem_outParams_iff, join, mem_outs_tabulate, out_tabulate]
    refine and_iff_left_of_imp ?_
    intro h
    rw [if_pos h]
  rw [hmem, IdSet.mem_union, IdSet.mem_ofList, List.mem_map]
  refine or_congr_right ⟨?_, ?_⟩
  · intro hex
    obtain ⟨⟨j, v⟩, he, rfl⟩ := hex
    obtain ⟨he, hv⟩ := List.mem_filter.mp he
    refine ⟨v, he, fun hbot => ?_⟩
    rw [Value.isBottom_iff.mpr hbot] at hv
    exact absurd hv (by decide)
  · intro hex
    obtain ⟨v, he, hv⟩ := hex
    refine ⟨(i, v), List.mem_filter.mpr ⟨he, ?_⟩, rfl⟩
    rw [Bool.not_eq_true', ← Bool.not_eq_true, Value.isBottom_iff]
    exact hv

theorem out_join (s t : Summary) {i : Nat} (hi : i ∈ (s.join t).outParams) :
    (s.join t).out i = (s.out i).join (t.out i) := by
  have := (mem_outs_tabulate.mp (mem_outParams_iff.mp hi)).2
  exact this

theorem join_below (hs : s.Below u) (ht : t.Below u) : (s.join t).Below u := by
  rw [below_iff] at hs ht ⊢
  refine ⟨Value.join_le hs.1 ht.1, fun i hi => ?_⟩
  have hle : ∀ {r : Summary}, (∀ i ∈ r.outParams, i ∈ u.outParams ∧ r.out i ≤ u.out i) →
      r.out i ≤ u.out i := by
    intro r hr
    by_cases hmem : i ∈ r.outParams
    · exact (hr i hmem).2
    · exact out_of_not_mem hmem ▸ Value.bottom_le _
  rw [out_join s t hi]
  refine ⟨?_, Value.join_le (hle hs.2) (hle ht.2)⟩
  rcases mem_outParams_join.mp hi with hi | ⟨v, hv, -⟩
  · exact (hs.2 i hi).1
  · exact (ht.2 i (List.mem_map.mpr ⟨_, hv, rfl⟩)).1

theorem below_join_left (s t : Summary) : s.Below (s.join t) := by
  rw [below_iff]
  refine ⟨Value.le_join_left _ _, fun i hi => ?_⟩
  have hjoin := mem_outParams_join (t := t) |>.mpr (.inl hi)
  exact ⟨hjoin, out_join s t hjoin ▸ Value.le_join_left _ _⟩

/-- What a join adds nothing to is part of it, if only parameters with taint are listed. -/
theorem below_of_join_eq (ht : ∀ e ∈ t.outs, e.2 ≠ Value.bottom) (h : s.join t = s) :
    t.Below s := by
  rw [below_iff]
  refine ⟨Value.join_eq_left_iff.mp (congrArg returned h), fun i hi => ?_⟩
  have hmem := mem_outParams_iff.mp hi
  have hjoin : i ∈ (s.join t).outParams := mem_outParams_join.mpr (.inr ⟨_, hmem, ht _ hmem⟩)
  refine ⟨h ▸ hjoin, Value.join_eq_left_iff.mp ?_⟩
  rw [← out_join s t hjoin, h]

theorem join_eq_of_not_grows (h : ¬ s.grows t = true) : s.join t = s := by
  rw [grows, decide_eq_true_iff, not_not] at h
  exact h

end Summary

namespace SummaryTable

/-- The second table has the same functions as the first one, with summaries that
report everything that those of the first one do. -/
def Below (t u : SummaryTable) : Prop :=
  ∀ name, Option.Rel Summary.Below (t.ready? name) (u.ready? name)

theorem Below.refl (t : SummaryTable) : t.Below t := by
  intro name
  cases t.ready? name with
  | none => exact .none
  | some s => exact .some (.refl s)

end SummaryTable

end TaintAnalysis
