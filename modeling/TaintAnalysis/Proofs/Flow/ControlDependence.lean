import TaintAnalysis.Flow.ControlDependence
import TaintAnalysis.Proofs.Flow.Dominance

/-!
# What control dependence says

The dependences are tabulated block by block, in ascending order, and can be
asked for from either side. Both ways of asking give the definition: a branch
decides about a block if the block post-dominates one of at least two successors
of the branch without post-dominating the branch, or is the branch itself.
-/

namespace TaintAnalysis.ControlDependence

variable {g : Graph} {post : Dominance} {b x : BlockId}

theorem mem_controlledBy_iff {c : ControlDependence} :
    b ∈ c.controlledBy x ↔ x ∈ c.dependences b := by
  refine (OrderedMap.mem_selected_iff (p := fun branches => decide (x ∈ branches))).trans ?_
  rw [dependences]
  cases c.branches.get? b with
  | none => simp only [reduceCtorEq, false_and, exists_false, Option.getD_none, List.not_mem_nil]
  | some branches =>
      simp only [Option.some.injEq, decide_eq_true_eq, exists_eq_left', Option.getD_some]

theorem mem_decidedBy_iff : b ∈ decidedBy g post x ↔
    2 ≤ (g.successors x).length ∧ ∃ s ∈ g.successors x, post.dominates b s = true ∧
      (b = x ∨ ¬ post.dominates b x = true) := by
  have hthrough : ∀ s, b ∈ decidedThrough post x s ↔
      post.dominates b s = true ∧ (b = x ∨ ¬ post.dominates b x = true) := by
    intro s
    rw [decidedThrough, List.mem_filter, Bool.or_eq_true, decide_eq_true_eq, Bool.not_eq_true',
      Bool.not_eq_true, Dominance.Equations.dominates_eq_true_iff, Dominance.dominators?]
    refine and_congr_left ?_
    intro _
    cases post.sets.get? s with
    | none => simp only [Option.getD_none, List.not_mem_nil, reduceCtorEq, false_and, exists_false]
    | some set => simp only [Option.getD_some, Option.some.injEq, exists_eq_left']
  rw [decidedBy]
  split
  · next hless =>
    simp only [List.not_mem_nil, false_iff, not_and]
    omega
  · next hless =>
    rw [List.mem_flatMap, and_iff_right (by omega)]
    exact exists_congr fun s => and_congr_right fun _ => hthrough s

/-- The branches a block depends on are those that decide about it. -/
theorem mem_dependences_iff : x ∈ (ofGraph g post).dependences b ↔
    x ∈ g.blocks ∧ b ∈ decidedBy g post x := by
  have hselected : x ∈ BlockId.ascending
      (((g.blocks.map fun x => (x, decidedBy g post x)).filter fun e => b ∈ e.2).map Prod.fst) ↔
      x ∈ g.blocks ∧ b ∈ decidedBy g post x := by
    rw [BlockId.mem_ascending, List.mem_map]
    constructor
    · intro hex
      obtain ⟨e, he, rfl⟩ := hex
      obtain ⟨hmem, hb⟩ := List.mem_filter.mp he
      obtain ⟨y, hy, rfl⟩ := List.mem_map.mp hmem
      exact ⟨hy, of_decide_eq_true hb⟩
    · intro hboth
      obtain ⟨hx, hb⟩ := hboth
      exact ⟨_, List.mem_filter.mpr ⟨List.mem_map_of_mem hx, decide_eq_true hb⟩, rfl⟩
  rw [dependences, ofGraph]
  dsimp only
  rw [OrderedMap.get?_ofList_map]
  split
  · exact hselected
  · next hno =>
    refine ⟨fun h => absurd h List.not_mem_nil, fun ⟨hx, hb⟩ => absurd ?_ hno⟩
    rw [BlockId.mem_ascending, List.mem_flatMap]
    exact ⟨_, List.mem_map_of_mem hx, hb⟩

/-- A branch with several successors decides about what post-dominates one of them, unless
that post-dominates the branch as well. -/
theorem mem_dependences_of_postDominates {s : BlockId} (htwo : 2 ≤ (g.successors x).length)
    (hs : s ∈ g.successors x) (hdom : post.dominates b s = true)
    (hno : b = x ∨ ¬ post.dominates b x = true) : x ∈ (ofGraph g post).dependences b :=
  mem_dependences_iff.mpr ⟨Graph.mem_blocks_of_successor hs,
    mem_decidedBy_iff.mpr ⟨htwo, s, hs, hdom, hno⟩⟩

end TaintAnalysis.ControlDependence
