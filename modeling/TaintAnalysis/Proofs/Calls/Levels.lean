import Mathlib.Data.Nat.Find
import TaintAnalysis.Proofs.Calls.Components

/-!
# The levels hold every component above its callees

The levels are computed with a budget, and a component that were never ready
would be left out without any notice. This does not happen. Among the components
that wait, one whose functions can call the fewest functions has no callee in
another one that waits, so each level takes at least one component away, and the
budget is the number of components (`flatten_levels`).

What is on a level calls into its own component or into one on a lower level
(`Layered`), by the test that put it there.
-/

namespace TaintAnalysis.CallGraph

variable {p : Program} {done : List String} {waiting : List Component} {c : Component}
  {level : List Component} {levels : List (List Component)}

theorem isReady_iff : (ofProgram p).isReady done c = true ↔
    ∀ a ∈ c.functions, ∀ b, p.Calls a b → b ∈ c.functions ∨ b ∈ done := by
  simp only [isReady, List.all_eq_true, decide_eq_true_iff, mem_successors_iff]

/-- The functions of some levels. -/
def functionsOf (levels : List (List Component)) : List String :=
  levels.flatten.flatMap (·.functions)

/-- The components of each level call into themselves, into lower levels or into
what is done before. -/
inductive Layered (p : Program) : List String → List (List Component) → Prop where
  | nil {done : List String} : Layered p done []
  | cons {done : List String} {level : List Component} {levels : List (List Component)}
      (calls : ∀ c ∈ level, ∀ a ∈ c.functions, ∀ b, p.Calls a b → b ∈ c.functions ∨ b ∈ done)
      (above : Layered p (done ++ level.flatMap (·.functions)) levels) :
      Layered p done (level :: levels)

theorem layered_levelsFrom (p : Program) (budget : Nat) (done : List String)
    (waiting : List Component) :
    Layered p done ((ofProgram p).levelsFrom budget done waiting) := by
  induction budget generalizing done waiting with
  | zero => exact .nil
  | succ budget ih =>
      rw [levelsFrom]
      split
      · exact .nil
      · rw [List.partition_eq_filter_filter]
        exact .cons (fun c hc => isReady_iff.mp (List.mem_filter.mp hc).2) (ih _ _)

/-- Some component that waits is ready, if the functions of all others are done. -/
theorem exists_ready (hwaiting : ∀ c ∈ waiting, c ∈ (ofProgram p).components)
    (hothers : ∀ c ∈ (ofProgram p).components, c ∉ waiting → ∀ a ∈ c.functions, a ∈ done)
    (hne : waiting ≠ []) : ∃ c ∈ waiting, (ofProgram p).isReady done c = true := by
  -- a function of a waiting component that can call the fewest functions
  have hmember : ∃ n, ∃ c ∈ waiting, ∃ a ∈ c.functions, (ofProgram p).callDepth a = n := by
    obtain ⟨c, hc⟩ := List.exists_mem_of_ne_nil waiting hne
    obtain ⟨a, ha, rfl⟩ := mem_components_iff.mp (hwaiting c hc)
    exact ⟨_, _, hc, a, mem_componentOf_self ha, rfl⟩
  classical
  obtain ⟨c, hc, a, ha, hdepth⟩ := Nat.find_spec hmember
  have hleast := fun n (h : n < Nat.find hmember) => Nat.find_min hmember h
  refine ⟨c, hc, isReady_iff.mpr fun x hx b hcalls => ?_⟩
  have hxa := (mem_component_iff (hwaiting c hc) hx).mp ha
  have hb := componentOf_mem_components hcalls.right_mem
  by_cases hback : p.CanCall b x
  · exact .inl ((mem_component_iff (hwaiting c hc) hx).mpr ⟨.single hcalls, hback⟩)
  · refine .inr (hothers _ hb (fun hwaits => ?_) b (mem_componentOf_self hcalls.right_mem))
    refine hleast _ ?_ ⟨_, hwaits, b, mem_componentOf_self hcalls.right_mem, rfl⟩
    rw [← hdepth]
    exact Nat.lt_of_lt_of_le (callDepth_lt hcalls hback)
      (callDepth_le hxa.2 (hxa.mem hcalls.left_mem))

theorem flatten_levelsFrom {budget : Nat}
    (hwaiting : ∀ c ∈ waiting, c ∈ (ofProgram p).components)
    (hothers : ∀ c ∈ (ofProgram p).components, c ∉ waiting → ∀ a ∈ c.functions, a ∈ done)
    (hbudget : waiting.length ≤ budget) :
    ((ofProgram p).levelsFrom budget done waiting).flatten.Perm waiting := by
  induction budget generalizing done waiting with
  | zero =>
      rw [List.length_eq_zero_iff.mp (Nat.le_zero.mp hbudget)]
      exact .refl []
  | succ budget ih =>
      rw [levelsFrom]
      split
      · next hempty =>
        rw [List.isEmpty_iff.mp hempty]
        exact .refl []
      · next hne =>
        rw [List.partition_eq_filter_filter]
        obtain ⟨c, hc, hready⟩ := exists_ready hwaiting hothers
          fun h => hne (List.isEmpty_iff.mpr h)
        have hsplit := List.filter_append_perm ((ofProgram p).isReady done) waiting
        have hpos := List.length_pos_of_mem (List.mem_filter.mpr ⟨hc, hready⟩)
        have hlen := hsplit.length_eq
        rw [List.length_append] at hlen
        rw [List.flatten_cons]
        refine ((ih ?_ ?_ ?_).append_left _).trans hsplit
        · exact fun d hd => hwaiting d (List.mem_filter.mp hd).1
        · intro d hd hno a ha
          rw [List.mem_append, List.mem_flatMap]
          by_cases hd' : d ∈ waiting
          · refine .inr ⟨d, List.mem_filter.mpr ⟨hd', ?_⟩, ha⟩
            by_contra hnot
            exact hno (List.mem_filter.mpr ⟨hd', congrArg not (Bool.eq_false_iff.mpr hnot)⟩)
          · exact .inl (hothers d hd hd' a ha)
        · change (waiting.filter fun c => !(ofProgram p).isReady done c).length ≤ budget
          omega

theorem flatten_levels (p : Program) :
    (ofProgram p).levels.flatten.Perm (ofProgram p).components :=
  flatten_levelsFrom (fun _ hc => hc) (fun _ hc hno => absurd hc hno) (Nat.le_refl _)

theorem layered_levels (p : Program) : Layered p [] (ofProgram p).levels :=
  layered_levelsFrom p _ _ _

/-- No function is on two levels, or twice on one. -/
theorem nodup_functionsOf_levels (p : Program) : (functionsOf (ofProgram p).levels).Nodup :=
  ((flatten_levels p).flatMap_right _).nodup_iff.mpr (nodup_functions_components p)

end TaintAnalysis.CallGraph
