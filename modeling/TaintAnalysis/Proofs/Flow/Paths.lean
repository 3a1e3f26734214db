import TaintAnalysis.Proofs.Flow.Dominance

/-!
# Ways through a graph

The order of visits has all blocks that come after one of its own. What
post-dominates a block lies on the ways from it, so it is reached from there.
-/

namespace TaintAnalysis

/-- A block that another one post-dominates has a successor, so the graph has it. -/
theorem Dominance.mem_blocks_of_postDominates {g : Graph} {b d : BlockId}
    (h : (postOfGraph g).dominates d b = true) (hne : d ≠ b) : b ∈ g.blocks := by
  have hiff := (Equations.dominates_iff (Equations.mem_blocks_of_dominates h)).mp h
  split at hiff
  · exact absurd hiff hne
  · obtain ⟨⟨s, hs, -⟩, -⟩ := hiff.2.resolve_left hne
    exact Graph.mem_blocks_of_successor hs

namespace Graph

variable {g : Graph} {x y z : BlockId}

theorem Reaches.mem_reversePostorder (h : g.Reaches x y) (hx : x ∈ g.reversePostorder) :
    y ∈ g.reversePostorder :=
  mem_reversePostorder_iff.mpr ((mem_reversePostorder_iff.mp hx).trans h)

/-- A block without successors comes to no other block. -/
theorem Reaches.eq_of_stuck (h : g.Reaches x y) (hx : g.successors x = []) : y = x := by
  rcases h.cases_head with rfl | ⟨z, hz, -⟩
  · rfl
  · exact absurd (hx ▸ hz) List.not_mem_nil

/-- A block that post-dominates another lies on a way from it, as it lies on every way to an
exit. -/
theorem reaches_of_postDominates (hexits : ∀ b ∈ g.exits, b ∈ g.blocks)
    (h : (Dominance.postOfGraph g).dominates y x = true) : g.Reaches x y := by
  by_cases hyx : y = x
  · exact hyx ▸ .refl
  have hblock := Dominance.mem_blocks_of_postDominates h hyx
  have hreach : x ∈ g.reachingExit := by
    by_contra hno
    exact hyx (Dominance.eq_of_postDominates_final
      (Dominance.mem_finalBlocks_iff.mpr ⟨hblock, .inr hno⟩) h)
  obtain ⟨e, he, hpath⟩ := (mem_reachingExit_iff hexits).mp hreach
  clear hyx hblock hreach
  induction hpath using Relation.ReflTransGen.head_induction_on with
  | refl =>
      have hfinal := Dominance.mem_finalBlocks_iff.mpr ⟨hexits e he, .inl he⟩
      exact Dominance.eq_of_postDominates_final hfinal h ▸ .refl
  | @head a c hstep _ ih =>
      by_cases hay : y = a
      · exact hay ▸ .refl
      · exact (ih (Dominance.postDominates_successor h hay hstep)).head hstep

end Graph

end TaintAnalysis
