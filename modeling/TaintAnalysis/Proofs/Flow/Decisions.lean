import TaintAnalysis.Proofs.Flow.ControlDependence
import TaintAnalysis.Proofs.Flow.Paths

/-!
# What a branch decides about

A branch decides whether a block runs if one of its successors comes to the block
and another does not. The block then depends on the branch, though perhaps on
other branches that lie between them: the chain of dependences is found along any
way from the successor to the block.

Post-dominance carries the argument from one block of the way to the next, and it
does so in two cases. At a branch, what does not post-dominate the branch depends
on it. At a block with one successor, both are post-dominated alike, provided that
the successor comes to a return. A block from which no return is reached counts as
an end of the function although it goes on, so the step from a block with one
successor to another inside of such a region is lost; `Followed` leaves it out.
-/

namespace TaintAnalysis.Graph

variable {g : Graph} {x y z : BlockId}

/-- The step is one that control dependence follows: it leaves a branch, or it goes to a block that
comes to a return. -/
def Followed (g : Graph) (x y : BlockId) : Prop :=
  y ∈ g.successors x ∧ (2 ≤ (g.successors x).length ∨ y ∈ g.reachingExit)

/-- One block depends on another through a chain of dependences. -/
def Governs (g : Graph) : BlockId → BlockId → Prop :=
  Relation.TransGen fun x y =>
    x ∈ (ControlDependence.ofGraph g (Dominance.postOfGraph g)).dependences y

theorem reaches_of_followed (h : Relation.ReflTransGen g.Followed x y) : g.Reaches x y :=
  Relation.ReflTransGen.mono (r := g.Followed) (fun _ _ hstep => hstep.1) _ _ h

/-- Every way to a block that comes to a return is followed. -/
theorem followed_of_reaches (hexits : ∀ b ∈ g.exits, b ∈ g.blocks) (hy : y ∈ g.reachingExit)
    (h : g.Reaches x y) : Relation.ReflTransGen g.Followed x y := by
  induction h using Relation.ReflTransGen.head_induction_on with
  | refl => exact .refl
  | head hstep hrest ih => exact ih.head ⟨hstep, .inr (Reaches.mem_reachingExit hrest hexits hy)⟩

/-- The ends of a graph are blocks without successors. -/
structure Ended (g : Graph) : Prop where
  blocks : ∀ b ∈ g.exits, b ∈ g.blocks
  successors : ∀ b ∈ g.exits, g.successors b = []

theorem ended_ofFunction (f : Function) : (ofFunction f).Ended where
  blocks := exits_subset_blocks_ofFunction
  successors := fun b hb => by
    obtain ⟨block, hblock, hreturn⟩ := mem_exits_ofFunction.mp hb
    rw [successors_ofFunction hblock, Block.successors]
    cases hterm : block.terminator with
    | ret value => rfl
    | jump | branch | missing =>
        rw [hterm] at hreturn
        exact nomatch hreturn

theorem two_le_length_of_mem {α : Type} {a b : α} {l : List α} (ha : a ∈ l) (hb : b ∈ l)
    (hne : a ≠ b) : 2 ≤ l.length := by
  match l with
  | [c] => exact absurd ((List.mem_singleton.mp ha).trans (List.mem_singleton.mp hb).symm) hne
  | c :: d :: rest => simp only [List.length_cons]; omega

/-- What post-dominates the end of a followed step post-dominates its beginning, or depends on it. -/
theorem postDominates_or_depends (hg : g.Ended) (hx : x ∈ g.reversePostorder)
    (hstep : g.Followed x y) (h : (Dominance.postOfGraph g).dominates z y = true) :
    (Dominance.postOfGraph g).dominates z x = true ∨
      x ∈ (ControlDependence.ofGraph g (Dominance.postOfGraph g)).dependences z := by
  obtain ⟨hy, hkind⟩ := hstep
  by_cases hdom : (Dominance.postOfGraph g).dominates z x = true
  · exact .inl hdom
  by_cases htwo : 2 ≤ (g.successors x).length
  · exact .inr (ControlDependence.mem_dependences_of_postDominates htwo hy h (.inr hdom))
  -- the only successor comes to a return, so the block is not final and inherits from it
  · refine .inl (Dominance.postDominates_of_successors hx ?_ hy fun s hs => ?_)
    · refine Dominance.not_mem_finalBlocks hg.blocks (fun hexit => ?_) hy (hkind.resolve_left htwo)
      rw [hg.successors x hexit] at hy
      exact absurd hy List.not_mem_nil
    · have hone : s = y := by
        by_contra hne
        exact htwo (two_le_length_of_mem hs hy hne)
      exact hone ▸ h

/-- A branch governs what post-dominates a block on a way from one successor, unless another
successor comes to it too. -/
theorem governs_of_postDominates (hg : g.Ended) (hx : x ∈ g.reversePostorder) {s s' : BlockId}
    (hs : s ∈ g.successors x) (hs' : s' ∈ g.successors x)
    (hpath : Relation.ReflTransGen g.Followed s y)
    (hz : (Dominance.postOfGraph g).dominates z y = true) (hno : ¬ g.Reaches s' z) :
    g.Governs x z := by
  induction hpath generalizing z with
  | refl =>
      have htwo : 2 ≤ (g.successors x).length := by
        refine two_le_length_of_mem hs hs' fun h => hno ?_
        exact h ▸ reaches_of_postDominates hg.blocks hz
      by_cases hself : z = x ∨ ¬ (Dominance.postOfGraph g).dominates z x = true
      · exact .single (ControlDependence.mem_dependences_of_postDominates htwo hs hz hself)
      · obtain ⟨hne, hdom⟩ := not_or.mp hself
        have hother := Dominance.postDominates_successor (Classical.not_not.mp hdom) hne hs'
        exact absurd (reaches_of_postDominates hg.blocks hother) hno
  | @tail y w hpath hstep ih =>
      have hy : y ∈ g.reversePostorder :=
        (reaches_of_followed hpath).mem_reversePostorder (successor_mem_reversePostorder hx hs)
      rcases postDominates_or_depends hg hy hstep hz with hdom | hdepends
      · exact ih hdom hno
      · -- the block on the way is governed itself, as whatever reaches it reaches the later one
        refine .tail (ih (Dominance.postDominates_self hy) fun hreach => hno ?_) hdepends
        exact (hreach.tail hstep.1).trans (reaches_of_postDominates hg.blocks hz)

/-- A branch governs a block that one of its successors comes to and another does not. -/
theorem governs_of_followed (hg : g.Ended) (hx : x ∈ g.reversePostorder) {s s' : BlockId}
    (hs : s ∈ g.successors x) (hs' : s' ∈ g.successors x)
    (hpath : Relation.ReflTransGen g.Followed s y) (hno : ¬ g.Reaches s' y) : g.Governs x y :=
  governs_of_postDominates hg hx hs hs' hpath (Dominance.postDominates_self
    ((reaches_of_followed hpath).mem_reversePostorder (successor_mem_reversePostorder hx hs))) hno

end TaintAnalysis.Graph
