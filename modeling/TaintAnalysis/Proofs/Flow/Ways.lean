import Mathlib
import TaintAnalysis.Proofs.Flow.InPlace
import TaintAnalysis.Proofs.Flow.Paths

/-!
# Dominance means that every way leads through

A way is listed block by block, so that it can be said what lies on it. Dominance from
the entry is the system of equations whose sources are predecessors, and its trails
are the ways from the entry, backwards. A block that is not reached has no trails; it
is not in the system either, and where it jumps into a block that is, the equations
skip it.
-/

namespace TaintAnalysis

namespace Graph

variable {g : Graph} {x y z : BlockId} {way : List BlockId}

/-- The blocks along a way from one block to another, both of them included. -/
inductive Way (g : Graph) : BlockId → BlockId → List BlockId → Prop where
  | here (b : BlockId) : Way g b b [b]
  | step {x y z : BlockId} {way : List BlockId} (hstep : y ∈ g.successors x)
      (hrest : Way g y z way) : Way g x z (x :: way)

namespace Way

theorem first_mem (h : g.Way x y way) : x ∈ way := by
  cases h with
  | here => exact List.mem_cons_self
  | step => exact List.mem_cons_self

/-- A way can go on by a step. -/
theorem extend (h : g.Way x y way) (hstep : z ∈ g.successors y) : g.Way x z (way ++ [z]) := by
  induction h with
  | here y => exact .step hstep (.here z)
  | step hfirst _ ih => exact .step hfirst (ih hstep)

theorem last_mem (h : g.Way x y way) : y ∈ way := by
  induction h with
  | here => exact List.mem_cons_self
  | step _ _ ih => exact List.mem_cons_of_mem _ ih

/-- Two ways can be joined where one ends and the other begins. -/
theorem trans {way' : List BlockId} (h : g.Way x y way) (h' : g.Way y z way') :
    ∃ joined, g.Way x z joined ∧ joined ⊆ way ++ way' := by
  induction h with
  | here => exact ⟨way', h', List.subset_append_right _ _⟩
  | step hstep _ ih =>
      obtain ⟨joined, hjoined, hsub⟩ := ih h'
      exact ⟨_, .step hstep hjoined, List.cons_subset_cons _ hsub⟩

/-- From any block on a way on, the rest of it is a way. -/
theorem from_mem (h : g.Way x y way) (hz : z ∈ way) : ∃ rest, g.Way z y rest ∧ rest ⊆ way := by
  induction h with
  | here b =>
      obtain rfl := List.mem_singleton.mp hz
      exact ⟨[z], .here z, List.Subset.refl _⟩
  | @step a b c way hstep hrest ih =>
      rcases List.mem_cons.mp hz with rfl | hz
      · exact ⟨z :: way, .step hstep hrest, List.Subset.refl _⟩
      · obtain ⟨rest, hway, hsub⟩ := ih hz
        exact ⟨rest, hway, List.subset_cons_of_subset a hsub⟩

/-- Up to any block on a way, it is a way. -/
theorem to_mem (h : g.Way x y way) (hz : z ∈ way) : ∃ start, g.Way x z start ∧ start ⊆ way := by
  induction h with
  | here b =>
      obtain rfl := List.mem_singleton.mp hz
      exact ⟨[z], .here z, List.Subset.refl _⟩
  | @step a b c way hstep _ ih =>
      rcases List.mem_cons.mp hz with rfl | hz
      · exact ⟨[z], .here z, List.cons_subset_cons z (List.nil_subset way)⟩
      · obtain ⟨start, hway, hsub⟩ := ih hz
        exact ⟨a :: start, .step hstep hway, List.cons_subset_cons a hsub⟩

/-- Every block on a way but the first one is entered from another block on it. -/
theorem entered (h : g.Way x y way) (hz : z ∈ way) : z = x ∨ ∃ u ∈ way, z ∈ g.successors u := by
  induction h with
  | here b => exact .inl (List.mem_singleton.mp hz)
  | @step a b c way hstep _ ih =>
      rcases List.mem_cons.mp hz with rfl | hz
      · exact .inl rfl
      · right
        rcases ih hz with rfl | ⟨u, hu, hnext⟩
        · exact ⟨a, List.mem_cons_self, hstep⟩
        · exact ⟨u, List.mem_cons_of_mem a hu, hnext⟩

/-- A way arrives at its last block for a first time, and up to there it does not pass it. -/
theorem first_arrival (h : g.Way x y way) (hne : x ≠ y) :
    ∃ u start, g.Way x u start ∧ y ∉ start ∧ y ∈ g.successors u ∧ start ⊆ way := by
  induction h with
  | here => exact absurd rfl hne
  | @step a b c way hstep _ ih =>
      have hac : c ∉ [a] := fun hc => hne (List.mem_singleton.mp hc).symm
      by_cases hbc : b = c
      · subst hbc
        exact ⟨a, [a], .here a, hac, hstep, List.cons_subset_cons a (List.nil_subset way)⟩
      · obtain ⟨u, start, hstart, hno, hnext, hsub⟩ := ih hbc
        refine ⟨u, a :: start, .step hstep hstart, ?_, hnext, List.cons_subset_cons a hsub⟩
        intro hc
        rcases List.mem_cons.mp hc with rfl | hc
        · exact hne rfl
        · exact hno hc

/-- A way leaves a block on it for a last time, and from there on it does not pass it. -/
theorem last_departure (h : g.Way x y way) (hz : z ∈ way) (hne : z ≠ y) :
    ∃ u rest, u ∈ g.successors z ∧ g.Way u y rest ∧ z ∉ rest := by
  induction h with
  | here b => exact absurd (List.mem_singleton.mp hz) hne
  | @step a b c way hstep hrest ih =>
      by_cases hway : z ∈ way
      · exact ih hway hne
      · obtain rfl := (List.mem_cons.mp hz).resolve_right hway
        exact ⟨b, way, hstep, hrest, hway⟩

theorem reaches (h : g.Way x y way) : g.Reaches x y := by
  induction h with
  | here => exact .refl
  | step hstep _ ih => exact ih.head hstep

end Way

theorem reaches_iff_way : g.Reaches x y ↔ ∃ way, g.Way x y way := by
  refine ⟨fun h => ?_, fun ⟨_, h⟩ => h.reaches⟩
  induction h using Relation.ReflTransGen.head_induction_on with
  | refl => exact ⟨_, .here y⟩
  | head hstep _ ih =>
      obtain ⟨way, hway⟩ := ih
      exact ⟨_, .step hstep hway⟩

end Graph

namespace Dominance

variable {g : Graph} {b d : BlockId} {trail way : List BlockId}

/-- The equations of dominance from the entry. -/
def fromEntry (g : Graph) : Equations where
  blocks := g.reversePostorder
  roots := [g.entry]
  sources := g.predecessors

theorem ofGraph_eq (g : Graph) : ofGraph g = (fromEntry g).solve :=
  rfl

/-- A trail is a way from the entry, backwards. -/
theorem way_of_trail (h : (fromEntry g).Trail b trail) : g.Way g.entry b trail.reverse := by
  induction h with
  | root _ hroot => exact List.mem_singleton.mp hroot ▸ .here _
  | step _ hs _ ih =>
      rw [List.reverse_cons]
      exact ih.extend (Graph.mem_predecessors_iff.mp hs)

/-- A way goes on from where a trail begins. -/
theorem trail_append {x : BlockId} (h : g.Way x b way)
    (hx : (fromEntry g).Trail x (x :: trail)) : (fromEntry g).Trail b (way.reverse ++ trail) := by
  induction h generalizing trail with
  | here => exact hx
  | @step x y z way hstep _ ih =>
      have hy : y ∈ g.reversePostorder := Graph.successor_mem_reversePostorder hx.mem_blocks hstep
      rw [List.reverse_cons, List.append_assoc]
      exact ih (.step hy (Graph.mem_predecessors_iff.mpr hstep) hx)

theorem trail_of_way (h : g.Way g.entry b way) : (fromEntry g).Trail b way.reverse := by
  have hentry : (fromEntry g).Trail g.entry [g.entry] :=
    .root g.entry_mem_reversePostorder (List.mem_singleton.mpr rfl)
  have htrail := trail_append h hentry
  rwa [List.append_nil] at htrail

theorem rooted_fromEntry (g : Graph) : (fromEntry g).Rooted := by
  intro b hb
  obtain ⟨way, hway⟩ := Graph.reaches_iff_way.mp (Graph.mem_reversePostorder_iff.mp hb)
  exact ⟨_, trail_of_way hway⟩

theorem dominates_iff_ways (hb : g.Reaches g.entry b) :
    (ofGraph g).dominates d b = true ↔ ∀ way, g.Way g.entry b way → d ∈ way := by
  rw [ofGraph_eq, Equations.dominates_iff_trails (rooted_fromEntry g)
    (Graph.mem_reversePostorder_iff.mpr hb)]
  constructor
  · exact fun h way hway => List.mem_reverse.mp (h _ (trail_of_way hway))
  · exact fun h trail htrail => List.mem_reverse.mp (h _ (way_of_trail htrail))

/-- Exactly the blocks that the entry reaches have dominators. -/
theorem exists_dominators_iff :
    (∃ set, (ofGraph g).dominators? b = some set) ↔ g.Reaches g.entry b := by
  rw [← Graph.mem_reversePostorder_iff]
  constructor
  · exact fun ⟨_, hset⟩ => Equations.mem_blocks_of_get?_solve hset
  · exact fun hb => ⟨_, Equations.get?_solve (e := fromEntry g) hb⟩

theorem mem_dominators_iff {dom : Dominance} {set : List BlockId}
    (h : dom.dominators? b = some set) : d ∈ set ↔ dom.dominates d b = true := by
  rw [Equations.dominates_eq_true_iff]
  exact ⟨fun hd => ⟨set, h, hd⟩, fun ⟨set', h', hd⟩ => Option.some.inj (h.symm.trans h') ▸ hd⟩

/-- Dominance from the entry, in any graph. Passes over the blocks find it, and only finitely many
of them change anything; a block has dominators if the entry reaches it; and these are the blocks
that lie on every way from the entry to it. -/
theorem dominators_exact (g : Graph) :
    (∃ n, (∀ m < n, (fromEntry g).pass^[m + 1] (fromEntry g).start ≠
          (fromEntry g).pass^[m] (fromEntry g).start) ∧
      (fromEntry g).pass^[n] (fromEntry g).start = (ofGraph g).sets ∧
      (fromEntry g).pass (ofGraph g).sets = (ofGraph g).sets) ∧
    (∀ b, (∃ set, (ofGraph g).dominators? b = some set) ↔ g.Reaches g.entry b) ∧
    ∀ b set, (ofGraph g).dominators? b = some set →
      ∀ d, d ∈ set ↔ ∀ way, g.Way g.entry b way → d ∈ way := by
  refine ⟨(fromEntry g).passes_end, fun _ => exists_dominators_iff, fun b set hset d => ?_⟩
  rw [mem_dominators_iff hset, dominates_iff_ways (exists_dominators_iff.mp ⟨set, hset⟩)]

/-- A function with a loop that is entered at two blocks and leads back to the entry. Nothing leads
to its last block, which jumps out of the middle of it, and the block that it ends in is missing. -/
def knotted : Function where
  name := "knotted"
  returns := .void
  vars := [⟨"c", .int 32, .param⟩]
  blocks := .ofList
    [(0, ⟨[], .branch (.var 0) 1 2⟩),
      (1, ⟨[], .branch (.var 0) 2 3⟩),
      (2, ⟨[], .branch (.var 0) 1 0⟩),
      (3, ⟨[], .jump 7⟩),
      (9, ⟨[], .jump 3⟩)]
  entry := 0
  nextBlock := 10

theorem dominators_exact_knotted :
    (ofGraph (Graph.ofFunction knotted)).dominators? 7 = some [0, 1, 3, 7] ∧
      (∀ way, (Graph.ofFunction knotted).Way 0 7 way → 1 ∈ way) ∧
      ¬ (Graph.ofFunction knotted).Reaches 0 9 := by
  obtain ⟨-, hreached, hways⟩ := dominators_exact (Graph.ofFunction knotted)
  have hset : (ofGraph (Graph.ofFunction knotted)).dominators? 7 = some [0, 1, 3, 7] := by
    decide_cbv
  have hnone : (ofGraph (Graph.ofFunction knotted)).dominators? 9 = none := by decide_cbv
  refine ⟨hset, (hways 7 _ hset 1).mp (by decide), fun h => ?_⟩
  obtain ⟨set, hsome⟩ := (hreached 9).mpr h
  exact Option.some_ne_none set (hsome.symm.trans hnone)

end Dominance

end TaintAnalysis
