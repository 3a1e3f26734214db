import TaintAnalysis.Proofs.Flow.Decisions
import TaintAnalysis.Proofs.Flow.Ways
import TaintAnalysis.Proofs.Program.Reachable

/-!
# What lies on every way to the end

A block at which every way to the end is over is final: it returns, or no return is
reached from it. The equations of post-dominance have the final blocks as roots and
the successors as sources, so their trails are the ways to final blocks. In the graph
of a validated function every block has such a way, since a block that is not final
comes to a return.

Control dependence is read off post-dominance, and so becomes a matter of ways: a
branch decides about a block if all ways from one of its successors lead through the
block, while some way from the branch itself does not, or the block is the branch.
-/

namespace TaintAnalysis

namespace Graph

variable {g : Graph} {b : BlockId}

/-- Every way to the end is over at the block: it returns, or no return is reached from it. -/
def IsFinal (g : Graph) (b : BlockId) : Prop :=
  b ∈ g.exits ∨ ∀ e ∈ g.exits, ¬ g.Reaches b e

/-- The blocks of the graph are those that its entry reaches, and its exits are among them. -/
structure Whole (g : Graph) : Prop where
  exits : ∀ b ∈ g.exits, b ∈ g.blocks
  reached : ∀ b, b ∈ g.reversePostorder ↔ b ∈ g.blocks

theorem Whole.reaches (hg : g.Whole) (hb : b ∈ g.blocks) : g.Reaches g.entry b :=
  mem_reversePostorder_iff.mp ((hg.reached b).mpr hb)

theorem mem_finalBlocks_iff (hexits : ∀ b ∈ g.exits, b ∈ g.blocks) (hb : b ∈ g.blocks) :
    b ∈ Dominance.finalBlocks g ↔ g.IsFinal b := by
  rw [Dominance.mem_finalBlocks_iff, and_iff_right hb, mem_reachingExit_iff hexits, IsFinal]
  push Not
  exact Iff.rfl

end Graph

theorem Function.Validated.whole {f : Function} (hf : f.Validated) :
    (Graph.ofFunction f).Whole where
  exits := Graph.exits_subset_blocks_ofFunction
  reached := fun b => by
    refine ⟨fun hb => ?_, fun hb => ?_⟩
    · obtain ⟨block, hblock⟩ := hf.exists_block hb
      show b ∈ (f.blocks.mapValues _).keys
      rw [OrderedMap.keys_mapValues]
      exact OrderedMap.mem_keys_iff_exists.mpr ⟨block, hblock⟩
    · obtain ⟨block, hblock⟩ := Function.exists_block_of_mem_blocks hb
      exact hf.mem_reversePostorder hblock

namespace Dominance

variable {g : Graph} {b d : BlockId} {trail way : List BlockId}

/-- The equations of dominance of the ways to the end. -/
def toEnd (g : Graph) : Equations where
  blocks := g.reversePostorder.reverse
  roots := finalBlocks g
  sources := g.successors

theorem postOfGraph_eq (g : Graph) : postOfGraph g = (toEnd g).solve :=
  rfl

theorem mem_blocks_toEnd (hg : g.Whole) : b ∈ (toEnd g).blocks ↔ b ∈ g.blocks :=
  List.mem_reverse.trans (hg.reached b)

/-- A trail is a way to a final block. -/
theorem trail_iff_way (hg : g.Whole) (hb : b ∈ g.blocks) :
    (toEnd g).Trail b trail ↔ ∃ z, g.IsFinal z ∧ g.Way b z trail := by
  constructor
  · intro h
    clear hb
    induction h with
    | @root b hb hroot =>
        have hblock := (mem_blocks_toEnd hg).mp hb
        exact ⟨b, (Graph.mem_finalBlocks_iff hg.exits hblock).mp hroot, .here b⟩
    | step _ hs _ ih =>
        obtain ⟨z, hz, hway⟩ := ih
        exact ⟨z, hz, .step hs hway⟩
  · intro h
    obtain ⟨z, hz, hway⟩ := h
    induction hway with
    | here z =>
        exact .root ((mem_blocks_toEnd hg).mpr hb) ((Graph.mem_finalBlocks_iff hg.exits hb).mpr hz)
    | @step x y z way hstep _ ih =>
        have hy := Graph.successor_mem_reversePostorder ((hg.reached x).mpr hb) hstep
        exact .step ((mem_blocks_toEnd hg).mpr hb) hstep (ih ((hg.reached y).mp hy) hz)

/-- Every block has a way to a final block. -/
theorem rooted_toEnd (hg : g.Whole) : (toEnd g).Rooted := by
  intro b hb
  have hblock := (mem_blocks_toEnd hg).mp hb
  obtain ⟨z, hz, way, hway⟩ : ∃ z, g.IsFinal z ∧ ∃ way, g.Way b z way := by
    by_cases hreach : ∃ e ∈ g.exits, g.Reaches b e
    · obtain ⟨e, he, hpath⟩ := hreach
      exact ⟨e, .inl he, Graph.reaches_iff_way.mp hpath⟩
    · push Not at hreach
      exact ⟨b, .inr hreach, _, .here b⟩
  exact ⟨way, (trail_iff_way hg hblock).mpr ⟨z, hz, hway⟩⟩

theorem postDominates_iff_ways (hg : g.Whole) (hb : b ∈ g.blocks) :
    (postOfGraph g).dominates d b = true ↔ ∀ z way, g.IsFinal z → g.Way b z way → d ∈ way := by
  rw [postOfGraph_eq, Equations.dominates_iff_trails (rooted_toEnd hg)
    ((mem_blocks_toEnd hg).mpr hb)]
  constructor
  · exact fun h z way hz hway => h way ((trail_iff_way hg hb).mpr ⟨z, hz, hway⟩)
  · intro h trail htrail
    obtain ⟨z, hz, hway⟩ := (trail_iff_way hg hb).mp htrail
    exact h z trail hz hway

end Dominance

/-! ## Which branches decide -/

theorem Terminator.nodup_successors (t : Terminator) : t.successors.Nodup := by
  cases t with
  | jump target => exact List.nodup_singleton target
  | branch condition thenBlock elseBlock =>
      rw [successors]
      split
      · exact List.nodup_singleton thenBlock
      · next hne => exact List.nodup_cons.mpr ⟨fun h => hne (List.mem_singleton.mp h),
          List.nodup_singleton elseBlock⟩
  | ret | missing => exact List.nodup_nil

theorem Graph.nodup_successors_ofFunction (f : Function) (b : BlockId) :
    ((ofFunction f).successors b).Nodup := by
  cases hblock : f.block? b with
  | none =>
      have hnil : (ofFunction f).successors b = [] := by
        refine List.eq_nil_iff_forall_not_mem.mpr fun s hs => ?_
        obtain ⟨block, hsome⟩ := Function.exists_block_of_mem_blocks (mem_blocks_of_successor hs)
        exact nomatch hblock.symm.trans hsome
      rw [hnil]
      exact List.nodup_nil
  | some block =>
      rw [successors_ofFunction hblock]
      exact block.terminator.nodup_successors

/-- A list without repetitions is not a single element if it has two different members. -/
theorem two_le_length_iff {α : Type} {l : List α} (h : l.Nodup) :
    2 ≤ l.length ↔ ∃ a ∈ l, ∃ b ∈ l, a ≠ b := by
  constructor
  · intro hlen
    match l with
    | a :: b :: rest =>
        refine ⟨a, List.mem_cons_self, b, List.mem_cons_of_mem a List.mem_cons_self, ?_⟩
        rintro rfl
        exact (List.nodup_cons.mp h).1 List.mem_cons_self
  · exact fun ⟨a, ha, b, hb, hne⟩ => Graph.two_le_length_of_mem ha hb hne

namespace ControlDependence

variable {g : Graph} {b x : BlockId}

/-- The blocks that a branch decides about are listed in ascending order. -/
theorem pairwise_controlledBy (g : Graph) (post : Dominance) (x : BlockId) :
    ((ofGraph g post).controlledBy x).Pairwise (· < ·) := by
  have hentries : ∀ blocks : List BlockId, blocks.Pairwise (· < ·) →
      ∀ branches : BlockId → List BlockId,
        ((OrderedMap.ofList (blocks.map fun b => (b, branches b))).entries.map Prod.fst) =
          blocks := by
    intro blocks hblocks branches
    have hkeys : (blocks.map fun b => (b, branches b)).map Prod.fst = blocks := by
      rw [List.map_map]
      exact List.map_id _
    rw [OrderedMap.entries_ofList, hkeys]
    rw [hkeys]
    exact hblocks.imp fun h => UInt32.ne_of_lt h
  have hsub : ((ofGraph g post).controlledBy x).Sublist
      ((ofGraph g post).branches.entries.map Prod.fst) :=
    List.filter_sublist.map Prod.fst
  refine List.Pairwise.sublist hsub ?_
  rw [ofGraph, hentries _ (BlockId.pairwise_ascending _)]
  exact BlockId.pairwise_ascending _

theorem mem_dependences_iff_ways (hg : g.Whole) (hnodup : (g.successors x).Nodup) :
    x ∈ (ofGraph g (Dominance.postOfGraph g)).dependences b ↔
      (∃ s ∈ g.successors x, ∃ t ∈ g.successors x, s ≠ t) ∧
      (∃ s ∈ g.successors x, ∀ z way, g.IsFinal z → g.Way s z way → b ∈ way) ∧
      (b = x ∨ ∃ z way, g.IsFinal z ∧ g.Way x z way ∧ b ∉ way) := by
  by_cases hx : x ∈ g.blocks
  · have hsuccessor (s : BlockId) (hs : s ∈ g.successors x) : s ∈ g.blocks :=
      (hg.reached s).mp (Graph.successor_mem_reversePostorder ((hg.reached x).mpr hx) hs)
    rw [mem_dependences_iff, and_iff_right hx, mem_decidedBy_iff, two_le_length_iff hnodup]
    refine and_congr_right fun _ => ?_
    rw [Dominance.postDominates_iff_ways hg hx]
    push Not
    constructor
    · rintro ⟨s, hs, hdom, hself⟩
      exact ⟨⟨s, hs, (Dominance.postDominates_iff_ways hg (hsuccessor s hs)).mp hdom⟩, hself⟩
    · rintro ⟨⟨s, hs, hways⟩, hself⟩
      exact ⟨s, hs, (Dominance.postDominates_iff_ways hg (hsuccessor s hs)).mpr hways, hself⟩
  · refine iff_of_false (fun h => hx (mem_dependences_iff.mp h).1) ?_
    rintro ⟨⟨s, hs, -⟩, -⟩
    exact hx (Graph.mem_blocks_of_successor hs)

/-- Control dependence in a validated function. A block depends on a branch if the branch has two
successors, all ways to the end from one of them lead through the block, and the block is the
branch or some way from the branch does not lead through it. The blocks that a branch decides about
are those that depend on it, in ascending order. -/
theorem dependences_exact {f : Function} (hf : f.Validated) :
    let g := Graph.ofFunction f
    let c := ofGraph g (Dominance.postOfGraph g)
    (∀ b x, x ∈ c.dependences b ↔
      (∃ s ∈ g.successors x, ∃ t ∈ g.successors x, s ≠ t) ∧
      (∃ s ∈ g.successors x, ∀ z way, g.IsFinal z → g.Way s z way → b ∈ way) ∧
      (b = x ∨ ∃ z way, g.IsFinal z ∧ g.Way x z way ∧ b ∉ way)) ∧
    ∀ x, (c.controlledBy x).Pairwise (· < ·) ∧ ∀ b, b ∈ c.controlledBy x ↔ x ∈ c.dependences b :=
  ⟨fun _ x => mem_dependences_iff_ways hf.whole (Graph.nodup_successors_ofFunction f x),
    fun x => ⟨pairwise_controlledBy _ _ x, fun _ => mem_controlledBy_iff⟩⟩

/-- A loop that is tested at its header, behind a branch to a block that never returns. -/
def guarded : Function where
  name := "guarded"
  returns := .void
  vars := [⟨"c", .int 32, .param⟩]
  blocks := .ofList
    [(0, ⟨[], .branch (.var 0) 1 4⟩),
      (1, ⟨[], .branch (.var 0) 2 3⟩),
      (2, ⟨[], .jump 1⟩),
      (3, ⟨[], .ret none⟩),
      (4, ⟨[], .jump 4⟩)]
  entry := 0
  nextBlock := 5

theorem validated_guarded : guarded.Validated :=
  ⟨⟨[guarded], by decide⟩, ⟨[guarded], by decide⟩, .standard, by cbv, List.mem_cons_self⟩

/-- The header depends on itself, and what follows the loop depends on the first branch. -/
theorem dependences_exact_guarded :
    let g := Graph.ofFunction guarded
    let c := ofGraph g (Dominance.postOfGraph g)
    guarded.Validated ∧ c.controlledBy 0 = [1, 3, 4] ∧ c.dependences 1 = [0, 1] ∧
      (∃ s ∈ g.successors 1, ∀ z way, g.IsFinal z → g.Way s z way → 1 ∈ way) ∧
      ∃ z way, g.IsFinal z ∧ g.Way 0 z way ∧ 3 ∉ way := by
  obtain ⟨hdepends, hcontrolled⟩ := dependences_exact validated_guarded
  have hzero : (ofGraph (Graph.ofFunction guarded)
      (Dominance.postOfGraph (Graph.ofFunction guarded))).controlledBy 0 = [1, 3, 4] := by
    decide_cbv
  have hone : (ofGraph (Graph.ofFunction guarded)
      (Dominance.postOfGraph (Graph.ofFunction guarded))).dependences 1 = [0, 1] := by
    decide_cbv
  refine ⟨validated_guarded, hzero, hone, ?_, ?_⟩
  · exact ((hdepends 1 1).mp (hone ▸ by decide)).2.1
  · have hthree := ((hcontrolled 0).2 3).mp (hzero ▸ by decide)
    exact ((hdepends 3 0).mp hthree).2.2.resolve_left (by decide)

end ControlDependence

end TaintAnalysis
