import TaintAnalysis.Proofs.Flow.Loops
import TaintAnalysis.Proofs.Solver.Widening

/-!
# No cycle escapes the loops

Loops come from back edges, and which edges these are depends on how the search went. A cycle that
the entry reaches may be entered at any of its blocks, and nothing but the search singles one
of them out. But in the order of the search one block of the cycle comes first (`exists_first`).
The edges of the cycle to that block do not lead forward in the order, so they are back edges,
and going on from any block of the cycle one arrives at the first block over one of them without
having passed it before. So the cycle lies in the loop of its first block (`exists_loop_of_cycle`).

What is widened is decided by the loops alone. Whatever can run more than once is therefore
widened by the tests that leave a loop around it.
-/

namespace TaintAnalysis

namespace Graph

variable {g : Graph} {b h x y : BlockId} {cycle : List BlockId}

/-- Around a cycle there is a way from each of its blocks to each other. -/
theorem Way.around (h : g.Way x y cycle) (hclosed : x ∈ g.successors y) {a b : BlockId}
    (ha : a ∈ cycle) (hb : b ∈ cycle) : ∃ way, g.Way a b way ∧ way ⊆ cycle := by
  obtain ⟨rest, hrest, hrestSub⟩ := h.from_mem ha
  obtain ⟨start, hstart, hstartSub⟩ := h.to_mem hb
  obtain ⟨joined, hjoined, hsub⟩ := hrest.trans (.step hclosed hstart)
  refine ⟨joined, hjoined, fun c hc => ?_⟩
  rcases List.mem_append.mp (hsub hc) with hc | hc
  · exact hrestSub hc
  · rcases List.mem_cons.mp hc with rfl | hc
    · exact h.last_mem
    · exact hstartSub hc

/-- One of some blocks comes first in the order of the search. -/
theorem exists_first (g : Graph) {blocks : List BlockId} (hne : blocks ≠ []) :
    ∃ h ∈ blocks, ∀ b ∈ blocks, g.reversePostorder.idxOf h ≤ g.reversePostorder.idxOf b := by
  obtain ⟨b, hb⟩ := List.exists_mem_of_ne_nil blocks hne
  obtain ⟨h, hh, hmin⟩ := Finset.exists_min_image blocks.toFinset g.reversePostorder.idxOf
    ⟨b, List.mem_toFinset.mpr hb⟩
  exact ⟨h, List.mem_toFinset.mp hh, fun b hb => hmin b (List.mem_toFinset.mpr hb)⟩

/-- A cycle that the entry reaches lies in the loop of its block that comes first. -/
theorem exists_loop_of_cycle (hx : g.Reaches g.entry x) (hway : g.Way x y cycle)
    (hclosed : x ∈ g.successors y) : ∃ l ∈ g.loops, l.header ∈ cycle ∧ cycle ⊆ l.body := by
  obtain ⟨h, hh, hfirst⟩ := g.exists_first (List.ne_nil_of_mem hway.first_mem)
  have hreached : ∀ u ∈ cycle, g.Reaches g.entry u := by
    intro u hu
    obtain ⟨way, hway, -⟩ := hway.to_mem hu
    exact hx.trans hway.reaches
  -- the edges of the cycle that lead to `h` do not lead forward
  have hback : ∀ u ∈ cycle, h ∈ g.successors u → g.isBackEdge u h = true := by
    intro u hu hedge
    exact (isBackEdge_iff (hreached u hu) hedge).mpr (Nat.not_lt.mpr (hfirst u hu))
  have hheader : h ∈ g.loops.map Loop.header := by
    rw [map_header_loops, mem_headers_iff]
    rcases hway.entered hh with rfl | ⟨u, hu, hedge⟩
    · exact ⟨y, hback y hway.last_mem hclosed⟩
    · exact ⟨u, hback u hu hedge⟩
  obtain ⟨l, hl, rfl⟩ := List.mem_map.mp hheader
  have hloop := isLoop_of_mem hl
  refine ⟨l, hl, hh, fun b hb => (hloop.body b).mpr ?_⟩
  by_cases hbh : b = l.header
  · exact .inl hbh
  · right
    obtain ⟨way, hway, hsub⟩ := hway.around hclosed hb hh
    obtain ⟨u, start, hstart, hno, hedge, hstartSub⟩ := hway.first_arrival hbh
    have hu : u ∈ cycle := hsub (hstartSub hstart.last_mem)
    exact ⟨u, (hloop.tails u).mpr (hback u hu hedge), start, hstart, hno⟩

/-- A block that comes back to itself is on a cycle. -/
theorem exists_cycle (hb : Relation.TransGen (fun x y => y ∈ g.successors x) b b) :
    ∃ y cycle, g.Way b y cycle ∧ b ∈ g.successors y := by
  obtain ⟨y, hreaches, hclosed⟩ := Relation.TransGen.tail'_iff.mp hb
  obtain ⟨cycle, hcycle⟩ := reaches_iff_way.mp hreaches
  exact ⟨y, cycle, hcycle, hclosed⟩

/-- The loops of a function. The search for them ends, and so does the worklist for each of their
bodies, with the loops and bodies that are described. There is one loop for each target of a back
edge, and it has the blocks and the exits that it should have. Every cycle that is reached lies in
the loop of one of its blocks. So a block that can run more than once is in a loop, and in any
analysis of the function it is widened by all tests that leave this loop. -/
theorem loops_exact (f : Function) :
    let g := ofFunction f
    (∃ m, EndsIn (LoopSearch.step g) (LoopSearch.begin g.entry) m ∧
      g.finishLoops m.loops = g.loops) ∧
    (∀ t h, g.isBackEdge t h = true → t ≠ h →
      ∃ w, EndsIn (Flood.step (g.enteredFrom h)) (Flood.begin t h) w ∧
        ∀ b, b ∈ w.marked ↔ b ∈ g.loopBody h t) ∧
    (g.loops.map Loop.header).Nodup ∧
    (∀ h, h ∈ g.loops.map Loop.header ↔ ∃ t, g.isBackEdge t h = true) ∧
    (∀ l ∈ g.loops, g.IsLoop l) ∧
    (∀ x y cycle, g.Reaches g.entry x → g.Way x y cycle → x ∈ g.successors y →
      ∃ l ∈ g.loops, l.header ∈ cycle ∧ cycle ⊆ l.body) ∧
    ∀ b, g.Reaches g.entry b → Relation.TransGen (fun x y => y ∈ g.successors x) b b →
      g.loopsContaining b ≠ [] ∧
      ∀ config table peers, let p := (Problem.ofFunction f config table peers).1
        ∃ l ∈ p.loops, b ∈ l.body ∧
          ∀ k, ∀ e ∈ l.exiting, (k.branch e).toFull ≤ p.wideningOf k b := by
  intro g
  obtain ⟨m, hend, -, hloops⟩ := g.exists_loopSearch
  refine ⟨⟨m, hend, hloops ▸ g.finishLoops_eq⟩,
    fun t h hback hne => exists_flood (mem_nodes_of_isBackEdge hback) hne,
    g.nodup_header_loops, fun h => g.map_header_loops ▸ mem_headers_iff,
    fun l hl => isLoop_of_mem hl,
    fun x y cycle hx hway hclosed => exists_loop_of_cycle hx hway hclosed, fun b hb hcycle => ?_⟩
  obtain ⟨y, cycle, hway, hclosed⟩ := exists_cycle hcycle
  obtain ⟨l, hl, -, hsub⟩ := exists_loop_of_cycle hb hway hclosed
  have hbody : b ∈ l.body := hsub hway.first_mem
  refine ⟨List.ne_nil_of_mem (a := l) ?_, fun config table peers => ⟨l, hl, hbody, ?_⟩⟩
  · exact List.mem_mergeSort.mpr (List.mem_filter.mpr ⟨hl, decide_eq_true hbody⟩)
  · exact fun k e he => Problem.toFull_le_wideningOf hl he hbody

theorem loops_exact_eddying :
    let g := ofFunction eddying
    g.loops = [⟨1, [0, 1, 2], [2], [2], 0⟩, ⟨3, [3], [3], [3], 0⟩] ∧
      g.IsLoop ⟨1, [0, 1, 2], [2], [2], 0⟩ ∧
      (∃ l ∈ g.loops, l.header ∈ [2, 1] ∧ [2, 1] ⊆ l.body) ∧ g.loopsContaining 3 ≠ [] := by
  intro g
  obtain ⟨-, -, -, -, hloop, hcycle, hrepeat⟩ := loops_exact eddying
  have hloops : g.loops = [⟨1, [0, 1, 2], [2], [2], 0⟩, ⟨3, [3], [3], [3], 0⟩] := by decide_cbv
  have hreached : ∀ b ∈ [0, 1, 2, 3, 4], g.Reaches g.entry b := by
    intro b hb
    have horder : g.reversePostorder = [0, 1, 2, 3, 4] := by decide_cbv
    exact mem_reversePostorder_iff.mp (horder ▸ hb)
  refine ⟨hloops, hloop _ (by rw [show (ofFunction eddying).loops = _ from hloops]; decide), ?_, ?_⟩
  · have hway : g.Way 2 1 [2, 1] := .step (by decide) (.here 1)
    exact hcycle 2 1 [2, 1] (hreached 2 (by decide)) hway (by decide)
  · exact (hrepeat 3 (hreached 3 (by decide)) (.single (by decide))).1

end Graph

end TaintAnalysis
