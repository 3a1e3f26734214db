import TaintAnalysis.Proofs.Flow.Loops
import TaintAnalysis.Proofs.Flow.PostDominance

/-!
# Loops with one entrance nest

If the header of a loop dominates the sources of its back edges, it dominates the whole body, and
then the body has no other entrance: from the header there is a way to each of its blocks that does
not leave it (`way_from_header`), as there is always one back (`way_to_header`).

Suppose that two such loops share a block and the header of one dominates that of the other. Then
the inner loop does not have the header of the outer one. So every block of it comes to the shared
block without passing that header, and from there on to the back edges of the outer loop. Headers
that dominate the same block dominate one another in turn, so of two loops that share a block one
contains the other (`strictlyWithin_of_shared`).

A loop is then within exactly those other loops that contain its header, which is what its depth
counts, and loops in the order of their depth stand with the outermost first.
-/

namespace TaintAnalysis

/-- All blocks of one loop belong to the other one, which has more. -/
def Loop.StrictlyWithin (l m : Loop) : Prop :=
  l.body ⊆ m.body ∧ ¬ m.body ⊆ l.body

instance : DecidableRel Loop.StrictlyWithin :=
  fun l m => inferInstanceAs (Decidable (l.body ⊆ m.body ∧ ¬ m.body ⊆ l.body))

theorem Loop.StrictlyWithin.trans {l m n : Loop} (hlm : l.StrictlyWithin m)
    (hmn : m.StrictlyWithin n) : l.StrictlyWithin n :=
  ⟨fun _ hb => hmn.1 (hlm.1 hb), fun hnl => hlm.2 fun _ hb => hnl (hmn.1 hb)⟩

/-- What holds wherever something else does, and of one member more, holds more often. -/
theorem countP_lt {α : Type} {p q : α → Bool} {l : List α} {a : α}
    (himp : ∀ x ∈ l, p x = true → q x = true) (ha : a ∈ l) (hp : p a = false)
    (hq : q a = true) : l.countP p < l.countP q := by
  obtain ⟨front, behind, rfl⟩ := List.append_of_mem ha
  have hfront : front.countP p ≤ front.countP q :=
    List.countP_mono_left fun x hx => himp x (List.mem_append_left _ hx)
  have hbehind : behind.countP p ≤ behind.countP q := by
    refine List.countP_mono_left fun x hx => himp x (List.mem_append_right _ ?_)
    exact List.mem_cons_of_mem a hx
  rw [List.countP_append, List.countP_append, List.countP_cons_of_neg (by simp [hp]),
    List.countP_cons_of_pos hq]
  omega

namespace Graph

variable {g : Graph} {l m : Loop} {b x : BlockId}

/-- The header of every loop dominates the sources of its back edges. -/
def Reducible (g : Graph) : Prop :=
  ∀ l ∈ g.loops, ∀ t ∈ l.tails, (Dominance.ofGraph g).dominates l.header t = true

/-! ## The body of a loop -/

/-- The blocks on a way that leads to a block of the loop without passing the header belong to the
loop as well. -/
theorem IsLoop.mem_of_way (hl : g.IsLoop l) {way : List BlockId} (hway : g.Way b x way)
    (hx : x ∈ l.body) (hno : l.header ∉ way) : way ⊆ l.body := by
  intro c hc
  obtain ⟨rest, hrest, hsub⟩ := hway.from_mem hc
  have hxh : x ≠ l.header := by
    rintro rfl
    exact hno hway.last_mem
  obtain ⟨t, ht, hbypass⟩ := ((hl.body x).mp hx).resolve_left hxh
  have hcx : g.Bypasses l.header c x := ⟨rest, hrest, fun h => hno (hsub h)⟩
  exact (hl.body c).mpr (.inr ⟨t, ht, hcx.trans hbypass⟩)

/-- From every block of a loop there is a way to the header that stays in the loop. -/
theorem IsLoop.way_to_header (hl : g.IsLoop l) (hb : b ∈ l.body) :
    ∃ way, g.Way b l.header way ∧ way ⊆ l.body := by
  rcases (hl.body b).mp hb with rfl | ⟨t, ht, way, hway, hno⟩
  · exact ⟨_, .here _, by simpa using hb⟩
  · have hne : t ≠ l.header := by
      rintro rfl
      exact hno hway.last_mem
    have htb : t ∈ l.body := (hl.body t).mpr (.inr ⟨t, ht, [t], .here t, by simpa using hne.symm⟩)
    have hedge := (edge_of_isBackEdge ((hl.tails t).mp ht)).1
    refine ⟨_, hway.extend hedge, fun c hc => ?_⟩
    rcases List.mem_append.mp hc with hc | hc
    · exact hl.mem_of_way hway htb hno hc
    · obtain rfl := List.mem_singleton.mp hc
      exact hl.header_mem

section

variable (hg : g.Whole) (hred : g.Reducible)

include hg in
theorem Whole.reaches_of_mem_body (hl : l ∈ g.loops) (hb : b ∈ l.body) :
    g.Reaches g.entry b := by
  have hloop := isLoop_of_mem hl
  rcases (hloop.body b).mp hb with rfl | ⟨t, ht, way, hway, -⟩
  · obtain ⟨t, hback⟩ := mem_headers_iff.mp (g.map_header_loops ▸ List.mem_map_of_mem hl)
    obtain ⟨hedge, htr⟩ := edge_of_isBackEdge hback
    exact htr.tail hedge
  · obtain ⟨hedge, htr⟩ := edge_of_isBackEdge ((hloop.tails t).mp ht)
    cases hway with
    | here => exact htr
    | step hstep _ => exact hg.reaches (mem_blocks_of_successor hstep)

include hg hred in
/-- The header dominates the body. -/
theorem Reducible.dominates_body (hl : l ∈ g.loops) (hb : b ∈ l.body) :
    (Dominance.ofGraph g).dominates l.header b = true := by
  have hloop := isLoop_of_mem hl
  have hbr := hg.reaches_of_mem_body hl hb
  refine (Dominance.dominates_iff_ways hbr).mpr fun way hway => ?_
  rcases (hloop.body b).mp hb with rfl | ⟨t, ht, rest, hrest, hno⟩
  · exact hway.last_mem
  · obtain ⟨joined, hjoined, hsub⟩ := hway.trans hrest
    have htr := hbr.trans hrest.reaches
    have hmem := (Dominance.dominates_iff_ways htr).mp (hred l hl t ht) joined hjoined
    exact (List.mem_append.mp (hsub hmem)).resolve_right hno

include hg hred in
/-- To every block of a loop there is a way from the header that stays in the loop. -/
theorem Reducible.way_from_header (hl : l ∈ g.loops) (hb : b ∈ l.body) :
    ∃ way, g.Way l.header b way ∧ way ⊆ l.body := by
  have hloop := isLoop_of_mem hl
  by_cases hbh : l.header = b
  · subst hbh
    exact ⟨_, .here _, by simpa using hb⟩
  have hbr := hg.reaches_of_mem_body hl hb
  obtain ⟨way, hway⟩ := reaches_iff_way.mp hbr
  have hmem := (Dominance.dominates_iff_ways hbr).mp (hred.dominates_body hg hl hb) way hway
  obtain ⟨u, rest, hedge, hrest, hno⟩ := hway.last_departure hmem hbh
  exact ⟨_, .step hedge hrest, List.cons_subset.mpr
    ⟨hloop.header_mem, hloop.mem_of_way hrest hb hno⟩⟩

/-! ## Two loops -/

include hg hred in
/-- A loop that shares a block with another one is within it, if its header is dominated by the
header of the other one. -/
theorem Reducible.strictlyWithin_of_dominates (hl : l ∈ g.loops) (hm : m ∈ g.loops)
    (hne : l.header ≠ m.header) (hxl : x ∈ l.body) (hxm : x ∈ m.body)
    (hdom : (Dominance.ofGraph g).dominates m.header l.header = true) : l.StrictlyWithin m := by
  have hloop := isLoop_of_mem hm
  have houtside : m.header ∉ l.body := by
    intro hmem
    exact hne (Dominance.Equations.dominates_antisymm (Dominance.rooted_fromEntry g)
      (hred.dominates_body hg hl hmem) hdom)
  have hxh : x ≠ m.header := by
    rintro rfl
    exact houtside hxl
  obtain ⟨t, ht, hout⟩ := ((hloop.body x).mp hxm).resolve_left hxh
  refine ⟨fun b hb => ?_, fun hsub => houtside (hsub hloop.header_mem)⟩
  -- within the inner loop: from `b` to the header, and from there to the shared block
  obtain ⟨back, hback, hbackSub⟩ := (isLoop_of_mem hl).way_to_header hb
  obtain ⟨forth, hforth, hforthSub⟩ := hred.way_from_header hg hl hxl
  have hbh : g.Bypasses m.header b l.header := ⟨back, hback, fun h => houtside (hbackSub h)⟩
  have hhx : g.Bypasses m.header l.header x := ⟨forth, hforth, fun h => houtside (hforthSub h)⟩
  exact (hloop.body b).mpr (.inr ⟨t, ht, (hbh.trans hhx).trans hout⟩)

include hg hred in
/-- Of two loops that share a block, one is within the other. -/
theorem Reducible.strictlyWithin_of_shared (hl : l ∈ g.loops) (hm : m ∈ g.loops)
    (hne : l.header ≠ m.header) (hxl : x ∈ l.body) (hxm : x ∈ m.body) :
    l.StrictlyWithin m ∨ m.StrictlyWithin l := by
  rcases Dominance.Equations.dominates_total (Dominance.rooted_fromEntry g)
    (hred.dominates_body hg hl hxl) (hred.dominates_body hg hm hxm) with hdom | hdom
  · exact .inr (hred.strictlyWithin_of_dominates hg hm hl hne.symm hxm hxl hdom)
  · exact .inl (hred.strictlyWithin_of_dominates hg hl hm hne hxl hxm hdom)

/-! ## Depth -/

include hg hred in
/-- The loops that a loop is within are the other ones that contain its header. -/
theorem Reducible.strictlyWithin_iff (hl : l ∈ g.loops) (hm : m ∈ g.loops) :
    l.StrictlyWithin m ↔ m.header ≠ l.header ∧ l.header ∈ m.body := by
  have hheader := (isLoop_of_mem hl).header_mem
  constructor
  · intro hwithin
    refine ⟨fun heq => ?_, hwithin.1 hheader⟩
    exact hwithin.2 (eq_of_header hm hl heq ▸ List.Subset.refl _)
  · rintro ⟨hne, hmem⟩
    refine hred.strictlyWithin_of_dominates hg hl hm hne.symm hheader hmem ?_
    exact hred.dominates_body hg hm hmem

include hg hred in
theorem Reducible.depth_eq (hl : l ∈ g.loops) :
    l.depth = g.loops.countP fun m => l.StrictlyWithin m := by
  rw [depth_of_mem hl]
  refine List.countP_congr fun m hm => ?_
  rw [decide_eq_true_iff, decide_eq_true_iff, hred.strictlyWithin_iff hg hl hm]

include hg hred in
/-- An inner loop is deeper. -/
theorem Reducible.depth_lt (hl : l ∈ g.loops) (hm : m ∈ g.loops) (h : l.StrictlyWithin m) :
    m.depth < l.depth := by
  rw [hred.depth_eq hg hl, hred.depth_eq hg hm]
  refine countP_lt (a := m) (fun n _ hn => ?_) hm ?_ (decide_eq_true h)
  · exact decide_eq_true (h.trans (of_decide_eq_true hn))
  · exact decide_eq_false fun hmm => hmm.2 hmm.1

theorem loopsContaining_perm (g : Graph) (b : BlockId) :
    (g.loopsContaining b).Perm (g.loops.filter fun l => b ∈ l.body) :=
  List.mergeSort_perm _ _

theorem pairwise_depth_loopsContaining (g : Graph) (b : BlockId) :
    (g.loopsContaining b).Pairwise fun l m => l.depth ≤ m.depth := by
  have htrans : ∀ l m n : Loop, decide (l.depth ≤ m.depth) = true →
      decide (m.depth ≤ n.depth) = true → decide (l.depth ≤ n.depth) = true := by
    intro l m n hlm hmn
    exact decide_eq_true (Nat.le_trans (of_decide_eq_true hlm) (of_decide_eq_true hmn))
  have htotal : ∀ l m : Loop,
      (decide (l.depth ≤ m.depth) || decide (m.depth ≤ l.depth)) = true := by
    intro l m
    simpa using Nat.le_total l.depth m.depth
  exact (List.pairwise_mergeSort htrans htotal _).imp of_decide_eq_true

include hg hred in
/-- The loops around a block stand with the outermost first. -/
theorem Reducible.pairwise_loopsContaining (b : BlockId) :
    (g.loopsContaining b).Pairwise fun l m => m.StrictlyWithin l := by
  have hmem : ∀ l ∈ g.loopsContaining b, l ∈ g.loops ∧ b ∈ l.body := by
    intro l hl
    simpa using (g.loopsContaining_perm b).mem_iff.mp hl
  have hdistinct : (g.loopsContaining b).Pairwise fun l m => l.header ≠ m.header := by
    refine ((g.loopsContaining_perm b).pairwise_iff Ne.symm).mpr ?_
    exact (List.pairwise_map.mp g.nodup_header_loops).filter _
  refine (hdistinct.and (g.pairwise_depth_loopsContaining b)).imp_of_mem fun hl hm h => ?_
  obtain ⟨hl, hbl⟩ := hmem _ hl
  obtain ⟨hm, hbm⟩ := hmem _ hm
  rcases hred.strictlyWithin_of_shared hg hl hm h.1 hbl hbm with hwithin | hwithin
  · have := hred.depth_lt hg hl hm hwithin
    omega
  · exact hwithin

end

/-- The loops of a validated function in which every header dominates the sources of its back
edges. Two of them have no block in common, or one is strictly within the other. The depth of a
loop is the number of loops that it is strictly within. Around a block, each loop that is listed
is strictly within the ones before it, and what is listed are the loops that contain the block. -/
theorem loops_nest {f : Function} (hf : f.Validated) (hred : (ofFunction f).Reducible) :
    let g := ofFunction f
    g.loops.Pairwise (fun l m => l.body.Disjoint m.body ∨ l.StrictlyWithin m ∨ m.StrictlyWithin l) ∧
      (∀ l ∈ g.loops, l.depth = g.loops.countP fun m => l.StrictlyWithin m) ∧
      ∀ b, (g.loopsContaining b).Perm (g.loops.filter fun l => b ∈ l.body) ∧
        (g.loopsContaining b).Pairwise fun l m => m.StrictlyWithin l := by
  intro g
  have hg : g.Whole := hf.whole
  refine ⟨?_, fun l hl => hred.depth_eq hg hl,
    fun b => ⟨g.loopsContaining_perm b, hred.pairwise_loopsContaining hg b⟩⟩
  have hdistinct : g.loops.Pairwise fun l m => l.header ≠ m.header :=
    List.pairwise_map.mp g.nodup_header_loops
  refine hdistinct.imp_of_mem fun {l m} hl hm hne => ?_
  by_cases hshared : ∃ x ∈ l.body, x ∈ m.body
  · obtain ⟨x, hxl, hxm⟩ := hshared
    exact .inr (hred.strictlyWithin_of_shared hg hl hm hne hxl hxm)
  · exact .inl fun x hxl hxm => hshared ⟨x, hxl, hxm⟩

/-- A loop with two back edges in a loop that begins at the entry, and a loop after them. -/
def nested : Function where
  name := "nested"
  returns := .void
  vars := [⟨"c", .int 32, .param⟩]
  blocks := .ofList
    [(0, ⟨[], .branch (.var 0) 1 3⟩),
      (1, ⟨[], .branch (.var 0) 1 2⟩),
      (2, ⟨[], .branch (.var 0) 1 0⟩),
      (3, ⟨[], .branch (.var 0) 3 4⟩),
      (4, ⟨[], .ret none⟩)]
  entry := 0
  nextBlock := 5

theorem validated_nested : nested.Validated :=
  ⟨⟨[nested], by decide⟩, ⟨[nested], by decide⟩, .standard, by cbv, List.mem_cons_self⟩

theorem loops_nest_nested :
    let g := ofFunction nested
    let outer : Loop := ⟨0, [0, 1, 2], [2], [0], 0⟩
    let inner : Loop := ⟨1, [1, 2], [1, 2], [2], 1⟩
    let last : Loop := ⟨3, [3], [3], [3], 0⟩
    nested.Validated ∧ g.Reducible ∧ g.loops = [inner, outer, last] ∧
      g.loopsContaining 2 = [outer, inner] ∧ inner.StrictlyWithin outer ∧
      1 = g.loops.countP (fun m => inner.StrictlyWithin m) ∧
      (outer.body.Disjoint last.body ∨ outer.StrictlyWithin last ∨ last.StrictlyWithin outer) := by
  intro g outer inner last
  have hloops : g.loops = [inner, outer, last] := by decide_cbv
  have haround : g.loopsContaining 2 = [outer, inner] := by decide_cbv
  have hred : g.Reducible := by
    have hdom : (g.loops.all fun l =>
        l.tails.all fun t => (Dominance.ofGraph g).dominates l.header t) = true := by decide_cbv
    intro l hl t ht
    exact List.all_eq_true.mp (List.all_eq_true.mp hdom l hl) t ht
  obtain ⟨hpairwise, hdepth, hcontaining⟩ := loops_nest validated_nested hred
  have hnested := (hcontaining 2).2
  rw [haround] at hnested
  rw [hloops] at hpairwise
  refine ⟨validated_nested, hred, hloops, haround, ?_, ?_, ?_⟩
  · exact (List.pairwise_cons.mp hnested).1 inner List.mem_cons_self
  · exact hdepth inner (hloops ▸ List.mem_cons_self)
  · exact (List.pairwise_cons.mp (List.pairwise_cons.mp hpairwise).2).1 last List.mem_cons_self

end Graph

end TaintAnalysis
