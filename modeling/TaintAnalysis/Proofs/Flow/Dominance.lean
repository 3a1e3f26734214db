import Mathlib.Algebra.Order.BigOperators.Group.List
import Mathlib.Algebra.Order.Ring.Nat
import TaintAnalysis.Flow.Dominance
import TaintAnalysis.Proofs.Flow.Reachability

/-!
# Dominance solves its equations

The candidates for the dominators of a block only ever become fewer: the first
application of the equations can only remove some, and applying them is
monotone. A round that does not make the total smaller has therefore removed
nothing, so what `settle` returns is a solution (`step_settle`).

`dominates_iff` is what the equations say about the solution. For the ways to
the end of a function they are read in two directions. What post-dominates a
block other than itself post-dominates each of its successors, so every
execution that goes on to a return passes through it; and what post-dominates
all successors of a block post-dominates the block.
-/

namespace TaintAnalysis.Dominance

namespace Equations

variable {e : Equations} {c : Candidates} {f f' : BlockId → List BlockId} {b d : BlockId}

/-- What the equations leave of the candidates for the dominators of a block. -/
def refined (e : Equations) (c : Candidates) (b : BlockId) : List BlockId :=
  if b ∈ e.roots then [b] else e.blocks.filter fun d => d = b ∨ d ∈ e.common c b

theorem step_eq (e : Equations) (c : Candidates) : e.step c = e.tabulate (e.refined c) :=
  rfl

theorem get?_tabulate (e : Equations) (f : BlockId → List BlockId) (b : BlockId) :
    (e.tabulate f).get? b = if b ∈ e.blocks then some (f b) else none :=
  OrderedMap.get?_ofList_map f e.blocks b

theorem tabulate_congr (h : ∀ b ∈ e.blocks, f b = f' b) : e.tabulate f = e.tabulate f' := by
  rw [tabulate, tabulate, List.map_congr_left fun b hb => by rw [h b hb]]

theorem mem_common : d ∈ e.common c b ↔
    (∃ s ∈ e.sources b, ∃ set, c.get? s = some set) ∧
      ∀ s ∈ e.sources b, ∀ set, c.get? s = some set → d ∈ set := by
  have hsets : ∀ set, set ∈ (e.sources b).filterMap c.get? ↔
      ∃ s ∈ e.sources b, c.get? s = some set := fun set => List.mem_filterMap
  have hall : (∀ s ∈ e.sources b, ∀ set, c.get? s = some set → d ∈ set) ↔
      ∀ set ∈ (e.sources b).filterMap c.get?, d ∈ set := by
    refine ⟨fun h set hset => ?_, fun h s hs set hset => h set ((hsets set).mpr ⟨s, hs, hset⟩)⟩
    obtain ⟨s, hs, hset⟩ := (hsets set).mp hset
    exact h s hs set hset
  have hsome : (∃ s ∈ e.sources b, ∃ set, c.get? s = some set) ↔
      (e.sources b).filterMap c.get? ≠ [] := by
    constructor
    · intro hex
      obtain ⟨s, hs, set, hset⟩ := hex
      exact List.ne_nil_of_mem ((hsets set).mpr ⟨s, hs, hset⟩)
    · intro hne
      obtain ⟨set, hset⟩ := List.exists_mem_of_ne_nil _ hne
      obtain ⟨s, hs, hset⟩ := (hsets set).mp hset
      exact ⟨s, hs, set, hset⟩
  rw [hall, hsome, common]
  cases (e.sources b).filterMap c.get? with
  | nil => simp only [List.not_mem_nil, ne_eq, not_true_eq_false, false_and]
  | cons first rest =>
      simp only [List.mem_filter, List.all_eq_true, decide_eq_true_eq, ne_eq, reduceCtorEq,
        not_false_eq_true, List.forall_mem_cons, true_and]

theorem common_mono (h : ∀ b, ∀ d ∈ f' b, d ∈ f b) :
    ∀ d ∈ e.common (e.tabulate f') b, d ∈ e.common (e.tabulate f) b := by
  intro d hd
  obtain ⟨⟨s, hs, set, hset⟩, hall⟩ := mem_common.mp hd
  rw [get?_tabulate] at hset
  have hsome : s ∈ e.blocks := by
    by_contra hno
    rw [if_neg hno] at hset
    exact nomatch hset
  refine mem_common.mpr ⟨⟨s, hs, f s, by rw [get?_tabulate, if_pos hsome]⟩, ?_⟩
  intro x hx set' hset'
  rw [get?_tabulate] at hset'
  split at hset'
  · next hmem =>
    obtain rfl := Option.some.inj hset'
    exact h x d (hall x hx _ (by rw [get?_tabulate, if_pos hmem]))
  · exact nomatch hset'

theorem refined_mono (h : ∀ b, ∀ d ∈ f' b, d ∈ f b) :
    ∀ d ∈ e.refined (e.tabulate f') b, d ∈ e.refined (e.tabulate f) b := by
  intro d hd
  rw [refined] at hd ⊢
  split
  · next hroot => rwa [if_pos hroot] at hd
  · next hroot =>
    rw [if_neg hroot, List.mem_filter, decide_eq_true_eq] at hd
    rw [List.mem_filter, decide_eq_true_eq]
    exact ⟨hd.1, hd.2.imp_right (common_mono h d)⟩

/-! ## The rounds -/

/-- The candidates of a round: they are listed in the order of the blocks, and the
equations only remove some of them. -/
structure Round (e : Equations) (f : BlockId → List BlockId) : Prop where
  listed : ∀ b, f b = if b ∈ e.roots then [b] else e.blocks.filter (· ∈ f b)
  shrinks : ∀ b, ∀ d ∈ e.refined (e.tabulate f) b, d ∈ f b

theorem Round.next (h : Round e f) : Round e (e.refined (e.tabulate f)) where
  listed := by
    intro b
    rw [refined]
    split
    · rfl
    · refine List.filter_congr fun d hd => decide_eq_decide.mpr ?_
      rw [List.mem_filter, decide_eq_true_eq, and_iff_right hd]
  shrinks := fun _ => refined_mono h.shrinks

theorem round_start (e : Equations) :
    Round e fun b => if b ∈ e.roots then [b] else e.blocks where
  listed := by
    intro b
    split
    · rfl
    · exact (List.filter_eq_self.mpr fun d hd => decide_eq_true hd).symm
  shrinks := by
    intro b d hd
    rw [refined] at hd
    split
    · next hroot => rwa [if_pos hroot] at hd
    · next hroot =>
      rw [if_neg hroot] at hd
      exact (List.mem_filter.mp hd).1

/-- A round that has no more than another one lists it in the same order. -/
theorem Round.sublist (h : Round e f) (h' : Round e f') (hsub : ∀ b, ∀ d ∈ f' b, d ∈ f b)
    (b : BlockId) : (f' b).Sublist (f b) := by
  rw [h'.listed b, h.listed b]
  split
  · exact List.Sublist.refl _
  · refine List.monotone_filter_right _ ?_
    intro d hd
    exact decide_eq_true (hsub b d (of_decide_eq_true hd))

theorem total_tabulate (e : Equations) (f g : BlockId → List BlockId) :
    total (e.tabulate f) = ((e.tabulate g).keys.map fun b => (f b).length).sum := by
  have hkeys : (e.tabulate f).keys = (e.tabulate g).keys :=
    OrderedMap.keys_foldl_insert_congr f g e.blocks rfl
  have hsum : total (e.tabulate f) = ((e.tabulate f).values.map List.length).sum := by
    rw [total, OrderedMap.weight, List.sum_eq_foldr, List.foldr_map]
  rw [hsum, ← hkeys, OrderedMap.values, OrderedMap.keys, List.map_map, List.map_map]
  refine congrArg List.sum (List.map_congr_left fun entry hentry => ?_)
  have hget := OrderedMap.get?_eq_some_iff.mpr hentry
  rw [get?_tabulate] at hget
  split at hget
  · rw [Function.comp_apply, Function.comp_apply, ← Option.some.inj hget]
  · exact absurd hget.symm (Option.some_ne_none _)

/-- Candidates of which some have been removed are fewer. -/
theorem total_lt (hsub : ∀ b, (f' b).Sublist (f b)) (hne : e.tabulate f' ≠ e.tabulate f) :
    total (e.tabulate f') < total (e.tabulate f) := by
  obtain ⟨b, hb, hchanged⟩ : ∃ b ∈ e.blocks, f' b ≠ f b := by
    by_contra hnone
    push Not at hnone
    exact hne (tabulate_congr hnone)
  rw [total_tabulate e f' f, total_tabulate e f f]
  refine List.sum_lt_sum _ _ (fun x _ => (hsub x).length_le) ⟨b, ?_, ?_⟩
  · exact OrderedMap.mem_keys_iff_exists.mpr ⟨f b, by rw [get?_tabulate, if_pos hb]⟩
  · exact Nat.lt_of_le_of_ne (hsub b).length_le fun hlen => hchanged ((hsub b).eq_of_length hlen)

/-- A round that does not make the total smaller removes nothing. -/
theorem Round.settled (h : Round e f)
    (htotal : ¬ total (e.step (e.tabulate f)) < total (e.tabulate f)) :
    e.step (e.tabulate f) = e.tabulate f := by
  by_contra hne
  exact htotal (total_lt (h.sublist h.next h.shrinks) hne)

theorem Round.step_settle (h : Round e f) :
    e.step (e.settle (e.tabulate f)) = e.settle (e.tabulate f) := by
  induction hn : total (e.tabulate f) using Nat.strongRecOn generalizing f with
  | ind n ih =>
      rw [settle]
      split
      · next hless => exact ih _ (hn ▸ hless) h.next rfl
      · next hless => rw [h.settled hless, h.settled hless]

/-- What `settle` returns solves the equations. -/
theorem step_settle (e : Equations) : e.step (e.settle e.start) = e.settle e.start :=
  (round_start e).step_settle

/-! ## What the solution says -/

theorem dominates_eq_true_iff {dom : Dominance} :
    dom.dominates d b = true ↔ ∃ set, dom.sets.get? b = some set ∧ d ∈ set := by
  rw [dominates, Option.any_eq_true]
  simp only [decide_eq_true_eq]
  rfl

theorem get?_solve (hb : b ∈ e.blocks) :
    e.solve.sets.get? b = some (e.refined e.solve.sets b) := by
  show (e.settle e.start).get? b = _
  have hget : (e.step (e.settle e.start)).get? b = some (e.refined (e.settle e.start) b) := by
    rw [step_eq, get?_tabulate, if_pos hb]
  rw [step_settle] at hget
  exact hget

theorem mem_blocks_of_get?_solve {set : List BlockId} (h : e.solve.sets.get? b = some set) :
    b ∈ e.blocks := by
  by_contra hno
  have : (e.settle e.start).get? b = none := by
    rw [← step_settle, step_eq, get?_tabulate, if_neg hno]
  exact nomatch h.symm.trans this

/-- The equations, read off their solution. -/
theorem dominates_iff (hb : b ∈ e.blocks) : e.solve.dominates d b = true ↔
    if b ∈ e.roots then d = b
    else d ∈ e.blocks ∧ (d = b ∨ (∃ s ∈ e.sources b, s ∈ e.blocks) ∧
      ∀ s ∈ e.sources b, s ∈ e.blocks → e.solve.dominates d s = true) := by
  rw [dominates_eq_true_iff, get?_solve hb]
  simp only [Option.some.injEq, exists_eq_left']
  rw [refined]
  split
  · exact List.mem_singleton
  · rw [List.mem_filter, decide_eq_true_eq, mem_common]
    refine and_congr_right fun _ => or_congr_right (and_congr ?_ ?_)
    · refine exists_congr fun s => and_congr_right ?_
      intro _
      exact ⟨fun ⟨set, hset⟩ => mem_blocks_of_get?_solve hset, fun hs => ⟨_, get?_solve hs⟩⟩
    · refine forall₂_congr fun s _ => ⟨fun h hs => ?_, fun h set hset => ?_⟩
      · exact dominates_eq_true_iff.mpr ⟨_, get?_solve hs, h _ (get?_solve hs)⟩
      · obtain ⟨set', hset', hd⟩ := dominates_eq_true_iff.mp (h (mem_blocks_of_get?_solve hset))
        obtain rfl := Option.some.inj (hset.symm.trans hset')
        exact hd

theorem mem_blocks_of_dominates (h : e.solve.dominates d b = true) : b ∈ e.blocks := by
  obtain ⟨set, hset, -⟩ := dominates_eq_true_iff.mp h
  exact mem_blocks_of_get?_solve hset

end Equations

/-! ## The ways to the end -/

variable {g : Graph} {b d s : BlockId}

theorem mem_finalBlocks_iff :
    b ∈ finalBlocks g ↔ b ∈ g.blocks ∧ (b ∈ g.exits ∨ b ∉ g.reachingExit) := by
  rw [finalBlocks, List.mem_filter, decide_eq_true_eq]

/-- A block that goes on to an exit is not final. -/
theorem not_mem_finalBlocks (hexits : ∀ b ∈ g.exits, b ∈ g.blocks) (hb : b ∉ g.exits)
    (hs : s ∈ g.successors b) (hreach : s ∈ g.reachingExit) : b ∉ finalBlocks g := fun hfinal =>
  (mem_finalBlocks_iff.mp hfinal).2.elim hb fun hno =>
    hno (Graph.mem_reachingExit_of_successor hexits hreach hs)

theorem postDominates_self (hb : b ∈ g.reversePostorder) :
    (postOfGraph g).dominates b b = true := by
  refine (Equations.dominates_iff (List.mem_reverse.mpr hb)).mpr ?_
  split
  · rfl
  · exact ⟨List.mem_reverse.mpr hb, .inl rfl⟩

/-- Only the block itself post-dominates a final block. -/
theorem eq_of_postDominates_final (hb : b ∈ finalBlocks g)
    (h : (postOfGraph g).dominates d b = true) : d = b := by
  have hblock := Equations.mem_blocks_of_dominates h
  exact (if_pos hb).mp ((Equations.dominates_iff hblock).mp h)

/-- Another block that post-dominates a block also post-dominates its successors. -/
theorem postDominates_successor (h : (postOfGraph g).dominates d b = true) (hne : d ≠ b)
    (hs : s ∈ g.successors b) : (postOfGraph g).dominates d s = true := by
  have hblock := Equations.mem_blocks_of_dominates h
  have hiff := (Equations.dominates_iff hblock).mp h
  split at hiff
  · exact absurd hiff hne
  · exact (hiff.2.resolve_left hne).2 s hs (List.mem_reverse.mpr
      (Graph.successor_mem_reversePostorder (List.mem_reverse.mp hblock) hs))

/-- What post-dominates all successors of a block post-dominates the block. -/
theorem postDominates_of_successors (hb : b ∈ g.reversePostorder) (hfinal : b ∉ finalBlocks g)
    (hs : s ∈ g.successors b)
    (h : ∀ s ∈ g.successors b, (postOfGraph g).dominates d s = true) :
    (postOfGraph g).dominates d b = true := by
  have hblock : s ∈ g.reversePostorder.reverse :=
    List.mem_reverse.mpr (Graph.successor_mem_reversePostorder hb hs)
  refine (Equations.dominates_iff (List.mem_reverse.mpr hb)).mpr ?_
  rw [if_neg hfinal]
  refine ⟨?_, .inr ⟨⟨s, hs, hblock⟩, fun x hx _ => h x hx⟩⟩
  have hdom := (Equations.dominates_iff hblock).mp (h s hs)
  split at hdom
  · exact hdom ▸ hblock
  · exact hdom.1

end TaintAnalysis.Dominance
