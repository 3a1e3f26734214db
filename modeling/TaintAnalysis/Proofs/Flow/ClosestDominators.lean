import TaintAnalysis.Proofs.Flow.PostDominance

/-!
# The forest of closest dominators

`parent?` looks for the dominator with most dominators of its own. What strictly
dominates a block is a chain, and along a chain the number of dominators grows
(`height_lt`), so the one with most of them is the last of the chain: every other one
dominates it. Two of them never tie, and the numbers of the blocks play no part.

Going up from a block by closest dominators therefore meets everything that dominates
it, one after the other. The argument needs nothing but trails, and so it holds for
dominance from the entry and for dominance of the ways to the end, where it gives a
forest with as many roots as there are blocks that no other one dominates.
-/

namespace TaintAnalysis.Dominance

variable {dom : Dominance} {a b c m : BlockId}

/-- One block dominates another one, and is not the same. -/
def StrictlyDominates (dom : Dominance) (a b : BlockId) : Prop :=
  dom.dominates a b = true ∧ a ≠ b

/-- The closest dominators of the blocks make up a forest in which what is above a block is what
dominates it. -/
structure IsForest (dom : Dominance) (blocks : List BlockId) : Prop where
  /-- What strictly dominates a block is totally ordered by dominance. -/
  chain : ∀ b, IsLinearOrder {a // dom.StrictlyDominates a b} fun a c => dom.dominates a c = true
  /-- Every other strict dominator of a block dominates the closest one. -/
  closest : ∀ a b, dom.parent? b = some a ↔
    dom.StrictlyDominates a b ∧ ∀ c, dom.StrictlyDominates c b → c ≠ a → dom.dominates c a = true
  /-- Only a block without strict dominators has no closest one. -/
  root : ∀ b, dom.parent? b = none ↔ ∀ a, ¬ dom.StrictlyDominates a b
  /-- The children of a block are those whose closest dominator it is. -/
  mem_children : ∀ b c, c ∈ dom.children b ↔ dom.parent? c = some b
  /-- The children of a block are in ascending order, each once. -/
  sorted : ∀ b, (dom.children b).Pairwise (· < ·)
  /-- What dominates a block is met by going up from it. -/
  ancestor : ∀ b ∈ blocks, ∀ a, dom.dominates a b = true ↔
    Relation.ReflTransGen (fun x y => dom.parent? x = some y) b a

/-! ## The dominator with most dominators -/

/-- The block with more dominators, of the best one so far and the next. -/
def deeper (dom : Dominance) (best : Option BlockId) (x : BlockId) : Option BlockId :=
  match best with
  | some y => if dom.below y x then some x else some y
  | none => some x

theorem parent?_eq (dom : Dominance) (b : BlockId) :
    dom.parent? b = (((dom.dominators? b).getD []).filter (· ≠ b)).foldl dom.deeper none :=
  rfl

theorem mem_strict_iff :
    a ∈ ((dom.dominators? b).getD []).filter (· ≠ b) ↔ dom.StrictlyDominates a b := by
  rw [List.mem_filter, decide_eq_true_eq, StrictlyDominates]
  refine and_congr_left fun _ => ?_
  rw [Equations.dominates_eq_true_iff]
  cases h : dom.dominators? b with
  | none => exact iff_of_false List.not_mem_nil fun ⟨_, hset, _⟩ => nomatch h.symm.trans hset
  | some set => exact (mem_dominators_iff h).trans Equations.dominates_eq_true_iff

theorem height_le_of_not_below (h : ¬ dom.below a b = true) : dom.height b ≤ dom.height a := by
  rw [below, Bool.or_eq_true, not_or, decide_eq_true_eq] at h
  exact Nat.not_lt.mp h.1

theorem height_le_of_below (h : dom.below a b = true) : dom.height a ≤ dom.height b := by
  rw [below, Bool.or_eq_true, Bool.and_eq_true, decide_eq_true_eq, decide_eq_true_eq] at h
  exact h.elim Nat.le_of_lt fun h => h.1.le

/-- The fold keeps a block that has as many dominators as any. -/
theorem foldl_deeper (dom : Dominance) (l : List BlockId) (m : BlockId) :
    ∃ r ∈ m :: l, l.foldl dom.deeper (some m) = some r ∧
      ∀ x ∈ m :: l, dom.height x ≤ dom.height r := by
  induction l generalizing m with
  | nil =>
      refine ⟨m, List.mem_cons_self, rfl, fun x hx => ?_⟩
      rw [List.mem_singleton.mp hx]
  | cons y rest ih =>
      rw [List.foldl_cons, deeper]
      -- the loser of the comparison has no more dominators than the winner
      have hstep : ∀ w ∈ [m, y], dom.height m ≤ dom.height w → dom.height y ≤ dom.height w →
          ∃ r ∈ m :: y :: rest, rest.foldl dom.deeper (some w) = some r ∧
            ∀ x ∈ m :: y :: rest, dom.height x ≤ dom.height r := by
        intro w hw hm hy
        obtain ⟨r, hr, heq, hmax⟩ := ih w
        have hle := hmax w List.mem_cons_self
        refine ⟨r, ?_, heq, fun x hx => ?_⟩
        · rcases List.mem_cons.mp hr with rfl | hr
          · exact List.mem_append_left rest hw
          · exact List.mem_append_right [m, y] hr
        · rcases List.mem_cons.mp hx with rfl | hx
          · exact hm.trans hle
          rcases List.mem_cons.mp hx with rfl | hx
          · exact hy.trans hle
          · exact hmax x (List.mem_cons_of_mem w hx)
      split
      · next hbelow => exact hstep y (by simp) (height_le_of_below hbelow) (Nat.le_refl _)
      · next hbelow => exact hstep m (by simp) (Nat.le_refl _) (height_le_of_not_below hbelow)

theorem parent?_eq_none_iff : dom.parent? b = none ↔ ∀ a, ¬ dom.StrictlyDominates a b := by
  simp only [← mem_strict_iff, parent?_eq]
  cases ((dom.dominators? b).getD []).filter (· ≠ b) with
  | nil => exact iff_of_true rfl fun a => List.not_mem_nil
  | cons m rest =>
      obtain ⟨r, -, heq, -⟩ := dom.foldl_deeper rest m
      rw [List.foldl_cons, deeper, heq]
      exact iff_of_false (Option.some_ne_none r) fun h => h m List.mem_cons_self

theorem height_le_parent (h : dom.parent? b = some m) :
    dom.StrictlyDominates m b ∧ ∀ c, dom.StrictlyDominates c b → dom.height c ≤ dom.height m := by
  simp only [← mem_strict_iff]
  rw [parent?_eq] at h
  cases hstrict : ((dom.dominators? b).getD []).filter (· ≠ b) with
  | nil => exact nomatch (hstrict ▸ h : List.foldl dom.deeper none [] = some m)
  | cons x rest =>
      obtain ⟨r, hr, heq, hmax⟩ := dom.foldl_deeper rest x
      rw [hstrict, List.foldl_cons, deeper, heq] at h
      obtain rfl := Option.some.inj h
      exact ⟨hr, hmax⟩

theorem mem_children_iff : c ∈ dom.children b ↔ dom.parent? c = some b := by
  rw [children, BlockId.mem_ascending, List.mem_filter, decide_eq_true_eq, and_iff_right_iff_imp]
  intro hparent
  obtain ⟨set, hset, -⟩ := Equations.dominates_eq_true_iff.mp (height_le_parent hparent).1.1
  exact OrderedMap.mem_keys_iff_exists.mpr ⟨set, hset⟩

/-! ## The forest -/

namespace Equations

variable {e : Equations}

theorem isLinearOrder_strict (he : e.Rooted) (b : BlockId) :
    IsLinearOrder {a // e.solve.StrictlyDominates a b}
      fun a c => e.solve.dominates a c = true where
  refl a := dominates_self (mem_blocks_of_dominates_left a.2.1)
  trans _ _ _ h h' := dominates_trans he h h'
  antisymm _ _ h h' := Subtype.ext (dominates_antisymm he h h')
  total a c := dominates_total he a.2.1 c.2.1

theorem parent?_eq_some_iff (he : e.Rooted) : e.solve.parent? b = some a ↔
    e.solve.StrictlyDominates a b ∧
      ∀ c, e.solve.StrictlyDominates c b → c ≠ a → e.solve.dominates c a = true := by
  have hclosest {m : BlockId} (hm : e.solve.parent? b = some m) :
      e.solve.StrictlyDominates m b ∧
        ∀ c, e.solve.StrictlyDominates c b → c ≠ m → e.solve.dominates c m = true := by
    obtain ⟨hstrict, hmax⟩ := height_le_parent hm
    refine ⟨hstrict, fun c hc hne => ?_⟩
    refine (dominates_total he hc.1 hstrict.1).resolve_right fun hmc => ?_
    exact Nat.not_lt.mpr (hmax c hc) (height_lt he hmc hne.symm)
  refine ⟨hclosest, fun ⟨hstrict, hall⟩ => ?_⟩
  cases hm : e.solve.parent? b with
  | none => exact absurd hstrict (parent?_eq_none_iff.mp hm a)
  | some m =>
      obtain ⟨hstrict', hall'⟩ := hclosest hm
      by_contra hne
      have hne : m ≠ a := fun h => hne (congrArg some h)
      exact hne (dominates_antisymm he (hall m hstrict' hne) (hall' a hstrict hne.symm))

theorem dominates_iff_ancestor (he : e.Rooted) (hb : b ∈ e.blocks) :
    e.solve.dominates a b = true ↔
      Relation.ReflTransGen (fun x y => e.solve.parent? x = some y) b a := by
  constructor
  · intro h
    clear hb
    induction hn : e.solve.height b using Nat.strongRecOn generalizing b with
    | ind n ih =>
        by_cases hab : a = b
        · exact hab ▸ .refl
        cases hm : e.solve.parent? b with
        | none => exact absurd ⟨h, hab⟩ (parent?_eq_none_iff.mp hm a)
        | some m =>
            obtain ⟨⟨hmb, hne⟩, hall⟩ := (parent?_eq_some_iff he).mp hm
            have ham : e.solve.dominates a m = true := by
              by_cases ham : a = m
              · exact ham ▸ dominates_self (mem_blocks_of_dominates_left h)
              · exact hall a ⟨h, hab⟩ ham
            exact (ih _ (hn ▸ height_lt he hmb hne) ham rfl).head hm
  · intro h
    induction h with
    | refl => exact dominates_self hb
    | tail _ hparent ih => exact dominates_trans he ((parent?_eq_some_iff he).mp hparent).1.1 ih

theorem isForest_solve (he : e.Rooted) : e.solve.IsForest e.blocks where
  chain := isLinearOrder_strict he
  closest := fun _ _ => parent?_eq_some_iff he
  root := fun _ => parent?_eq_none_iff
  mem_children := fun _ _ => mem_children_iff
  sorted := fun _ => BlockId.pairwise_ascending _
  ancestor := fun _ hb _ => dominates_iff_ancestor he hb

end Equations

theorem IsForest.restrict {blocks blocks' : List BlockId} (h : dom.IsForest blocks)
    (hblocks : blocks' ⊆ blocks) : dom.IsForest blocks' :=
  { h with ancestor := fun b hb => h.ancestor b (hblocks hb) }

/-! ## The roots -/

variable {g : Graph}

/-- The entry is the only root of dominance from the entry. -/
theorem parent?_ofGraph_eq_none_iff (hb : g.Reaches g.entry b) :
    (ofGraph g).parent? b = none ↔ b = g.entry := by
  rw [parent?_eq_none_iff]
  constructor
  · intro hnone
    have hentry : (ofGraph g).dominates g.entry b = true :=
      (dominates_iff_ways hb).mpr fun way hway => hway.first_mem
    by_contra hne
    exact hnone g.entry ⟨hentry, fun h => hne h.symm⟩
  · rintro rfl a ⟨hdom, hne⟩
    exact hne (List.mem_singleton.mp ((dominates_iff_ways hb).mp hdom _ (.here g.entry)))

/-- The roots of dominance of the ways to the end: a final block, and a block from which the ways to
the end do not share another one. -/
theorem parent?_postOfGraph_eq_none_iff (hg : g.Whole) (hb : b ∈ g.blocks) :
    (postOfGraph g).parent? b = none ↔
      g.IsFinal b ∨ ∀ d, d ≠ b → ∃ z way, g.IsFinal z ∧ g.Way b z way ∧ d ∉ way := by
  rw [parent?_eq_none_iff]
  constructor
  · intro hnone
    refine .inr fun d hd => ?_
    have hways := mt (postDominates_iff_ways hg hb (d := d)).mpr fun hdom => hnone d ⟨hdom, hd⟩
    push Not at hways
    exact hways
  · intro h a hstrict
    obtain ⟨hdom, hne⟩ := hstrict
    have hways := (postDominates_iff_ways hg hb).mp hdom
    rcases h with hfinal | hshare
    · exact hne (List.mem_singleton.mp (hways b _ hfinal (.here b)))
    · obtain ⟨z, way, hz, hway, ha⟩ := hshare a hne
      exact ha (hways z way hz hway)

/-- The closest dominators in a validated function make up a forest, for dominance from the entry as
for dominance of the ways to the end. The root of the first is the entry. The roots of the second
are the blocks that return, those from which no return is reached, and those from which the ways to
the end share no later block. -/
theorem closest_dominators_exact {f : Function} (hf : f.Validated) :
    let g := Graph.ofFunction f
    (ofGraph g).IsForest g.blocks ∧ (postOfGraph g).IsForest g.blocks ∧
    (∀ b ∈ g.blocks, (ofGraph g).parent? b = none ↔ b = f.entry) ∧
    ∀ b ∈ g.blocks, (postOfGraph g).parent? b = none ↔
      (b ∈ g.exits ∨ (∀ e ∈ g.exits, ¬ g.Reaches b e) ∨
        ∀ d, d ≠ b → ∃ z way, g.IsFinal z ∧ g.Way b z way ∧ d ∉ way) := by
  intro g
  have hg : g.Whole := hf.whole
  refine ⟨?_, ?_, fun b hb => ?_, fun b hb => ?_⟩
  · exact (Equations.isForest_solve (rooted_fromEntry g)).restrict fun b => (hg.reached b).mpr
  · exact (Equations.isForest_solve (rooted_toEnd hg)).restrict fun b => (mem_blocks_toEnd hg).mpr
  · exact parent?_ofGraph_eq_none_iff (Graph.mem_reversePostorder_iff.mp ((hg.reached b).mpr hb))
  · rw [parent?_postOfGraph_eq_none_iff hg hb, Graph.IsFinal, or_assoc]

/-- The ways to the end have three roots here: one block returns, one runs forever, and the entry
leads to both, so that there are ways from it that do not meet. -/
theorem closest_dominators_exact_guarded :
    let g := Graph.ofFunction ControlDependence.guarded
    ControlDependence.guarded.Validated ∧
      (ofGraph g).children 0 = [1, 4] ∧ (ofGraph g).dominates 0 3 = true ∧
      (postOfGraph g).children 3 = [1] ∧ (postOfGraph g).dominates 3 2 = true ∧
      [0, 3, 4].map (postOfGraph g).parent? = [none, none, none] ∧
      ∃ z way, g.IsFinal z ∧ g.Way 0 z way ∧ 1 ∉ way := by
  intro g
  obtain ⟨hdom, hpost, -, hroots⟩ := closest_dominators_exact ControlDependence.validated_guarded
  have hchildren : (ofGraph g).children 0 = [1, 4] ∧ (ofGraph g).children 1 = [2, 3] := by
    decide_cbv
  have hpostChildren : (postOfGraph g).children 3 = [1] ∧ (postOfGraph g).children 1 = [2] := by
    decide_cbv
  have hnone : [0, 3, 4].map (postOfGraph g).parent? = [none, none, none] := by decide_cbv
  refine ⟨ControlDependence.validated_guarded, hchildren.1, ?_, hpostChildren.1, ?_, hnone, ?_⟩
  · have hone := (hdom.mem_children 0 1).mp (hchildren.1 ▸ by decide)
    have hthree := (hdom.mem_children 1 3).mp (hchildren.2 ▸ by decide)
    exact (hdom.ancestor 3 (by decide) 0).mpr (.head hthree (.single hone))
  · have hone := (hpost.mem_children 3 1).mp (hpostChildren.1 ▸ by decide)
    have htwo := (hpost.mem_children 1 2).mp (hpostChildren.2 ▸ by decide)
    exact (hpost.ancestor 2 (by decide) 3).mpr (.head htwo (.single hone))
  · have hentry : (postOfGraph g).parent? 0 = none := (List.cons.inj hnone).1
    have hreturns : g.Way 0 3 [0, 1, 3] :=
      .step (y := 1) (by decide) (.step (y := 3) (by decide) (.here 3))
    rcases (hroots 0 (by decide)).mp hentry with hexit | hnever | hshare
    · exact absurd hexit (by decide)
    · exact absurd hreturns.reaches (hnever 3 (by decide))
    · exact hshare 1 (by decide)

end TaintAnalysis.Dominance
