import TaintAnalysis.Proofs.Memory.FactOrder
import TaintAnalysis.Proofs.Memory.Folding

/-!
# Paths under coarser settings

The pointer facts that are found under coarser settings cover the others if each target is covered
by a target, and each cell with what it holds by a cell with what it holds. Then a path leads to
locations that cover those it leads to otherwise (`follow_covered`, `resolve_covered`,
`exprTargets_covered`), as long as its steps do the same thing under both settings
(`FollowedAlike`). There are four ways in which they might not:

* a pointer is followed about which nothing is known under the one settings, but something is
  known under the others, so that it leads there instead of to unknown memory or to the object of
  a parameter (`UntoldAlike`);
* an index is applied to a location that holds a pointer, while the path that covers it is cut off
  before and holds none, or the other way round (`IndexedAlike`);
* an index or an offset leads out of the array, and so to unknown memory, but it stays inside of
  what covers the array;
* an offset counts from a numbered element that stands for longer paths (`OffsetAlike`).
-/

namespace TaintAnalysis

/-- Each location of the second list is covered by one of the first. -/
def Layout.CoversAll (z : Layout) (ls' ls : List Location) : Prop :=
  ∀ l ∈ ls, ∃ l' ∈ ls', z.Covers l' l

/-- Each location of the second list that is covered by one of the first at all is covered by one
that is related to it. -/
def Layout.Matches (z : Layout) (ls' ls : List Location) (r : Location → Location → Prop) : Prop :=
  ∀ l ∈ ls, (∃ l' ∈ ls', z.Covers l' l) → ∃ l' ∈ ls', z.Covers l' l ∧ r l' l

namespace Layout.CoversAll

variable {z : Layout} {ls' ls ks ks' : List Location} {l l' : Location}
  {r : Location → Location → Prop}

theorem nil (z : Layout) (ls' : List Location) : z.CoversAll ls' [] := by
  simp [CoversAll]

theorem singleton (h : z.Covers l' l) : z.CoversAll [l'] [l] := by
  simp [CoversAll, h]

theorem append (h : z.CoversAll ls' ls) (h' : z.CoversAll ks' ks) :
    z.CoversAll (ls' ++ ks') (ls ++ ks) := by
  intro l hl
  rcases List.mem_append.mp hl with hl | hl
  · obtain ⟨l', hl', hcovers⟩ := h l hl
    exact ⟨l', List.mem_append_left _ hl', hcovers⟩
  · obtain ⟨l', hl', hcovers⟩ := h' l hl
    exact ⟨l', List.mem_append_right _ hl', hcovers⟩

theorem related (h : z.CoversAll ls' ls) (hr : z.Matches ls' ls r) :
    ∀ l ∈ ls, ∃ l' ∈ ls', z.Covers l' l ∧ r l' l :=
  fun l hl => hr l hl (h l hl)

theorem map {f g : Location → Location} (h : ∀ l ∈ ls, ∃ l' ∈ ls', r l' l)
    (hfg : ∀ l l', r l' l → z.Covers (g l') (f l)) : z.CoversAll (ls'.map g) (ls.map f) := by
  intro t ht
  obtain ⟨l, hl, rfl⟩ := List.mem_map.mp ht
  obtain ⟨l', hl', hr⟩ := h l hl
  exact ⟨g l', List.mem_map.mpr ⟨l', hl', rfl⟩, hfg l l' hr⟩

theorem flatMap {f g : Location → List Location} (h : ∀ l ∈ ls, ∃ l' ∈ ls', r l' l)
    (hfg : ∀ l l', r l' l → z.CoversAll (g l') (f l)) :
    z.CoversAll (ls'.flatMap g) (ls.flatMap f) := by
  intro t ht
  obtain ⟨l, hl, ht⟩ := List.mem_flatMap.mp ht
  obtain ⟨l', hl', hr⟩ := h l hl
  obtain ⟨t', ht', hcovers⟩ := hfg l l' hr t ht
  exact ⟨t', List.mem_flatMap.mpr ⟨l', hl', ht'⟩, hcovers⟩

end Layout.CoversAll

namespace PathFacts

variable {m n : PathFacts} {l l' t t' : Location} {v : VarId} {i : Option Int}

/-! ## Facts that cover others -/

/-- The second facts are found under coarser settings, and cover the first ones. -/
structure CoveredBy (m n : PathFacts) : Prop where
  refines : m.layout.Refines n.layout
  vars : ∀ v, n.layout.CoversAll (n.vars v) (m.vars v)
  held : ∀ l t, m.Held l t → ∃ l' t', n.Held l' t' ∧ n.layout.Covers l' l ∧ n.layout.Covers t' t

theorem CoveredBy.overlapping (h : m.CoveredBy n) (hl : n.layout.Covers l' l) :
    n.layout.CoversAll (n.overlapping l') (m.overlapping l) := by
  intro t ht
  obtain ⟨k, hheld, hover⟩ := mem_overlapping_iff.mp ht
  obtain ⟨k', t', hheld', hk, ht'⟩ := h.held k t hheld
  exact ⟨t', mem_overlapping_iff.mpr ⟨k', hheld', hk.overlaps hl hover⟩, ht'⟩

theorem CoveredBy.varTargets (h : m.CoveredBy n) (v : VarId) :
    n.layout.CoversAll (n.varTargets v) (m.varTargets v) := by
  rw [PathFacts.varTargets, PathFacts.varTargets, h.refines.function]
  split
  · exact .singleton (.of_root fun i hi => absurd hi (by simp))
  · exact h.vars v

/-! ## Steps that do the same under both settings -/

/-- Where nothing is known about the pointers stored at the second location, nothing is known about
those stored at the first, which covers it. -/
def UntoldAlike (m n : PathFacts) (l' l : Location) : Prop :=
  l'.isUnknown = false → m.overlapping l = [] → n.overlapping l' = []

/-- An offset does the same from the second location as from the first, which covers it. -/
structure OffsetAlike (y z : Layout) (i : Option Int) (t' t : Location) : Prop where
  /-- The offset leaves the array under the coarser settings if it does so under the others. -/
  leaves : (y.offset t i).isUnknown = true → (z.offset t' i).isUnknown = true
  /-- It does not count from a numbered element that stands for longer paths. -/
  counts : z.maxDepth < t.path.length →
    i = some 0 ∨ ∀ k, t'.path.getLast? ≠ some (.index (some k))

/-- An index does the same at the second location as at the first, which covers it. -/
structure IndexedAlike (m n : PathFacts) (i : Option Int) (l' l : Location) : Prop where
  /-- It is applied to a stored pointer at both of them, or at none. -/
  pointer : m.holdsPointer l = n.holdsPointer l'
  untold : m.holdsPointer l = true → m.UntoldAlike n l' l
  offset : m.holdsPointer l = true → n.layout.Matches (n.storedTargets true l')
    (m.storedTargets true l) (OffsetAlike m.layout n.layout i)
  /-- The index leaves the array under the coarser settings if it does so under the others. -/
  leaves : m.holdsPointer l = false → (m.layout.element l i).isUnknown = true →
    (n.layout.element l' i).isUnknown = true

/-- Each location that the path leads to under the first facts is related to one that it leads to
under the second. -/
def MatchedAt (m n : PathFacts) (p : Place) (r : Location → Location → Prop) : Prop :=
  ∀ ls ls', (m.follow p).reached = .inr ls → (n.follow p).reached = .inr ls' →
    n.layout.Matches ls' ls r

/-- Each step of the path does the same under both facts. -/
def FollowedAlike (m n : PathFacts) : Place → Prop
  | .var _ => True
  | .deref p => FollowedAlike m n p ∧ (∀ v, p = .var v → m.SettledVar n v) ∧
      m.MatchedAt n p (m.UntoldAlike n)
  | .index p e => FollowedAlike m n p ∧
      (∀ v, p = .var v → m.IsPointer v → m.SettledVar n v ∧
        n.layout.Matches (n.derefVar v) (m.derefVar v)
          (OffsetAlike m.layout n.layout (PointsTo.constantIndex e))) ∧
      m.MatchedAt n p (m.IndexedAlike n (PointsTo.constantIndex e))
  | .field p _ => FollowedAlike m n p

/-! ## Pointers -/

theorem below_of_untold {orUnknown : Bool} (ht : t ∈ untold orUnknown l) : t.Below l.root := by
  rw [untold, Location.param?] at ht
  split at ht
  · next i hi =>
    split at hi
    · next j hroot =>
      rw [List.mem_singleton.mp ht, hroot, ← Option.some.inj hi]
      exact .inl rfl
    · exact absurd hi (by simp)
  · split at ht
    · rw [List.mem_singleton.mp ht]
      exact .inr rfl
    · exact absurd ht List.not_mem_nil

/-- A stored pointer refers to the object of a parameter only if there is one. -/
theorem CoveredBy.covers_unknown (h : m.CoveredBy n) (hl : n.layout.Covers l' l)
    {orUnknown : Bool} (ht : t ∈ m.storedTargets orUnknown l) : n.layout.Covers .unknown t := by
  cases hunknown : l.isUnknown with
  | true =>
      rw [storedTargets, hunknown] at ht
      rw [List.mem_singleton.mp ht]
      exact .unknown
  | false =>
      by_cases hm : m.overlapping l = []
      · rw [storedTargets_of_untold hunknown hm] at ht
        exact hl.of_unknown rfl (below_of_untold ht)
      · rw [storedTargets_of_told hunknown hm] at ht
        obtain ⟨k, hheld, -⟩ := mem_overlapping_iff.mp ht
        obtain ⟨-, t', -, -, hcovers⟩ := h.held k t hheld
        exact hcovers.of_unknown rfl (.inl rfl)

theorem untold_covered (hl : n.layout.Covers l' l) (hl' : l'.isUnknown = false) (orUnknown : Bool) :
    n.layout.CoversAll (untold orUnknown l') (untold orUnknown l) := by
  rw [untold, untold, Location.param?, Location.param?, hl.root_eq hl']
  split
  · next i hi =>
    split at hi
    · next j hroot =>
      obtain rfl := Option.some.inj hi
      refine .singleton (.of_root fun k hk => ?_)
      rw [← hroot]
      exact hl.object j hroot
    · exact absurd hi (by simp)
  · split
    · exact .singleton .unknown
    · exact .nil _ _

theorem storedTargets_covered (h : m.CoveredBy n) (hl : n.layout.Covers l' l) {orUnknown : Bool}
    (hs : orUnknown = true ∨ l.param?.isSome = true → m.UntoldAlike n l' l) :
    n.layout.CoversAll (n.storedTargets orUnknown l') (m.storedTargets orUnknown l) := by
  cases hl' : l'.isUnknown with
  | true =>
      intro t ht
      refine ⟨.unknown, ?_, h.covers_unknown hl ht⟩
      rw [storedTargets, if_pos hl']
      exact List.mem_singleton.mpr rfl
  | false =>
      have hknown : l.isUnknown = false := by
        rw [Bool.eq_false_iff]
        exact fun hu => by simp [hl.isUnknown hu] at hl'
      by_cases hm : m.overlapping l = []
      · rw [storedTargets_of_untold hknown hm]
        -- the first facts lead somewhere for lack of a target, so the second must lack it as well
        by_cases hleads : orUnknown = true ∨ l.param?.isSome = true
        · rw [storedTargets_of_untold hl' (hs hleads hl' hm)]
          exact untold_covered hl hl' orUnknown
        · have hnil : untold orUnknown l = [] := by
            rw [not_or] at hleads
            have hparam : l.param? = none := by simpa using hleads.2
            simp [untold, hparam, hleads.1]
          rw [hnil]
          exact .nil _ _
      · rw [storedTargets_of_told hknown hm]
        have hall := h.overlapping hl
        obtain ⟨t, ht⟩ := List.exists_mem_of_ne_nil _ hm
        obtain ⟨t', ht', -⟩ := hall t ht
        rw [storedTargets_of_told hl' (List.ne_nil_of_mem ht')]
        exact hall

theorem derefVar_covered (h : m.CoveredBy n) (hv : m.SettledVar n v) :
    n.layout.CoversAll (n.derefVar v) (m.derefVar v) := by
  rw [derefVar, derefVar]
  by_cases hm : m.varTargets v = []
  · rw [if_pos (List.isEmpty_iff.mpr hm), if_pos (List.isEmpty_iff.mpr (hv hm))]
    exact .singleton .unknown
  · obtain ⟨t, ht⟩ := List.exists_mem_of_ne_nil _ hm
    obtain ⟨t', ht', -⟩ := h.varTargets v t ht
    rw [if_neg (hm ∘ List.isEmpty_iff.mp),
      if_neg fun hn => List.ne_nil_of_mem ht' (List.isEmpty_iff.mp hn)]
    exact h.varTargets v

theorem indexed_covered (h : m.CoveredBy n) (hl : n.layout.Covers l' l)
    (hs : m.IndexedAlike n i l' l) : n.layout.CoversAll (n.indexed i l') (m.indexed i l) := by
  rw [indexed, indexed, ← hs.pointer]
  split
  · next hptr =>
    refine .map ((storedTargets_covered h hl fun _ => hs.untold hptr).related (hs.offset hptr)) ?_
    intro t t' halike
    exact halike.1.offset h.refines halike.2.leaves halike.2.counts
  · next hptr =>
    exact .singleton (hl.element h.refines (hs.leaves (Bool.eq_false_iff.mpr hptr)))

/-! ## Paths -/

/-- One path has been followed to locations that cover those of the other, or both to the same
variable. -/
structure FollowedCovered (z : Layout) (s t : PathFollowed) : Prop where
  reached : Sum.LiftRel (· = ·) (fun ls ls' => z.CoversAll ls' ls) s.reached t.reached
  pointerCells : z.CoversAll t.pointerCells s.pointerCells
  derefsBase : s.derefsBase = t.derefsBase

theorem FollowedCovered.cases {z : Layout} {s t : PathFollowed} (h : FollowedCovered z s t) :
    (∃ v, s.reached = .inl v ∧ t.reached = .inl v) ∨
      ∃ ls ls', s.reached = .inr ls ∧ t.reached = .inr ls' ∧ z.CoversAll ls' ls := by
  have hreached := h.reached
  rcases hs : s.reached with v | ls <;> rcases ht : t.reached with w | ls' <;>
    rw [hs, ht] at hreached
  · exact .inl ⟨v, rfl, by rw [Sum.liftRel_inl_inl.mp hreached]⟩
  · exact absurd hreached Sum.not_liftRel_inl_inr
  · exact absurd hreached Sum.not_liftRel_inr_inl
  · cases hreached with
    | inr hall => exact .inr ⟨ls, ls', rfl, rfl, hall⟩

section Step

variable {p : Place} (h : m.CoveredBy n)
  (ih : FollowedCovered n.layout (m.follow p) (n.follow p))

include h ih

theorem follow_deref_covered (hp : m.FollowedAlike n (.deref p)) :
    FollowedCovered n.layout (m.follow (.deref p)) (n.follow (.deref p)) := by
  obtain ⟨-, hvar, hcells⟩ := hp
  obtain ⟨v, hm, hn⟩ | ⟨ls, ls', hm, hn, hall⟩ := ih.cases
  · simp only [follow_deref, hm, hn]
    exact ⟨.inr (derefVar_covered h (hvar v (PointsTo.eq_var_of_reached hm))), ih.pointerCells, rfl⟩
  · simp only [follow_deref, hm, hn]
    refine ⟨.inr (.flatMap (hall.related (hcells ls ls' hm hn)) fun l l' halike => ?_),
      ih.pointerCells.append hall, ih.derefsBase⟩
    exact storedTargets_covered h halike.1 fun _ => halike.2

theorem follow_index_covered {e : Expr} (hp : m.FollowedAlike n (.index p e)) :
    FollowedCovered n.layout (m.follow (.index p e)) (n.follow (.index p e)) := by
  obtain ⟨-, hvar, hcells⟩ := hp
  obtain ⟨v, hm, hn⟩ | ⟨ls, ls', hm, hn, hall⟩ := ih.cases
  · simp only [follow_index, hm, hn, ← h.refines.function]
    split
    · next hptr =>
      obtain ⟨hsettled, hoffset⟩ := hvar v (PointsTo.eq_var_of_reached hm) hptr
      have hderef := (derefVar_covered h hsettled).related hoffset
      refine ⟨.inr (.map hderef fun t t' halike => ?_), ih.pointerCells, rfl⟩
      exact halike.1.offset h.refines halike.2.leaves halike.2.counts
    · have hroot : n.layout.Covers ⟨.variable v, []⟩ ⟨.variable v, []⟩ :=
        .of_root fun i hi => absurd hi (by simp)
      exact ⟨.inr (.singleton (hroot.element_of_short h.refines rfl (Nat.zero_le _) _)),
        ih.pointerCells, ih.derefsBase⟩
  · have hrelated := hall.related (hcells ls ls' hm hn)
    simp only [follow_index, hm, hn]
    refine ⟨.inr (.flatMap hrelated fun l l' halike => indexed_covered h halike.1 halike.2),
      ih.pointerCells.append fun l hl => ?_, ih.derefsBase⟩
    obtain ⟨hl, hptr⟩ := List.mem_filter.mp hl
    obtain ⟨l', hl', hcovers, halike⟩ := hrelated l hl
    exact ⟨l', List.mem_filter.mpr ⟨hl', halike.pointer ▸ hptr⟩, hcovers⟩

theorem follow_field_covered (name : String) :
    FollowedCovered n.layout (m.follow (.field p name)) (n.follow (.field p name)) := by
  obtain ⟨v, hm, hn⟩ | ⟨ls, ls', hm, hn, hall⟩ := ih.cases
  · have hroot : n.layout.Covers ⟨.variable v, []⟩ ⟨.variable v, []⟩ :=
      .of_root fun i hi => absurd hi (by simp)
    simp only [follow_field, hm, hn]
    exact ⟨.inr (.singleton (hroot.child h.refines (.refl _))), ih.pointerCells, ih.derefsBase⟩
  · simp only [follow_field, hm, hn]
    exact ⟨.inr (.map hall fun l l' hcovers => hcovers.child h.refines (.refl _)),
      ih.pointerCells, ih.derefsBase⟩

end Step

/-- A path leads to locations that cover those it leads to under finer settings. -/
theorem follow_covered (h : m.CoveredBy n) : ∀ {p : Place}, m.FollowedAlike n p →
    FollowedCovered n.layout (m.follow p) (n.follow p)
  | .var _, _ => ⟨.inl rfl, .nil _ _, rfl⟩
  | .deref _, hp => follow_deref_covered h (follow_covered h hp.1) hp
  | .index _ _, hp => follow_index_covered h (follow_covered h hp.1) hp
  | .field inner name, hp => follow_field_covered h (p := inner) (follow_covered h hp) name

/-- What a place denotes, compared. -/
structure ResolvedCovered (z : Layout) (r s : PathResolution) : Prop where
  targets : z.CoversAll s.targets r.targets
  pointerCells : z.CoversAll s.pointerCells r.pointerCells
  derefsBase : r.derefsBase = s.derefsBase

theorem resolve_covered (h : m.CoveredBy n) {p : Place} (hp : m.FollowedAlike n p) :
    ResolvedCovered n.layout (m.resolve p) (n.resolve p) := by
  have hfollow := follow_covered h hp
  obtain ⟨v, hm, hn⟩ | ⟨ls, ls', hm, hn, hall⟩ := hfollow.cases
  · simp only [resolve, hm, hn]
    exact ⟨.singleton (.of_root fun i hi => absurd hi (by simp)), hfollow.pointerCells,
      hfollow.derefsBase⟩
  · simp only [resolve, hm, hn]
    exact ⟨hall, hfollow.pointerCells, hfollow.derefsBase⟩

theorem exprTargets_covered (h : m.CoveredBy n) : ∀ {e : Expr},
    (∀ p ∈ e.targeted, m.FollowedAlike n p) →
    n.layout.CoversAll (n.exprTargets e) (m.exprTargets e)
  | .var v, _ => h.varTargets v
  | .const _, _ => .nil _ _
  | .unary _ _, _ => .nil _ _
  | .addrOf p, he => (resolve_covered h (he p List.mem_cons_self)).targets
  | .binary op l r, he => by
      have hl := exprTargets_covered h fun p hp => he p (List.mem_append_left _ hp)
      have hr := exprTargets_covered h fun p hp => he p (List.mem_append_right _ hp)
      rw [exprTargets, exprTargets]
      split
      · exact .map (hl.append hr) fun l l' hcovers => hcovers.shifted h.refines
      · exact .nil _ _

end PathFacts

end TaintAnalysis
