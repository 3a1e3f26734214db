import TaintAnalysis.Proofs.Memory.StoredPointers

/-!
# More facts about pointers

The pointer analysis only adds facts, but what an instruction adds does not only
grow with the facts. Where nothing is known about a pointer, following it leads to
unknown memory, or to the object of a parameter that the pointer is stored in. Once
something is known, it leads there instead.

So there are two conditions under which what follows from some facts also follows
from more of them. The one is that the facts are more (`Below`). The other is that
each pointer that is followed on the way is as unknown under the second facts as it
is under the first (`SettledPath`). Then the steps of a path can be compared one by
one, and with them the places and the expressions (`resolve_mono`,
`exprTargets_mono`).
-/

namespace TaintAnalysis

/-! ## Functions with the same variables -/

namespace Function

variable {f f' : Function}

theorem var?_congr (h : f'.vars = f.vars) (v : VarId) : f'.var? v = f.var? v := by
  rw [var?, var?, h]

theorem ty?_congr (h : f'.vars = f.vars) (v : VarId) : f'.ty? v = f.ty? v := by
  rw [ty?, ty?, var?_congr h]

theorem params_congr (h : f'.vars = f.vars) : f'.params = f.params := by
  rw [params, params, h]
  exact List.filter_congr fun v _ => by rw [var?_congr h]

end Function

/-- The layouts tell the same access paths apart, since they know the same variables. -/
structure Layout.Alike (y z : Layout) : Prop where
  vars : y.function.vars = z.function.vars
  maxDepth : y.maxDepth = z.maxDepth
  maxTrackedIndex : y.maxTrackedIndex = z.maxTrackedIndex

namespace Layout.Alike

variable {y z : Layout}

theorem varTy? (h : y.Alike z) (v : VarId) : y.function.ty? v = z.function.ty? v :=
  Function.ty?_congr h.vars v

theorem params (h : y.Alike z) : y.function.params = z.function.params :=
  Function.params_congr h.vars

theorem ty? (h : y.Alike z) (l : Location) : l.ty? y.function = l.ty? z.function := by
  rw [Location.ty?, Location.ty?]
  congr 1
  rcases l.root with v | i | _
  · exact h.varTy? v
  · rw [Location.rootTy?, Location.rootTy?, h.params]
    exact congrArg _ (funext fun v => by rw [h.varTy?])
  · rfl

theorem child (h : y.Alike z) (l : Location) (step : Step) : y.child l step = z.child l step := by
  rw [Layout.child, Layout.child, h.maxDepth]

theorem element (h : y.Alike z) (l : Location) (index : Option Int) :
    y.element l index = z.element l index := by
  cases index with
  | none => exact h.child l _
  | some i => simp only [Layout.element, h.ty?, h.child, h.maxTrackedIndex]

theorem shifted (h : y.Alike z) (l : Location) : y.shifted l = z.shifted l := by
  simp only [Layout.shifted, h.child, h.element]

theorem offset (h : y.Alike z) (l : Location) (index : Option Int) :
    y.offset l index = z.offset l index := by
  simp only [Layout.offset, h.child, h.element]

end Layout.Alike

namespace PathFacts

variable {m n n' : PathFacts} {l t : Location} {v : VarId}

/-! ## Fewer and more facts -/

/-- The second facts have all that the first ones have. -/
structure Below (m n : PathFacts) : Prop where
  alike : m.layout.Alike n.layout
  vars : ∀ v, ∀ t ∈ m.vars v, t ∈ n.vars v
  held : ∀ l t, m.Held l t → n.Held l t

theorem mem_overlapping_iff : t ∈ m.overlapping l ↔ ∃ l', m.Held l' t ∧ l'.overlaps l = true := by
  rw [overlapping, List.mem_flatMap]
  constructor
  · rintro ⟨e, he, ht⟩
    obtain ⟨he, hover⟩ := List.mem_filter.mp he
    exact ⟨e.1, ⟨e, he, rfl, ht⟩, hover⟩
  · rintro ⟨_, ⟨e, he, rfl, ht⟩, hover⟩
    exact ⟨e, List.mem_filter.mpr ⟨he, hover⟩, ht⟩

theorem Below.overlapping (h : m.Below n) (ht : t ∈ m.overlapping l) : t ∈ n.overlapping l := by
  obtain ⟨l', hheld, hover⟩ := mem_overlapping_iff.mp ht
  exact mem_overlapping_iff.mpr ⟨l', h.held l' t hheld, hover⟩

theorem Below.varTargets (h : m.Below n) (ht : t ∈ m.varTargets v) : t ∈ n.varTargets v := by
  rw [PathFacts.varTargets, h.alike.varTy?] at ht
  rw [PathFacts.varTargets]
  split at ht
  · next harray => rwa [if_pos harray]
  · next harray =>
    rw [if_neg harray]
    exact h.vars v t ht

/-! ## Pointers about which nothing is known -/

/-- The pointers that are stored at a location are unknown under the second facts if they are
under the first. -/
def SettledAt (m n : PathFacts) (l : Location) : Prop :=
  l.isUnknown = false → m.overlapping l = [] → n.overlapping l = []

/-- The same for a variable that is used as a pointer. -/
def SettledVar (m n : PathFacts) (v : VarId) : Prop :=
  m.varTargets v = [] → n.varTargets v = []

theorem SettledAt.of_below (h : m.SettledAt n l) (hn : n'.Below n) : m.SettledAt n' l := by
  intro hl hm
  rw [List.eq_nil_iff_forall_not_mem]
  intro t ht
  exact absurd (hn.overlapping ht) (h hl hm ▸ List.not_mem_nil)

theorem SettledVar.of_below (h : m.SettledVar n v) (hn : n'.Below n) : m.SettledVar n' v := by
  intro hm
  rw [List.eq_nil_iff_forall_not_mem]
  intro t ht
  exact absurd (hn.varTargets ht) (h hm ▸ List.not_mem_nil)

/-- Where following a pointer leads about which nothing is known. -/
def untold (orUnknown : Bool) (l : Location) : List Location :=
  match l.param? with
  | some i => [⟨.paramTarget i, []⟩]
  | none => if orUnknown then [.unknown] else []

theorem storedTargets_of_told (hl : l.isUnknown = false) (hm : m.overlapping l ≠ [])
    (orUnknown : Bool) : m.storedTargets orUnknown l = m.overlapping l := by
  rw [storedTargets, hl, if_neg Bool.false_ne_true, if_pos]
  rw [Bool.not_eq_true', List.isEmpty_eq_false_iff]
  exact hm

theorem storedTargets_of_untold (hl : l.isUnknown = false) (hm : m.overlapping l = [])
    (orUnknown : Bool) : m.storedTargets orUnknown l = untold orUnknown l := by
  rw [storedTargets, hl, hm]
  rfl

/-- Only where pointers that are unknown may lead somewhere do they have to be settled. -/
theorem storedTargets_mono (h : m.Below n) {orUnknown : Bool}
    (hl : orUnknown = true ∨ l.param?.isSome = true → m.SettledAt n l)
    (ht : t ∈ m.storedTargets orUnknown l) : t ∈ n.storedTargets orUnknown l := by
  cases hunknown : l.isUnknown with
  | true =>
      rw [storedTargets, hunknown] at ht ⊢
      exact ht
  | false =>
      by_cases hm : m.overlapping l = []
      -- the first facts lead somewhere for lack of a target, so the second must lack it as well
      · rw [storedTargets_of_untold hunknown hm] at ht
        have hsettled : m.SettledAt n l := by
          refine hl ?_
          rw [untold] at ht
          split at ht
          · next i hparam => exact .inr (hparam ▸ rfl)
          · split at ht
            · next hor => exact .inl hor
            · exact absurd ht List.not_mem_nil
        rwa [storedTargets_of_untold hunknown (hsettled hunknown hm)]
      · rw [storedTargets_of_told hunknown hm] at ht
        have ht' := h.overlapping ht
        rwa [storedTargets_of_told hunknown (List.ne_nil_of_mem ht')]

theorem derefVar_mono (h : m.Below n) (hv : m.SettledVar n v) (ht : t ∈ m.derefVar v) :
    t ∈ n.derefVar v := by
  rw [derefVar] at ht ⊢
  split at ht
  · next hm =>
    rwa [if_pos (List.isEmpty_iff.mpr (hv (List.isEmpty_iff.mp hm)))]
  · have ht' := h.varTargets ht
    rwa [if_neg fun hn => List.ne_nil_of_mem ht' (List.isEmpty_iff.mp hn)]

theorem holdsPointer_eq (h : m.Below n) (l : Location) : m.holdsPointer l = n.holdsPointer l := by
  rw [holdsPointer, holdsPointer, h.alike.ty?]

theorem indexed_mono (h : m.Below n) {index : Option Int}
    (hl : m.holdsPointer l = true → m.SettledAt n l) (ht : t ∈ m.indexed index l) :
    t ∈ n.indexed index l := by
  rw [indexed] at ht ⊢
  rw [← holdsPointer_eq h]
  split at ht
  · next hptr =>
    rw [if_pos hptr]
    obtain ⟨l', hl', rfl⟩ := List.mem_map.mp ht
    exact List.mem_map.mpr ⟨l', storedTargets_mono h (fun _ => hl hptr) hl',
      (h.alike.offset l' index).symm⟩
  · next hptr =>
    rwa [if_neg hptr, ← h.alike.element]

/-! ## Paths -/

/-- Each pointer that is followed along the path, under the first facts, is settled. -/
structure SettledPath (m n : PathFacts) (p : Place) : Prop where
  base : (m.follow p).derefsBase = true → m.SettledVar n p.base
  cells : ∀ l ∈ (m.follow p).pointerCells, m.SettledAt n l

theorem SettledPath.of_below {p : Place} (h : m.SettledPath n p) (hn : n'.Below n) :
    m.SettledPath n' p :=
  ⟨fun hbase => (h.base hbase).of_below hn, fun l hl => (h.cells l hl).of_below hn⟩

/-- Following the pointer in a variable leads through no other pointer. -/
theorem settledPath_deref_var (h : m.SettledVar n v) : m.SettledPath n (.deref (.var v)) :=
  ⟨fun _ => h, fun _ hl => absurd hl List.not_mem_nil⟩

theorem follow_index_var {e : Expr} (hv : ¬ m.IsPointer v) : m.follow (.index (.var v) e) =
    ⟨.inr [m.layout.element ⟨.variable v, []⟩ (PointsTo.constantIndex e)], [], false⟩ := by
  rw [IsPointer] at hv
  simp only [follow_index, follow_var, if_neg hv]

/-- An element of an array variable is found without following a pointer. -/
theorem settledPath_index_var {e : Expr} (hv : ¬ m.IsPointer v) :
    m.SettledPath n (.index (.var v) e) := by
  refine ⟨fun hbase => ?_, fun l hl => ?_⟩
  · rw [follow_index_var hv] at hbase
    exact absurd hbase Bool.false_ne_true
  · rw [follow_index_var hv] at hl
    exact absurd hl List.not_mem_nil

/-- The longer path follows every pointer that the shorter one follows. -/
theorem SettledPath.inner {p q : Place} (h : m.SettledPath n q) (hbase : q.base = p.base)
    (hderefs : (m.follow p).derefsBase = true → (m.follow q).derefsBase = true)
    (hcells : (m.follow p).pointerCells ⊆ (m.follow q).pointerCells) : m.SettledPath n p :=
  ⟨fun hp => hbase ▸ h.base (hderefs hp), fun l hl => h.cells l (hcells hl)⟩

theorem SettledPath.of_deref {p : Place} (h : m.SettledPath n (.deref p)) : m.SettledPath n p := by
  refine h.inner rfl ?_ ?_
  · simp only [follow_deref]
    split <;> simp
  · simp only [follow_deref]
    split <;> simp

theorem SettledPath.of_index {p : Place} {e : Expr} (h : m.SettledPath n (.index p e)) :
    m.SettledPath n p := by
  refine h.inner rfl ?_ ?_
  · simp only [follow_index]
    split
    · split <;> simp
    · simp
  · simp only [follow_index]
    split
    · split <;> simp
    · simp

theorem SettledPath.of_field {p : Place} {name : String} (h : m.SettledPath n (.field p name)) :
    m.SettledPath n p := by
  refine h.inner rfl ?_ ?_
  · simp only [follow_field]
    split <;> simp
  · simp only [follow_field]
    split <;> simp

/-- One path has been followed to fewer locations than the other, or both to the same variable. -/
structure FollowedBelow (s t : PathFollowed) : Prop where
  reached : Sum.LiftRel (· = ·) (· ⊆ ·) s.reached t.reached
  pointerCells : s.pointerCells ⊆ t.pointerCells
  derefsBase : s.derefsBase = t.derefsBase

theorem FollowedBelow.cases {s t : PathFollowed} (h : FollowedBelow s t) :
    (∃ v, s.reached = .inl v ∧ t.reached = .inl v) ∨
      ∃ ls ls', s.reached = .inr ls ∧ t.reached = .inr ls' ∧ ls ⊆ ls' := by
  obtain ⟨hreached, -, -⟩ := h
  cases hs : s.reached with
  | inl v =>
      cases ht : t.reached with
      | inl w =>
          rw [hs, ht] at hreached
          cases hreached with
          | inl heq => exact .inl ⟨v, rfl, heq ▸ rfl⟩
      | inr ls' =>
          rw [hs, ht] at hreached
          nomatch hreached
  | inr ls =>
      cases ht : t.reached with
      | inl w =>
          rw [hs, ht] at hreached
          nomatch hreached
      | inr ls' =>
          rw [hs, ht] at hreached
          cases hreached with
          | inr hsub => exact .inr ⟨ls, ls', rfl, rfl, hsub⟩

section Step

variable {p : Place} (h : m.Below n) (ih : FollowedBelow (m.follow p) (n.follow p))

include h ih

theorem follow_deref_mono (hp : m.SettledPath n (.deref p)) :
    FollowedBelow (m.follow (.deref p)) (n.follow (.deref p)) := by
  obtain ⟨v, hm, hn⟩ | ⟨ls, ls', hm, hn, hsub⟩ := ih.cases
  · have hv : p.base = v := PointsTo.eq_var_of_reached hm ▸ rfl
    have hsettled : m.SettledVar n v := hv ▸ hp.base (by simp only [follow_deref, hm])
    simp only [follow_deref, hm, hn]
    exact ⟨.inr fun t ht => derefVar_mono h hsettled ht, ih.pointerCells, rfl⟩
  · have hcells := hp.cells
    simp only [follow_deref, hm, hn] at hcells ⊢
    refine ⟨.inr fun t ht => ?_, fun l hl => ?_, ih.derefsBase⟩
    · obtain ⟨l, hl, ht⟩ := List.mem_flatMap.mp ht
      exact List.mem_flatMap.mpr ⟨l, hsub hl, storedTargets_mono h
        (fun _ => hcells l (List.mem_append_right _ hl)) ht⟩
    · rcases List.mem_append.mp hl with hl | hl
      · exact List.mem_append_left _ (ih.pointerCells hl)
      · exact List.mem_append_right _ (hsub hl)

theorem follow_index_mono {e : Expr} (hp : m.SettledPath n (.index p e)) :
    FollowedBelow (m.follow (.index p e)) (n.follow (.index p e)) := by
  obtain ⟨v, hm, hn⟩ | ⟨ls, ls', hm, hn, hsub⟩ := ih.cases
  · have hv : p.base = v := PointsTo.eq_var_of_reached hm ▸ rfl
    have hbase := hp.base
    simp only [follow_index, hm, hn, ← h.alike.varTy?] at hbase ⊢
    split
    · next hptr =>
      rw [if_pos hptr] at hbase
      refine ⟨.inr fun t ht => ?_, ih.pointerCells, rfl⟩
      obtain ⟨l, hl, rfl⟩ := List.mem_map.mp ht
      exact List.mem_map.mpr ⟨l, derefVar_mono h (hv ▸ hbase rfl) hl, (h.alike.offset l _).symm⟩
    · rw [h.alike.element]
      exact ⟨.inr (List.Subset.refl _), ih.pointerCells, ih.derefsBase⟩
  · have hcells := hp.cells
    simp only [follow_index, hm, hn] at hcells ⊢
    refine ⟨.inr fun t ht => ?_, fun l hl => ?_, ih.derefsBase⟩
    · obtain ⟨l, hl, ht⟩ := List.mem_flatMap.mp ht
      exact List.mem_flatMap.mpr ⟨l, hsub hl, indexed_mono h (fun hptr =>
        hcells l (List.mem_append_right _ (List.mem_filter.mpr ⟨hl, hptr⟩))) ht⟩
    · rcases List.mem_append.mp hl with hl | hl
      · exact List.mem_append_left _ (ih.pointerCells hl)
      · obtain ⟨hl, hptr⟩ := List.mem_filter.mp hl
        exact List.mem_append_right _
          (List.mem_filter.mpr ⟨hsub hl, holdsPointer_eq h l ▸ hptr⟩)

theorem follow_field_mono (name : String) :
    FollowedBelow (m.follow (.field p name)) (n.follow (.field p name)) := by
  obtain ⟨v, hm, hn⟩ | ⟨ls, ls', hm, hn, hsub⟩ := ih.cases
  · simp only [follow_field, hm, hn, h.alike.child]
    exact ⟨.inr (List.Subset.refl _), ih.pointerCells, ih.derefsBase⟩
  · simp only [follow_field, hm, hn, h.alike.child]
    exact ⟨.inr (List.map_subset _ hsub), ih.pointerCells, ih.derefsBase⟩

end Step

/-- With more facts a path leads to more locations, if the pointers on it are settled. -/
theorem follow_mono (h : m.Below n) : ∀ {p : Place}, m.SettledPath n p →
    FollowedBelow (m.follow p) (n.follow p)
  | .var _, _ => ⟨.inl rfl, List.Subset.refl _, rfl⟩
  | .deref _, hp => follow_deref_mono h (follow_mono h hp.of_deref) hp
  | .index _ _, hp => follow_index_mono h (follow_mono h hp.of_index) hp
  | .field _ name, hp => follow_field_mono h (follow_mono h hp.of_field) name

/-- With more facts a place denotes more locations, if the pointers on its path are settled. -/
theorem resolve_mono (h : m.Below n) {p : Place} (hp : m.SettledPath n p) :
    (m.resolve p).targets ⊆ (n.resolve p).targets ∧
      (m.resolve p).pointerCells ⊆ (n.resolve p).pointerCells ∧
      (m.resolve p).derefsBase = (n.resolve p).derefsBase := by
  have hfollow := follow_mono h hp
  obtain ⟨v, hm, hn⟩ | ⟨ls, ls', hm, hn, hsub⟩ := hfollow.cases
  · simp only [resolve, hm, hn]
    exact ⟨List.Subset.refl _, hfollow.pointerCells, hfollow.derefsBase⟩
  · simp only [resolve, hm, hn]
    exact ⟨hsub, hfollow.pointerCells, hfollow.derefsBase⟩

end PathFacts

/-- The places whose address makes up the targets of an expression. -/
def Expr.targeted : Expr → List Place
  | .addrOf p => [p]
  | .binary _ l r => l.targeted ++ r.targeted
  | .unary .. | .var _ | .const _ => []

namespace PathFacts

variable {m n n' : PathFacts}

theorem exprTargets_mono (h : m.Below n) : ∀ {e : Expr}, (∀ p ∈ e.targeted, m.SettledPath n p) →
    m.exprTargets e ⊆ n.exprTargets e
  | .var _, _ => fun _ ht => h.varTargets ht
  | .const _, _ => List.Subset.refl _
  | .unary _ _, _ => List.Subset.refl _
  | .addrOf p, he => (resolve_mono h (he p List.mem_cons_self)).1
  | .binary op l r, he => by
      have hl := exprTargets_mono h fun p hp => he p (List.mem_append_left _ hp)
      have hr := exprTargets_mono h fun p hp => he p (List.mem_append_right _ hp)
      intro t ht
      rw [exprTargets] at ht ⊢
      split at ht
      · next hop =>
        obtain ⟨l', hl', rfl⟩ := List.mem_map.mp ht
        rw [if_pos hop]
        refine List.mem_map.mpr ⟨l', ?_, (h.alike.shifted l').symm⟩
        exact List.mem_append.mpr ((List.mem_append.mp hl').imp (hl ·) (hr ·))
      · exact absurd ht List.not_mem_nil

/-! ## Instructions -/

/-- Each pointer that an instruction follows to find what it adds, under the first facts, is
settled. -/
def SettledBy (m n : PathFacts) : Instruction → Prop
  | .assign dst e | .cast dst e _ => m.IsPointer dst → ∀ p ∈ e.targeted, m.SettledPath n p
  | .load dst place => m.IsPointer dst → m.SettledPath n place ∧
      ∀ l ∈ (m.resolve place).targets, l.param?.isSome = true → m.SettledAt n l
  | .store place src => (∀ p ∈ src.targeted, m.SettledPath n p) ∧
      (m.exprTargets src ≠ [] → m.SettledPath n place)
  | .call .. | .opaqueCode .. => True

theorem SettledBy.of_below {i : Instruction} (h : m.SettledBy n i) (hn : n'.Below n) :
    m.SettledBy n' i := by
  cases i with
  | assign dst e | cast dst e _ => exact fun hptr p hp => (h hptr p hp).of_below hn
  | load dst place =>
      exact fun hptr => ⟨(h hptr).1.of_below hn, fun l hl hparam =>
        ((h hptr).2 l hl hparam).of_below hn⟩
  | store place src =>
      exact ⟨fun p hp => (h.1 p hp).of_below hn, fun hne => (h.2 hne).of_below hn⟩
  | call dst callee args => trivial
  | opaqueCode touched reason => trivial

/-- Facts that have each other's facts leave nothing unsettled. -/
theorem settledPath_of_below (h : n.Below m) (p : Place) : m.SettledPath n p :=
  ⟨fun _ => SettledVar.of_below (n := m) (fun hm => hm) h,
    fun _ _ => SettledAt.of_below (n := m) (fun _ hm => hm) h⟩

end PathFacts

end TaintAnalysis
