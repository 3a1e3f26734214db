import Mathlib.Data.List.Forall2
import TaintAnalysis.Proofs.Memory.Overlap
import TaintAnalysis.Proofs.Memory.Paths

/-!
# Locations under coarser settings

Two settings bound what the analysis tells apart in memory: the length of access paths, and the
constant indices of arrays whose length is unknown. Where one of them is lower, a location stands
for what several locations stand for otherwise. It covers them: it is their path cut off at the
lower length, possibly with summary elements in place of numbered ones, or it is unknown memory.

Locations that cover others overlap where those do, and every step leads from a location that
covers another one to such a location again, as long as two things do not happen. The one is that
a step leaves its array, and so ends in unknown memory, while the same step from the cut-off path
does not. The other is that an offset counts from a numbered element that longer paths have been
folded into: it leads to a neighbour of the element, not to one of what was folded.
-/

namespace TaintAnalysis

/-! ## Steps -/

/-- The step is the other one, or it leads to the summary element and the other one to any. -/
def Step.Covers (s' s : Step) : Prop :=
  s' = s ∨ s' = .index none ∧ s.isIndex = true

namespace Step.Covers

variable {s s' t t' : Step}

theorem refl (s : Step) : s.Covers s :=
  .inl rfl

theorem isIndex_eq (h : s'.Covers s) : s'.isIndex = s.isIndex := by
  rcases h with rfl | ⟨rfl, hs⟩
  · rfl
  · exact hs.symm

theorem exists_index {j : Option Nat} (h : s'.Covers (.index j)) : ∃ j', s' = .index j' := by
  rcases h with rfl | ⟨rfl, -⟩
  · exact ⟨j, rfl⟩
  · exact ⟨none, rfl⟩

theorem trans {r : Step} (h : s'.Covers s) (h' : s.Covers r) : s'.Covers r := by
  rcases h with rfl | ⟨rfl, hs⟩
  · exact h'
  · exact .inr ⟨rfl, h'.isIndex_eq ▸ hs⟩

theorem stepTy_eq (h : s'.Covers s) (ty : Option Ty) :
    Location.stepTy ty s' = Location.stepTy ty s := by
  rcases h with rfl | ⟨rfl, hs⟩
  · rfl
  · cases s with
    | index i => rfl
    | field name => exact absurd hs Bool.false_ne_true

end Step.Covers

/-! ## Locations -/

/-- The second layout keeps no more apart than the first one. -/
structure Layout.Refines (y z : Layout) : Prop where
  function : y.function = z.function
  maxDepth : z.maxDepth ≤ y.maxDepth
  maxTrackedIndex : z.maxTrackedIndex ≤ y.maxTrackedIndex

/-- Under the settings of `z`, the memory of the location `l` is part of that of `l'`. -/
structure Layout.Covers (z : Layout) (l' l : Location) : Prop where
  /-- Only parameters that refer to something have an object. -/
  object : ∀ i, l.root = .paramTarget i → (Location.rootTy? z.function l.root).isSome = true
  path : l'.isUnknown = true ∨
    l'.root = l.root ∧ List.Forall₂ Step.Covers l'.path (l.path.take z.maxDepth)

namespace Location

variable {l : Location} {f : Function}

/-- A location ends with an element of an array, or it does not. -/
theorem ends (l : Location) : l.path.getLast?.all (!Step.isIndex ·) = true ∨
    ∃ (p : Location) (k : Option Nat), l = p.extend (.index k) := by
  obtain ⟨root, path⟩ := l
  rcases List.eq_nil_or_concat path with rfl | ⟨front, s, rfl⟩
  · exact .inl rfl
  · cases s with
    | index k => exact .inr ⟨⟨root, front⟩, k, by simp [extend]⟩
    | field name => exact .inl (by simp [Step.isIndex])

/-- A path of steps that cover others is coarser: indices in it have become summary elements. -/
theorem coarser_of_forall₂ {r : Root} {path path' : List Step}
    (h : List.Forall₂ Step.Covers path' path) (front : List Step) :
    Coarser ⟨r, front ++ path'⟩ ⟨r, front ++ path⟩ := by
  induction h generalizing front with
  | nil => exact .refl
  | @cons s' s rest' rest hs _ ih =>
      have hrest : Coarser ⟨r, front ++ s' :: rest'⟩ ⟨r, front ++ s' :: rest⟩ := by
        simpa only [List.append_assoc, List.singleton_append] using ih (front ++ [s'])
      refine Relation.ReflTransGen.trans ?_ hrest
      rcases hs with rfl | ⟨rfl, hindex⟩
      · exact .refl
      · match s, hindex with
        | .index none, _ => exact .refl
        | .index (some i), _ =>
            have hstep := Coarsens.summarize (l := ⟨r, front ++ .index (some i) :: rest⟩)
              front.length i (by simp)
            rw [List.set_append_right _ _ (Nat.le_refl _), Nat.sub_self,
              List.set_cons_zero] at hstep
            exact .single hstep

theorem ty?_eq_of_forall₂ {l' : Location} (hroot : l'.root = l.root)
    (h : List.Forall₂ Step.Covers l'.path l.path) : l'.ty? f = l.ty? f := by
  rw [ty?, ty?, hroot]
  generalize rootTy? f l.root = ty
  generalize l'.path = path', l.path = path at h
  induction h generalizing ty with
  | nil => rfl
  | cons hs _ ih => rw [List.foldl_cons, List.foldl_cons, hs.stepTy_eq, ih]

end Location

namespace Layout

variable {y z : Layout} {l l' m k k' : Location} {s s' : Step} {i : Option Int}

/-! ### Steps that stay where they are -/

theorem child_of_folded (h : z.maxDepth ≤ l.path.length) : z.child l s = l := by
  rw [child, if_pos]
  simp [h]

theorem child_of_short (hl : l.isUnknown = false) (h : l.path.length < z.maxDepth) :
    z.child l s = l.extend s := by
  rw [child, if_neg]
  simp [hl, h]

/-- An element is one step away, or the index is outside of the array. -/
theorem element_cases (y : Layout) (l : Location) (i : Option Int) :
    y.element l i = .unknown ∨ ∃ k, y.element l i = y.child l (.index k) := by
  cases i with
  | none => exact .inr ⟨_, rfl⟩
  | some i =>
      simp only [element]
      split
      · exact .inl rfl
      · split
        · split
          · exact .inl rfl
          · exact .inr ⟨_, rfl⟩
        · split <;> exact .inr ⟨_, rfl⟩

theorem isUnknown_of_below (h : l.Below .unknown) : l.isUnknown = true :=
  Location.isUnknown_iff.mpr (h.elim id id)

theorem below_unknown (h : l.isUnknown = true) : l.Below .unknown :=
  .inl (Location.isUnknown_iff.mp h)

theorem root_child (y : Layout) (l : Location) (s : Step) : (y.child l s).root = l.root := by
  rw [child]
  split <;> rfl

/-- The location has the same path as the other one up to a length, or nothing is known about it. -/
def SameUpTo (d : Nat) (l m : Location) : Prop :=
  m.isUnknown = true ∨ m.root = l.root ∧ m.path.take d = l.path.take d

theorem sameUpTo_child {d : Nat} (h : d ≤ l.path.length) (s : Step) :
    SameUpTo d l (y.child l s) := by
  rw [child]
  split
  · exact .inr ⟨rfl, rfl⟩
  · refine .inr ⟨rfl, ?_⟩
    rw [Location.extend, List.take_append_of_le_length h]

theorem sameUpTo_element {d : Nat} (h : d ≤ l.path.length) (i : Option Int) :
    SameUpTo d l (y.element l i) := by
  rcases y.element_cases l i with heq | ⟨k, heq⟩
  · exact .inl (heq ▸ rfl)
  · exact heq ▸ sameUpTo_child h _

/-! ### Steps from the last one -/

theorem shifted_extend (p : Location) (k : Option Nat) :
    y.shifted (p.extend (.index k)) = y.child p (.index none) := by
  simp [shifted, Location.extend, Location.parent?]

theorem shifted_of_not_index (h : l.path.getLast?.all (!Step.isIndex ·) = true) :
    y.shifted l = y.child l (.index none) := by
  rw [shifted]
  split
  · next hlast _ =>
    rw [hlast] at h
    exact absurd h Bool.false_ne_true
  · rfl

theorem root_shifted (y : Layout) (l : Location) : (y.shifted l).root = l.root := by
  rcases l.ends with hlast | ⟨p, k, rfl⟩
  · rw [shifted_of_not_index hlast, root_child]
  · rw [shifted_extend, root_child]
    rfl

theorem offset_zero (p : Location) (k : Option Nat) :
    y.offset (p.extend (.index k)) (some 0) = p.extend (.index k) := by
  simp [offset, Location.extend, Location.parent?]

theorem offset_summary (p : Location) (hi : i ≠ some 0) :
    y.offset (p.extend (.index none)) i = y.child p (.index none) := by
  cases i with
  | none => simp [offset, Location.extend, Location.parent?]
  | some i =>
      have hne : i = 0 → False := fun h => hi (h ▸ rfl)
      simp [offset, Location.extend, Location.parent?]

theorem offset_anywhere (p : Location) (k : Option Nat) :
    y.offset (p.extend (.index k)) none = y.child p (.index none) := by
  simp [offset, Location.extend, Location.parent?]

theorem offset_numbered (p : Location) (k : Nat) {i : Int} (hi : i ≠ 0) :
    y.offset (p.extend (.index (some k))) (some i) = y.element p (Arena.addOffset k i) := by
  simp [offset, Location.extend, Location.parent?]

theorem offset_of_not_index (h : l.path.getLast?.all (!Step.isIndex ·) = true) :
    y.offset l i = y.element l i := by
  rw [offset]
  split
  · next hlast _ =>
    rw [hlast] at h
    exact absurd h Bool.false_ne_true
  · rfl

theorem sameUpTo_shifted {d : Nat} (h : d < l.path.length) : SameUpTo d l (y.shifted l) := by
  rcases l.ends with hlast | ⟨p, k, rfl⟩
  · rw [shifted_of_not_index hlast]
    exact sameUpTo_child (by omega) _
  · have hp : d ≤ p.path.length := by
      simp [Location.extend] at h
      omega
    rw [shifted_extend]
    refine (sameUpTo_child hp (.index none)).imp id fun hsame => ⟨hsame.1, ?_⟩
    rw [hsame.2, Location.extend, List.take_append_of_le_length hp]

theorem sameUpTo_offset {d : Nat} (h : d < l.path.length) (i : Option Int) :
    SameUpTo d l (y.offset l i) := by
  rcases l.ends with hlast | ⟨p, k, rfl⟩
  · rw [offset_of_not_index hlast]
    exact sameUpTo_element (by omega) i
  · have hp : d ≤ p.path.length := by
      simp [Location.extend] at h
      omega
    have hfront {m : Location} (hm : SameUpTo d p m) : SameUpTo d (p.extend (.index k)) m := by
      refine hm.imp id fun hsame => ⟨hsame.1, ?_⟩
      rw [hsame.2, Location.extend, List.take_append_of_le_length hp]
    cases i with
    | none =>
        rw [offset_anywhere]
        exact hfront (sameUpTo_child hp _)
    | some i =>
        by_cases hi : i = 0
        · rw [hi, offset_zero]
          exact .inr ⟨rfl, rfl⟩
        · cases k with
          | none =>
              rw [offset_summary p (by simp [hi])]
              exact hfront (sameUpTo_child hp _)
          | some k =>
              rw [offset_numbered p k hi]
              exact hfront (sameUpTo_element hp _)

/-! ### What covers what -/

namespace Covers

theorem of_unknown (h : z.Covers l' l) (hk : k.isUnknown = true) (hm : m.Below l.root) :
    z.Covers k m := by
  refine ⟨fun i hi => ?_, .inl hk⟩
  rcases hm with hm | hm
  · exact hm ▸ h.object i (hm ▸ hi)
  · exact absurd (hm.symm.trans hi) (by simp)

/-- What covers a location covers everything that is the same up to the length of paths. -/
theorem of_sameUpTo (h : z.Covers l' l) (hsame : SameUpTo z.maxDepth l m)
    (hm : m.isUnknown = true → l'.isUnknown = true) : z.Covers l' m := by
  rcases hsame with hunknown | ⟨hroot, htake⟩
  · refine ⟨fun i hi => ?_, .inl (hm hunknown)⟩
    exact absurd ((Location.isUnknown_iff.mp hunknown).symm.trans hi) (by simp)
  · refine ⟨fun i hi => ?_, h.path.imp id fun hpath => ⟨hroot ▸ hpath.1, htake ▸ hpath.2⟩⟩
    exact hroot ▸ h.object i (hroot ▸ hi)

/-- Unknown memory is only covered by unknown memory. -/
theorem isUnknown (h : z.Covers l' l) (hl : l.isUnknown = true) : l'.isUnknown = true := by
  rcases h.path with hl' | ⟨hroot, -⟩
  · exact hl'
  · exact Location.isUnknown_iff.mpr (hroot.trans (Location.isUnknown_iff.mp hl))

theorem root_eq (h : z.Covers l' l) (hl' : l'.isUnknown = false) : l'.root = l.root :=
  (h.path.resolve_left (by simp [hl'])).1

theorem forall₂ (h : z.Covers l' l) (hl' : l'.isUnknown = false) :
    List.Forall₂ Step.Covers l'.path (l.path.take z.maxDepth) :=
  (h.path.resolve_left (by simp [hl'])).2

theorem forall₂_of_short (h : z.Covers l' l) (hl' : l'.isUnknown = false)
    (hshort : l.path.length ≤ z.maxDepth) : List.Forall₂ Step.Covers l'.path l.path := by
  have := h.forall₂ hl'
  rwa [List.take_of_length_le hshort] at this

theorem length_of_short (h : z.Covers l' l) (hl' : l'.isUnknown = false)
    (hshort : l.path.length ≤ z.maxDepth) : l'.path.length = l.path.length :=
  (h.forall₂_of_short hl' hshort).length_eq

theorem length_of_folded (h : z.Covers l' l) (hl' : l'.isUnknown = false)
    (hfolded : z.maxDepth ≤ l.path.length) : l'.path.length = z.maxDepth := by
  rw [(h.forall₂ hl').length_eq, List.length_take]
  omega

theorem ty?_eq (h : z.Covers l' l) (hl' : l'.isUnknown = false)
    (hshort : l.path.length ≤ z.maxDepth) (f : Function) : l'.ty? f = l.ty? f :=
  Location.ty?_eq_of_forall₂ (h.root_eq hl') (h.forall₂_of_short hl' hshort)

theorem of_root {r : Root}
    (h : ∀ i, r = .paramTarget i → (Location.rootTy? z.function r).isSome = true) :
    z.Covers ⟨r, []⟩ ⟨r, []⟩ :=
  ⟨h, .inr ⟨rfl, by simp⟩⟩

theorem unknown : z.Covers .unknown .unknown :=
  of_root fun i hi => absurd hi (by simp)

/-- Except in unknown memory, to cover a location is to be coarser. -/
theorem coarser (h : z.Covers l' l) (hl' : l'.isUnknown = false) : l'.Coarser l := by
  have hcut : Location.Coarser ⟨l.root, l.path.take z.maxDepth⟩ l :=
    .single (.drop z.maxDepth)
  refine hcut.trans ?_
  obtain ⟨root, path⟩ := l'
  obtain rfl : root = l.root := h.root_eq hl'
  exact Location.coarser_of_forall₂ (h.forall₂ hl') []

/-- What overlaps a location overlaps the locations that cover it. -/
theorem overlaps_left (h : z.Covers l' l) (hover : l.overlaps m = true) :
    l'.overlaps m = true := by
  cases hl' : l'.isUnknown with
  | true => exact Location.overlaps_iff.mpr (.inl hl')
  | false => exact (h.coarser hl').overlaps hover

/-- Where two locations overlap, the locations that cover them do. -/
theorem overlaps (hl : z.Covers l' l) (hm : z.Covers k m) (h : l.overlaps m = true) :
    l'.overlaps k = true := by
  rw [Location.overlaps_comm]
  refine hm.overlaps_left ?_
  rw [Location.overlaps_comm]
  exact hl.overlaps_left h

/-- Where the path is not cut off, the last step is covered by the last step. -/
theorem exists_extend {p : Location} (h : z.Covers l' (p.extend s)) (hl' : l'.isUnknown = false)
    (hshort : p.path.length < z.maxDepth) :
    ∃ p' s', l' = p'.extend s' ∧ z.Covers p' p ∧ s'.Covers s := by
  have hpath := h.forall₂_of_short hl' (by simp [Location.extend]; omega)
  rw [Location.extend] at hpath
  have hfront := List.forall₂_take_append _ _ _ hpath
  have hlast := List.forall₂_drop_append _ _ _ hpath
  obtain ⟨s', rest, hs, hrest, heq⟩ := List.forall₂_cons_right_iff.mp hlast
  obtain rfl := List.forall₂_nil_right_iff.mp hrest
  refine ⟨⟨l'.root, l'.path.take p.path.length⟩, s', ?_, ?_, hs⟩
  · rw [Location.extend, ← heq, List.take_append_drop]
  · refine ⟨h.object, .inr ⟨h.root_eq hl', ?_⟩⟩
    rwa [List.take_of_length_le (by omega : p.path.length ≤ z.maxDepth)]

/-- What covers a location whose path is not cut off ends with an element of an array if the
location does. -/
theorem last_not_index (h : z.Covers l' l) (hl' : l'.isUnknown = false)
    (hshort : l.path.length ≤ z.maxDepth) (hl : l.path.getLast?.all (!Step.isIndex ·) = true) :
    l'.path.getLast?.all (!Step.isIndex ·) = true := by
  have hpath := h.forall₂_of_short hl' hshort
  rcases List.eq_nil_or_concat l.path with hnil | ⟨front, s, hconcat⟩
  · rw [hnil] at hpath
    rw [List.forall₂_nil_right_iff.mp hpath]
    rfl
  · have hext : l = Location.extend ⟨l.root, front⟩ s := by
      rw [Location.extend, ← List.concat_eq_append, ← hconcat]
    rw [hext] at h hshort hl
    obtain ⟨p', s', rfl, -, hs⟩ := h.exists_extend hl' (by
      simp [Location.extend] at hshort ⊢
      omega)
    simpa [Location.extend, hs.isIndex_eq] using hl

theorem child (hr : y.Refines z) (h : z.Covers l' l) (hs : s'.Covers s) :
    z.Covers (z.child l' s') (y.child l s) := by
  have hdepth := hr.maxDepth
  cases hl' : l'.isUnknown with
  | true =>
      exact h.of_unknown (isUnknown_of_below ((below_unknown hl').child _)) (.child (.inl rfl) _)
  | false =>
      by_cases hshort : l.path.length < z.maxDepth
      · have hl : l.isUnknown = false := by
          rw [Bool.eq_false_iff]
          exact fun hu => by simp [h.isUnknown hu] at hl'
        have hlength := h.length_of_short hl' (by omega)
        rw [child_of_short hl (by omega), child_of_short hl' (by omega)]
        refine ⟨h.object, .inr ⟨h.root_eq hl', ?_⟩⟩
        rw [Location.extend, Location.extend,
          List.take_of_length_le (by simp; omega)]
        exact List.rel_append (h.forall₂_of_short hl' (by omega)) (.cons hs .nil)
      · have hlength := h.length_of_folded hl' (by omega)
        rw [child_of_folded (by omega)]
        refine h.of_sameUpTo (sameUpTo_child (by omega) s) fun hm => ?_
        exact h.isUnknown (Location.isUnknown_iff.mpr
          ((root_child y l s).symm.trans (Location.isUnknown_iff.mp hm)))

/-- If the one location ends with an element of an array, the summary element covers as much. -/
theorem summary {p : Location} {j : Option Nat} (h : z.Covers (p.extend (.index j)) l) :
    z.Covers (p.extend (.index none)) l := by
  refine ⟨h.object, h.path.imp id fun hpath => ⟨hpath.1, ?_⟩⟩
  have htrans {a b c : List Step} (hab : List.Forall₂ Step.Covers a b)
      (hbc : List.Forall₂ Step.Covers b c) : List.Forall₂ Step.Covers a c := by
    induction hab generalizing c with
    | nil => exact hbc
    | cons hs _ ih =>
        cases hbc with
        | cons ht hrest => exact .cons (hs.trans ht) (ih hrest)
  refine htrans ?_ hpath.2
  exact List.rel_append (List.forall₂_same.mpr fun s _ => .refl s) (.cons (.inr ⟨rfl, rfl⟩) .nil)

/-- An element of a location that is cut off. -/
theorem element_of_folded (h : z.Covers l' l) (hl' : l'.isUnknown = false)
    (hfolded : z.maxDepth ≤ l.path.length) (hsame : SameUpTo z.maxDepth l m) (i : Option Int)
    (hm : m.isUnknown = true → (z.element l' i).isUnknown = true) :
    z.Covers (z.element l' i) m := by
  have hlength := h.length_of_folded hl' hfolded
  rcases z.element_cases l' i with heq | ⟨j, heq⟩
  · rw [heq]
    refine h.of_unknown rfl (hsame.elim (fun hu => .inr ?_) fun hs => .inl hs.1)
    exact Location.isUnknown_iff.mp hu
  · rw [heq, child_of_folded (by omega)] at hm ⊢
    exact h.of_sameUpTo hsame hm

theorem element_of_short (hr : y.Refines z) (h : z.Covers l' l) (hl' : l'.isUnknown = false)
    (hshort : l.path.length ≤ z.maxDepth) (i : Option Int) :
    z.Covers (z.element l' i) (y.element l i) := by
  have htracked := hr.maxTrackedIndex
  have hchild {s' s : Step} (hs : s'.Covers s) := h.child hr hs
  cases i with
  | none => exact hchild (.refl _)
  | some i =>
      simp only [element, hr.function, h.ty?_eq hl' hshort]
      split
      · exact .unknown
      · split
        · split
          · exact .unknown
          · exact hchild (.refl _)
        · split
          · split
            · exact hchild (.refl _)
            · exact hchild (.inr ⟨rfl, rfl⟩)
          · split
            · next hcoarse hfine => exact absurd (by omega) hcoarse
            · exact hchild (.refl _)

/-- Elements are covered by elements, unless the index leaves the array for one of the locations
only. -/
theorem element (hr : y.Refines z) (h : z.Covers l' l) {i : Option Int}
    (hi : (y.element l i).isUnknown = true → (z.element l' i).isUnknown = true) :
    z.Covers (z.element l' i) (y.element l i) := by
  cases hl' : l'.isUnknown with
  | true =>
      have hunknown : (z.element l' i).isUnknown = true :=
        isUnknown_of_below ((below_unknown hl').element i)
      exact h.of_unknown hunknown (.element (.inl rfl) i)
  | false =>
      by_cases hshort : l.path.length ≤ z.maxDepth
      · exact h.element_of_short hr hl' hshort i
      · exact h.element_of_folded hl' (by omega) (sameUpTo_element (by omega) i) i hi

theorem shifted (hr : y.Refines z) (h : z.Covers l' l) : z.Covers (z.shifted l') (y.shifted l) := by
  cases hl' : l'.isUnknown with
  | true =>
      exact h.of_unknown (isUnknown_of_below (below_unknown hl').shifted) (.shifted (.inl rfl))
  | false =>
      by_cases hshort : l.path.length ≤ z.maxDepth
      · rcases l.ends with hlast | ⟨p, j, rfl⟩
        · rw [shifted_of_not_index hlast, shifted_of_not_index (h.last_not_index hl' hshort hlast)]
          exact h.child hr (.refl _)
        · obtain ⟨p', s', rfl, hp, hs⟩ := h.exists_extend hl' (by
            simp [Location.extend] at hshort
            omega)
          obtain ⟨j', rfl⟩ := hs.exists_index
          rw [shifted_extend, shifted_extend]
          exact hp.child hr (.refl _)
      · have hlength := h.length_of_folded hl' (by omega)
        have hsame := sameUpTo_shifted (y := y) (l := l) (d := z.maxDepth) (by omega)
        have hknown : (y.shifted l).isUnknown = true → l'.isUnknown = true := fun hm =>
          h.isUnknown (Location.isUnknown_iff.mpr
            ((root_shifted y l).symm.trans (Location.isUnknown_iff.mp hm)))
        rcases l'.ends with hlast | ⟨p', j, rfl⟩
        · rw [shifted_of_not_index hlast, child_of_folded (by omega)]
          exact h.of_sameUpTo hsame hknown
        · have hp' : p'.path.length < z.maxDepth := by
            simp [Location.extend] at hlength
            omega
          rw [shifted_extend, child_of_short (l := p') hl' hp']
          exact h.summary.of_sameUpTo hsame hknown

/-- An offset from an element of an array that is not cut off. -/
theorem offset_extend {p p' : Location} {j j' : Option Nat} (hr : y.Refines z)
    (h : z.Covers (p'.extend (.index j')) (p.extend (.index j))) (hp : z.Covers p' p)
    (hp' : p'.isUnknown = false) (hshort : p.path.length ≤ z.maxDepth)
    (hj : Step.Covers (.index j') (.index j)) {i : Option Int}
    (hi : (y.offset (p.extend (.index j)) i).isUnknown = true →
      (z.offset (p'.extend (.index j')) i).isUnknown = true) :
    z.Covers (z.offset (p'.extend (.index j')) i) (y.offset (p.extend (.index j)) i) := by
  cases i with
  | none =>
      rw [offset_anywhere, offset_anywhere]
      exact hp.child hr (.refl _)
  | some i =>
      by_cases hzero : i = 0
      · rw [hzero, offset_zero, offset_zero]
        exact h
      · have hne : some i ≠ some (0 : Int) := by simp [hzero]
        cases j' with
        | none =>
            rw [offset_summary p' hne] at hi ⊢
            cases j with
            | none =>
                rw [offset_summary p hne]
                exact hp.child hr (.refl _)
            | some j =>
                rw [offset_numbered p j hzero] at hi ⊢
                rcases y.element_cases p (Arena.addOffset j i) with heq | ⟨k, heq⟩
                · exact hp.of_unknown (hi (heq ▸ rfl)) (.element (.inl rfl) _)
                · rw [heq]
                  exact hp.child hr (.inr ⟨rfl, rfl⟩)
        | some j' =>
            obtain rfl : j = some j' := by
              rcases hj with heq | ⟨heq, -⟩
              · exact (Step.index.inj heq).symm
              · exact absurd (Step.index.inj heq) (by simp)
            rw [offset_numbered p j' hzero, offset_numbered p' j' hzero]
            exact hp.element_of_short hr hp' hshort _

/-- Offsets from covered locations are covered, unless the offset leaves the array for one of the
locations only, or it counts from a numbered element that stands for a longer path. -/
theorem offset (hr : y.Refines z) (h : z.Covers l' l) {i : Option Int}
    (hi : (y.offset l i).isUnknown = true → (z.offset l' i).isUnknown = true)
    (hend : z.maxDepth < l.path.length →
      i = some 0 ∨ ∀ k, l'.path.getLast? ≠ some (.index (some k))) :
    z.Covers (z.offset l' i) (y.offset l i) := by
  cases hl' : l'.isUnknown with
  | true =>
      exact h.of_unknown (isUnknown_of_below ((below_unknown hl').offset i)) (.offset (.inl rfl) i)
  | false =>
      by_cases hshort : l.path.length ≤ z.maxDepth
      · rcases l.ends with hlast | ⟨p, j, rfl⟩
        · rw [offset_of_not_index hlast, offset_of_not_index (h.last_not_index hl' hshort hlast)]
          exact h.element_of_short hr hl' hshort i
        · have hp : p.path.length < z.maxDepth := by
            simp [Location.extend] at hshort
            omega
          obtain ⟨p', s', rfl, hcovers, hs⟩ := h.exists_extend hl' hp
          obtain ⟨j', rfl⟩ := hs.exists_index
          exact h.offset_extend hr hcovers hl' (by omega) hs hi
      · have hlength := h.length_of_folded hl' (by omega)
        have hsame := sameUpTo_offset (y := y) (l := l) (d := z.maxDepth) (by omega) i
        rcases l'.ends with hlast | ⟨p', j, rfl⟩
        · rw [offset_of_not_index hlast] at hi ⊢
          exact h.element_of_folded hl' (by omega) hsame i hi
        · by_cases hzero : i = some 0
          · rw [hzero, offset_zero] at hi ⊢
            exact h.of_sameUpTo (hzero ▸ hsame) hi
          · obtain rfl : j = none := by
              cases j with
              | none => rfl
              | some k =>
                  have hlast := (hend (by omega)).resolve_left hzero k
                  exact absurd (by simp [Location.extend]) hlast
            have hp' : p'.path.length < z.maxDepth := by
              simp [Location.extend] at hlength
              omega
            rw [offset_summary p' hzero, child_of_short (l := p') hl' hp'] at hi ⊢
            exact h.of_sameUpTo hsame hi

end Covers

end Layout

end TaintAnalysis
