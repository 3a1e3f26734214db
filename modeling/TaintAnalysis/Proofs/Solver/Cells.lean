import TaintAnalysis.Memory.Location
import TaintAnalysis.Proofs.Taint.Order

/-!
# Taint of memory by path

The taint that memory holds, and what a computation writes to it, are both lists
of locations with a value each. A location may stand in such a list more than
once; what counts is the join of its values. Everything the solver asks of
memory is the join over the entries whose location has some property, so there
is one operation, `gather`, and one lemma about its order.

`c.Within d` says that `d` has at least the taint of `c` at every location. It
is the order in which cells are compared.
-/

namespace TaintAnalysis

/-- Values by location. The values of a location that is listed repeatedly are
joined. -/
abbrev Cells := List (Location × Value)

namespace Cells

variable {c d e : Cells} {l : Location} {v : Value}

/-- The joined values of the locations with a property. -/
def gather (c : Cells) (q : Location → Bool) : Value :=
  Value.joins ((c.filter fun e => q e.1).map Prod.snd)

/-- The value of one location. -/
def taintAt (c : Cells) (l : Location) : Value :=
  c.gather fun k => decide (k = l)

/-- The joined values of the locations that overlap one of a list. -/
def read (c : Cells) (ls : List Location) : Value :=
  c.gather fun k => ls.any fun l => k.overlaps l

/-- Every location has in `d` at least the value it has in `c`. -/
def Within (c d : Cells) : Prop :=
  ∀ e ∈ c, e.2 ≤ d.taintAt e.1

/-- Each value in `c` is at most what `d` has at the locations that are related to its location. -/
def Under (r : Location → Location → Prop) (c d : Cells) : Prop :=
  ∀ e ∈ c, ∀ v, (∀ e' ∈ d, r e'.1 e.1 → e'.2 ≤ v) → e.2 ≤ v

theorem gather_le_iff {q : Location → Bool} :
    c.gather q ≤ v ↔ ∀ e ∈ c, q e.1 = true → e.2 ≤ v := by
  rw [gather, Value.joins_le_iff]
  constructor
  · intro h e he hq
    exact h e.2 (List.mem_map.mpr ⟨e, List.mem_filter.mpr ⟨he, hq⟩, rfl⟩)
  · intro h w hw
    obtain ⟨e, he, rfl⟩ := List.mem_map.mp hw
    exact h e (List.mem_filter.mp he).1 (List.mem_filter.mp he).2

theorem le_gather {q : Location → Bool} {e : Location × Value} (he : e ∈ c) (hq : q e.1 = true) :
    e.2 ≤ c.gather q :=
  gather_le_iff.mp (Value.le_refl _) e he hq

theorem taintAt_le_iff : c.taintAt l ≤ v ↔ ∀ e ∈ c, e.1 = l → e.2 ≤ v := by
  rw [taintAt, gather_le_iff]
  simp only [decide_eq_true_eq]

theorem le_taintAt {e : Location × Value} (he : e ∈ c) : e.2 ≤ c.taintAt e.1 :=
  taintAt_le_iff.mp (Value.le_refl _) e he rfl

theorem taintAt_le_read {ls : List Location} {k : Location} (hl : l ∈ ls)
    (h : k.overlaps l = true) : c.taintAt k ≤ c.read ls :=
  taintAt_le_iff.mpr fun _ he hkey => le_gather he (List.any_eq_true.mpr ⟨l, hl, hkey ▸ h⟩)

theorem gather_append (q : Location → Bool) :
    (c ++ d).gather q = (c.gather q).join (d.gather q) := by
  refine Value.le_antisymm (gather_le_iff.mpr ?_) (Value.join_le ?_ ?_)
  · intro e he hq
    rcases List.mem_append.mp he with he | he
    · exact Value.le_trans (le_gather he hq) (Value.le_join_left _ _)
    · exact Value.le_trans (le_gather he hq) (Value.le_join_right _ _)
  · exact gather_le_iff.mpr fun e he hq => le_gather (List.mem_append_left _ he) hq
  · exact gather_le_iff.mpr fun e he hq => le_gather (List.mem_append_right _ he) hq

theorem taintAt_append (l : Location) :
    (c ++ d).taintAt l = (c.taintAt l).join (d.taintAt l) :=
  gather_append _

/-! ## The order -/

theorem within_iff : c.Within d ↔ ∀ l, c.taintAt l ≤ d.taintAt l := by
  constructor
  · intro h l
    rw [taintAt_le_iff]
    rintro e he rfl
    exact h e he
  · intro h e he
    exact Value.le_trans (le_taintAt he) (h e.1)

namespace Within

theorem refl (c : Cells) : c.Within c :=
  fun _ he => le_taintAt he

theorem trans (hcd : c.Within d) (hde : d.Within e) : c.Within e :=
  within_iff.mpr fun l => Value.le_trans (within_iff.mp hcd l) (within_iff.mp hde l)

theorem nil (c : Cells) : Within [] c :=
  fun _ he => absurd he List.not_mem_nil

theorem left (c d : Cells) : c.Within (c ++ d) :=
  fun _ he => le_taintAt (List.mem_append_left d he)

theorem right (c d : Cells) : d.Within (c ++ d) :=
  fun _ he => le_taintAt (List.mem_append_right c he)

theorem append (hc : c.Within e) (hd : d.Within e) : Within (c ++ d) e :=
  fun x hx => (List.mem_append.mp hx).elim (hc x) (hd x)

theorem append_mono {c' d' : Cells} (hc : c.Within c') (hd : d.Within d') :
    Within (c ++ d) (c' ++ d') :=
  append (hc.trans (left c' d')) (hd.trans (right c' d'))

/-- Entry by entry is enough. -/
theorem of_entries (h : ∀ x ∈ c, ∃ y ∈ d, y.1 = x.1 ∧ x.2 ≤ y.2) : c.Within d := by
  intro x hx
  obtain ⟨y, hy, hl, hv⟩ := h x hx
  exact hl ▸ Value.le_trans hv (le_taintAt hy)

/-- More taint everywhere is more taint among the locations with a property. -/
theorem gather_mono (h : c.Within d) (q : Location → Bool) : c.gather q ≤ d.gather q := by
  rw [gather_le_iff]
  intro x hx hq
  refine Value.le_trans (h x hx) (taintAt_le_iff.mpr ?_)
  rintro y hy hl
  exact le_gather hy (hl ▸ hq)

end Within

/-! ## Up to a relation between locations -/

theorem within_iff_under : c.Within d ↔ c.Under (· = ·) d := by
  constructor
  · intro h e he v hv
    exact Value.le_trans (h e he) (taintAt_le_iff.mpr hv)
  · intro h e he
    exact h e he _ fun e' he' hl => hl ▸ le_taintAt he'

namespace Under

variable {r : Location → Location → Prop}

theorem nil (r : Location → Location → Prop) (c : Cells) : Under r [] c :=
  fun _ he => absurd he List.not_mem_nil

theorem append (hc : c.Under r e) (hd : d.Under r e) : Under r (c ++ d) e :=
  fun x hx => (List.mem_append.mp hx).elim (hc x) (hd x)

theorem trans_within (h : c.Under r d) (h' : d.Within e) : c.Under r e := by
  intro x hx v hv
  refine h x hx v fun y hy hr => Value.le_trans (h' y hy) (taintAt_le_iff.mpr fun z hz hl => ?_)
  exact hv z hz (hl ▸ hr)

theorem within_trans (h : d.Under r e) (h' : c.Within d) : c.Under r e := by
  intro x hx v hv
  exact Value.le_trans (h' x hx)
    (taintAt_le_iff.mpr fun y hy hl => h y hy v fun z hz hr => hv z hz (hl ▸ hr))

theorem append_mono {c' d' : Cells} (hc : c.Under r c') (hd : d.Under r d') :
    Under r (c ++ d) (c' ++ d') :=
  append (hc.trans_within (.left c' d')) (hd.trans_within (.right c' d'))

/-- Entry by entry is enough. -/
theorem of_entries (h : ∀ x ∈ c, ∃ y ∈ d, r y.1 x.1 ∧ x.2 ≤ y.2) : c.Under r d := by
  intro x hx v hv
  obtain ⟨y, hy, hr, hle⟩ := h x hx
  exact Value.le_trans hle (hv y hy hr)

theorem gather_le {q q' : Location → Bool} (h : c.Under r d)
    (hq : ∀ l l', r l' l → q l = true → q' l' = true) : c.gather q ≤ d.gather q' := by
  rw [gather_le_iff]
  exact fun x hx hqx => h x hx _ fun y hy hr => le_gather hy (hq _ _ hr hqx)

/-- What overlaps one of some locations is read together with them. -/
theorem read_le {ls ls' : List Location} (h : c.Under r d)
    (hr : ∀ l l' k k', r l' l → r k' k → l.overlaps k = true → l'.overlaps k' = true)
    (hls : ∀ l ∈ ls, ∃ l' ∈ ls', r l' l) : c.read ls ≤ d.read ls' := by
  refine h.gather_le fun k k' hk hover => ?_
  obtain ⟨l, hl, hover⟩ := List.any_eq_true.mp hover
  obtain ⟨l', hl', hrel⟩ := hls l hl
  exact List.any_eq_true.mpr ⟨l', hl', hr _ _ _ _ hk hrel hover⟩

end Under

end Cells

end TaintAnalysis
