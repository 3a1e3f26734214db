import Mathlib.Data.List.Forall2
import TaintAnalysis.Taint.State

/-!
# Taint values and states as join semilattices

Everything the solver does to taint is a join or one of the three maps
`toIndirect`, `toFull` and `substitute`, and everything proved about it is an
inequality. This file has the laws for that: the order of values is the order
of their kinds source by source, `join` and `joins` are least upper bounds, the
maps are monotone, and `grows` is the negation of the order. States inherit all
of it variable by variable.

`Value.Clean` is the other reading of a value: whether a source occurs in it at
all. No map of kinds adds or removes a source, so absence is kept both ways.
-/

namespace TaintAnalysis

namespace Kind

theorem and_three_comm {p q r p' q' r' : Prop} :
    (p ∧ p') ∧ (q ∧ q') ∧ r ∧ r' ↔ (p ∧ q ∧ r) ∧ p' ∧ q' ∧ r' := by
  rw [@and_and_and_comm q q' r r', and_and_and_comm]

theorem le_refl (a : Kind) : a ≤ a :=
  le_def.2 ⟨id, id, id⟩

theorem le_trans {a b c : Kind} (hab : a ≤ b) (hbc : b ≤ c) : a ≤ c := by
  rw [le_def] at hab hbc ⊢
  exact ⟨hbc.1 ∘ hab.1, hbc.2.1 ∘ hab.2.1, hbc.2.2 ∘ hab.2.2⟩

theorem le_antisymm {a b : Kind} (hab : a ≤ b) (hba : b ≤ a) : a = b := by
  rw [← union_eq_right_iff] at hab hba
  rw [← hab, union_comm, hba]

theorem none_le (a : Kind) : none ≤ a :=
  le_def.2 ⟨nofun, nofun, nofun⟩

theorem union_le_iff {a b c : Kind} : a ∪ b ≤ c ↔ a ≤ c ∧ b ≤ c := by
  obtain ⟨a₁, a₂, a₃⟩ := a
  obtain ⟨b₁, b₂, b₃⟩ := b
  rw [show (⟨a₁, a₂, a₃⟩ ∪ ⟨b₁, b₂, b₃⟩ : Kind) = ⟨a₁ || b₁, a₂ || b₂, a₃ || b₃⟩ from rfl,
    le_def, le_def, le_def]
  simp only [Bool.or_eq_true, or_imp]
  exact and_three_comm

theorem toIndirect_mono {a b : Kind} (h : a ≤ b) : a.toIndirect ≤ b.toIndirect := by
  rw [le_def] at h ⊢
  refine ⟨nofun, ?_, h.2.2⟩
  intro ha
  rcases (Bool.or_eq_true _ _).mp ha with hd | hi
  · exact (Bool.or_eq_true _ _).mpr (.inl (h.1 hd))
  · exact (Bool.or_eq_true _ _).mpr (.inr (h.2.1 hi))

theorem toFull_mono {a b : Kind} (h : a ≤ b) : a.toFull ≤ b.toFull := by
  rw [le_def] at h ⊢
  refine ⟨nofun, nofun, ?_⟩
  intro ha
  simp only [toFull, Bool.or_eq_true] at ha ⊢
  exact ha.imp (Or.imp h.1 h.2.1) h.2.2

/-- A kind that comprises more is no less grave. -/
theorem rank_tier_mono {a b : Kind} (h : a ≤ b) : a.tier.rank ≤ b.tier.rank := by
  rw [le_def] at h
  obtain ⟨a₁, a₂, a₃⟩ := a
  obtain ⟨b₁, b₂, b₃⟩ := b
  revert h
  cases a₁ <;> cases a₂ <;> cases a₃ <;> cases b₁ <;> cases b₂ <;> cases b₃ <;> decide

theorem toIndirect_eq_none_iff {a : Kind} : a.toIndirect = none ↔ a = none := by
  obtain ⟨a₁, a₂, a₃⟩ := a
  cases a₁ <;> cases a₂ <;> cases a₃ <;> decide

theorem union_eq_none_iff {a b : Kind} : a ∪ b = none ↔ a = none ∧ b = none := by
  constructor
  · intro h
    have hle : a ∪ b ≤ none := h ▸ le_refl none
    obtain ⟨ha, hb⟩ := union_le_iff.mp hle
    exact ⟨le_antisymm ha (none_le a), le_antisymm hb (none_le b)⟩
  · intro hex
    obtain ⟨rfl, rfl⟩ := hex
    rfl

end Kind

/-- The rank of the graver one of two tiers. -/
theorem Tier.rank_join (a b : Tier) : (Tier.max a b).rank = Nat.max a.rank b.rank := by
  rw [Tier.max]
  split
  · next h => exact (Nat.max_eq_right h).symm
  · next h => exact (Nat.max_eq_left (Nat.le_of_not_le h)).symm

namespace Value

variable {u v w : Value}

/-! ## The order -/

theorem le_refl (u : Value) : u ≤ u :=
  le_iff.2 fun s => Kind.le_refl (u.kindOf s)

theorem le_trans (huv : u ≤ v) (hvw : v ≤ w) : u ≤ w :=
  le_iff.2 fun s => Kind.le_trans (le_iff.1 huv s) (le_iff.1 hvw s)

theorem le_antisymm (huv : u ≤ v) (hvu : v ≤ u) : u = v :=
  ext fun s => Kind.le_antisymm (le_iff.1 huv s) (le_iff.1 hvu s)

instance : Trans (· ≤ · : Value → Value → Prop) (· ≤ ·) (· ≤ ·) := ⟨le_trans⟩

theorem bottom_le (u : Value) : bottom ≤ u :=
  le_iff.2 fun _ => Kind.none_le _

theorem le_bottom_iff : u ≤ bottom ↔ u = bottom :=
  ⟨fun h => le_antisymm h (bottom_le u), fun h => h ▸ le_refl u⟩

theorem isBottom_iff : u.isBottom = true ↔ u = bottom := by
  constructor
  · intro h
    obtain ⟨entries, hasc, hinh⟩ := u
    obtain rfl := List.isEmpty_iff.mp h
    rfl
  · rintro rfl
    rfl

/-! ## Joins -/

theorem join_le_iff : u.join v ≤ w ↔ u ≤ w ∧ v ≤ w := by
  simp only [le_iff, kindOf_join, Kind.union_le_iff]
  exact forall_and

theorem le_join_left (u v : Value) : u ≤ u.join v :=
  (join_le_iff.mp (le_refl _)).1

theorem le_join_right (u v : Value) : v ≤ u.join v :=
  (join_le_iff.mp (le_refl _)).2

theorem join_le (hu : u ≤ w) (hv : v ≤ w) : u.join v ≤ w :=
  join_le_iff.mpr ⟨hu, hv⟩

theorem join_mono {u' v' : Value} (hu : u ≤ u') (hv : v ≤ v') : u.join v ≤ u'.join v' :=
  join_le (le_trans hu (le_join_left u' v')) (le_trans hv (le_join_right u' v'))

theorem join_assoc (u v w : Value) : (u.join v).join w = u.join (v.join w) := by
  have hu := le_join_left u (v.join w)
  obtain ⟨hv, hw⟩ := join_le_iff.mp (le_join_right u (v.join w))
  obtain ⟨hu', hv'⟩ := join_le_iff.mp (le_join_left (u.join v) w)
  exact le_antisymm (join_le (join_le hu hv) hw)
    (join_le hu' (join_le hv' (le_join_right (u.join v) w)))

theorem join_eq_left_iff : u.join v = u ↔ v ≤ u :=
  ⟨fun h => h ▸ le_join_right u v,
    fun h => le_antisymm (join_le (le_refl u) h) (le_join_left u v)⟩

@[simp] theorem join_bottom (u : Value) : u.join bottom = u :=
  join_eq_left_iff.mpr (bottom_le u)

theorem grows_iff : u.grows v = true ↔ ¬ v ≤ u := by
  rw [grows, decide_eq_true_iff, Ne, join_eq_left_iff]

theorem le_of_not_grows (h : ¬ u.grows v = true) : v ≤ u :=
  Classical.not_not.mp fun hv => h (grows_iff.mpr hv)

theorem joins_le_iff {vs : List Value} : joins vs ≤ w ↔ ∀ v ∈ vs, v ≤ w := by
  induction vs with
  | nil => simp only [joins, List.foldr_nil, bottom_le, List.not_mem_nil, false_implies,
      implies_true]
  | cons a rest ih =>
      rw [show joins (a :: rest) = a.join (joins rest) from rfl, join_le_iff, ih]
      simp only [List.mem_cons, forall_eq_or_imp]

theorem le_joins {vs : List Value} (h : v ∈ vs) : v ≤ joins vs :=
  joins_le_iff.mp (le_refl _) v h

/-- A join grows with what is joined: every value on the left is covered on the right. -/
theorem joins_mono {us vs : List Value} (h : ∀ u ∈ us, ∃ v ∈ vs, u ≤ v) :
    joins us ≤ joins vs := by
  refine joins_le_iff.mpr ?_
  intro u hu
  obtain ⟨v, hv, huv⟩ := h u hu
  exact le_trans huv (le_joins hv)

theorem joins_map_mono {α : Type} {f g : α → Value} {l : List α} (h : ∀ x ∈ l, f x ≤ g x) :
    joins (l.map f) ≤ joins (l.map g) := by
  refine joins_mono ?_
  intro u hu
  obtain ⟨x, hx, rfl⟩ := List.mem_map.mp hu
  exact ⟨g x, List.mem_map.mpr ⟨x, hx, rfl⟩, h x hx⟩

/-! ## The maps -/

theorem toIndirect_mono (h : u ≤ v) : u.toIndirect ≤ v.toIndirect := by
  refine le_iff.mpr ?_
  intro s
  rw [kindOf_toIndirect, kindOf_toIndirect]
  exact Kind.toIndirect_mono (le_iff.mp h s)

theorem toFull_mono (h : u ≤ v) : u.toFull ≤ v.toFull := by
  refine le_iff.mpr ?_
  intro s
  rw [kindOf_toFull, kindOf_toFull]
  exact Kind.toFull_mono (le_iff.mp h s)

theorem throughFormal_mono {k l : Kind} (hk : k ≤ l) (h : u ≤ v) :
    throughFormal k u ≤ throughFormal l v := by
  obtain ⟨hd, hi, hf⟩ := Kind.le_def.mp hk
  have part {c d : Bool} {a b : Value} (hcd : c = true → d = true) (hab : a ≤ b) :
      ∀ x ∈ (if c then [a] else []), ∃ y ∈ (if d then [b] else []), x ≤ y := by
    intro x hx
    cases c with
    | false => exact absurd hx List.not_mem_nil
    | true =>
        rw [hcd rfl]
        obtain rfl := List.mem_singleton.mp hx
        exact ⟨b, List.mem_singleton.mpr rfl, hab⟩
  refine joins_mono ?_
  intro x hx
  rcases List.mem_append.mp hx with hx | hx
  · rcases List.mem_append.mp hx with hx | hx
    · obtain ⟨y, hy, hxy⟩ := part hd h x hx
      exact ⟨y, List.mem_append_left _ (List.mem_append_left _ hy), hxy⟩
    · obtain ⟨y, hy, hxy⟩ := part hi (toIndirect_mono h) x hx
      exact ⟨y, List.mem_append_left _ (List.mem_append_right _ hy), hxy⟩
  · obtain ⟨y, hy, hxy⟩ := part hf (toFull_mono h) x hx
    exact ⟨y, List.mem_append_right _ hy, hxy⟩

theorem mem_entries_iff {s : SourceId} {k : Kind} :
    (s, k) ∈ v.entries ↔ v.kindOf s = k ∧ k ≠ Kind.none := by
  rw [entries_eq, List.mem_map]
  constructor
  · intro hex
    obtain ⟨t, ht, he⟩ := hex
    obtain ⟨rfl, rfl⟩ := Prod.mk.inj he
    exact ⟨rfl, mem_sources.mp ht⟩
  · intro hex
    obtain ⟨rfl, hk⟩ := hex
    exact ⟨s, mem_sources.mpr hk, rfl⟩

theorem rank_foldl_max_le_iff {es : List (SourceId × Kind)} {t : Tier} {n : Nat} :
    (es.foldl (fun t e => t.max e.2.tier) t).rank ≤ n ↔
      t.rank ≤ n ∧ ∀ e ∈ es, e.2.tier.rank ≤ n := by
  induction es generalizing t with
  | nil => exact ⟨fun h => ⟨h, nofun⟩, And.left⟩
  | cons e rest ih =>
      rw [List.foldl_cons, ih, Tier.rank_join, Nat.max_le, List.forall_mem_cons, and_assoc]

/-- More taint is no less grave. -/
theorem rank_tier_mono (h : u ≤ v) : u.tier.rank ≤ v.tier.rank := by
  rw [tier, rank_foldl_max_le_iff]
  obtain ⟨hnone, hentries⟩ := rank_foldl_max_le_iff.mp (Nat.le_refl v.tier.rank)
  refine ⟨hnone, fun e he => ?_⟩
  obtain ⟨s, k⟩ := e
  obtain ⟨rfl, hk⟩ := mem_entries_iff.mp he
  have hle := le_iff.mp h s
  have hv : v.kindOf s ≠ Kind.none := fun hv =>
    hk (Kind.le_antisymm (hv ▸ hle) (Kind.none_le _))
  exact Nat.le_trans (Kind.rank_tier_mono hle) (hentries _ (mem_entries_iff.mpr ⟨rfl, hv⟩))

/-- An argument contributes what the value says of its formal parameter. -/
theorem throughFormal_le_substitute {xs : List Value} {s : SourceId} {k : Kind} {x : Value}
    (hx : xs[s]? = some x) (hk : k ≤ v.kindOf s) : throughFormal k x ≤ v.substitute xs := by
  by_cases hnone : v.kindOf s = Kind.none
  · rw [Kind.le_antisymm (hnone ▸ hk) (Kind.none_le k)]
    exact bottom_le _
  · refine le_trans (throughFormal_mono hk (le_refl x)) (le_joins (List.mem_map.mpr
      ⟨_, mem_entries_iff.mpr ⟨rfl, hnone⟩, ?_⟩))
    simp only [hx]

/-- A summary value says more to the caller if it says more itself and if the arguments are
more tainted. -/
theorem substitute_mono {xs ys : List Value} (huv : u ≤ v)
    (h : List.Forall₂ (· ≤ ·) xs ys) : u.substitute xs ≤ v.substitute ys := by
  refine joins_le_iff.mpr fun a ha => ?_
  obtain ⟨⟨s, k⟩, he, rfl⟩ := List.mem_map.mp ha
  simp only []
  cases hx : xs[s]? with
  | none => exact bottom_le _
  | some x =>
      obtain ⟨hs, rfl⟩ := List.getElem?_eq_some_iff.mp hx
      have hs' : s < ys.length := h.length_eq ▸ hs
      exact le_trans (throughFormal_mono ((mem_entries_iff.mp he).1 ▸ le_iff.mp huv s)
        (h.get hs hs'))
        (throughFormal_le_substitute (List.getElem?_eq_getElem hs') (Kind.le_refl _))

/-! ## Absence of a source -/

/-- The source does not occur in the value. -/
def Clean (s : SourceId) (v : Value) : Prop :=
  v.kindOf s = Kind.none

theorem clean_iff_not_mem {s : SourceId} : Clean s v ↔ s ∉ v.sources := by
  rw [mem_sources, Classical.not_not]
  exact Iff.rfl

theorem Clean.of_le {s : SourceId} (hv : Clean s v) (h : u ≤ v) : Clean s u :=
  Kind.le_antisymm (hv ▸ le_iff.mp h s) (Kind.none_le _)

@[simp] theorem clean_bottom (s : SourceId) : Clean s bottom := kindOf_bottom s

@[simp] theorem clean_join {s : SourceId} : Clean s (u.join v) ↔ Clean s u ∧ Clean s v := by
  rw [Clean, kindOf_join, Kind.union_eq_none_iff]
  exact Iff.rfl

@[simp] theorem clean_toIndirect {s : SourceId} : Clean s u.toIndirect ↔ Clean s u := by
  rw [Clean, kindOf_toIndirect, Kind.toIndirect_eq_none_iff]
  exact Iff.rfl

end Value

/-! ## States -/

namespace State

variable {s t u : State}

/-- A variable past the end has no taint. -/
theorem get_of_length_le {v : VarId} (h : s.vars.length ≤ v) : s.get v = Value.bottom := by
  rw [get, List.getD_eq_getElem?_getD, List.getElem?_eq_none h]
  rfl

theorem le_iff : s ≤ t ↔ ∀ v, s.get v ≤ t.get v := by
  show (s.vars.zipIdx.all fun p => p.1.le (t.get p.2)) = true ↔ _
  rw [List.all_eq_true]
  constructor
  · intro h v
    by_cases hv : v < s.vars.length
    · have hmem : (s.vars[v], v) ∈ s.vars.zipIdx := by
        rw [List.mem_zipIdx_iff_getElem?]
        exact List.getElem?_eq_getElem hv
      have hget : s.get v = s.vars[v] := by
        rw [get, List.getD_eq_getElem?_getD, List.getElem?_eq_getElem hv]
        rfl
      rw [hget]
      exact h _ hmem
    · rw [get_of_length_le (Nat.le_of_not_lt hv)]
      exact Value.bottom_le _
  · rintro h ⟨a, i⟩ hmem
    rw [List.mem_zipIdx_iff_getElem?] at hmem
    have hget : s.get i = a := by
      rw [get, List.getD_eq_getElem?_getD, hmem]
      rfl
    exact hget ▸ h i

theorem le_refl (s : State) : s ≤ s :=
  le_iff.mpr fun v => Value.le_refl (s.get v)

theorem le_trans (hst : s ≤ t) (htu : t ≤ u) : s ≤ u :=
  le_iff.mpr fun v => Value.le_trans (le_iff.mp hst v) (le_iff.mp htu v)

instance : Trans (· ≤ · : State → State → Prop) (· ≤ ·) (· ≤ ·) := ⟨le_trans⟩

/-- States over the same variables that have the same taints are equal. -/
theorem ext_get (hlen : s.vars.length = t.vars.length) (h : ∀ v, s.get v = t.get v) : s = t := by
  obtain ⟨l⟩ := s
  obtain ⟨r⟩ := t
  congr 1
  refine List.ext_getElem hlen ?_
  intro i hl hr
  have := h i
  rw [get, get, List.getD_eq_getElem?_getD, List.getD_eq_getElem?_getD,
    List.getElem?_eq_getElem hl, List.getElem?_eq_getElem hr] at this
  exact this

theorem le_antisymm (hlen : s.vars.length = t.vars.length) (hst : s ≤ t) (hts : t ≤ s) :
    s = t :=
  ext_get hlen fun v => Value.le_antisymm (le_iff.mp hst v) (le_iff.mp hts v)

theorem untainted_le (n : Nat) (s : State) : untainted n ≤ s := by
  refine le_iff.mpr ?_
  intro v
  rw [get_untainted]
  exact Value.bottom_le _

@[simp] theorem length_untainted (n : Nat) : (untainted n).vars.length = n :=
  List.length_replicate

@[simp] theorem length_set (s : State) (v : VarId) (value : Value) :
    (s.set v value).vars.length = s.vars.length :=
  List.length_set

theorem length_pad (s : State) (n : Nat) : (s.pad n).vars.length = max s.vars.length n := by
  rw [pad, List.length_append, List.length_replicate]
  omega

theorem length_join (s t : State) :
    (s.join t).vars.length = max s.vars.length t.vars.length := by
  rw [join, List.length_mapIdx, length_pad]

@[simp] theorem get_join (s t : State) (v : VarId) :
    (s.join t).get v = (s.get v).join (t.get v) := by
  have hpad : (s.pad t.vars.length).vars[v]?.getD Value.bottom = s.get v := by
    rw [← List.getD_eq_getElem?_getD]
    exact get_pad s t.vars.length v
  rw [get, join, List.getD_eq_getElem?_getD, List.getElem?_mapIdx]
  cases hv : (s.pad t.vars.length).vars[v]? with
  | some a =>
      rw [hv] at hpad
      rw [← hpad]
      rfl
  | none =>
      -- past the padding neither state has the variable
      rw [hv] at hpad
      have hlen := List.getElem?_eq_none_iff.mp hv
      rw [length_pad] at hlen
      rw [← hpad, get_of_length_le (s := t) (by omega)]
      rfl

theorem join_le_iff : s.join t ≤ u ↔ s ≤ u ∧ t ≤ u := by
  simp only [le_iff, get_join, Value.join_le_iff]
  exact forall_and

theorem le_join_left (s t : State) : s ≤ s.join t :=
  (join_le_iff.mp (le_refl _)).1

theorem le_join_right (s t : State) : t ≤ s.join t :=
  (join_le_iff.mp (le_refl _)).2

theorem join_le (hs : s ≤ u) (ht : t ≤ u) : s.join t ≤ u :=
  join_le_iff.mpr ⟨hs, ht⟩

theorem foldl_join_le_iff {ts : List State} :
    ts.foldl State.join s ≤ u ↔ s ≤ u ∧ ∀ t ∈ ts, t ≤ u := by
  induction ts generalizing s with
  | nil => simp only [List.foldl_nil, List.not_mem_nil, false_implies, implies_true, and_true]
  | cons t rest ih =>
      rw [List.foldl_cons, ih, join_le_iff, List.forall_mem_cons, and_assoc]

theorem le_length_foldl_join {ts : List State} :
    s.vars.length ≤ (ts.foldl State.join s).vars.length := by
  induction ts generalizing s with
  | nil => exact Nat.le_refl _
  | cons t rest ih =>
      have := ih (s := s.join t)
      rw [length_join] at this
      exact Nat.le_trans (Nat.le_max_left _ _) this

theorem length_foldl_join_le {ts : List State} {n : Nat} (hs : s.vars.length ≤ n)
    (hts : ∀ t ∈ ts, t.vars.length ≤ n) : (ts.foldl State.join s).vars.length ≤ n := by
  induction ts generalizing s with
  | nil => exact hs
  | cons t rest ih =>
      refine ih ?_ fun t' ht' => hts t' (List.mem_cons_of_mem t ht')
      rw [length_join]
      exact Nat.max_le.mpr ⟨hs, hts t List.mem_cons_self⟩

/-- Joining a smaller state over the same variables changes nothing. -/
theorem join_eq_left (hlen : t.vars.length ≤ s.vars.length) (h : t ≤ s) : s.join t = s := by
  refine le_antisymm ?_ (join_le (le_refl s) h) (le_join_left s t)
  rw [length_join]
  omega

theorem grows_iff : s.grows t = true ↔ ¬ t ≤ s := by
  rw [grows, decide_eq_true_iff, not_iff_not]
  constructor
  · intro h
    refine le_iff.mpr ?_
    intro v
    have hv := congrArg (State.get · v) h
    simp only [get_join, get_pad] at hv
    exact Value.join_eq_left_iff.mp hv
  · intro h
    refine ext_get (by rw [length_join, length_pad]) ?_
    intro v
    rw [get_join, get_pad]
    exact Value.join_eq_left_iff.mpr (le_iff.mp h v)

theorem le_of_not_grows (h : ¬ s.grows t = true) : t ≤ s :=
  Classical.not_not.mp fun ht => h (grows_iff.mpr ht)

theorem set_mono {a b : Value} (v : VarId) (hlen : s.vars.length ≤ t.vars.length)
    (hst : s ≤ t) (hab : a ≤ b) : s.set v a ≤ t.set v b := by
  refine le_iff.mpr ?_
  intro w
  rw [get_set, get_set]
  by_cases hs : w = v ∧ v < s.vars.length
  · rw [if_pos hs, if_pos ⟨hs.1, Nat.lt_of_lt_of_le hs.2 hlen⟩]
    exact hab
  · rw [if_neg hs]
    split
    · next ht =>
      -- the variable is declared on the right alone, where it is anything above nothing
      have hw : s.vars.length ≤ w :=
        Nat.le_of_not_lt fun h => hs ⟨ht.1, ht.1 ▸ h⟩
      rw [get_of_length_le hw]
      exact Value.bottom_le _
    · exact le_iff.mp hst w

end State

end TaintAnalysis
