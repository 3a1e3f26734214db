import TaintAnalysis.Proofs.Taint.Order

/-!
# Substitution composes summaries

A summary says of each result of a function on which formal parameters it
depends, and a call puts the arguments in their places. Read as matrices, with
a row to each result and a column to each source, that is a product: the entry
for a result and a source joins, over all formal parameters, what becomes of
the dependence on the parameter and of the parameter's dependence on the
source. The scalars are the sets of kinds, with union for the sum and
`Kind.through` for the product.

So everything about substitution comes from two facts. `Kind.through` is
associative, has `directOnly` for its unit and distributes over unions on both
sides; and `additive_substitute_le_iff` reads an entry of the product, also
under a map of kinds that respects unions, which is what lets one product be
read inside another.
-/

namespace TaintAnalysis

namespace Kind

/-! ## Kinds one behind the other -/

/-- The kinds of dependence on a source that come of depending with the kinds `k` on
something that depends with the kinds `l` on the source. -/
def through (k l : Kind) : Kind :=
  (if k.direct then l else none)
    ∪ (if k.indirect then l.toIndirect else none)
    ∪ (if k.full then l.toFull else none)

/-- A map of kinds that may be taken of the parts of a union one by one. -/
structure Additive (f : Kind → Kind) : Prop where
  none : f none = none
  union : ∀ a b, f (a ∪ b) = f a ∪ f b

variable {a b k l m : Kind}

theorem eq_of_le_iff (h : ∀ m, a ≤ m ↔ b ≤ m) : a = b :=
  le_antisymm ((h b).mpr (le_refl b)) ((h a).mp (le_refl a))

theorem toIndirect_union (a b : Kind) : (a ∪ b).toIndirect = a.toIndirect ∪ b.toIndirect := by
  show toIndirect (union _ _) = union _ _
  obtain ⟨a₁, a₂, a₃⟩ := a
  cases a₁ <;> cases a₂ <;> simp [toIndirect, union]

theorem toFull_union (a b : Kind) : (a ∪ b).toFull = a.toFull ∪ b.toFull := by
  show toFull (union _ _) = union _ _
  obtain ⟨a₁, a₂, a₃⟩ := a
  cases a₁ <;> cases a₂ <;> cases a₃ <;> simp [toFull, union]

theorem through_le_iff : k.through l ≤ m ↔
    (k.direct = true → l ≤ m) ∧ (k.indirect = true → l.toIndirect ≤ m)
      ∧ (k.full = true → l.toFull ≤ m) := by
  have part (c : Bool) (a : Kind) : (if c then a else none) ≤ m ↔ (c = true → a ≤ m) := by
    cases c with
    | false => exact iff_of_true (none_le m) nofun
    | true => exact ⟨fun h _ => h, fun h => h rfl⟩
  rw [through, union_le_iff, union_le_iff, part, part, part, and_assoc]

@[simp] theorem through_none (k : Kind) : k.through none = none := by
  refine le_antisymm (through_le_iff.mpr ?_) (none_le _)
  exact ⟨fun _ => le_refl none, fun _ => le_refl none, fun _ => le_refl none⟩

@[simp] theorem none_through (l : Kind) : none.through l = none :=
  le_antisymm (through_le_iff.mpr ⟨nofun, nofun, nofun⟩) (none_le _)

@[simp] theorem directOnly_through (l : Kind) : directOnly.through l = l :=
  eq_of_le_iff fun _ => through_le_iff.trans
    ⟨fun h => h.1 rfl, fun h => ⟨fun _ => h, nofun, nofun⟩⟩

@[simp] theorem through_directOnly (k : Kind) : k.through directOnly = k := by
  obtain ⟨k₁, k₂, k₃⟩ := k
  cases k₁ <;> cases k₂ <;> cases k₃ <;> rfl

theorem union_through (a b l : Kind) : (a ∪ b).through l = a.through l ∪ b.through l := by
  refine eq_of_le_iff fun m => ?_
  have hor (c d : Bool) (p : Prop) : (c || d) = true → p ↔ (c = true → p) ∧ (d = true → p) := by
    rw [Bool.or_eq_true, or_imp]
  rw [union_le_iff, through_le_iff, through_le_iff, through_le_iff]
  show ((a.direct || b.direct) = true → _) ∧ ((a.indirect || b.indirect) = true → _)
    ∧ ((a.full || b.full) = true → _) ↔ _
  rw [hor, hor, hor]
  exact and_three_comm

theorem through_union (k a b : Kind) : k.through (a ∪ b) = k.through a ∪ k.through b := by
  refine eq_of_le_iff fun m => ?_
  simp only [union_le_iff, through_le_iff, toIndirect_union, toFull_union, imp_and]
  exact and_three_comm

theorem additive_id : Additive id := ⟨rfl, fun _ _ => rfl⟩

theorem additive_through_left (l : Kind) : Additive (through · l) :=
  ⟨none_through l, fun a b => union_through a b l⟩

theorem additive_through_right (k : Kind) : Additive (through k) :=
  ⟨through_none k, through_union k⟩

/-- Demoting what comes of two dependences demotes the first. -/
theorem toIndirect_through (k l : Kind) : k.toIndirect.through l = (k.through l).toIndirect := by
  obtain ⟨k₁, k₂, k₃⟩ := k
  obtain ⟨l₁, l₂, l₃⟩ := l
  cases k₁ <;> cases k₂ <;> cases k₃ <;> cases l₁ <;> cases l₂ <;> cases l₃ <;> rfl

/-- Promoting what comes of two dependences promotes the first. -/
theorem toFull_through (k l : Kind) : k.toFull.through l = (k.through l).toFull := by
  obtain ⟨k₁, k₂, k₃⟩ := k
  obtain ⟨l₁, l₂, l₃⟩ := l
  cases k₁ <;> cases k₂ <;> cases k₃ <;> cases l₁ <;> cases l₂ <;> cases l₃ <;> rfl

theorem through_assoc (k l m : Kind) : (k.through l).through m = k.through (l.through m) := by
  have part (c : Bool) (a : Kind) :
      (if c then a else none).through m = if c then a.through m else none := by
    cases c with
    | false => exact none_through m
    | true => rfl
  show through (_ ∪ _ ∪ _) m = _
  rw [union_through, union_through, part, part, part, toIndirect_through, toFull_through]
  rfl

end Kind

namespace Value

variable {u v w : Value} {xs ys : List Value}

/-- The value of an argument; a formal parameter past the last argument has no taint. -/
def argument (xs : List Value) (s : SourceId) : Value :=
  xs.getD s bottom

/-- The joins of the arguments of two calls, place by place. The shorter list stands for
its arguments and untainted ones behind them. -/
def joinArguments (xs ys : List Value) : List Value :=
  List.zipWithAll (fun x y => (x.getD bottom).join (y.getD bottom)) xs ys

theorem eq_of_kindOf_le_iff (h : ∀ t m, u.kindOf t ≤ m ↔ v.kindOf t ≤ m) : u = v :=
  ext fun t => Kind.eq_of_le_iff (h t)

theorem argument_of_some {s : SourceId} {x : Value} (h : xs[s]? = some x) :
    argument xs s = x := by
  rw [argument, List.getD_eq_getElem?_getD, h]
  rfl

theorem argument_joinArguments (xs ys : List Value) (s : SourceId) :
    argument (joinArguments xs ys) s = (argument xs s).join (argument ys s) := by
  simp only [argument, joinArguments, List.getD_eq_getElem?_getD, List.getElem?_zipWithAll]
  cases hx : xs[s]? with
  | some x => rfl
  | none =>
      cases hy : ys[s]? with
      | some y => rfl
      | none => rfl

theorem argument_map_substitute (xs ys : List Value) (s : SourceId) :
    argument (xs.map (·.substitute ys)) s = (argument xs s).substitute ys := by
  simp only [argument, List.getD_eq_getElem?_getD, List.getElem?_map]
  cases hx : xs[s]? with
  | some x => rfl
  | none => rfl

theorem kindOf_throughFormal (k : Kind) (x : Value) (t : SourceId) :
    (throughFormal k x).kindOf t = k.through (x.kindOf t) := by
  refine Kind.eq_of_le_iff fun m => ?_
  obtain ⟨k₁, k₂, k₃⟩ := k
  cases k₁ <;> cases k₂ <;> cases k₃ <;>
    simp [throughFormal, joins, Kind.through, Kind.union_le_iff, and_assoc]

/-- An additive map of the kinds of a join is bounded where it is for every part. -/
theorem additive_joins_le_iff {f : Kind → Kind} (hf : Kind.Additive f) {vs : List Value}
    {t : SourceId} {m : Kind} : f ((joins vs).kindOf t) ≤ m ↔ ∀ v ∈ vs, f (v.kindOf t) ≤ m := by
  induction vs with
  | nil => exact iff_of_true (hf.none ▸ Kind.none_le m) nofun
  | cons v rest ih =>
      rw [show joins (v :: rest) = v.join (joins rest) from rfl, kindOf_join, hf.union,
        Kind.union_le_iff, ih, List.forall_mem_cons]

theorem throughFormal_bottom (k : Kind) : throughFormal k bottom = bottom :=
  ext fun t => (kindOf_throughFormal k bottom t).trans (Kind.through_none k)

theorem substitute_eq_joins (v : Value) (xs : List Value) : v.substitute xs =
    joins (v.entries.map fun e => throughFormal e.2 (argument xs e.1)) := by
  rw [substitute]
  congr 1
  refine List.map_congr_left fun e _ => ?_
  split
  · next hx => rw [argument_of_some hx]
  · next hx =>
    rw [argument, List.getD_eq_getElem?_getD, hx]
    exact (throughFormal_bottom e.2).symm

/-- The entries of the product: the dependence on a source, under an additive map, is
bounded where it is by way of each formal parameter. -/
theorem additive_substitute_le_iff {f : Kind → Kind} (hf : Kind.Additive f) {t : SourceId}
    {m : Kind} : f ((v.substitute xs).kindOf t) ≤ m ↔
      ∀ s, f ((v.kindOf s).through ((argument xs s).kindOf t)) ≤ m := by
  rw [substitute_eq_joins, additive_joins_le_iff hf, List.forall_mem_map]
  simp only [kindOf_throughFormal]
  constructor
  · intro h s
    by_cases hs : v.kindOf s = Kind.none
    · rw [hs, Kind.none_through, hf.none]
      exact Kind.none_le m
    · exact h (s, v.kindOf s) (mem_entries_iff.mpr ⟨rfl, hs⟩)
  · intro h e he
    obtain ⟨hk, -⟩ := mem_entries_iff.mp (show (e.1, e.2) ∈ v.entries from he)
    exact hk ▸ h e.1

theorem substitute_kindOf_le_iff {t : SourceId} {m : Kind} :
    (v.substitute xs).kindOf t ≤ m ↔
      ∀ s, (v.kindOf s).through ((argument xs s).kindOf t) ≤ m :=
  additive_substitute_le_iff Kind.additive_id

/-! ## The laws of the product -/

theorem join_substitute (u v : Value) (xs : List Value) :
    (u.join v).substitute xs = (u.substitute xs).join (v.substitute xs) := by
  refine eq_of_kindOf_le_iff fun t m => ?_
  simp only [kindOf_join, Kind.union_le_iff, substitute_kindOf_le_iff, Kind.union_through]
  exact forall_and

theorem substitute_joinArguments (v : Value) (xs ys : List Value) :
    v.substitute (joinArguments xs ys) = (v.substitute xs).join (v.substitute ys) := by
  refine eq_of_kindOf_le_iff fun t m => ?_
  simp only [kindOf_join, Kind.union_le_iff, substitute_kindOf_le_iff, argument_joinArguments,
    Kind.through_union]
  exact forall_and

/-- Substitution only reads the values of the arguments, not how many there are. -/
theorem substitute_congr (h : ∀ s, argument xs s = argument ys s) :
    v.substitute xs = v.substitute ys :=
  eq_of_kindOf_le_iff fun t m => by simp only [substitute_kindOf_le_iff, h]

/-- Both a larger value and larger arguments, in any number, make the result larger. -/
theorem substitute_le_substitute (huv : u ≤ v) (hxy : ∀ s, argument xs s ≤ argument ys s) :
    u.substitute xs ≤ v.substitute ys := by
  have hjoin : v.substitute ys = (u.join v).substitute (joinArguments xs ys) := by
    have hv : u.join v = v := le_antisymm (join_le huv (le_refl v)) (le_join_right u v)
    have hargs (s : SourceId) : argument (joinArguments xs ys) s = argument ys s := by
      rw [argument_joinArguments]
      exact le_antisymm (join_le (hxy s) (le_refl _)) (le_join_right _ _)
    rw [hv, substitute_congr hargs]
  rw [hjoin, join_substitute, substitute_joinArguments]
  exact le_trans (le_join_left _ _) (le_join_left _ _)

/-- Arguments that are the formal parameters themselves change nothing. -/
theorem substitute_formals (h : ∀ s ∈ v.sources, argument xs s = single s Kind.directOnly) :
    v.substitute xs = v := by
  refine eq_of_kindOf_le_iff fun t m => ?_
  have hentry (s : SourceId) : (v.kindOf s).through ((argument xs s).kindOf t) =
      if t = s then v.kindOf t else Kind.none := by
    by_cases hs : s ∈ v.sources
    · rw [h s hs, kindOf_single]
      split
      · next heq => rw [Kind.through_directOnly, heq]
      · exact Kind.through_none _
    · rw [mem_sources, Classical.not_not] at hs
      rw [hs, Kind.none_through]
      split
      · next heq => rw [heq, hs]
      · rfl
  simp only [substitute_kindOf_le_iff, hentry]
  constructor
  · intro hall
    have := hall t
    rwa [if_pos rfl] at this
  · intro hle s
    split
    · exact hle
    · exact Kind.none_le m

/-- Both sides join the same threefold products, over both formal parameters on the way. -/
theorem substitute_substitute (v : Value) (xs ys : List Value) :
    (v.substitute xs).substitute ys = v.substitute (xs.map (·.substitute ys)) := by
  refine eq_of_kindOf_le_iff fun t m => ?_
  calc ((v.substitute xs).substitute ys).kindOf t ≤ m
      ↔ ∀ s, ((v.substitute xs).kindOf s).through ((argument ys s).kindOf t) ≤ m :=
        substitute_kindOf_le_iff
    _ ↔ ∀ s r, ((v.kindOf r).through ((argument xs r).kindOf s)).through
          ((argument ys s).kindOf t) ≤ m :=
        forall_congr' fun s =>
          additive_substitute_le_iff (Kind.additive_through_left ((argument ys s).kindOf t))
    _ ↔ ∀ r s, (v.kindOf r).through
          (((argument xs r).kindOf s).through ((argument ys s).kindOf t)) ≤ m := by
        simp only [Kind.through_assoc]
        exact forall_comm
    _ ↔ ∀ r, (v.kindOf r).through (((argument xs r).substitute ys).kindOf t) ≤ m :=
        forall_congr' fun r =>
          (additive_substitute_le_iff (Kind.additive_through_right (v.kindOf r))).symm
    _ ↔ (v.substitute (xs.map (·.substitute ys))).kindOf t ≤ m := by
        simp only [substitute_kindOf_le_iff, argument_map_substitute]

/-- Substitution composes summaries: it respects joins, and with them the order, on both
sides, the formal parameters are its identity, and in a chain of calls it does not matter
whether the inner or the outer call is expanded first. -/
theorem substitute_composes (u v : Value) (xs ys : List Value) :
    (u.join v).substitute xs = (u.substitute xs).join (v.substitute xs)
      ∧ v.substitute (joinArguments xs ys) = (v.substitute xs).join (v.substitute ys)
      ∧ (u ≤ v → (∀ s, argument xs s ≤ argument ys s) → u.substitute xs ≤ v.substitute ys)
      ∧ ((∀ s ∈ v.sources, xs[s]? = some (single s Kind.directOnly)) → v.substitute xs = v)
      ∧ (v.substitute xs).substitute ys = v.substitute (xs.map (·.substitute ys)) :=
  ⟨join_substitute u v xs, substitute_joinArguments v xs ys, substitute_le_substitute,
    fun h => substitute_formals fun s hs => argument_of_some (h s hs),
    substitute_substitute v xs ys⟩

/-- A summary of two parameters, called with those parameters themselves and, further out,
with three arguments: the laws that need an assumption, and the order of expansion. -/
theorem substitute_composes_twice :
    let u := single 1 Kind.fullOnly
    let v := (single 0 ⟨true, true, false⟩).join u
    let xs := [single 0 Kind.directOnly, single 1 Kind.directOnly]
    let ys := [(single 0 Kind.directOnly).join (single 5 Kind.fullOnly),
      single 1 ⟨true, true, true⟩, single 2 Kind.indirectOnly]
    v.substitute xs = v ∧ u.substitute xs ≤ v.substitute ys
      ∧ (v.substitute ys).substitute xs = v.substitute (ys.map (·.substitute xs)) := by
  intro u v xs ys
  have hxy (s : SourceId) : argument xs s ≤ argument ys s := by
    match s with
    | 0 => decide
    | 1 => decide
    | s + 2 => exact bottom_le _
  obtain ⟨-, -, hmono, hformals, -⟩ := substitute_composes u v xs ys
  obtain ⟨-, -, -, -, hchain⟩ := substitute_composes u v ys xs
  exact ⟨hformals (by decide), hmono (by decide) hxy, hchain⟩

end Value

end TaintAnalysis
