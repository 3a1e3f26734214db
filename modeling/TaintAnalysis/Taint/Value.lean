import TaintAnalysis.IdSet
import TaintAnalysis.Taint.Kind

/-!
# Taint values

A taint value maps each source to the kinds of dependence observed on it. All
but finitely many sources have none, and only the others are listed, in
ascending order: the two proof fields say so, and make two values equal as soon
as they agree on every source (`Value.ext`).

Every operation is one tabulation: a set of sources that is large enough, and
the kinds of each of them. What an operation means is then its lemma about
`kindOf`, and nothing else is needed to reason about it.
-/

namespace TaintAnalysis

/-- A source of taint: the position of a parameter of the function in hand. -/
abbrev SourceId := Nat

/-- The kinds of dependence of one value on each source. -/
structure Value where
  /-- The sources the value depends on, in ascending order, with their kinds. -/
  entries : List (SourceId × Kind)
  /-- Each source is listed once, in its place. -/
  ascending : (entries.map Prod.fst).Pairwise (· < ·)
  /-- Only sources that the value depends on are listed. -/
  inhabited : ∀ e ∈ entries, e.2 ≠ Kind.none
  deriving DecidableEq

namespace Value

/-- The sources the value depends on. -/
def sources (v : Value) : IdSet :=
  ⟨v.entries.map Prod.fst, v.ascending⟩

/-- The kinds of dependence on one source. -/
def kindOf (v : Value) (s : SourceId) : Kind :=
  (v.entries.lookup s).getD Kind.none

/-- The value that has the kinds `f s` from each source `s` of `domain`. -/
def tabulate (domain : IdSet) (f : SourceId → Kind) : Value where
  entries := (domain.elems.filter fun s => f s ≠ Kind.none).map fun s => (s, f s)
  ascending := by
    rw [List.map_map]
    simpa [Function.comp_def] using domain.ascending.sublist List.filter_sublist
  inhabited := by
    intro e he
    obtain ⟨s, hs, rfl⟩ := List.mem_map.1 he
    simpa using (List.mem_filter.1 hs).2

/-! ## A value is its `kindOf` -/

private theorem lookup_map_pair (f : SourceId → Kind) (s : SourceId) (l : List SourceId) :
    (l.map fun x => (x, f x)).lookup s = if s ∈ l then some (f s) else none := by
  induction l with
  | nil => rfl
  | cons a rest ih =>
      by_cases h : s = a
      · subst h
        simp
      · rw [List.map_cons, List.lookup_cons, beq_false_of_ne h, ih]
        simp [h]

theorem kindOf_tabulate (domain : IdSet) (f : SourceId → Kind) (s : SourceId) :
    (tabulate domain f).kindOf s = if s ∈ domain then f s else Kind.none := by
  rw [kindOf, tabulate, lookup_map_pair]
  by_cases hd : s ∈ domain
  · rw [if_pos hd]
    by_cases hf : f s = Kind.none
    · simp [hf]
    · rw [if_pos (List.mem_filter.2 ⟨hd, by simpa using hf⟩)]
      rfl
  · rw [if_neg hd, if_neg fun h => hd (List.mem_filter.1 h).1]
    rfl

theorem mem_sources {v : Value} {s : SourceId} : s ∈ v.sources ↔ v.kindOf s ≠ Kind.none := by
  obtain ⟨es, hasc, hinh⟩ := v
  show s ∈ es.map Prod.fst ↔ (es.lookup s).getD Kind.none ≠ Kind.none
  clear hasc
  induction es with
  | nil => simp
  | cons e rest ih =>
      obtain ⟨a, k⟩ := e
      have hrest := ih fun e he => hinh e (List.mem_cons_of_mem _ he)
      by_cases h : s = a
      · subst h
        have := hinh (s, k) (List.mem_cons_self ..)
        simpa using this
      · rw [List.map_cons, List.mem_cons, hrest, List.lookup_cons, beq_false_of_ne h]
        simp [h]

private theorem lookup_of_mem {es : List (SourceId × Kind)}
    (hasc : (es.map Prod.fst).Pairwise (· < ·)) {e : SourceId × Kind} (he : e ∈ es) :
    es.lookup e.1 = some e.2 := by
  induction es with
  | nil => simp at he
  | cons d rest ih =>
      rw [List.map_cons, List.pairwise_cons] at hasc
      rcases List.mem_cons.1 he with rfl | hr
      · obtain ⟨a, k⟩ := e
        simp
      · have hlt : d.1 < e.1 := hasc.1 e.1 (List.mem_map.2 ⟨e, hr, rfl⟩)
        have hne : (e.1 == d.1) = false := beq_false_of_ne (Nat.ne_of_gt hlt)
        obtain ⟨a, k⟩ := d
        rw [List.lookup_cons, hne]
        exact ih hasc.2 hr

theorem entries_eq (v : Value) : v.entries = v.sources.elems.map fun s => (s, v.kindOf s) := by
  rw [sources, List.map_map]
  refine (List.map_id _).symm.trans (List.map_congr_left fun e he => ?_)
  simp only [id, Function.comp_apply, kindOf, lookup_of_mem v.ascending he, Option.getD_some]

/-- Two values that agree on every source are equal. -/
theorem ext {u v : Value} (h : ∀ s, u.kindOf s = v.kindOf s) : u = v := by
  have hs : u.sources = v.sources := IdSet.ext fun s => by rw [mem_sources, mem_sources, h]
  have he : u.entries = v.entries := by
    rw [entries_eq u, entries_eq v, hs]
    exact List.map_congr_left fun s _ => by rw [h]
  cases u
  cases v
  cases he
  rfl

/-! ## Values and operations -/

/-- No dependence on any source. -/
def bottom : Value where
  entries := []
  ascending := List.Pairwise.nil
  inhabited := fun _ h => nomatch h

instance : Inhabited Value := ⟨bottom⟩

/-- The kinds `k` from the source `s` alone. -/
def single (s : SourceId) (k : Kind) : Value :=
  tabulate (.singleton s) fun _ => k

/-- Full dependence on each of the listed sources. -/
def top (sources : List SourceId) : Value :=
  tabulate (.ofList sources) fun _ => Kind.fullOnly

/-- Whether the value depends on no source. -/
def isBottom (v : Value) : Bool :=
  v.entries.isEmpty

/-- The kinds of both values, source by source. -/
def join (u v : Value) : Value :=
  tabulate (u.sources ∪ v.sources) fun s => u.kindOf s ∪ v.kindOf s

/-- The join of a list of values. -/
def joins (vs : List Value) : Value :=
  vs.foldr join bottom

/-- The value with the kinds `k` from the source `s` added. -/
def add (v : Value) (s : SourceId) (k : Kind) : Value :=
  v.join (single s k)

/-- Whether `v` has all of the kinds `k` from the source `s`. -/
def has (v : Value) (s : SourceId) (k : Kind) : Bool :=
  decide (k ≤ v.kindOf s)

/-- Whether `v` has everything that `u` has. -/
def le (u v : Value) : Bool :=
  u.entries.all fun e => v.has e.1 e.2

instance : LE Value := ⟨fun u v => u.le v = true⟩

instance (u v : Value) : Decidable (u ≤ v) :=
  inferInstanceAs (Decidable (u.le v = true))

/-- Whether joining `v` into `u` makes `u` larger. -/
def grows (u v : Value) : Bool :=
  decide (u.join v ≠ u)

/-- The gravest tier among all sources. -/
def tier (v : Value) : Tier :=
  v.entries.foldl (fun t e => t.max e.2.tier) .none

/-- Changes the kinds from every source by `f`. -/
def mapKinds (f : Kind → Kind) (v : Value) : Value :=
  tabulate v.sources fun s => f (v.kindOf s)

/-- What depending on this value through control or an address amounts to. -/
def toIndirect (v : Value) : Value :=
  v.mapKinds Kind.toIndirect

/-- Full dependence on every source of the value. -/
def toFull (v : Value) : Value :=
  v.mapKinds Kind.toFull

/-- Keeps the sources that satisfy `keep`. -/
def retain (v : Value) (keep : SourceId → Bool) : Value :=
  tabulate v.sources fun s => if keep s then v.kindOf s else Kind.none

/-- What a callee's dependence of kinds `k` on a formal parameter means for the
caller, whose argument has the value `actual`. -/
def throughFormal (k : Kind) (actual : Value) : Value :=
  joins <|
    (if k.direct then [actual] else [])
      ++ (if k.indirect then [actual.toIndirect] else [])
      ++ (if k.full then [actual.toFull] else [])

/-- Rewrites a value over a callee's formal parameters into the caller's
sources. A formal parameter without an argument contributes nothing. -/
def substitute (v : Value) (actuals : List Value) : Value :=
  joins <| v.entries.map fun e =>
    match actuals[e.1]? with
    | some actual => throughFormal e.2 actual
    | none => bottom

/-! ## What the operations mean -/

@[simp] theorem kindOf_bottom (s : SourceId) : bottom.kindOf s = Kind.none := rfl

@[simp] theorem kindOf_join (u v : Value) (s : SourceId) :
    (u.join v).kindOf s = u.kindOf s ∪ v.kindOf s := by
  rw [join, kindOf_tabulate]
  split
  · rfl
  · next h =>
    rw [IdSet.mem_union, mem_sources, mem_sources, not_or, Classical.not_not,
      Classical.not_not] at h
    rw [h.1, h.2]
    rfl

theorem kindOf_single (s t : SourceId) (k : Kind) :
    (single s k).kindOf t = if t = s then k else Kind.none := by
  rw [single, kindOf_tabulate]
  simp

theorem kindOf_add (v : Value) (s t : SourceId) (k : Kind) :
    (v.add s k).kindOf t = if t = s then v.kindOf t ∪ k else v.kindOf t := by
  rw [add, kindOf_join, kindOf_single]
  split <;> simp

theorem kindOf_mapKinds {f : Kind → Kind} (hf : f Kind.none = Kind.none) (v : Value)
    (s : SourceId) : (v.mapKinds f).kindOf s = f (v.kindOf s) := by
  rw [mapKinds, kindOf_tabulate]
  split
  · rfl
  · next h =>
    rw [mem_sources, Classical.not_not] at h
    rw [h, hf]

@[simp] theorem kindOf_toIndirect (v : Value) (s : SourceId) :
    v.toIndirect.kindOf s = (v.kindOf s).toIndirect :=
  kindOf_mapKinds rfl v s

@[simp] theorem kindOf_toFull (v : Value) (s : SourceId) :
    v.toFull.kindOf s = (v.kindOf s).toFull :=
  kindOf_mapKinds rfl v s

theorem kindOf_retain (v : Value) (keep : SourceId → Bool) (s : SourceId) :
    (v.retain keep).kindOf s = if keep s then v.kindOf s else Kind.none := by
  rw [retain, kindOf_tabulate]
  split
  · rfl
  · next h =>
    rw [mem_sources, Classical.not_not] at h
    rw [h]
    simp

theorem le_iff {u v : Value} : u ≤ v ↔ ∀ s, u.kindOf s ≤ v.kindOf s := by
  show u.le v = true ↔ _
  rw [le, List.all_eq_true]
  constructor
  · intro h s
    by_cases hs : s ∈ u.sources
    · have hmem : (s, u.kindOf s) ∈ u.entries := by
        rw [entries_eq u]
        exact List.mem_map.2 ⟨s, hs, rfl⟩
      simpa [has] using h _ hmem
    · rw [mem_sources, Classical.not_not] at hs
      rw [hs, Kind.le_def]
      simp [Kind.none]
  · intro h e he
    rw [entries_eq u] at he
    obtain ⟨s, _, rfl⟩ := List.mem_map.1 he
    simpa [has] using h s

end Value

end TaintAnalysis
