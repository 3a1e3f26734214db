import TaintAnalysis.Proofs.Memory.Paths

/-!
# Naming locations changes nothing but numbers

Every step of the pointer analysis may name locations, and a location keeps the
number and the type it got when it was first named. So the arena only ever
grows, and what a step finds might depend on what was named before it.

It does not. An arena is well-formed if the type of every location is the one
its path has and if every prefix of a named path is named, and each naming step
keeps that. In a well-formed arena the location a step ends at is a function of
the location it starts from: `child`, `element`, `shifted` and `offset` do on
numbers what the functions of `Layout` do on paths. `GrowsTo` collects what is
common to all steps: the result is well-formed, it extends what was there, and
the variables whose storage is named on the way are among the given ones.
-/

namespace TaintAnalysis

namespace Arena

variable {y : Layout} {R : VarId → Prop} {a b c : Arena} {id : LocId} {l : Location}

/-! ## Arenas as lists of locations -/

theorem location_eq_of_getElem? {n : Named} (h : a.named[id]? = some n) :
    a.location id = n.location := by
  rw [location, h]
  rfl

theorem getElem?_of_lt (h : id < a.size) : a.named[id]? = some a.named[id] :=
  List.getElem?_eq_getElem h

theorem find?_some (h : a.find? l = some id) : id < a.size ∧ a.location id = l := by
  obtain ⟨hlt, hp, -⟩ := List.findIdx?_eq_some_iff_getElem.mp h
  refine ⟨hlt, ?_⟩
  rw [location_eq_of_getElem? (List.getElem?_eq_getElem hlt)]
  exact of_decide_eq_true hp

/-- A location is named in an arena. -/
def Has (a : Arena) (l : Location) : Prop :=
  ∃ n ∈ a.named, n.location = l

theorem has_iff_find? : a.Has l ↔ (a.find? l).isSome = true := by
  rw [find?, List.findIdx?_isSome, List.any_eq_true]
  simp only [decide_eq_true_eq]
  exact Iff.rfl

theorem has_location (h : id < a.size) : a.Has (a.location id) :=
  ⟨a.named[id], List.getElem_mem h, (location_eq_of_getElem? (getElem?_of_lt h)).symm⟩

theorem isMemoryResident_iff {v : VarId} :
    PointsTo.isMemoryResident a v = true ↔ a.Has ⟨.variable v, []⟩ := by
  rw [has_iff_find?]
  exact Iff.rfl

/-- Everything named in `a` is named in `b` under the same number. -/
def Extends (a b : Arena) : Prop :=
  a.named <+: b.named

namespace Extends

theorem refl (a : Arena) : a.Extends a :=
  List.prefix_refl _

theorem trans (hab : a.Extends b) (hbc : b.Extends c) : a.Extends c :=
  List.IsPrefix.trans hab hbc

theorem size_le (h : a.Extends b) : a.size ≤ b.size :=
  List.IsPrefix.length_le h

theorem lt_size (h : a.Extends b) (hid : id < a.size) : id < b.size :=
  Nat.lt_of_lt_of_le hid h.size_le

theorem getElem? (h : a.Extends b) (hid : id < a.size) : b.named[id]? = a.named[id]? := by
  obtain ⟨rest, hrest⟩ := h
  rw [← hrest, List.getElem?_append_left hid]

theorem location (h : a.Extends b) (hid : id < a.size) : b.location id = a.location id := by
  rw [Arena.location, Arena.location, h.getElem? hid]

theorem has (h : a.Extends b) (hl : a.Has l) : b.Has l := by
  obtain ⟨n, hn, rfl⟩ := hl
  exact ⟨n, List.IsPrefix.subset h hn, rfl⟩

end Extends

/-! ## Well-formed arenas -/

/-- Unknown memory comes first, no location has two numbers, every location has
the type of its path, and the prefixes of a named path are named. -/
structure WellFormed (y : Layout) (a : Arena) : Prop where
  depth : a.maxDepth = y.maxDepth
  first : a.named[0]? = some ⟨.unknown, none⟩
  distinct : (a.named.map (·.location)).Nodup
  typed : ∀ n ∈ a.named, n.ty = n.location.ty? y.function
  closed : ∀ l, a.Has l → ∀ k, a.Has ⟨l.root, l.path.take k⟩

/-- The number `id` stands for the location `l`. -/
def Points (a : Arena) (id : LocId) (l : Location) : Prop :=
  id < a.size ∧ a.location id = l

theorem Points.mono (h : a.Points id l) (hab : a.Extends b) : b.Points id l :=
  ⟨hab.lt_size h.1, (hab.location h.1).trans h.2⟩

theorem points_location (h : id < a.size) : a.Points id (a.location id) :=
  ⟨h, rfl⟩

theorem WellFormed.points_unknown (hw : a.WellFormed y) : a.Points unknown .unknown :=
  ⟨(List.getElem?_eq_some_iff.mp hw.first).1, location_eq_of_getElem? hw.first⟩

theorem WellFormed.eq_of_location_eq (hw : a.WellFormed y) {id' : LocId} (h : a.Points id l)
    (h' : a.Points id' l) : id = id' := by
  obtain ⟨hlt, hl⟩ := h
  obtain ⟨hlt', hl'⟩ := h'
  refine (List.getElem?_inj ?_ hw.distinct).mp ?_
  · rw [List.length_map]
    exact hlt
  · rw [List.getElem?_map, List.getElem?_map, getElem?_of_lt hlt, getElem?_of_lt hlt',
      Option.map_some, Option.map_some, ← location_eq_of_getElem? (getElem?_of_lt hlt),
      ← location_eq_of_getElem? (getElem?_of_lt hlt'), hl, hl']

theorem WellFormed.ty?_eq (hw : a.WellFormed y) (h : a.Points id l) :
    a.ty? id = l.ty? y.function := by
  obtain ⟨hlt, rfl⟩ := h
  have hget := getElem?_of_lt hlt
  rw [ty?, hget, Option.bind_some, hw.typed _ (List.getElem_mem hlt),
    location_eq_of_getElem? hget]

theorem WellFormed.parent?_of_none (h : a.Points id l) (hp : l.parent? = none) :
    a.parent? id = none := by
  rw [parent?, h.2, hp]
  rfl

theorem WellFormed.parent?_of_some (hw : a.WellFormed y) (h : a.Points id l) {parent : Location}
    (hp : l.parent? = some parent) : ∃ i, a.parent? id = some i ∧ a.Points i parent := by
  have hhas : a.Has parent := by
    rw [Location.parent?] at hp
    split at hp
    · exact absurd hp (by simp only [reduceCtorEq, not_false_eq_true])
    · obtain rfl := Option.some.inj hp
      rw [List.dropLast_eq_take]
      exact hw.closed l (h.2 ▸ has_location h.1) _
  obtain ⟨i, hi⟩ := Option.isSome_iff_exists.mp (has_iff_find?.mp hhas)
  refine ⟨i, ?_, find?_some hi⟩
  rw [parent?, h.2, hp]
  exact hi

theorem wellFormed_new (f : Function) (maxDepth k : Nat) :
    (new maxDepth).WellFormed ⟨f, maxDepth, k⟩ where
  depth := rfl
  first := rfl
  distinct := List.pairwise_singleton _ _
  typed := by
    intro n hn
    obtain rfl := List.mem_singleton.mp hn
    rfl
  closed := by
    rintro l ⟨n, hn, rfl⟩ k
    obtain rfl := List.mem_singleton.mp hn
    refine ⟨_, List.mem_singleton.mpr rfl, ?_⟩
    rw [show Location.unknown.path = [] from rfl, List.take_nil]
    rfl

/-! ## What every naming step keeps -/

theorem run_bind {α β : Type} (x : Naming α) (f : α → Naming β) (a : Arena) :
    (x >>= f).run a = (f (x.run a).1).run (x.run a).2 := rfl

/-- `b` is a well-formed extension of `a` in which only the storage of
variables in `R` is newly named. -/
structure GrowsTo (y : Layout) (R : VarId → Prop) (a b : Arena) : Prop where
  wellFormed : b.WellFormed y
  extend : a.Extends b
  storage : ∀ v, b.Has ⟨.variable v, []⟩ → a.Has ⟨.variable v, []⟩ ∨ R v

theorem GrowsTo.refl (hw : a.WellFormed y) : GrowsTo y R a a :=
  ⟨hw, .refl a, fun _ h => .inl h⟩

theorem GrowsTo.trans (hab : GrowsTo y R a b) (hbc : GrowsTo y R b c) : GrowsTo y R a c :=
  ⟨hbc.wellFormed, hab.extend.trans hbc.extend,
    fun v hv => (hbc.storage v hv).elim (hab.storage v) .inr⟩

/-- A step started in `a` ends at the location `l`. -/
def Finds (y : Layout) (R : VarId → Prop) (a : Arena) (r : LocId × Arena) (l : Location) : Prop :=
  GrowsTo y R a r.2 ∧ r.2.Points r.1 l

theorem finds_unknown (hw : a.WellFormed y) : Finds y R a (unknown, a) .unknown :=
  ⟨.refl hw, hw.points_unknown⟩

/-! ## The steps -/

/-- The arena with one more name. -/
def push (a : Arena) (n : Named) : Arena :=
  { a with named := a.named ++ [n] }

theorem extends_push (a : Arena) (n : Named) : a.Extends (a.push n) :=
  List.prefix_append _ _

theorem has_push {n : Named} : (a.push n).Has l ↔ a.Has l ∨ l = n.location := by
  constructor
  · intro hex
    obtain ⟨n', hn', rfl⟩ := hex
    rcases List.mem_append.mp hn' with hold | hnew
    · exact .inl ⟨n', hold, rfl⟩
    · exact .inr (congrArg Named.location (List.mem_singleton.mp hnew))
  · intro h
    rcases h with hold | rfl
    · exact (extends_push a n).has hold
    · exact ⟨n, List.mem_append_right _ (List.mem_singleton.mpr rfl), rfl⟩

theorem points_push (a : Arena) (n : Named) : (a.push n).Points a.named.length n.location := by
  constructor
  · rw [size, push, List.length_append]
    exact Nat.lt_succ_self _
  · rw [location, push, List.getElem?_append_right (Nat.le_refl _), Nat.sub_self]
    rfl

/-- Naming a location that is new has to give it the type of its path and must
not leave out a prefix. -/
theorem wellFormed_push (hw : a.WellFormed y) (hno : ¬ a.Has l)
    (hclosed : ∀ k < l.path.length, a.Has ⟨l.root, l.path.take k⟩) :
    (a.push ⟨l, l.ty? y.function⟩).WellFormed y where
  depth := hw.depth
  first := by
    rw [push, List.getElem?_append_left (List.getElem?_eq_some_iff.mp hw.first).1]
    exact hw.first
  distinct := by
    rw [push, List.map_append, List.nodup_append]
    refine ⟨hw.distinct, List.pairwise_singleton _ _, ?_⟩
    intro l₁ hl₁ l₂ hl₂ heq
    obtain ⟨n, hn, rfl⟩ := List.mem_map.mp hl₁
    exact hno ⟨n, hn, heq.trans (List.mem_singleton.mp hl₂)⟩
  typed := by
    intro n hn
    rcases List.mem_append.mp hn with hold | hnew
    · exact hw.typed n hold
    · rw [List.mem_singleton.mp hnew]
  closed := by
    intro l' hl' k
    rcases has_push.mp hl' with hold | rfl
    · exact has_push.mpr (.inl (hw.closed l' hold k))
    · by_cases hk : k < l'.path.length
      · exact has_push.mpr (.inl (hclosed k hk))
      · refine has_push.mpr (.inr ?_)
        rw [List.take_of_length_le (Nat.le_of_not_lt hk)]

theorem intern_finds (hw : a.WellFormed y) {ty : Option Ty}
    (hnew : ¬ a.Has l → ty = l.ty? y.function ∧
      (∀ k < l.path.length, a.Has ⟨l.root, l.path.take k⟩) ∧
      ∀ v, l = ⟨.variable v, []⟩ → R v) :
    Finds y R a ((intern l ty).run a) l := by
  rw [StateT.run, intern]
  split
  · next id hid => exact ⟨.refl hw, find?_some hid⟩
  · next hnone =>
    have hno : ¬ a.Has l := by
      rw [has_iff_find?, hnone]
      simp only [Option.isSome_none, Bool.false_eq_true, not_false_eq_true]
    obtain ⟨rfl, hclosed, hR⟩ := hnew hno
    refine ⟨⟨wellFormed_push hw hno hclosed, extends_push a _, fun v hv => ?_⟩, points_push a _⟩
    exact (has_push.mp hv).imp_right fun hl => hR v hl.symm

theorem root_finds (hw : a.WellFormed y) {r : Root} (ty : Option Ty)
    (hnew : ¬ a.Has ⟨r, []⟩ → ty = Location.rootTy? y.function r ∧ ∀ v, r = .variable v → R v) :
    Finds y R a ((root r ty).run a) ⟨r, []⟩ := by
  rw [root]
  split
  · next hr =>
    subst hr
    exact finds_unknown hw
  · refine intern_finds hw fun hno => ⟨(hnew hno).1, fun k hk => absurd hk (Nat.not_lt_zero k), ?_⟩
    intro v hv
    exact (hnew hno).2 v (Location.mk.inj hv).1

theorem child_finds (hw : a.WellFormed y) (h : a.Points id l) (step : Step) {ty : Option Ty}
    (hty : ty = Location.stepTy (l.ty? y.function) step) :
    Finds y R a ((child id step ty).run a) (y.child l step) := by
  rw [show (child id step ty).run a =
    (if (a.location id).isUnknown || decide (a.maxDepth ≤ (a.location id).path.length)
      then (pure id : Naming LocId) else intern ((a.location id).extend step) ty).run a from rfl,
    h.2, hw.depth, Layout.child]
  split
  · exact ⟨.refl hw, h⟩
  · refine intern_finds hw fun _ => ⟨by rw [hty, Location.ty?_extend], ?_, ?_⟩
    · intro k hk
      rw [Location.extend, List.length_append, List.length_singleton] at hk
      rw [Location.extend, List.take_append_of_le_length (by omega)]
      exact hw.closed l (h.2 ▸ has_location h.1) k
    · intro v hv
      refine absurd (Location.mk.inj hv).2 ?_
      exact List.append_ne_nil_of_right_ne_nil _ (List.cons_ne_nil _ _)

theorem element_finds (hw : a.WellFormed y) (h : a.Points id l) (index : Option Int) :
    Finds y R a ((element y.maxTrackedIndex id index).run a) (y.element l index) := by
  have hchild (i : Option Nat) := child_finds (R := R) hw h (.index i) rfl
  simp only [element, StateT.run_bind, StateT.run_get, pure_bind, hw.ty?_eq h]
  cases index with
  | none => exact hchild none
  | some i =>
      simp only [Layout.element]
      cases hlen : (l.ty? y.function).bind Ty.arrayLength? with
      | some length =>
          simp only []
          split
          · exact finds_unknown hw
          · split
            · exact finds_unknown hw
            · exact hchild _
      | none =>
          simp only []
          split
          · exact finds_unknown hw
          · split
            · exact hchild none
            · exact hchild _

/-- The summary element of the array that an element lies in has the type of the element. -/
theorem summary_finds (hw : a.WellFormed y) (h : a.Points id l) {parent : Location}
    {k : Option Nat} (hp : l.parent? = some parent) (hs : l.path.getLast? = some (.index k))
    {i : LocId} (hpoints : a.Points i parent) :
    Finds y R a ((child i (.index none) (a.ty? id)).run a) (y.child parent (.index none)) := by
  refine child_finds hw hpoints _ ?_
  rw [hw.ty?_eq h, Location.eq_extend_of_parent? hp hs, Location.ty?_extend]
  rfl

theorem shifted_finds (hw : a.WellFormed y) (h : a.Points id l) :
    Finds y R a ((shifted y.maxTrackedIndex id).run a) (y.shifted l) := by
  simp only [shifted, StateT.run_bind, StateT.run_get, pure_bind, h.2, Layout.shifted]
  cases hp : l.parent? with
  | none =>
      rw [WellFormed.parent?_of_none h hp]
      cases l.path.getLast? with
      | none => exact element_finds hw h none
      | some step => cases step <;> exact element_finds hw h none
  | some parent =>
      obtain ⟨i, hi, hpoints⟩ := hw.parent?_of_some h hp
      rw [hi]
      cases hs : l.path.getLast? with
      | none => exact element_finds hw h none
      | some step =>
          cases step with
          | field name => exact element_finds hw h none
          | index k =>
              exact summary_finds hw h hp hs hpoints

theorem offset_finds (hw : a.WellFormed y) (h : a.Points id l) (index : Option Int) :
    Finds y R a ((offset y.maxTrackedIndex id index).run a) (y.offset l index) := by
  simp only [offset, StateT.run_bind, StateT.run_get, pure_bind, h.2, Layout.offset]
  cases hp : l.parent? with
  | none =>
      rw [WellFormed.parent?_of_none h hp]
      cases l.path.getLast? with
      | none => exact element_finds hw h index
      | some step => cases step <;> exact element_finds hw h index
  | some parent =>
      obtain ⟨i, hi, hpoints⟩ := hw.parent?_of_some h hp
      rw [hi]
      cases hs : l.path.getLast? with
      | none => exact element_finds hw h index
      | some step =>
          cases step with
          | field name => exact element_finds hw h index
          | index k =>
              have hsummary := summary_finds (R := R) hw h hp hs hpoints
              by_cases hzero : index = some 0
              · subst hzero
                exact ⟨.refl hw, h⟩
              · cases k with
                | none =>
                    cases index with
                    | none => exact hsummary
                    | some delta =>
                        simp only []
                        exact hsummary
                | some k =>
                    cases index with
                    | none => exact hsummary
                    | some delta =>
                        have hne : delta = 0 → False := fun h => hzero (h ▸ rfl)
                        simp only []
                        exact element_finds hw hpoints _

/-! ## Sets of locations -/

/-- The numbers stand for the locations of a list, in whatever order. -/
def Denotes (a : Arena) (ids : List LocId) (ls : List Location) : Prop :=
  (∀ id ∈ ids, id < a.size) ∧ ∀ l, l ∈ ls ↔ ∃ id ∈ ids, a.location id = l

namespace Denotes

variable {ids ids' : List LocId} {ls ls' : List Location}

theorem mono (h : a.Denotes ids ls) (hab : a.Extends b) : b.Denotes ids ls := by
  refine ⟨fun id hid => hab.lt_size (h.1 id hid), fun l => (h.2 l).trans ?_⟩
  refine exists_congr fun id => and_congr_right ?_
  intro hid
  rw [hab.location (h.1 id hid)]

theorem nil (a : Arena) : a.Denotes [] [] :=
  ⟨fun _ h => absurd h List.not_mem_nil, fun _ => ⟨fun h => absurd h List.not_mem_nil,
    fun ⟨_, h, _⟩ => absurd h List.not_mem_nil⟩⟩

theorem singleton (h : a.Points id l) : a.Denotes [id] [l] := by
  refine ⟨fun i hi => List.mem_singleton.mp hi ▸ h.1, fun l' => ?_⟩
  simp only [List.mem_singleton, exists_eq_left, h.2]
  exact eq_comm

theorem append (h : a.Denotes ids ls) (h' : a.Denotes ids' ls') :
    a.Denotes (ids ++ ids') (ls ++ ls') := by
  refine ⟨fun id hid => (List.mem_append.mp hid).elim (h.1 id) (h'.1 id), fun l => ?_⟩
  simp only [List.mem_append, h.2, h'.2, or_and_right, exists_or]

theorem congr (h : a.Denotes ids ls) (hids : ∀ id, id ∈ ids' ↔ id ∈ ids)
    (hls : ∀ l, l ∈ ls' ↔ l ∈ ls) : a.Denotes ids' ls' := by
  refine ⟨fun id hid => h.1 id ((hids id).mp hid), fun l => ?_⟩
  simp only [hls, hids, h.2]

theorem points (h : a.Denotes ids ls) (hid : id ∈ ids) : a.Points id (a.location id) :=
  points_location (h.1 id hid)

theorem location_mem (h : a.Denotes ids ls) (hid : id ∈ ids) : a.location id ∈ ls :=
  (h.2 _).mpr ⟨id, hid, rfl⟩

theorem isEmpty_eq (h : a.Denotes ids ls) : ids.isEmpty = ls.isEmpty := by
  cases ids with
  | nil =>
      cases ls with
      | nil => rfl
      | cons l rest =>
          obtain ⟨id, hid, -⟩ := (h.2 l).mp List.mem_cons_self
          exact absurd hid List.not_mem_nil
  | cons id rest =>
      cases ls with
      | nil => exact absurd (h.location_mem List.mem_cons_self) List.not_mem_nil
      | cons l rest => rfl

/-- Selecting numbers by a property of their location selects the locations. -/
theorem filter (h : a.Denotes ids ls) {p : LocId → Bool} {q : Location → Bool}
    (hpq : ∀ id ∈ ids, p id = q (a.location id)) :
    a.Denotes (ids.filter p) (ls.filter q) := by
  refine ⟨fun id hid => h.1 id (List.mem_filter.mp hid).1, fun l => ?_⟩
  rw [List.mem_filter, h.2]
  constructor
  · intro hex
    obtain ⟨⟨id, hid, rfl⟩, hq⟩ := hex
    exact ⟨id, List.mem_filter.mpr ⟨hid, (hpq id hid).trans hq⟩, rfl⟩
  · intro hex
    obtain ⟨id, hid, rfl⟩ := hex
    obtain ⟨hmem, hp⟩ := List.mem_filter.mp hid
    exact ⟨⟨id, hmem, rfl⟩, (hpq id hmem).symm.trans hp⟩

end Denotes

/-- A step started in `a` ends at the locations of a list. -/
def FindsAll (y : Layout) (R : VarId → Prop) (a : Arena) (r : IdSet × Arena)
    (ls : List Location) : Prop :=
  GrowsTo y R a r.2 ∧ r.2.Denotes r.1.elems ls

theorem FindsAll.trans {r : IdSet × Arena} {ls : List Location} (hab : GrowsTo y R a b)
    (h : FindsAll y R b r ls) : FindsAll y R a r ls :=
  ⟨hab.trans h.1, h.2⟩

theorem Finds.findsAll {r : LocId × Arena} (h : Finds y R a r l) :
    FindsAll y R a (.singleton r.1, r.2) [l] :=
  ⟨h.1, .singleton h.2⟩

/-- Going through a list of numbers one after the other: if every single step
ends where it should whatever was named before, so do all of them together. -/
theorem mapM_denotes {α : Type} (ids : α → List LocId) (g : LocId → List Location)
    {f : LocId → Naming α} {xs : List LocId} (hw : a.WellFormed y)
    (hf : ∀ b, GrowsTo y R a b → ∀ id ∈ xs, GrowsTo y R b ((f id).run b).2 ∧
      ((f id).run b).2.Denotes (ids ((f id).run b).1) (g id)) :
    GrowsTo y R a ((xs.mapM f).run a).2 ∧
      ((xs.mapM f).run a).2.Denotes (((xs.mapM f).run a).1.flatMap ids) (xs.flatMap g) := by
  induction xs generalizing a with
  | nil => exact ⟨.refl hw, .nil a⟩
  | cons x rest ih =>
      rw [List.mapM_cons]
      obtain ⟨hgrow, hden⟩ := hf a (.refl hw) x List.mem_cons_self
      obtain ⟨hgrow', hden'⟩ := ih hgrow.wellFormed fun b hb id hid =>
        hf b (hgrow.trans hb) id (List.mem_cons_of_mem x hid)
      exact ⟨hgrow.trans hgrow', (hden.mono hgrow'.extend).append hden'⟩

theorem collect_findsAll {s : IdSet} {ls : List Location} {f : LocId → Naming LocId}
    {g : Location → Location} (hw : a.WellFormed y) (hs : a.Denotes s.elems ls)
    (hf : ∀ b, GrowsTo y R a b → ∀ id l, b.Points id l → Finds y R b ((f id).run b) (g l)) :
    FindsAll y R a ((collect s f).run a) (ls.map g) := by
  have h := mapM_denotes (fun i => [i]) (fun id => [g (a.location id)]) hw
    fun b hb id hid => by
      have hid' := hf b hb id _ ((hs.points hid).mono hb.extend)
      exact ⟨hid'.1, .singleton hid'.2⟩
  refine ⟨h.1, h.2.congr (fun id => ?_) fun l => ?_⟩
  · rw [List.flatMap_singleton']
    exact IdSet.mem_ofList
  · simp only [List.mem_map, List.mem_flatMap, List.mem_singleton, hs.2]
    constructor
    · intro hex
      obtain ⟨_, ⟨id, hid, rfl⟩, rfl⟩ := hex
      exact ⟨id, hid, rfl⟩
    · intro hex
      obtain ⟨id, hid, rfl⟩ := hex
      exact ⟨_, ⟨id, hid, rfl⟩, rfl⟩

theorem collectAll_findsAll {s : IdSet} {ls : List Location} {f : LocId → Naming IdSet}
    {g : Location → List Location} (hw : a.WellFormed y) (hs : a.Denotes s.elems ls)
    (hf : ∀ b, GrowsTo y R a b → ∀ id l, b.Points id l → FindsAll y R b ((f id).run b) (g l)) :
    FindsAll y R a ((collectAll s f).run a) (ls.flatMap g) := by
  have h := mapM_denotes IdSet.elems (fun id => g (a.location id)) hw
    fun b hb id hid => hf b hb id _ ((hs.points hid).mono hb.extend)
  refine ⟨h.1, h.2.congr (fun id => ?_) fun l => ?_⟩
  · rw [List.mem_flatMap]
    exact IdSet.mem_unions
  · simp only [List.mem_flatMap, hs.2]
    constructor
    · intro hex
      obtain ⟨_, ⟨id, hid, rfl⟩, hl⟩ := hex
      exact ⟨id, hid, hl⟩
    · intro hex
      obtain ⟨id, hid, hl⟩ := hex
      exact ⟨_, ⟨id, hid, rfl⟩, hl⟩

end Arena

end TaintAnalysis
