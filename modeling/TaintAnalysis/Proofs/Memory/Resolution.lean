import TaintAnalysis.Proofs.Memory.Naming
import TaintAnalysis.Proofs.Program.Addresses

/-!
# Resolution by number and by path agree

The pointer facts of a function are kept by number. As long as every number in
them is named, they describe one set of facts about access paths, and naming
more locations does not change that set. On any well-formed arena the functions
of `PointsTo` then find exactly what their namesakes of `PathFacts` say:
`resolve_resolves` and `exprTargets_findsAll` are the two that the solver uses.

Both also say which storage is named on the way. Resolving a path names the
storage of the variable it starts at, unless it begins by following a pointer;
what is named besides is the storage of arrays, which are never scalars.
-/

namespace TaintAnalysis

namespace PointsTo

open Arena

/-- What decides which paths the facts tell apart. -/
def layout (m : PointsTo) (maxDepth : Nat) : Layout :=
  ⟨m.function, maxDepth, m.maxTrackedIndex⟩

/-- The facts with every number replaced by its path. -/
def pathFacts (m : PointsTo) (maxDepth : Nat) (a : Arena) : PathFacts where
  layout := m.layout maxDepth
  vars := fun v => (m.targetsOf v).elems.map a.location
  cells := m.cells.entries.map fun e => (a.location e.1, e.2.elems.map a.location)

/-- Every number in the facts is named. -/
structure InRange (m : PointsTo) (a : Arena) : Prop where
  vars : ∀ v, ∀ id ∈ m.targetsOf v, id < a.size
  cells : ∀ e ∈ m.cells.entries, e.1 < a.size ∧ ∀ id ∈ e.2, id < a.size

/-- The facts can be read in the arena. -/
structure Ready (m : PointsTo) (maxDepth : Nat) (a : Arena) : Prop where
  wellFormed : a.WellFormed (m.layout maxDepth)
  inRange : m.InRange a

variable {m : PointsTo} {D : Nat} {R : VarId → Prop} {a b : Arena} {id : LocId} {l : Location}

theorem InRange.mono (h : m.InRange a) (hab : a.Extends b) : m.InRange b where
  vars := fun v id hid => hab.lt_size (h.vars v id hid)
  cells := fun e he => ⟨hab.lt_size (h.cells e he).1,
    fun id hid => hab.lt_size ((h.cells e he).2 id hid)⟩

theorem Ready.grow (h : m.Ready D a) (hab : GrowsTo (m.layout D) R a b) : m.Ready D b :=
  ⟨hab.wellFormed, h.inRange.mono hab.extend⟩

theorem denotes_map {ids : IdSet} (h : ∀ id ∈ ids, id < a.size) :
    a.Denotes ids.elems (ids.elems.map a.location) :=
  ⟨h, fun _ => List.mem_map⟩

/-- Naming more locations does not change what the facts say. -/
theorem pathFacts_eq (h : m.InRange a) (hab : a.Extends b) : m.pathFacts D b = m.pathFacts D a := by
  have hmap (ids : IdSet) (hids : ∀ id ∈ ids, id < a.size) :
      ids.elems.map b.location = ids.elems.map a.location :=
    List.map_congr_left fun id hid => hab.location (hids id hid)
  have hvars : (fun v => (m.targetsOf v).elems.map b.location) =
      fun v => (m.targetsOf v).elems.map a.location :=
    funext fun v => hmap _ (h.vars v)
  have hcells : (m.cells.entries.map fun e => (b.location e.1, e.2.elems.map b.location)) =
      m.cells.entries.map fun e => (a.location e.1, e.2.elems.map a.location) := by
    refine List.map_congr_left ?_
    intro e he
    obtain ⟨he₁, he₂⟩ := h.cells e he
    rw [hab.location he₁, hmap _ he₂]
  rw [pathFacts, pathFacts, hvars, hcells]

/-! ## What variables and cells refer to -/

theorem varTargets_findsAll (h : m.Ready D a) (v : VarId)
    (hR : ∀ w, m.isArrayVar w = true → R w) :
    FindsAll (m.layout D) R a ((m.varTargets v).run a) ((m.pathFacts D a).varTargets v) := by
  rw [varTargets, PathFacts.varTargets]
  show FindsAll _ R a ((if m.isArrayVar v = true then _ else _ : Naming IdSet).run a)
    (if m.isArrayVar v = true then _ else _)
  split
  · next harr =>
    refine (root_finds (r := .variable v) h.wellFormed _ fun _ => ⟨rfl, ?_⟩).findsAll
    intro w hw
    cases hw
    exact hR v harr
  · exact ⟨.refl h.wellFormed, denotes_map (h.inRange.vars v)⟩

theorem overlapping_denotes (h : m.Ready D a) (hl : a.Points id l) :
    a.Denotes (m.overlapping a id).elems ((m.pathFacts D a).overlapping l) := by
  have hmem : ∀ e ∈ m.cells.entries, a.overlaps e.1 id = (a.location e.1).overlaps l := by
    intro e _
    rw [overlaps, hl.2]
  have helems : ∀ i, i ∈ (m.overlapping a id).elems ↔
      ∃ e ∈ m.cells.entries, a.overlaps e.1 id = true ∧ i ∈ e.2 := by
    intro i
    show i ∈ m.overlapping a id ↔ _
    simp only [overlapping, IdSet.mem_unions, List.mem_map, List.mem_filter]
    constructor
    · intro hex
      obtain ⟨_, ⟨e, ⟨he, ho⟩, rfl⟩, hi⟩ := hex
      exact ⟨e, he, ho, hi⟩
    · intro hex
      obtain ⟨e, he, ho, hi⟩ := hex
      exact ⟨_, ⟨e, ⟨he, ho⟩, rfl⟩, hi⟩
  refine ⟨?_, fun l' => ?_⟩
  · intro i hi
    obtain ⟨e, he, -, hie⟩ := (helems i).mp hi
    exact (h.inRange.cells e he).2 i hie
  · simp only [PathFacts.overlapping, pathFacts, List.mem_flatMap, List.mem_filter, List.mem_map,
      helems]
    constructor
    · intro hex
      obtain ⟨_, ⟨⟨e, he, rfl⟩, ho⟩, hl'⟩ := hex
      obtain ⟨i, hi, rfl⟩ := List.mem_map.mp hl'
      exact ⟨i, ⟨e, he, (hmem e he).trans ho, hi⟩, rfl⟩
    · intro hex
      obtain ⟨i, ⟨e, he, ho, hi⟩, rfl⟩ := hex
      exact ⟨_, ⟨⟨e, he, rfl⟩, (hmem e he).symm.trans ho⟩, List.mem_map.mpr ⟨i, hi, rfl⟩⟩

theorem storedTargets_findsAll (h : m.Ready D a) (hl : a.Points id l) (orUnknown : Bool) :
    FindsAll (m.layout D) R a ((m.storedTargets orUnknown id).run a)
      ((m.pathFacts D a).storedTargets orUnknown l) := by
  have hover := overlapping_denotes h hl
  have hrefl : GrowsTo (m.layout D) R a a := .refl h.wellFormed
  have hunknown : FindsAll (m.layout D) R a (.singleton unknown, a) [.unknown] :=
    (finds_unknown h.wellFormed).findsAll
  simp only [storedTargets, PathFacts.storedTargets, StateT.run_bind, StateT.run_get, pure_bind,
    hl.2, IdSet.isEmpty, ← hover.isEmpty_eq]
  by_cases hunk : l.isUnknown = true
  · rw [if_pos hunk, if_pos hunk]
    exact hunknown
  · rw [if_neg hunk, if_neg hunk]
    by_cases hknown : (!(m.overlapping a id).elems.isEmpty) = true
    · rw [if_pos hknown]
      simp only [hknown, if_true]
      exact ⟨hrefl, hover⟩
    · simp only [hknown, Bool.false_eq_true, if_false]
      cases hp : l.param? with
      | some i =>
          -- the object of the parameter is a prefix of the location, so it has its name already
          have hroot := Location.root_of_param? hp
          have hhas : a.Has ⟨.paramTarget i, []⟩ := by
            have := h.wellFormed.closed l (hl.2 ▸ has_location hl.1) 0
            rwa [hroot, List.take_zero] at this
          exact (root_finds h.wellFormed _ fun hno => absurd hhas hno).findsAll
      | none =>
          cases orUnknown with
          | true => exact hunknown
          | false => exact ⟨hrefl, .nil a⟩

theorem derefVar_findsAll (h : m.Ready D a) (v : VarId)
    (hR : ∀ w, m.isArrayVar w = true → R w) :
    FindsAll (m.layout D) R a ((m.derefVar v).run a) ((m.pathFacts D a).derefVar v) := by
  obtain ⟨hgrow, hden⟩ := varTargets_findsAll (R := R) h v hR
  have hempty : ((m.varTargets v).run a).1.isEmpty = ((m.pathFacts D a).varTargets v).isEmpty :=
    hden.isEmpty_eq
  show FindsAll _ R a ((if ((m.varTargets v).run a).1.isEmpty = true then .singleton unknown
    else ((m.varTargets v).run a).1), ((m.varTargets v).run a).2) _
  rw [PathFacts.derefVar, ← hempty]
  split
  · exact ⟨hgrow, .singleton hgrow.wellFormed.points_unknown⟩
  · exact ⟨hgrow, hden⟩

theorem indexed_findsAll (h : m.Ready D a) (hl : a.Points id l) (index : Option Int) :
    FindsAll (m.layout D) R a ((m.indexed index id).run a) ((m.pathFacts D a).indexed index l) := by
  simp only [indexed, PathFacts.indexed, PathFacts.holdsPointer, StateT.run_bind, StateT.run_get,
    pure_bind, h.wellFormed.ty?_eq hl]
  show FindsAll _ R a _ (if (l.ty? m.function).any Ty.isPointer = true then _ else _)
  by_cases hptr : (l.ty? m.function).any Ty.isPointer = true
  · have hptr' : (l.ty? (m.layout D).function).any Ty.isPointer = true := hptr
    rw [if_pos hptr', if_pos hptr]
    obtain ⟨hgrow, hden⟩ := storedTargets_findsAll (R := R) h hl true
    exact (collect_findsAll hgrow.wellFormed hden fun b hb i l' hi =>
      offset_finds hb.wellFormed hi index).trans hgrow
  · have hptr' : ¬ (l.ty? (m.layout D).function).any Ty.isPointer = true := hptr
    rw [if_neg hptr', if_neg hptr]
    exact (element_finds h.wellFormed hl index).findsAll

/-- Something is looked up in the facts for each of several locations. The arena grows meanwhile, but
the facts stay the same. -/
theorem collectAll_facts {s : IdSet} {ls : List Location} {f : LocId → Naming IdSet}
    {G : PathFacts → Location → List Location} (h : m.Ready D a) (hs : a.Denotes s.elems ls)
    (hf : ∀ {b : Arena} {i : LocId} {l : Location}, m.Ready D b → b.Points i l →
      FindsAll (m.layout D) R b ((f i).run b) (G (m.pathFacts D b) l)) :
    FindsAll (m.layout D) R a ((collectAll s f).run a) (ls.flatMap (G (m.pathFacts D a))) :=
  collectAll_findsAll h.wellFormed hs fun c hc i l hi => by
    have hfound := hf (h.grow hc) hi
    rwa [pathFacts_eq (D := D) h.inRange hc.extend] at hfound

/-! ## Following a path -/

/-- Where following a path ends up, by number and by path. -/
def Reaches (a : Arena) : PathEnd → VarId ⊕ List Location → Prop
  | .scalar v, .inl w => v = w
  | .locations ids, .inr ls => a.Denotes ids.elems ls
  | _, _ => False

theorem Reaches.cases {r : PathEnd} {s : VarId ⊕ List Location} (h : Reaches a r s) :
    (∃ v, r = .scalar v ∧ s = .inl v) ∨
      ∃ ids ls, r = .locations ids ∧ s = .inr ls ∧ a.Denotes ids.elems ls := by
  cases r with
  | scalar v =>
      cases s with
      | inl w => exact .inl ⟨v, rfl, congrArg _ (show v = w from h).symm⟩
      | inr ls => exact absurd h id
  | locations ids =>
      cases s with
      | inl w => exact absurd h id
      | inr ls => exact .inr ⟨ids, ls, rfl, rfl, h⟩

/-- A path followed by number in `a` has been followed like the same path without
numbers, and the storage of `named` has a number now. -/
structure Follows (y : Layout) (R : VarId → Prop) (a : Arena) (r : Followed × Arena)
    (s : PathFollowed) (named : Option VarId) : Prop where
  grows : GrowsTo y R a r.2
  reached : Reaches r.2 r.1.reached s.reached
  pointerCells : r.2.Denotes r.1.pointerCells.elems s.pointerCells
  derefsBase : r.1.derefsBase = s.derefsBase
  named : ∀ v, named = some v → r.2.Has ⟨.variable v, []⟩

theorem denotes_union {s t : IdSet} {ls ls' : List Location} (hs : a.Denotes s.elems ls)
    (ht : a.Denotes t.elems ls') : a.Denotes (s ∪ t).elems (ls ++ ls') :=
  (hs.append ht).congr (fun _ => IdSet.mem_union.trans List.mem_append.symm) fun _ => Iff.rfl

theorem holdingPointers_denotes (h : m.Ready D a) {ids : IdSet} {ls : List Location}
    (hids : a.Denotes ids.elems ls) :
    a.Denotes (holdingPointers a ids).elems (ls.filter (m.pathFacts D a).holdsPointer) := by
  refine (hids.filter (p := fun id => (a.ty? id).any Ty.isPointer) fun id hid => ?_).congr
    (fun id => IdSet.mem_ofList) fun _ => Iff.rfl
  rw [h.wellFormed.ty?_eq (hids.points hid)]
  rfl

/-- A path that has been followed to a variable is that variable. -/
theorem eq_var_of_reached {p : Place} {v : VarId} {f : PathFacts}
    (h : (f.follow p).reached = .inl v) : p = .var v := by
  cases p with
  | var w => exact congrArg Place.var (Sum.inl.inj h)
  | deref p =>
      rw [PathFacts.follow_deref] at h
      split at h <;> exact absurd h (by simp only [reduceCtorEq, not_false_eq_true])
  | index p e =>
      rw [PathFacts.follow_index] at h
      split at h
      · split at h <;> exact absurd h (by simp only [reduceCtorEq, not_false_eq_true])
      · exact absurd h (by simp only [reduceCtorEq, not_false_eq_true])
  | field p name =>
      rw [PathFacts.follow_field] at h
      split at h <;> exact absurd h (by simp only [reduceCtorEq, not_false_eq_true])

theorem plain?_of_reached {p : Place} {ls : List Location} {f : PathFacts}
    (h : (f.follow p).reached = .inr ls) : p.plain? = none := by
  cases p with
  | var v => exact absurd h (by simp only [PathFacts.follow_var, reduceCtorEq, not_false_eq_true])
  | deref p => rfl
  | index p e => rfl
  | field p name => rfl

theorem plain?_of_named {p : Place} {v : VarId} {f : Function} (h : f.named? p = some v) :
    p.plain? = none := by
  cases p with
  | var w => exact absurd h (by simp only [Function.named?, reduceCtorEq, not_false_eq_true])
  | deref p => rfl
  | index p e => rfl
  | field p name => rfl

theorem varLocation_finds (h : m.Ready D a) {v : VarId} (hv : ¬ a.Has ⟨.variable v, []⟩ → R v) :
    Finds (m.layout D) R a ((m.varLocation v).run a) ⟨.variable v, []⟩ :=
  root_finds h.wellFormed _ fun hno => ⟨rfl, fun _ hw => Root.variable.inj hw ▸ hv hno⟩

/-! ### One step of a path -/

section Step

variable {p : Place} (h : m.Ready D a)
  (hp : Follows (m.layout D) R a ((m.follow p).run a) ((m.pathFacts D a).follow p)
    (m.function.named? p))

include h hp

theorem deref_follows (hR : ∀ w, m.isArrayVar w = true → R w) :
    Follows (m.layout D) R a ((m.follow (.deref p)).run a) ((m.pathFacts D a).follow (.deref p))
      (m.function.named? (.deref p)) := by
  obtain ⟨hgrow, hreach, hcells, hbase, hnamed⟩ := hp
  have hfacts := pathFacts_eq (D := D) h.inRange hgrow.extend
  have hb := h.grow hgrow
  simp only [follow, PathFacts.follow_deref, Arena.run_bind]
  obtain ⟨v, hr, hs⟩ | ⟨ids, ls, hr, hs, hreach⟩ := hreach.cases
  · rw [hr, hs]
    obtain ⟨hgrow', hden⟩ := derefVar_findsAll hb v hR
    rw [hfacts] at hden
    exact ⟨hgrow.trans hgrow', hden, hcells.mono hgrow'.extend, rfl,
      fun w hw => hgrow'.extend.has (hnamed w hw)⟩
  · rw [hr, hs]
    obtain ⟨hgrow', hden⟩ := collectAll_facts (G := (·.storedTargets true)) hb hreach
      fun hc hi => storedTargets_findsAll (R := R) hc hi true
    rw [hfacts] at hden
    exact ⟨hgrow.trans hgrow', hden,
      denotes_union (hcells.mono hgrow'.extend) (hreach.mono hgrow'.extend), hbase,
      fun w hw => hgrow'.extend.has (hnamed w hw)⟩

theorem index_follows (hR : ∀ w, m.isArrayVar w = true → R w) (e : Expr)
    (hv : ∀ v, m.function.named? (.index p e) = some v → R v) :
    Follows (m.layout D) R a ((m.follow (.index p e)).run a)
      ((m.pathFacts D a).follow (.index p e)) (m.function.named? (.index p e)) := by
  obtain ⟨hgrow, hreach, hcells, hbase, hnamed⟩ := hp
  have hfacts := pathFacts_eq (D := D) h.inRange hgrow.extend
  have hb := h.grow hgrow
  simp only [follow, PathFacts.follow_index, Function.named?, Arena.run_bind]
  obtain ⟨v, hr, hs⟩ | ⟨ids, ls, hr, hs, hreach⟩ := hreach.cases
  · rw [hr, hs]
    obtain rfl := eq_var_of_reached hs
    simp only [Place.plain?]
    by_cases hptr : m.isPointerVar v = true
    · have hptr' : (((m.pathFacts D a).layout.function.ty? v).any Ty.isPointer) = true := hptr
      have hptr'' : (m.function.ty? v).any Ty.isPointer = true := hptr
      rw [if_pos hptr, if_pos hptr', if_pos hptr'']
      obtain ⟨hgrow', hden⟩ := derefVar_findsAll hb v hR
      rw [hfacts] at hden
      obtain ⟨hgrow'', hden'⟩ := collect_findsAll (R := R) hgrow'.wellFormed hden
        fun c hc i l hi => offset_finds hc.wellFormed hi (constantIndex e)
      exact ⟨hgrow.trans (hgrow'.trans hgrow''), hden',
        hcells.mono (hgrow'.trans hgrow'').extend, rfl,
        fun _ hw => absurd hw.symm (Option.some_ne_none _)⟩
    · have hptr' : ¬ (((m.pathFacts D a).layout.function.ty? v).any Ty.isPointer) = true := hptr
      have hptr'' : ¬ (m.function.ty? v).any Ty.isPointer = true := hptr
      rw [if_neg hptr, if_neg hptr', if_neg hptr'']
      obtain ⟨hgrow', hpoints⟩ := varLocation_finds (R := R) hb (v := v) fun _ =>
        hv v (if_neg hptr'')
      obtain ⟨hgrow'', hpoints'⟩ := element_finds (R := R) hgrow'.wellFormed hpoints
        (constantIndex e)
      refine ⟨hgrow.trans (hgrow'.trans hgrow''), .singleton hpoints',
        hcells.mono (hgrow'.trans hgrow'').extend, hbase, fun w hw => ?_⟩
      obtain rfl := Option.some.inj hw
      exact hgrow''.extend.has (hpoints.2 ▸ has_location hpoints.1)
  · rw [hr, hs, plain?_of_reached hs]
    have hhold := holdingPointers_denotes hb hreach
    obtain ⟨hgrow', hden⟩ := collectAll_facts (G := (·.indexed (constantIndex e))) hb hreach
      fun hc hi => indexed_findsAll (R := R) hc hi (constantIndex e)
    rw [hfacts] at hhold hden
    exact ⟨hgrow.trans hgrow', hden,
      denotes_union (hcells.mono hgrow'.extend) (hhold.mono hgrow'.extend), hbase,
      fun w hw => hgrow'.extend.has (hnamed w hw)⟩

theorem field_follows (name : String)
    (hv : ∀ v, m.function.named? (.field p name) = some v → R v) :
    Follows (m.layout D) R a ((m.follow (.field p name)).run a)
      ((m.pathFacts D a).follow (.field p name)) (m.function.named? (.field p name)) := by
  obtain ⟨hgrow, hreach, hcells, hbase, hnamed⟩ := hp
  have hb := h.grow hgrow
  simp only [follow, PathFacts.follow_field, Function.named?, Arena.run_bind]
  obtain ⟨v, hr, hs⟩ | ⟨ids, ls, hr, hs, hreach⟩ := hreach.cases
  · rw [hr, hs]
    obtain rfl := eq_var_of_reached hs
    obtain ⟨hgrow', hpoints⟩ := varLocation_finds (R := R) hb (v := v) fun _ => hv v rfl
    obtain ⟨hgrow'', hpoints'⟩ := child_finds (R := R)
      hgrow'.wellFormed hpoints (.field name) rfl
    refine ⟨hgrow.trans (hgrow'.trans hgrow''), .singleton hpoints',
      hcells.mono (hgrow'.trans hgrow'').extend, hbase, fun w hw => ?_⟩
    obtain rfl := Option.some.inj hw
    exact hgrow''.extend.has (hpoints.2 ▸ has_location hpoints.1)
  · rw [hr, hs, plain?_of_reached hs]
    obtain ⟨hgrow', hden⟩ := collect_findsAll (R := R) hb.wellFormed hreach
      fun c hc i l hi => child_finds hc.wellFormed hi (.field name) rfl
    exact ⟨hgrow.trans hgrow', hden, hcells.mono hgrow'.extend, hbase,
      fun w hw => hgrow'.extend.has (hnamed w hw)⟩

end Step

/-- Following a path by number goes where the path says. -/
theorem follow_follows (h : m.Ready D a) (hR : ∀ w, m.isArrayVar w = true → R w) :
    ∀ p : Place, (∀ v, m.function.named? p = some v → R v) →
      Follows (m.layout D) R a ((m.follow p).run a) ((m.pathFacts D a).follow p)
        (m.function.named? p)
  | .var v, _ =>
      ⟨.refl h.wellFormed, rfl, .nil a, rfl, fun _ hw => absurd hw.symm (Option.some_ne_none _)⟩
  | .deref p, hv => deref_follows h (follow_follows h hR p hv) hR
  | .index p e, hv =>
      have hp := follow_follows h hR p fun v hp =>
        hv v (by rw [Function.named?, plain?_of_named hp]; exact hp)
      index_follows h hp hR e hv
  | .field p name, hv =>
      have hp := follow_follows h hR p fun v hp =>
        hv v (by rw [Function.named?, plain?_of_named hp]; exact hp)
      field_follows h hp name hv

/-- A place resolved by number in `a` has been resolved like the same place
without numbers, and the storage it names has a number now. -/
structure Resolves (y : Layout) (R : VarId → Prop) (a : Arena) (r : Resolution × Arena)
    (s : PathResolution) (named : Option VarId) : Prop where
  grows : GrowsTo y R a r.2
  targets : r.2.Denotes r.1.targets.elems s.targets
  pointerCells : r.2.Denotes r.1.pointerCells.elems s.pointerCells
  derefsBase : r.1.derefsBase = s.derefsBase
  named : ∀ v, named = some v → r.2.Has ⟨.variable v, []⟩

theorem resolve_resolves (h : m.Ready D a) (hR : ∀ w, m.isArrayVar w = true → R w) {p : Place}
    (hp : ∀ v, m.function.storage? p = some v → R v) :
    Resolves (m.layout D) R a ((m.resolve p).run a) ((m.pathFacts D a).resolve p)
      (m.function.storage? p) := by
  obtain ⟨hgrow, hreach, hcells, hbase, hnamed⟩ := follow_follows h hR p fun v hv =>
    hp v (by rw [Function.storage?, plain?_of_named hv]; exact hv)
  have hb := h.grow hgrow
  simp only [resolve, PathFacts.resolve, Function.storage?, Arena.run_bind]
  obtain ⟨v, hr, hs⟩ | ⟨ids, ls, hr, hs, hreach⟩ := hreach.cases
  · rw [hr, hs]
    obtain rfl := eq_var_of_reached hs
    obtain ⟨hgrow', hpoints⟩ := varLocation_finds (R := R) hb (v := v) fun _ => hp v rfl
    refine ⟨hgrow.trans hgrow', .singleton hpoints, hcells.mono hgrow'.extend, hbase,
      fun w hw => ?_⟩
    obtain rfl := Option.some.inj hw
    exact hpoints.2 ▸ has_location hpoints.1
  · rw [hr, hs, plain?_of_reached hs]
    exact ⟨hgrow, hreach, hcells, hbase, hnamed⟩

/-- The locations an expression may refer to are found by number as by path. -/
theorem exprTargets_findsAll (hR : ∀ w, m.isArrayVar w = true → R w) :
    ∀ (e : Expr) {a : Arena}, m.Ready D a →
      (∀ p ∈ e.addressed, ∀ v, m.function.storage? p = some v → R v) →
      FindsAll (m.layout D) R a ((m.exprTargets e).run a) ((m.pathFacts D a).exprTargets e)
  | .var v, _, h, _ => varTargets_findsAll h v hR
  | .const _, a, h, _ => ⟨.refl h.wellFormed, .nil a⟩
  | .unary _ _, a, h, _ => ⟨.refl h.wellFormed, .nil a⟩
  | .addrOf p, _, h, he => by
      obtain ⟨hgrow, htargets, -, -, -⟩ := resolve_resolves h hR (he p List.mem_cons_self)
      exact ⟨hgrow, htargets⟩
  | .binary op l r, a, h, he => by
      rw [exprTargets, PathFacts.exprTargets]
      by_cases hop : op.movesPointer = true
      · rw [if_pos hop, if_pos hop]
        obtain ⟨hgrow, hden⟩ := exprTargets_findsAll hR l h fun p hp =>
          he p (List.mem_append_left _ hp)
        have hfacts := pathFacts_eq (D := D) h.inRange hgrow.extend
        have hb := h.grow hgrow
        obtain ⟨hgrow', hden'⟩ := exprTargets_findsAll hR r hb fun p hp =>
          he p (List.mem_append_right _ hp)
        rw [hfacts] at hden'
        obtain ⟨hgrow'', hden''⟩ := collect_findsAll (R := R) hgrow'.wellFormed
          (denotes_union (hden.mono hgrow'.extend) hden')
          fun c hc i l hi => shifted_finds hc.wellFormed hi
        exact ⟨hgrow.trans (hgrow'.trans hgrow''), hden''⟩
      · rw [if_neg hop, if_neg hop]
        exact ⟨.refl h.wellFormed, .nil _⟩

end PointsTo

end TaintAnalysis
