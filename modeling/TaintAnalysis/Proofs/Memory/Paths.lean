import TaintAnalysis.Memory.PointsTo

/-!
# Access paths without numbers

The pointer analysis works on numbered locations, and a number depends on what
was named before it. What an expression refers to does not: it is a matter of
access paths alone. This file repeats the walk along an access path on the
paths themselves, as plain functions without a state. `Layout` is what the walk
needs to know about the function, and `PathFacts` are the pointer facts with
every number replaced by its path.

The type of a location is read off its path as well: the declared type of a
variable, or of what a parameter refers to, followed through array elements. A
field has no known type.
-/

namespace TaintAnalysis

/-- What decides which access paths are kept apart. -/
structure Layout where
  function : Function
  /-- The length of the longest path that is kept apart. -/
  maxDepth : Nat
  /-- From this constant index on, the elements of an array of unknown length
  are not told apart. -/
  maxTrackedIndex : Nat

namespace Location

/-- The type of what a root stands for. -/
def rootTy? (f : Function) : Root → Option Ty
  | .variable v => f.ty? v
  | .paramTarget i => (f.params[i]?).bind fun v => (f.ty? v).bind Ty.pointee?
  | .unknown => none

/-- The type one step from a location of the given type. -/
def stepTy (ty : Option Ty) : Step → Option Ty
  | .index _ => ty.bind Ty.element?
  | .field _ => none

/-- The type of a location, where that is known. -/
def ty? (f : Function) (l : Location) : Option Ty :=
  l.path.foldl stepTy (rootTy? f l.root)

theorem ty?_extend (f : Function) (l : Location) (s : Step) :
    (l.extend s).ty? f = stepTy (l.ty? f) s := by
  rw [ty?, ty?, extend, List.foldl_append]
  rfl

/-- A location is its parent followed by its last step. -/
theorem eq_extend_of_parent? {l parent : Location} {s : Step} (hp : l.parent? = some parent)
    (hs : l.path.getLast? = some s) : l = parent.extend s := by
  obtain ⟨root, path⟩ := l
  rw [parent?] at hp
  split at hp
  · exact absurd hp (by simp only [reduceCtorEq, not_false_eq_true])
  · next hne =>
    obtain rfl := Option.some.inj hp
    have hne' : path ≠ [] := fun h => hne (List.isEmpty_iff.mpr h)
    rw [List.getLast?_eq_some_getLast hne'] at hs
    rw [extend, ← Option.some.inj hs, List.dropLast_concat_getLast]

theorem root_of_param? {l : Location} {i : Nat} (h : l.param? = some i) :
    l.root = .paramTarget i := by
  rw [param?] at h
  split at h
  · next j hj => exact hj.trans (congrArg Root.paramTarget (Option.some.inj h))
  · exact nomatch h

end Location

/-- The variable that a path consists of, if it is nothing more. -/
def Place.plain? : Place → Option VarId
  | .var v => some v
  | _ => none

namespace Function

/-- The variable whose storage is named while a path is followed. -/
def named? (f : Function) : Place → Option VarId
  | .var _ => none
  | .deref p => f.named? p
  | .index p _ =>
      match p.plain? with
      | some v => if (f.ty? v).any Ty.isPointer then none else some v
      | none => f.named? p
  | .field p _ =>
      match p.plain? with
      | some v => some v
      | none => f.named? p

/-- The variable whose storage is named while a path is resolved. A path that
begins by following a pointer names none. -/
def storage? (f : Function) (p : Place) : Option VarId :=
  p.plain?.or (f.named? p)

end Function

namespace Layout

def child (y : Layout) (l : Location) (step : Step) : Location :=
  if l.isUnknown || y.maxDepth ≤ l.path.length then l else l.extend step

def element (y : Layout) (array : Location) : Option Int → Location
  | none => y.child array (.index none)
  | some i =>
      if i < 0 then .unknown
      else
        match (array.ty? y.function).bind Ty.arrayLength? with
        | some length =>
            if length ≤ i.toNat then .unknown else y.child array (.index (some i.toNat))
        | none =>
            if y.maxTrackedIndex ≤ i.toNat then y.child array (.index none)
            else y.child array (.index (some i.toNat))

/-- The summary element next to a location. -/
def shifted (y : Layout) (l : Location) : Location :=
  match l.path.getLast?, l.parent? with
  | some (.index _), some parent => y.child parent (.index none)
  | _, _ => y.element l none

/-- The location `index` elements behind another one. -/
def offset (y : Layout) (target : Location) (index : Option Int) : Location :=
  match target.path.getLast?, target.parent? with
  | some (.index current), some parent =>
      match current, index with
      | _, some 0 => target
      | some i, some offset => y.element parent (Arena.addOffset i offset)
      | _, _ => y.child parent (.index none)
  | _, _ => y.element target index

end Layout

/-! ## Where steps stay -/

namespace Location

/-- The location is below the root, or nothing is known about it. -/
def Below (r : Root) (l : Location) : Prop :=
  l.root = r ∨ l.root = .unknown

variable {r : Root} {l : Location} {y : Layout}

theorem Below.child (h : l.Below r) (step : Step) : (y.child l step).Below r := by
  rw [Layout.child]
  split
  · exact h
  · exact h

theorem Below.element (h : l.Below r) (index : Option Int) : (y.element l index).Below r := by
  cases index with
  | none => exact h.child _
  | some i =>
      simp only [Layout.element]
      split
      · exact .inr rfl
      · split
        · split
          · exact .inr rfl
          · exact h.child _
        · split
          · exact h.child _
          · exact h.child _

theorem Below.of_parent? {parent : Location} (h : l.Below r) (hp : l.parent? = some parent) :
    parent.Below r := by
  rw [parent?] at hp
  split at hp
  · exact absurd hp (by simp only [reduceCtorEq, not_false_eq_true])
  · obtain rfl := Option.some.inj hp
    exact h

theorem Below.offset (h : l.Below r) (index : Option Int) : (y.offset l index).Below r := by
  rw [Layout.offset]
  split
  · next current parent _ hp =>
    split
    · exact h
    · exact (h.of_parent? hp).element _
    · exact (h.of_parent? hp).child _
  · exact h.element index

theorem Below.shifted (h : l.Below r) : (y.shifted l).Below r := by
  rw [Layout.shifted]
  split
  · next hp => exact (h.of_parent? hp).child _
  · exact h.element none

end Location

/-! ## Facts -/

/-- A pointer is no array. -/
theorem Ty.isArray_of_isPointer {ty : Option Ty} (h : ty.any Ty.isPointer = true) :
    ty.any Ty.isArray = false := by
  obtain ⟨ty, rfl, hpointer⟩ := (Option.any_eq_true _ _).mp h
  cases ty <;> first | rfl | exact absurd hpointer Bool.false_ne_true

/-- What pointers may refer to, by access path. -/
structure PathFacts where
  layout : Layout
  /-- The targets of pointer variables. -/
  vars : VarId → List Location
  /-- The targets of the pointers stored in memory, cell by cell. -/
  cells : List (Location × List Location)

/-- Where an access path lands, and what was read to compute its address. -/
structure PathResolution where
  targets : List Location
  pointerCells : List Location
  derefsBase : Bool

/-- A part of an access path that has been followed: to the locations it
reaches, or to a variable whose storage is not named yet. -/
structure PathFollowed where
  reached : VarId ⊕ List Location
  pointerCells : List Location
  derefsBase : Bool

namespace PathFacts

/-- What the value of a variable may refer to. -/
def varTargets (m : PathFacts) (v : VarId) : List Location :=
  if (m.layout.function.ty? v).any Ty.isArray then [⟨.variable v, []⟩] else m.vars v

/-- The value of a pointer refers to its targets. -/
theorem varTargets_pointer {m : PathFacts} {v : VarId}
    (h : (m.layout.function.ty? v).any Ty.isPointer = true) : m.varTargets v = m.vars v := by
  rw [varTargets, Ty.isArray_of_isPointer h]
  rfl

/-- The targets of the pointers stored in cells that overlap a location. -/
def overlapping (m : PathFacts) (l : Location) : List Location :=
  (m.cells.filter fun e => e.1.overlaps l).flatMap Prod.snd

/-- What the pointer stored in a location may refer to. -/
def storedTargets (m : PathFacts) (orUnknown : Bool) (l : Location) : List Location :=
  if l.isUnknown then [.unknown]
  else if !(m.overlapping l).isEmpty then m.overlapping l
  else
    match l.param? with
    | some i => [⟨.paramTarget i, []⟩]
    | none => if orUnknown then [.unknown] else []

/-- Where following a variable as a pointer leads. -/
def derefVar (m : PathFacts) (v : VarId) : List Location :=
  if (m.varTargets v).isEmpty then [.unknown] else m.varTargets v

def holdsPointer (m : PathFacts) (l : Location) : Bool :=
  (l.ty? m.layout.function).any Ty.isPointer

def indexed (m : PathFacts) (index : Option Int) (l : Location) : List Location :=
  if m.holdsPointer l then (m.storedTargets true l).map (m.layout.offset · index)
  else [m.layout.element l index]

/-- Follows an access path from its base. -/
def follow (m : PathFacts) : Place → PathFollowed
  | .var v => ⟨.inl v, [], false⟩
  | .deref p =>
      let s := m.follow p
      match s.reached with
      | .inl v => { s with reached := .inr (m.derefVar v), derefsBase := true }
      | .inr ls =>
          { s with
            reached := .inr (ls.flatMap (m.storedTargets true))
            pointerCells := s.pointerCells ++ ls }
  | .index p e =>
      let s := m.follow p
      let index := PointsTo.constantIndex e
      match s.reached with
      | .inl v =>
          if (m.layout.function.ty? v).any Ty.isPointer then
            { s with
              reached := .inr ((m.derefVar v).map (m.layout.offset · index))
              derefsBase := true }
          else { s with reached := .inr [m.layout.element ⟨.variable v, []⟩ index] }
      | .inr ls =>
          { s with
            reached := .inr (ls.flatMap (m.indexed index))
            pointerCells := s.pointerCells ++ ls.filter m.holdsPointer }
  | .field p name =>
      let s := m.follow p
      match s.reached with
      | .inl v => { s with reached := .inr [m.layout.child ⟨.variable v, []⟩ (.field name)] }
      | .inr ls => { s with reached := .inr (ls.map (m.layout.child · (.field name))) }

theorem follow_var (m : PathFacts) (v : VarId) : m.follow (.var v) = ⟨.inl v, [], false⟩ := rfl

theorem follow_deref (m : PathFacts) (p : Place) : m.follow (.deref p) =
    match (m.follow p).reached with
    | .inl v => { m.follow p with reached := .inr (m.derefVar v), derefsBase := true }
    | .inr ls =>
        { m.follow p with
          reached := .inr (ls.flatMap (m.storedTargets true))
          pointerCells := (m.follow p).pointerCells ++ ls } := rfl

theorem follow_index (m : PathFacts) (p : Place) (e : Expr) : m.follow (.index p e) =
    match (m.follow p).reached with
    | .inl v =>
        if (m.layout.function.ty? v).any Ty.isPointer then
          { m.follow p with
            reached := .inr
              ((m.derefVar v).map (m.layout.offset · (PointsTo.constantIndex e)))
            derefsBase := true }
        else
          { m.follow p with
            reached := .inr [m.layout.element ⟨.variable v, []⟩ (PointsTo.constantIndex e)] }
    | .inr ls =>
        { m.follow p with
          reached := .inr (ls.flatMap (m.indexed (PointsTo.constantIndex e)))
          pointerCells := (m.follow p).pointerCells ++ ls.filter m.holdsPointer } := rfl

theorem follow_field (m : PathFacts) (p : Place) (name : String) : m.follow (.field p name) =
    match (m.follow p).reached with
    | .inl v =>
        { m.follow p with reached := .inr [m.layout.child ⟨.variable v, []⟩ (.field name)] }
    | .inr ls =>
        { m.follow p with reached := .inr (ls.map (m.layout.child · (.field name))) } := rfl

/-- The locations a place may denote, and what is read to find them. -/
def resolve (m : PathFacts) (p : Place) : PathResolution :=
  let s := m.follow p
  match s.reached with
  | .inl v => ⟨[⟨.variable v, []⟩], s.pointerCells, s.derefsBase⟩
  | .inr ls => ⟨ls, s.pointerCells, s.derefsBase⟩

/-- The locations the value of an expression may refer to. -/
def exprTargets (m : PathFacts) : Expr → List Location
  | .var v => m.varTargets v
  | .addrOf p => (m.resolve p).targets
  | .binary op l r =>
      if op.movesPointer then (m.exprTargets l ++ m.exprTargets r).map m.layout.shifted else []
  | .unary .. | .const _ => []

end PathFacts

end TaintAnalysis
