import TaintAnalysis.IdSet
import TaintAnalysis.Memory.Location

/-!
# Numbering locations

The locations that a function can name are numbered in the order in which they
are first named. The first naming also settles the type of a location. Unknown
memory has the number zero.

Paths are kept apart up to a greatest length: a step beyond it stays where it
is, and so does any step from unknown memory.
-/

namespace TaintAnalysis

/-- The number of a location. -/
abbrev LocId := Nat

/-- A location with its type, where that is known. -/
structure Named where
  location : Location
  ty : Option Ty
  deriving DecidableEq

/-- The locations named so far. -/
structure Arena where
  /-- The locations, by number. -/
  named : List Named
  /-- The length of the longest path that is kept apart. -/
  maxDepth : Nat
  deriving DecidableEq

/-- A computation that may name locations. -/
abbrev Naming := StateM Arena

namespace Arena

def unknown : LocId := 0

/-- An arena in which only unknown memory is named. -/
def new (maxDepth : Nat) : Arena :=
  ⟨[⟨.unknown, none⟩], maxDepth⟩

instance : Inhabited Arena := ⟨new 0⟩

/-- How many locations are named. -/
def size (a : Arena) : Nat :=
  a.named.length

/-- The location with a number; unknown memory for a number that is not used. -/
def location (a : Arena) (id : LocId) : Location :=
  ((a.named[id]?).map (·.location)).getD .unknown

/-- The type of the location with a number, where that is known. -/
def ty? (a : Arena) (id : LocId) : Option Ty :=
  (a.named[id]?).bind (·.ty)

def find? (a : Arena) (l : Location) : Option LocId :=
  a.named.findIdx? fun n => n.location = l

/-- The number of the location whose path lacks the last step. -/
def parent? (a : Arena) (id : LocId) : Option LocId :=
  (a.location id).parent?.bind a.find?

/-- Whether two numbered locations may share memory. -/
def overlaps (a : Arena) (x y : LocId) : Bool :=
  (a.location x).overlaps (a.location y)

/-- The number of a location, which is named with the given type if it is new. -/
def intern (l : Location) (ty : Option Ty) : Naming LocId := fun a =>
  match a.find? l with
  | some id => (id, a)
  | none => (a.named.length, { a with named := a.named ++ [⟨l, ty⟩] })

/-- The number of the location that a root stands for. -/
def root (r : Root) (ty : Option Ty) : Naming LocId :=
  if r = .unknown then pure unknown else intern ⟨r, []⟩ ty

/-- The number of the location one step from another one. -/
def child (parent : LocId) (step : Step) (ty : Option Ty) : Naming LocId := do
  let a ← get
  let l := a.location parent
  if l.isUnknown || a.maxDepth ≤ l.path.length then return parent
  else intern (l.extend step) ty

/-- The number of the element of an array location. Without a number, or with
one that is not kept apart, it is the summary element; an index outside of the
array is unknown memory. -/
def element (maxTrackedIndex : Nat) (array : LocId) (index : Option Int) : Naming LocId := do
  let ty := (← get).ty? array
  let elementTy := ty.bind Ty.element?
  match index with
  | none => child array (.index none) elementTy
  | some i =>
      if i < 0 then return unknown
      else
        match ty.bind Ty.arrayLength? with
        | some length =>
            if length ≤ i.toNat then return unknown
            else child array (.index (some i.toNat)) elementTy
        | none =>
            if maxTrackedIndex ≤ i.toNat then child array (.index none) elementTy
            else child array (.index (some i.toNat)) elementTy

/-- The summary element next to a location, as pointer arithmetic reaches it. -/
def shifted (maxTrackedIndex : Nat) (id : LocId) : Naming LocId := do
  let a ← get
  match (a.location id).path.getLast?, a.parent? id with
  | some (.index _), some parent => child parent (.index none) (a.ty? id)
  | _, _ => element maxTrackedIndex id none

/-- The sum of an index and an offset, as long as it is a word of 64 bits. -/
def addOffset (i : Nat) (offset : Int) : Option Int :=
  let sum := i + offset
  if sum ≤ Int64.maxValue.toInt then some sum else none

/-- The location `index` elements behind the one that a pointer refers to. From
an element of an array, the index counts from there. -/
def offset (maxTrackedIndex : Nat) (target : LocId) (index : Option Int) : Naming LocId := do
  let a ← get
  match (a.location target).path.getLast?, a.parent? target with
  | some (.index current), some parent =>
      match current, index with
      | _, some 0 => return target
      | some i, some offset => element maxTrackedIndex parent (addOffset i offset)
      | _, _ => child parent (.index none) (a.ty? target)
  | _, _ => element maxTrackedIndex target index

/-- The numbers that a computation finds for the members of a set, in ascending order. -/
def collect (s : IdSet) (f : LocId → Naming LocId) : Naming IdSet :=
  IdSet.ofList <$> s.elems.mapM f

/-- The members of the sets that a computation finds for the members of a set,
in ascending order. -/
def collectAll (s : IdSet) (f : LocId → Naming IdSet) : Naming IdSet :=
  IdSet.unions <$> s.elems.mapM f

end Arena

end TaintAnalysis
