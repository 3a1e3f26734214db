import TaintAnalysis.Proofs.Memory.Overlap
import TaintAnalysis.Proofs.Solver.Persistence

/-!
# What a reader of memory finds

Memory is written to one cell at a time and read by overlap. So what was written to a location is
found by every reader of this location or of a coarser one, however many locations have been named
and however much has been written since: a number keeps its location, and a cell its taint. A reader
whose locations all part from the written one at different constant indices or different fields is
not affected.

Nothing lies below unknown memory, so only locations of known memory have paths that can part.
-/

namespace TaintAnalysis

/-! ## Arenas -/

namespace Arena

variable {a : Arena}

/-- Unknown memory has one location. -/
def Rooted (a : Arena) : Prop :=
  ∀ n ∈ a.named, n.location.root = .unknown → n.location = .unknown

theorem Rooted.location_eq (h : a.Rooted) {id : LocId} (hid : (a.location id).root = .unknown) :
    a.location id = .unknown := by
  cases hget : a.named[id]? with
  | none => rw [location, hget]; rfl
  | some n =>
      rw [location_eq_of_getElem? hget] at hid ⊢
      exact h n (List.mem_of_getElem? hget) hid

theorem rooted_new (maxDepth : Nat) : (new maxDepth).Rooted :=
  fun _ hn _ => congrArg Named.location (List.mem_singleton.mp hn)

/-- The computation only adds to an arena, and nothing below unknown memory. -/
def Adds {α : Type} (n : Naming α) : Prop :=
  ∀ a : Arena, a.Extends (n.run a).2 ∧ (a.Rooted → (n.run a).2.Rooted)

theorem adds_pure (id : LocId) : Adds (pure id) :=
  fun a => ⟨.refl a, fun ha => ha⟩

theorem adds_intern {l : Location} (hl : l.root = .unknown → l = .unknown) (ty : Option Ty) :
    Adds (intern l ty) := by
  intro a
  rw [StateT.run, intern]
  split
  · exact ⟨.refl a, fun ha => ha⟩
  · refine ⟨extends_push a _, fun ha n hn => ?_⟩
    rcases List.mem_append.mp hn with hold | hnew
    · exact ha n hold
    · exact List.mem_singleton.mp hnew ▸ hl

theorem adds_root (r : Root) (ty : Option Ty) : Adds (root r ty) := by
  rw [root]
  split
  · exact adds_pure unknown
  · next hr => exact adds_intern (fun h => absurd h hr) ty

theorem adds_child (parent : LocId) (step : Step) (ty : Option Ty) :
    Adds (child parent step ty) := by
  intro a
  rw [show (child parent step ty).run a =
    (if (a.location parent).isUnknown || decide (a.maxDepth ≤ (a.location parent).path.length)
      then (pure parent : Naming LocId)
      else intern ((a.location parent).extend step) ty).run a from rfl]
  split
  · exact adds_pure parent a
  · next hstays =>
    have hknown : ¬ (a.location parent).root = .unknown := fun h =>
      hstays (Bool.or_eq_true_iff.mpr (.inl (Location.isUnknown_iff.mpr h)))
    exact adds_intern (l := (a.location parent).extend step) (fun h => absurd h hknown) ty a

/-- Locations whose paths part do not overlap. -/
theorem Rooted.not_overlaps (h : a.Rooted) {x y : LocId} {i : Nat} {s t : Step}
    (hroot : (a.location x).root = (a.location y).root)
    (hs : (a.location x).path[i]? = some s) (ht : (a.location y).path[i]? = some t)
    (hapart : s.Apart t) : a.overlaps x y = false := by
  refine Location.not_overlaps_of_apart (Bool.not_eq_true _ ▸ fun hx => ?_) hroot hs ht hapart
  rw [h.location_eq (Location.isUnknown_iff.mp hx)] at hs
  exact nomatch hs

end Arena

/-! ## Cells -/

namespace Memory

variable {p : Problem} {m : Memory} {ids : IdSet} {v : Value} {x z : LocId}

/-- A reader finds the joined taint of all cells that overlap what it reads. -/
theorem read_le_iff :
    m.read ids ≤ v ↔ ∀ x, ∀ z ∈ ids, m.arena.overlaps x z = true → m.cell x ≤ v := by
  rw [read, Value.joins_le_iff]
  constructor
  · intro h x z hz hover
    cases hget : m.cells.get? x with
    | none => rw [cell, hget]; exact Value.bottom_le _
    | some w =>
        rw [cell, hget]
        have hfound : (x, w) ∈
            m.cells.entries.filter fun e => ids.elems.any (m.arena.overlaps e.1) :=
          List.mem_filter.mpr
            ⟨OrderedMap.get?_eq_some_iff.mp hget, List.any_eq_true.mpr ⟨z, hz, hover⟩⟩
        exact h w (List.mem_map_of_mem (f := Prod.snd) hfound)
  · intro h w hw
    obtain ⟨⟨x, w⟩, he, rfl⟩ := List.mem_map.mp hw
    obtain ⟨he, hany⟩ := List.mem_filter.mp he
    obtain ⟨z, hz, hover⟩ := List.any_eq_true.mp hany
    have hx := h x z hz hover
    rwa [cell, OrderedMap.get?_eq_some_iff.mpr he] at hx

theorem cell_le_read (hz : z ∈ ids) (hover : m.arena.overlaps x z = true) :
    m.cell x ≤ m.read ids :=
  read_le_iff.mp (Value.le_refl _) x z hz hover

theorem cell_write_of_ne (p : Problem) (m : Memory) {x y : LocId} (v : Value) (h : y ≠ x) :
    (m.write p x v).cell y = m.cell y := by
  rw [write]
  split
  · rfl
  · show ((m.cells.joinAt x v).get? y).getD Value.bottom = _
    rw [OrderedMap.getD_joinAt, if_neg h]
    rfl

/-- A write is not noticed by who reads no memory that overlaps it. -/
theorem read_write_of_not_overlaps (h : ∀ z ∈ ids, m.arena.overlaps x z = false) :
    (m.write p x v).read ids = m.read ids := by
  have hcell {y z : LocId} (hz : z ∈ ids) (hover : m.arena.overlaps y z = true) :
      (m.write p x v).cell y = m.cell y := by
    refine cell_write_of_ne p m v fun hy => ?_
    rw [hy, h z hz] at hover
    exact Bool.false_ne_true hover
  refine Value.le_antisymm (read_le_iff.mpr fun y z hz hover => ?_)
    (read_le_iff.mpr fun y z hz hover => ?_)
  · rw [arena_write] at hover
    exact hcell hz hover ▸ cell_le_read hz hover
  · rw [← hcell hz hover]
    exact cell_le_read hz (arena_write p m x v ▸ hover)

/-- The memory `m'` comes after `m`: what is named keeps its number, no cell has less taint, and
unknown memory still has one location. -/
structure Leads (m m' : Memory) : Prop where
  extend : m.arena.Extends m'.arena
  fills : Fills m m'
  rooted : m.arena.Rooted → m'.arena.Rooted

theorem Leads.refl (m : Memory) : m.Leads m :=
  ⟨.refl _, .of_cells rfl, fun h => h⟩

theorem Leads.trans {m m' m'' : Memory} (h : m.Leads m') (h' : m'.Leads m'') : m.Leads m'' :=
  ⟨h.extend.trans h'.extend, h.fills.trans h'.fills, fun hm => h'.rooted (h.rooted hm)⟩

theorem leads_naming {α : Type} {n : Naming α} (hn : Arena.Adds n) (m : Memory) :
    m.Leads ((Effect.naming n).run m).2 :=
  ⟨(hn m.arena).1, fills_naming m, (hn m.arena).2⟩

theorem leads_write (p : Problem) (m : Memory) (x : LocId) (v : Value) :
    m.Leads (m.write p x v) where
  extend := arena_write p m x v ▸ .refl _
  fills := .write p m x v
  rooted := fun h => (arena_write p m x v).symm ▸ h

/-- What was in a cell before is found by who reads its location now, or a coarser one. -/
theorem Leads.cell_le_read {m' : Memory} (h : m.Leads m') (hx : x < m.arena.size) (hz : z ∈ ids)
    (hcoarser : (m'.arena.location z).Coarser (m.arena.location x)) : m.cell x ≤ m'.read ids := by
  refine Value.le_trans (h.fills.le x) (Memory.cell_le_read hz ?_)
  rw [Arena.overlaps, h.extend.location hx, Location.overlaps_comm]
  exact hcoarser.overlaps (Location.overlaps_self _)

end Memory

/-! ## Runs -/

/-- What is done to memory. -/
inductive MemoryCall where
  /-- Asks for the location that a root stands for. -/
  | root (r : Root) (ty : Option Ty)
  /-- Asks for the location one step from another one. -/
  | child (parent : LocId) (step : Step) (ty : Option Ty)
  /-- Joins a value into a cell. -/
  | write (id : LocId) (v : Value)

namespace MemoryCall

/-- The memory after a call. -/
def perform (p : Problem) (m : Memory) : MemoryCall → Memory
  | root r ty => ((Effect.naming (Arena.root r ty)).run m).2
  | child parent step ty => ((Effect.naming (Arena.child parent step ty)).run m).2
  | write id v => m.write p id v

/-- The memory after a list of calls. -/
def after (p : Problem) (calls : List MemoryCall) (m : Memory) : Memory :=
  calls.foldl (perform p) m

theorem perform_leads (p : Problem) (m : Memory) (c : MemoryCall) : m.Leads (c.perform p m) := by
  cases c with
  | root r ty => exact Memory.leads_naming (Arena.adds_root r ty) m
  | child parent step ty => exact Memory.leads_naming (Arena.adds_child parent step ty) m
  | write id v => exact m.leads_write p id v

theorem after_leads (p : Problem) (calls : List MemoryCall) (m : Memory) :
    m.Leads (after p calls m) := by
  induction calls generalizing m with
  | nil => exact .refl m
  | cons c rest ih => exact (perform_leads p m c).trans (ih _)

end MemoryCall

/-- Overlap in an arena is reflexive and symmetric, and a coarser location overlaps what the
location overlaps. So what is written to a location is found, then and later, by who reads the
location or a coarser one. But locations with one root whose paths part at different constant
indices or different fields do not overlap, and what overlaps nothing that is read is not found. -/
theorem overlap_stable_under_coarsening (p : Problem) (maxDepth : Nat)
    (cells : OrderedMap LocId Value) (paramWrites : OrderedMap Nat Value)
    (calls : List MemoryCall) :
    let m := MemoryCall.after p calls ⟨.new maxDepth, cells, paramWrites⟩
    (∀ x, m.arena.overlaps x x = true) ∧
      (∀ x y, m.arena.overlaps x y = m.arena.overlaps y x) ∧
      (∀ x y z, m.arena.overlaps x y = true →
        (m.arena.location z).Coarser (m.arena.location x) → m.arena.overlaps z y = true) ∧
      (∀ x < m.arena.size, ∀ v later ids,
        let m' := MemoryCall.after p later (m.write p x v)
        (∃ z ∈ ids, (m'.arena.location z).Coarser (m.arena.location x)) → v ≤ m'.read ids) ∧
      (∀ (x y : LocId) (i : Nat) (s t : Step),
        (m.arena.location x).root = (m.arena.location y).root →
        (m.arena.location x).path[i]? = some s → (m.arena.location y).path[i]? = some t →
        s.Apart t → m.arena.overlaps x y = false) ∧
      ∀ x v ids, (∀ z ∈ ids, m.arena.overlaps x z = false) →
        (m.write p x v).read ids = m.read ids := by
  intro m
  have hrooted : m.arena.Rooted :=
    (MemoryCall.after_leads p calls _).rooted (Arena.rooted_new maxDepth)
  refine ⟨fun x => Location.overlaps_self _, fun x y => Location.overlaps_comm _ _,
    fun x y z hover hcoarser => hcoarser.overlaps hover, ?_,
    fun x y i s t hroot hs ht hapart => hrooted.not_overlaps hroot hs ht hapart,
    fun x v ids hids => Memory.read_write_of_not_overlaps hids⟩
  rintro x hx v later ids m' ⟨z, hz, hcoarser⟩
  have hlater := MemoryCall.after_leads p later (m.write p x v)
  rw [← arena_write p m x v] at hx hcoarser
  exact Value.le_trans (le_cell_write p m x v) (hlater.cell_le_read hx hz hcoarser)

/-- The analysis of a function that does nothing. -/
def idling : Problem :=
  (Problem.ofFunction (.new "") .standard .empty []).1

/-- Names a variable `a` and then `a[0]`, `a[1]` and `a[*]`, with the numbers 1 to 4. -/
def namingElements : List MemoryCall :=
  [.root (.variable 0) none, .child 1 (.index (some 0)) none, .child 1 (.index (some 1)) none,
    .child 1 (.index none) none]

/-- The memory in which nothing but these locations has been named. -/
def elements : Memory :=
  MemoryCall.after idling namingElements ⟨.new 4, .empty, .empty⟩

/-- The summary element overlaps `a[0]`, so who reads it finds what is written to `a[0]`, also after
another write. The elements `a[0]` and `a[1]` do not overlap, so who reads `a[1]` does not. -/
theorem overlap_stable_under_coarsening_elements :
    elements.arena.overlaps 4 2 = true ∧
      Value.top [0] ≤ (MemoryCall.after idling [.write 3 (Value.top [1])]
        (elements.write idling 2 (Value.top [0]))).read (.singleton 4) ∧
      elements.arena.overlaps 2 3 = false ∧
      (elements.write idling 2 (Value.top [0])).read (.singleton 3) = Value.bottom := by
  obtain ⟨hself, -, hcoarser, hread, hparted, hunread⟩ :=
    overlap_stable_under_coarsening idling 4 .empty .empty namingElements
  have hfirst : elements.arena.location 2 = ⟨.variable 0, [.index (some 0)]⟩ := by decide +kernel
  have hsecond : elements.arena.location 3 = ⟨.variable 0, [.index (some 1)]⟩ := by decide +kernel
  have hlast : elements.arena.location 4 = ⟨.variable 0, [.index none]⟩ := by decide +kernel
  have hsummary : (elements.arena.location 4).Coarser (elements.arena.location 2) := by
    rw [hlast, hfirst]
    exact .single (.summarize 0 0 rfl)
  have happart : elements.arena.overlaps 2 3 = false :=
    hparted 2 3 0 _ _ (hfirst ▸ hsecond ▸ rfl) (hfirst ▸ rfl) (hsecond ▸ rfl)
      (.index Nat.zero_ne_one)
  refine ⟨hcoarser 2 2 4 (hself 2) hsummary, ?_, happart, ?_⟩
  · refine hread 2 (by decide +kernel) (.top [0]) [.write 3 (.top [1])] (.singleton 4)
      ⟨4, List.mem_singleton_self 4, ?_⟩
    have harena := arena_write idling (elements.write idling 2 (.top [0])) 3 (.top [1])
    rw [arena_write] at harena
    exact harena ▸ hsummary
  · refine (hunread 2 (.top [0]) (.singleton 3) fun z hz => ?_).trans ?_
    · obtain rfl : z = 3 := List.mem_singleton.mp hz
      exact happart
    · decide +kernel

end TaintAnalysis
