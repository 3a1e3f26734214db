import TaintAnalysis.Proofs.Memory.Queries
import TaintAnalysis.Proofs.Memory.Universe

/-!
# A registry of locations

The parent of a location can be read off its path: it is the location whose path lacks the last
step. It can also be written down when the location is named, next to its type, and then nothing
says that the two agree. Pointer arithmetic starts from the parent that was written down, and the
types it hands on were settled by whoever came first.

A `Registry` is an arena that keeps such notes, with the same calls. Its notes are right
(`Registry.Sound`), whatever is called in whatever order: by then each call has found the location
that the call on the arena finds, and each location has the type of its path, so that every constant
index is within the bounds of its array or among those kept apart, and is a word of 64 bits.
-/

namespace TaintAnalysis

/-- The step to an element of an array of the given type: none if the index is outside of it, and to
the summary element if there is no index or one that is not kept apart. -/
def Step.ofIndex? (k : Nat) (ty : Option Ty) : Option Int → Option Step
  | none => some (.index none)
  | some i =>
      if i < 0 then none
      else
        match ty.bind Ty.arrayLength? with
        | some length => if length ≤ i.toNat then none else some (.index (some i.toNat))
        | none => if k ≤ i.toNat then some (.index none) else some (.index (some i.toNat))

/-- The index is within the bounds of an array of the given type, or among those that are kept apart
if the bounds are not known, and it is a word of 64 bits. -/
structure IndexFits (k : Nat) (ty : Option Ty) (i : Nat) : Prop where
  bound : match ty.bind Ty.arrayLength? with
    | some length => i < length
    | none => i < k
  word : i < 2 ^ 63

theorem Step.fits_of_ofIndex? {k : Nat} {ty : Option Ty} {index : Option Int} {step : Step}
    (hstep : Step.ofIndex? k ty index = some step) (hword : Arena.IsWord index) :
    ∃ i, step = .index i ∧ ∀ n, i = some n → IndexFits k ty n := by
  cases index with
  | none =>
      obtain rfl := Option.some.inj hstep
      exact ⟨none, rfl, nofun⟩
  | some i =>
      have hi : i.toNat < 2 ^ 63 := by
        have := hword i rfl
        omega
      rw [ofIndex?] at hstep
      split at hstep
      · exact nomatch hstep
      · cases hlength : ty.bind Ty.arrayLength? with
        | some length =>
            rw [hlength] at hstep
            simp only at hstep
            split at hstep
            · exact nomatch hstep
            · next hlt =>
              obtain rfl := Option.some.inj hstep
              refine ⟨some i.toNat, rfl, fun n hn => ?_⟩
              obtain rfl := Option.some.inj hn
              exact ⟨by rw [hlength]; exact Nat.lt_of_not_le hlt, hi⟩
        | none =>
            rw [hlength] at hstep
            simp only at hstep
            split at hstep
            · obtain rfl := Option.some.inj hstep
              exact ⟨none, rfl, nofun⟩
            · next hlt =>
              obtain rfl := Option.some.inj hstep
              refine ⟨some i.toNat, rfl, fun n hn => ?_⟩
              obtain rfl := Option.some.inj hn
              exact ⟨by rw [hlength]; exact Nat.lt_of_not_le hlt, hi⟩

/-- The path is not too long, there is nothing below unknown memory, and a constant index at the end
fits the type of what it is an index of. -/
structure Location.Admitted (y : Layout) (l : Location) : Prop where
  depth : l.path.length ≤ y.maxDepth
  rooted : l.root = .unknown → l = .unknown
  fits : ∀ (l' : Location) i, l = l'.extend (.index (some i)) →
    IndexFits y.maxTrackedIndex (l'.ty? y.function) i

theorem Location.extend_ne_of_nil {l l' : Location} (h : l.path = []) (step : Step) :
    l ≠ l'.extend step := by
  rintro rfl
  exact List.append_ne_nil_of_right_ne_nil _ (List.cons_ne_nil _ _) h

theorem Location.admitted_root (y : Layout) {r : Root} : Admitted y ⟨r, []⟩ where
  depth := Nat.zero_le _
  rooted := fun h => congrArg (Location.mk · []) h
  fits := fun _ _ hl => absurd hl (extend_ne_of_nil rfl _)

/-- An arena in which the parent of each location is written down. -/
structure Registry where
  arena : Arena
  /-- The number that each location was reached from when it was named, by number. -/
  parents : List (Option LocId)

namespace Registry

def new (maxDepth : Nat) : Registry :=
  ⟨.new maxDepth, [none]⟩

/-- The parent that is written down for a location. -/
def parent? (r : Registry) (id : LocId) : Option LocId :=
  (r.parents[id]?).join

/-- The number of a location, which is named with the given parent and type if it is new. -/
def intern (l : Location) (parent : Option LocId) (ty : Option Ty) : StateM Registry LocId :=
  fun r =>
    match r.arena.find? l with
    | some id => (id, r)
    | none => (r.arena.size, ⟨r.arena.push ⟨l, ty⟩, r.parents ++ [parent]⟩)

/-- The number of the location that a root stands for. -/
def root (r : Root) (ty : Option Ty) : StateM Registry LocId :=
  if r = .unknown then pure Arena.unknown else intern ⟨r, []⟩ none ty

/-- The number of the location one step from another one. -/
def child (parent : LocId) (step : Step) (ty : Option Ty) : StateM Registry LocId := do
  let r ← get
  let l := r.arena.location parent
  if l.isUnknown || r.arena.maxDepth ≤ l.path.length then return parent
  else intern (l.extend step) (some parent) ty

/-- The number of the element of an array location. -/
def element (k : Nat) (array : LocId) (index : Option Int) : StateM Registry LocId := do
  let ty := (← get).arena.ty? array
  match Step.ofIndex? k ty index with
  | some step => child array step (ty.bind Ty.element?)
  | none => return Arena.unknown

/-- The summary element next to a location, found from the parent that is written down. -/
def shifted (k : Nat) (id : LocId) : StateM Registry LocId := do
  let r ← get
  match (r.arena.location id).path.getLast?, r.parent? id with
  | some (.index _), some parent => child parent (.index none) (r.arena.ty? id)
  | _, _ => element k id none

/-- The location `index` elements behind another one, found from the parent that is written down. -/
def offset (k : Nat) (target : LocId) (index : Option Int) : StateM Registry LocId := do
  let r ← get
  match (r.arena.location target).path.getLast?, r.parent? target with
  | some (.index current), some parent =>
      match current, index with
      | _, some 0 => return target
      | some i, some offset => element k parent (Arena.addOffset i offset)
      | _, _ => child parent (.index none) (r.arena.ty? target)
  | _, _ => element k target index

/-- Makes a call for a function, where `k` is the first index that is not kept apart. -/
def perform (f : Function) (k : Nat) : NamingCall → StateM Registry LocId
  | .storage v => root (.variable v) (f.ty? v)
  | .object i =>
      match Location.rootTy? f (.paramTarget i) with
      | some ty => root (.paramTarget i) (some ty)
      | none => return Arena.unknown
  | .fallback id => do
      match ((← get).arena.location id).param? with
      | some i => root (.paramTarget i) none
      | none => return Arena.unknown
  | .field id name => child id (.field name) none
  | .element id index => element k id (index.map Int64.toInt)
  | .shifted id => shifted k id
  | .offset id index => offset k id (index.map Int64.toInt)

/-- The registry after a list of calls. -/
def after (f : Function) (k : Nat) (calls : List NamingCall) (r : Registry) : Registry :=
  calls.foldl (fun r c => ((perform f k c).run r).2) r

/-! ## The notes are right -/

/-- The arena is well-formed, the parents are those of the paths, and each location may be there. -/
structure Sound (y : Layout) (r : Registry) : Prop where
  wellFormed : r.arena.WellFormed y
  recorded : r.parents.length = r.arena.size
  parent : ∀ id < r.arena.size, r.parent? id = r.arena.parent? id
  admitted : ∀ n ∈ r.arena.named, n.location.Admitted y

/-- On a sound registry the call finds what the call on the arena finds, names it if that does, and
leaves the registry sound. -/
def Records (y : Layout) (r : Registry) (n : StateM Registry LocId) (n' : Naming LocId) : Prop :=
  Sound y (n.run r).2 ∧ n'.run r.arena = ((n.run r).1, (n.run r).2.arena)

variable {y : Layout} {r : Registry} {l : Location} {id : LocId}

theorem sound_new (f : Function) (maxDepth k : Nat) : Sound ⟨f, maxDepth, k⟩ (new maxDepth) where
  wellFormed := Arena.wellFormed_new f maxDepth k
  recorded := rfl
  parent := fun id hid => by
    obtain rfl : id = 0 := Nat.lt_one_iff.mp hid
    rfl
  admitted := fun _ hn => List.mem_singleton.mp hn ▸ Location.admitted_root _

theorem location_of_not_lt {a : Arena} (h : ¬ id < a.size) : a.location id = .unknown := by
  rw [Arena.location, List.getElem?_eq_none (Nat.le_of_not_lt h)]
  rfl

theorem find?_eq {a : Arena} (hw : a.WellFormed y) (h : a.Points id l) : a.find? l = some id := by
  obtain ⟨i, hi⟩ := Option.isSome_iff_exists.mp
    (Arena.has_iff_find?.mp (h.2 ▸ Arena.has_location h.1))
  rw [hi, hw.eq_of_location_eq (Arena.find?_some hi) h]

/-- The parent that is read off the path is the location that the path extends. -/
theorem parent?_eq {a b : Arena} (hw : b.WellFormed y) (hab : a.Extends b) (h : b.Points id l)
    {parent : Option LocId} (hparent : l.path = [] ∧ parent = none ∨
      ∃ p l' step, parent = some p ∧ a.Points p l' ∧ l = l'.extend step) :
    b.parent? id = parent := by
  rw [Arena.parent?, h.2]
  rcases hparent with ⟨hnil, rfl⟩ | ⟨p, l', step, rfl, hp, rfl⟩
  · rw [Location.parent?, hnil]
    rfl
  · have hparent : (l'.extend step).parent? = some l' := by
      rw [Location.parent?, Location.extend, List.dropLast_concat]
      simp
    rw [hparent, Option.bind_some]
    exact find?_eq hw (hp.mono hab)

theorem Sound.unchanged (h : Sound y r) (x : LocId) : Records y r (pure x) (pure x) :=
  ⟨h, rfl⟩

/-- A location that is new is noted with the type of its path, and with its parent. -/
theorem Sound.intern (h : Sound y r) {parent : Option LocId} {ty : Option Ty}
    (hnew : ¬ r.arena.Has l → ty = l.ty? y.function ∧ l.Admitted y ∧
      (l.path = [] ∧ parent = none ∨
        ∃ p l' step, parent = some p ∧ r.arena.Points p l' ∧ l = l'.extend step)) :
    Records y r (Registry.intern l parent ty) (Arena.intern l ty) := by
  cases hfind : r.arena.find? l with
  | some found =>
      have hintern : (Registry.intern l parent ty).run r = (found, r) := by
        rw [StateT.run, Registry.intern, hfind]
      rw [Records, hintern]
      refine ⟨h, ?_⟩
      rw [StateT.run, Arena.intern, hfind]
  | none =>
      have hno : ¬ r.arena.Has l := by
        rw [Arena.has_iff_find?, hfind]
        exact Bool.false_ne_true
      obtain ⟨rfl, hadmitted, hparent⟩ := hnew hno
      have hintern : (Registry.intern l parent (l.ty? y.function)).run r = (r.arena.size,
          ⟨r.arena.push ⟨l, l.ty? y.function⟩, r.parents ++ [parent]⟩) := by
        rw [StateT.run, Registry.intern, hfind]
      rw [Records, hintern]
      refine ⟨?_, by rw [StateT.run, Arena.intern, hfind]; rfl⟩
      have hclosed : ∀ k < l.path.length, r.arena.Has ⟨l.root, l.path.take k⟩ := by
        intro k hk
        rcases hparent with ⟨hnil, -⟩ | ⟨p, l', step, -, hp, rfl⟩
        · rw [hnil] at hk
          exact absurd hk (Nat.not_lt_zero k)
        · rw [Location.extend, List.length_append, List.length_singleton] at hk
          rw [Location.extend, List.take_append_of_le_length (Nat.le_of_lt_succ hk)]
          exact h.wellFormed.closed l' (hp.2 ▸ Arena.has_location hp.1) k
      have hextends := Arena.extends_push r.arena ⟨l, l.ty? y.function⟩
      have hwf := Arena.wellFormed_push h.wellFormed hno hclosed
      exact
        { wellFormed := hwf
          recorded := by
            rw [List.length_append, h.recorded, Arena.size, Arena.size, Arena.push,
              List.length_append]
            rfl
          parent := fun i hi => by
            by_cases hold : i < r.arena.size
            · rw [hextends.parent? h.wellFormed hold, ← h.parent i hold, parent?, parent?,
                List.getElem?_append_left (h.recorded.symm ▸ hold)]
            · have hlast : i = r.arena.size := by
                rw [Arena.size, Arena.push, List.length_append, List.length_singleton] at hi
                exact Nat.le_antisymm (Nat.le_of_lt_succ hi) (Nat.le_of_not_lt hold)
              rw [hlast, parent?, ← h.recorded, List.getElem?_concat_length, Option.join_some,
                h.recorded]
              exact (parent?_eq hwf hextends (Arena.points_push _ _) hparent).symm
          admitted := fun n hn => by
            rcases List.mem_append.mp hn with hn | hn
            · exact h.admitted n hn
            · exact List.mem_singleton.mp hn ▸ hadmitted }

theorem Sound.root (h : Sound y r) {rt : Root} {ty : Option Ty}
    (hty : r.arena.Has ⟨rt, []⟩ ∨ ty = Location.rootTy? y.function rt) :
    Records y r (Registry.root rt ty) (Arena.root rt ty) := by
  rw [Registry.root, Arena.root]
  split
  · exact h.unchanged _
  · exact h.intern fun hno =>
      ⟨hty.resolve_left hno, Location.admitted_root y, .inl ⟨rfl, rfl⟩⟩

/-- A step from a location is taken if its index fits and its type is handed on. -/
theorem Sound.child (h : Sound y r) {step : Step} {ty : Option Ty}
    (hty : ty = Location.stepTy (r.arena.ty? id) step)
    (hfits : ∀ i, step = .index (some i) → IndexFits y.maxTrackedIndex (r.arena.ty? id) i) :
    Records y r (Registry.child id step ty) (Arena.child id step ty) := by
  have hrun : (Registry.child id step ty).run r =
      (if (r.arena.location id).isUnknown ||
          decide (r.arena.maxDepth ≤ (r.arena.location id).path.length) then pure id
        else Registry.intern ((r.arena.location id).extend step) (some id) ty).run r := rfl
  have hrun' : (Arena.child id step ty).run r.arena =
      (if (r.arena.location id).isUnknown ||
          decide (r.arena.maxDepth ≤ (r.arena.location id).path.length) then pure id
        else Arena.intern ((r.arena.location id).extend step) ty).run r.arena := rfl
  rw [Records, hrun, hrun']
  split
  · exact h.unchanged id
  · next hstops =>
    rw [Bool.or_eq_true, not_or, decide_eq_true_eq, Location.isUnknown, decide_eq_true_eq,
      h.wellFormed.depth] at hstops
    -- only unknown memory has numbers that are not used
    have hid : id < r.arena.size := by
      by_contra hno
      exact hstops.1 (congrArg Location.root (location_of_not_lt hno))
    have hpoints := Arena.points_location hid
    rw [h.wellFormed.ty?_eq hpoints] at hty hfits
    refine h.intern fun _ => ⟨hty.trans (Location.ty?_extend _ _ _).symm, ?_,
      .inr ⟨id, _, step, rfl, hpoints, rfl⟩⟩
    exact
      { depth := by
          rw [Location.extend, List.length_append, List.length_singleton]
          exact Nat.lt_of_not_le hstops.2
        rooted := fun hroot => absurd hroot hstops.1
        fits := fun l' i hl => by
          obtain ⟨hroot, hpath⟩ := Location.mk.inj hl
          obtain ⟨hpath, hstep⟩ := List.append_inj' hpath rfl
          have hl' : l' = r.arena.location id := by
            obtain ⟨root, path⟩ := l'
            exact congrArg₂ Location.mk hroot.symm hpath.symm
          rw [hl']
          exact hfits i (List.cons.inj hstep).1 }

theorem run_element (k : Nat) (id : LocId) (index : Option Int) (a : Arena) :
    (Arena.element k id index).run a =
      (match Step.ofIndex? k (a.ty? id) index with
        | some step => Arena.child id step ((a.ty? id).bind Ty.element?)
        | none => pure Arena.unknown : Naming LocId).run a := by
  simp only [Arena.element, StateT.run_bind, StateT.run_get, pure_bind]
  cases index with
  | none => rfl
  | some i =>
      simp only [Step.ofIndex?]
      split
      · rfl
      · cases (a.ty? id).bind Ty.arrayLength? with
        | some length =>
            simp only []
            split <;> rfl
        | none =>
            simp only []
            split <;> rfl

theorem Sound.element (h : Sound y r) {index : Option Int} (hword : Arena.IsWord index) :
    Records y r (Registry.element y.maxTrackedIndex id index)
      (Arena.element y.maxTrackedIndex id index) := by
  simp only [Records, Registry.element, StateT.run_bind, StateT.run_get, pure_bind, run_element]
  cases hstep : Step.ofIndex? y.maxTrackedIndex (r.arena.ty? id) index with
  | none => exact h.unchanged _
  | some step =>
      obtain ⟨i, rfl, hfits⟩ := Step.fits_of_ofIndex? hstep hword
      exact h.child rfl fun n hn => hfits n (Step.index.inj hn)

theorem Sound.parent?_eq (h : Sound y r) (id : LocId) : r.parent? id = r.arena.parent? id := by
  by_cases hid : id < r.arena.size
  · exact h.parent id hid
  · rw [parent?, List.getElem?_eq_none (h.recorded ▸ Nat.le_of_not_lt hid), Arena.parent?,
      location_of_not_lt hid]
    rfl

/-- A location is one step from the parent that is written down for it. -/
theorem Sound.of_parent? (h : Sound y r) {p : LocId} (hp : r.parent? id = some p) :
    ∃ step, r.arena.location id = (r.arena.location p).extend step ∧
      id < r.arena.size ∧ p < r.arena.size ∧
      r.arena.ty? id = Location.stepTy (r.arena.ty? p) step := by
  have hid : id < r.arena.size := by
    by_contra hno
    rw [parent?, List.getElem?_eq_none (h.recorded ▸ Nat.le_of_not_lt hno), Option.join_none] at hp
    cases hp
  rw [h.parent?_eq, Arena.parent?] at hp
  obtain ⟨l, hl, hfind⟩ := Option.bind_eq_some_iff.mp hp
  obtain ⟨hlt, hpl⟩ := Arena.find?_some hfind
  have hne : (r.arena.location id).path ≠ [] := by
    intro hnil
    simp [Location.parent?, hnil] at hl
  have hextend := Location.eq_extend_of_parent? hl (List.getLast?_eq_some_getLast hne)
  refine ⟨_, hpl ▸ hextend, hid, hlt, ?_⟩
  rw [h.wellFormed.ty?_eq ⟨hid, hextend⟩, h.wellFormed.ty?_eq ⟨hlt, hpl⟩, Location.ty?_extend]

/-- The summary element next to an element has the type that the element has. -/
theorem Sound.summary (h : Sound y r) {p : LocId} {k : Option Nat}
    (hlast : (r.arena.location id).path.getLast? = some (.index k)) (hp : r.parent? id = some p) :
    Records y r (Registry.child p (.index none) (r.arena.ty? id))
      (Arena.child p (.index none) (r.arena.ty? id)) := by
  obtain ⟨step, hl, -, -, hty⟩ := h.of_parent? hp
  rw [hl, Location.extend, List.getLast?_concat] at hlast
  rw [hty, Option.some.inj hlast]
  exact h.child rfl fun i hi => absurd hi (by simp)

theorem run_shifted (k : Nat) (id : LocId) (r : Registry) :
    (Registry.shifted k id).run r =
      (match (r.arena.location id).path.getLast?, r.parent? id with
        | some (.index _), some parent => Registry.child parent (.index none) (r.arena.ty? id)
        | _, _ => Registry.element k id none : StateM Registry LocId).run r := rfl

theorem run_arena_shifted (k : Nat) (id : LocId) (a : Arena) :
    (Arena.shifted k id).run a =
      (match (a.location id).path.getLast?, a.parent? id with
        | some (.index _), some parent => Arena.child parent (.index none) (a.ty? id)
        | _, _ => Arena.element k id none : Naming LocId).run a := rfl

theorem Sound.shifted (h : Sound y r) :
    Records y r (Registry.shifted y.maxTrackedIndex id) (Arena.shifted y.maxTrackedIndex id) := by
  rw [Records, run_shifted, run_arena_shifted, ← h.parent?_eq id]
  split
  · next hlast hp => exact h.summary hlast hp
  · exact h.element Arena.isWord_none

theorem run_offset (k : Nat) (id : LocId) (index : Option Int) (r : Registry) :
    (Registry.offset k id index).run r =
      (match (r.arena.location id).path.getLast?, r.parent? id with
        | some (.index current), some parent =>
            match current, index with
            | _, some 0 => pure id
            | some i, some offset => Registry.element k parent (Arena.addOffset i offset)
            | _, _ => Registry.child parent (.index none) (r.arena.ty? id)
        | _, _ => Registry.element k id index : StateM Registry LocId).run r := rfl

theorem run_arena_offset (k : Nat) (id : LocId) (index : Option Int) (a : Arena) :
    (Arena.offset k id index).run a =
      (match (a.location id).path.getLast?, a.parent? id with
        | some (.index current), some parent =>
            match current, index with
            | _, some 0 => pure id
            | some i, some offset => Arena.element k parent (Arena.addOffset i offset)
            | _, _ => Arena.child parent (.index none) (a.ty? id)
        | _, _ => Arena.element k id index : Naming LocId).run a := rfl

theorem Sound.offset (h : Sound y r) {index : Option Int} (hword : Arena.IsWord index) :
    Records y r (Registry.offset y.maxTrackedIndex id index)
      (Arena.offset y.maxTrackedIndex id index) := by
  rw [Records, run_offset, run_arena_offset, ← h.parent?_eq id]
  split
  · next hlast hp =>
    split
    · exact h.unchanged id
    · exact h.element (Arena.isWord_addOffset _ _)
    · exact h.summary hlast hp
  · exact h.element hword

/-! ## The registry after any calls -/

theorem Sound.perform {f : Function} {k D : Nat} (h : Sound ⟨f, D, k⟩ r) (c : NamingCall) :
    Records ⟨f, D, k⟩ r (Registry.perform f k c) (c.perform f k) := by
  cases c with
  | storage v => exact h.root (.inr rfl)
  | object i =>
      rw [Registry.perform, NamingCall.perform]
      cases hty : Location.rootTy? f (.paramTarget i) with
      | some ty => exact h.root (.inr hty.symm)
      | none => exact h.unchanged _
  | fallback id =>
      simp only [Records, Registry.perform, NamingCall.perform, StateT.run_bind, StateT.run_get,
        pure_bind]
      cases hparam : (r.arena.location id).param? with
      | some i =>
          -- the object is the shortest prefix of the location, so it has its name already
          refine h.root (.inl ?_)
          have hroot := Location.root_of_param? hparam
          have hid : id < r.arena.size := by
            by_contra hno
            rw [location_of_not_lt hno] at hroot
            cases hroot
          have hhas := h.wellFormed.closed _ (Arena.has_location hid) 0
          rwa [hroot, List.take_zero] at hhas
      | none => exact h.unchanged _
  | field id name => exact h.child rfl fun i hi => absurd hi (by simp)
  | element id index => exact h.element (Arena.isWord_toInt index)
  | shifted id => exact h.shifted
  | offset id index => exact h.offset (Arena.isWord_toInt index)

/-- However the calls are chosen, the registry stays sound and names what the arena names. -/
theorem Sound.after {f : Function} {k D : Nat} (h : Sound ⟨f, D, k⟩ r) (calls : List NamingCall) :
    Sound ⟨f, D, k⟩ (Registry.after f k calls r) ∧
      (Registry.after f k calls r).arena = NamingCall.after f k calls r.arena := by
  induction calls generalizing r with
  | nil => exact ⟨h, rfl⟩
  | cons c rest ih =>
      obtain ⟨hsound, hrun⟩ := h.perform c
      obtain ⟨hrest, harena⟩ := ih hsound
      refine ⟨hrest, harena.trans ?_⟩
      rw [NamingCall.after, NamingCall.after, List.foldl_cons, hrun]

/-- What is true of a registry after any calls, in terms of its numbers. -/
structure Invariant (config : Config) (r : Registry) : Prop where
  /-- Locations and numbers correspond one to one. -/
  numbered : ∀ id < r.arena.size, r.arena.find? (r.arena.location id) = some id
  named : ∀ l id, r.arena.find? l = some id → id < r.arena.size ∧ r.arena.location id = l
  /-- Unknown memory has the number zero, and nothing else has its root. -/
  unknown : 0 < r.arena.size ∧ r.arena.location 0 = ⟨.unknown, []⟩
  rooted : ∀ id < r.arena.size, (r.arena.location id).root = .unknown → id = 0
  depth : ∀ id < r.arena.size, (r.arena.location id).path.length ≤ config.maxPathDepth
  /-- The parent that is written down is the location whose path lacks the last step. -/
  parentless : ∀ id < r.arena.size, (r.arena.location id).path = [] → r.parent? id = none
  parent : ∀ id < r.arena.size, ∀ path step, (r.arena.location id).path = path ++ [step] →
    ∃ p < r.arena.size, r.parent? id = some p ∧
      r.arena.location p = ⟨(r.arena.location id).root, path⟩
  /-- A field has no known type, an element that of the elements of the parent. -/
  field : ∀ id p name, r.parent? id = some p →
    (r.arena.location id).path.getLast? = some (.field name) → r.arena.ty? id = none
  element : ∀ id p i, r.parent? id = some p →
    (r.arena.location id).path.getLast? = some (.index i) →
    r.arena.ty? id = (r.arena.ty? p).bind Ty.element?
  /-- A constant index is within the bounds of the parent if these are known, and among those that
  are kept apart if they are not; read as a word with a sign, it is the same number. -/
  bounded : ∀ id p n, r.parent? id = some p →
    (r.arena.location id).path.getLast? = some (.index (some n)) →
    (match (r.arena.ty? p).bind Ty.arrayLength? with
      | some length => n < length
      | none => n < config.maxTrackedIndex) ∧
    n ≤ Int64.maxValue.toInt ∧ (UInt64.ofNat n).toInt64.toInt = n

theorem Sound.invariant {f : Function} {config : Config}
    (h : Sound ⟨f, config.maxPathDepth, config.maxTrackedIndex⟩ r) : Invariant config r := by
  have hadmitted (id : LocId) (hid : id < r.arena.size) :=
    Arena.location_eq_of_getElem? (Arena.getElem?_of_lt hid) ▸
      h.admitted _ (List.getElem_mem hid)
  have hunknown := h.wellFormed.points_unknown
  have hstep {id p : LocId} {step : Step} (hp : r.parent? id = some p)
      (hlast : (r.arena.location id).path.getLast? = some step) :
      r.arena.location id = (r.arena.location p).extend step ∧ id < r.arena.size ∧
        p < r.arena.size ∧ r.arena.ty? id = Location.stepTy (r.arena.ty? p) step := by
    obtain ⟨step', hl, hrest⟩ := h.of_parent? hp
    have hlast' := hlast
    rw [hl, Location.extend, List.getLast?_concat] at hlast'
    obtain rfl := Option.some.inj hlast'
    exact ⟨hl, hrest⟩
  refine
    { numbered := fun id hid => find?_eq h.wellFormed (Arena.points_location hid)
      named := fun l id hl => Arena.find?_some hl
      unknown := hunknown
      rooted := fun id hid hroot => h.wellFormed.eq_of_location_eq
        ⟨hid, (hadmitted id hid).rooted hroot⟩ hunknown
      depth := fun id hid => (hadmitted id hid).depth
      parentless := fun id hid hnil => ?_
      parent := fun id hid path step hpath => ?_
      field := fun id p name hp hlast => (hstep hp hlast).2.2.2
      element := fun id p i hp hlast => (hstep hp hlast).2.2.2
      bounded := fun id p n hp hlast => ?_ }
  · rw [h.parent?_eq, Arena.parent?, Location.parent?, hnil]
    rfl
  · have hparent : (r.arena.location id).parent? = some ⟨(r.arena.location id).root, path⟩ := by
      rw [Location.parent?, hpath, List.dropLast_concat]
      simp
    obtain ⟨p, hp, hpoints⟩ := h.wellFormed.parent?_of_some (Arena.points_location hid) hparent
    exact ⟨p, hpoints.1, (h.parent?_eq id).trans hp, hpoints.2⟩
  · obtain ⟨hl, hid, hp, -⟩ := hstep hp hlast
    obtain ⟨hbound, hword⟩ := (hadmitted id hid).fits _ n hl
    rw [← h.wellFormed.ty?_eq (Arena.points_location hp)] at hbound
    refine ⟨hbound, ?_, Int64.toInt_ofNat_of_lt hword⟩
    have hmax : Int64.maxValue.toInt = 2 ^ 63 - 1 := rfl
    omega

end Registry

/-! ## The arenas of the analysis -/

namespace PointsTo

theorem About.ask {m : PointsTo} {f : Function} {k : Nat} (h : m.About f k) (q : Query) :
    Made f k (fun _ => True) (m.ask q) := by
  obtain ⟨rfl, rfl⟩ := h
  cases q with
  | resolve p => exact .map (Made.mono (m.resolve_mentions p) fun _ _ => trivial)
  | targets e => exact .map (Made.mono (m.exprTargets_mentions e) fun _ _ => trivial)
  | storage v => exact .map (.call (.storage v) trivial)

/-- The analysis and the queries after it name what they name by calls. -/
theorem arenaAfter_leads (f : Function) (config : Config) (asked : List Query) :
    NamingCall.Leads f config.maxTrackedIndex (fun _ => True) (.new config.maxPathDepth)
      (arenaAfter f config asked) := by
  obtain ⟨hanalyze, habout⟩ := analyze_leads f config
  exact (hanalyze.mono fun _ _ => trivial).trans (Made.forM (fun q _ => habout.ask q) _)

end PointsTo

/-- Whatever locations are asked for, in whatever order, the registry has the invariant. The arenas
of the analysis and of the queries after it are those of a registry after some calls. -/
theorem registry_invariant (f : Function) (config : Config) :
    (∀ calls, (Registry.after f config.maxTrackedIndex calls
      (.new config.maxPathDepth)).Invariant config) ∧
    ∀ asked, ∃ calls, (Registry.after f config.maxTrackedIndex calls
      (.new config.maxPathDepth)).arena = PointsTo.arenaAfter f config asked := by
  have hnew := Registry.sound_new f config.maxPathDepth config.maxTrackedIndex
  refine ⟨fun calls => (hnew.after calls).1.invariant, fun asked => ?_⟩
  obtain ⟨calls, -, hcalls⟩ := PointsTo.arenaAfter_leads f config asked
  exact ⟨calls, (hnew.after calls).2.trans hcalls.symm⟩

end TaintAnalysis
