import TaintAnalysis.Proofs.Flow.ControlDependence
import TaintAnalysis.Proofs.Solver.Execution

/-!
# The worklist runs out only at a fixpoint

A block that is not on the worklist has nothing to add: what its equation says
about the present knowledge is part of the knowledge (`Absorbed`). This is the
invariant of the solver, and it says all there is to say once the worklist is
empty. Keeping it is a matter of the five ways in which a block depends on
others. A visit changes the knowledge about one block and about memory; where
one of them grows, whatever reads it is put back on the worklist, and a block
that is not put back reads only what stayed the same (`effects_unchanged`).

Four of the five ways are exact. The fifth is the list of blocks that read
memory, which is made up once, before the run. A block that reads memory without
being on the list is not covered by the invariant, so `Watched` asks of a block
that it is on the list or does not depend on memory.

Nothing here depends on the order in which blocks are taken from the worklist:
`Visits` takes any of them.
-/

namespace TaintAnalysis

open Arena

/-- What a block does is part of a guess already. -/
structure Absorbed (p : Problem) (e : Effects) (σ : Assignment) (b : BlockId) : Prop where
  control : e.control ≤ σ.control b
  exit : e.exit ≤ σ.exit b
  branch : e.branch ≤ σ.branch b
  returned : e.returned ≤ σ.returned
  writes : e.writes.Within σ.cells
  outs : ∀ i, p.writtenThrough e.writes i ≤ σ.outs i

theorem Absorbed.mono {p : Problem} {e f : Effects} {σ τ : Assignment} {b : BlockId}
    (h : Absorbed p f σ b) (hef : e.Below f) (hστ : σ.Below τ) : Absorbed p e τ b where
  control := Value.le_trans (Value.le_trans hef.control h.control) (hστ.control b)
  exit := State.le_trans (State.le_trans hef.exit h.exit) (hστ.exit b)
  branch := Value.le_trans (Value.le_trans hef.branch h.branch) (hστ.branch b)
  returned := Value.le_trans (Value.le_trans hef.returned h.returned) hστ.returned
  writes := (hef.writes.trans h.writes).trans hστ.cells
  outs := fun i => Value.le_trans
    (Value.le_trans (writtenThrough_mono hef.writes i) (h.outs i)) (hστ.outs i)

namespace Problem

variable (p : Problem)

/-- Some block on the worklist is visited. -/
inductive Visits (k : Knowledge) : BlockId → Knowledge → Prop where
  | visit {i : Nat} {b : BlockId} {rest : IdSet} (hi : i ∈ k.worklist)
      (hrest : ∀ n, n ∈ rest ↔ n ∈ k.worklist ∧ n ≠ i) (hb : p.order[i]? = some b) :
      Visits k b (p.visit { k with worklist := rest } b)

/-- What can be known after any number of visits in any order. -/
inductive Reached (a : Arena) : Knowledge → Prop where
  | start : Reached a (p.start a)
  | visit {k k' : Knowledge} {b : BlockId} : Reached a k → p.Visits k b k' → Reached a k'

/-- The memory that the solver starts with, by location. -/
def seeds (a : Arena) : Cells :=
  (p.start a).memory.view

/-- The block is on the list of those that read memory, or does not depend on memory. -/
def Watched (a₀ : Arena) (b : BlockId) (block : Block) : Prop :=
  b ∈ p.memoryReaders ∨ ∀ σ c,
    p.blockEffects { σ with cells := c } b (Storage.ofProblem p a₀) block =
      p.blockEffects σ b (Storage.ofProblem p a₀) block

/-- The pointer facts can be read in the first arena, and no block names storage
that matters later. -/
structure WellPosed (a₀ : Arena) : Prop where
  ready : p.pointsTo.Ready a₀.maxDepth a₀
  kept : ∀ b ∈ p.order, ∀ block, p.function.block? b = some block → KeptBlock p a₀ block

/-- The invariant of the solver. -/
structure Sound (a₀ : Arena) (k : Knowledge) : Prop where
  fits : Fits p a₀ k.memory
  sized : k.Sized p.varCount
  seeded : (p.seeds a₀).Within k.memory.view
  /-- A block that is not on the worklist has nothing to add. -/
  settled : ∀ b ∈ p.order, ∀ block, p.function.block? b = some block → p.Watched a₀ b block →
    (∀ i ∈ k.worklist, p.position? b ≠ some i) →
      Absorbed p (p.blockEffects (k.assignment p.varCount) b (Storage.ofProblem p a₀) block)
        (k.assignment p.varCount) b
  /-- A block that is not on the worklist has been visited. -/
  visited : ∀ b ∈ p.order, ∀ block, p.function.block? b = some block →
    (∀ i ∈ k.worklist, p.position? b ≠ some i) → ∃ s, k.exits.get? b = some s

variable {p} {a₀ : Arena} {k : Knowledge} {b b' : BlockId} {block : Block} {e : Execution}
  {ws : Cells}

/-! ## What a visit changes -/

theorem assignment_absorb_exit (he : e.exit.vars.length = p.varCount)
    (x : BlockId) : ((p.absorb k b e).assignment p.varCount).exit x =
      if x = b then ((k.assignment p.varCount).exit b).join e.exit
      else (k.assignment p.varCount).exit x := by
  show ((Knowledge.joinExit k.exits b e.exit).get? x).getD (.untainted p.varCount) = _
  rw [Knowledge.joinExit, OrderedMap.get?_insert, he]
  split
  · rfl
  · rfl

theorem assignment_absorb_branch (x : BlockId) :
    ((p.absorb k b e).assignment p.varCount).branch x =
      if x = b then (k.branch b).join e.branch else k.branch x :=
  OrderedMap.getD_joinAt x

theorem assignment_absorb_control (x : BlockId) :
    ((p.absorb k b e).assignment p.varCount).control x =
      if x = b then (k.control b).join e.control else k.control x :=
  OrderedMap.getD_joinAt x

theorem sized_absorb (hk : k.Sized p.varCount) (he : e.exit.vars.length = p.varCount) :
    (p.absorb k b e).Sized p.varCount := by
  intro x s hs
  rw [show (p.absorb k b e).exits = Knowledge.joinExit k.exits b e.exit from rfl,
    Knowledge.joinExit, OrderedMap.get?_insert] at hs
  split at hs
  · rw [← Option.some.inj hs, State.length_join, he]
    cases hb : k.exits.get? b with
    | none => rw [Option.getD_none, State.untainted, List.length_replicate, Nat.max_self]
    | some t => rw [Option.getD_some, hk b t hb, Nat.max_self]
  · exact hk x s hs

theorem exit_le_absorb (he : e.exit.vars.length = p.varCount) (x : BlockId) :
    (k.assignment p.varCount).exit x ≤ ((p.absorb k b e).assignment p.varCount).exit x := by
  rw [assignment_absorb_exit he]
  split
  · next h => exact h ▸ State.le_join_left _ _
  · exact State.le_refl _

theorem branch_le_absorb (x : BlockId) :
    (k.assignment p.varCount).branch x ≤ ((p.absorb k b e).assignment p.varCount).branch x := by
  rw [assignment_absorb_branch]
  split
  · next h => exact h ▸ Value.le_join_left _ _
  · exact Value.le_refl _

theorem control_le_absorb (x : BlockId) :
    (k.assignment p.varCount).control x ≤ ((p.absorb k b e).assignment p.varCount).control x := by
  rw [assignment_absorb_control]
  split
  · next h => exact h ▸ Value.le_join_left _ _
  · exact Value.le_refl _

/-- A visit only adds to what is known. -/
theorem below_absorb (he : e.exit.vars.length = p.varCount)
    (hsteps : Steps p a₀ k.memory e.memory ws) :
    (k.assignment p.varCount).Below ((p.absorb k b e).assignment p.varCount) where
  exit := exit_le_absorb he
  branch := branch_le_absorb
  control := control_le_absorb
  cells := hsteps.view_within
  returned := Value.le_join_left _ _
  outs := hsteps.out_le

/-- After a visit, what the execution did is known. -/
theorem absorbed_absorb (he : e.exit.vars.length = p.varCount)
    (hsteps : Steps p a₀ k.memory e.memory ws) :
    Absorbed p (e.effects ws) ((p.absorb k b e).assignment p.varCount) b where
  control := by
    rw [assignment_absorb_control, if_pos rfl]
    exact Value.le_join_right _ _
  exit := by
    rw [assignment_absorb_exit he, if_pos rfl]
    exact State.le_join_right _ _
  branch := by
    rw [assignment_absorb_branch, if_pos rfl]
    exact Value.le_join_right _ _
  returned := Value.le_join_right _ _
  writes := hsteps.writes_within
  outs := hsteps.writtenThrough_le

/-- What is above the knowledge before a visit and above the execution is above
the knowledge after the visit. -/
theorem absorb_below {τ : Assignment} (he : e.exit.vars.length = p.varCount)
    (hsteps : Steps p a₀ k.memory e.memory ws)
    (hτ : (k.assignment p.varCount).Below τ) (habs : Absorbed p (e.effects ws) τ b) :
    ((p.absorb k b e).assignment p.varCount).Below τ where
  exit := fun x => by
    rw [assignment_absorb_exit he]
    split
    · next h =>
      subst h
      exact State.join_le (hτ.exit x) habs.exit
    · exact hτ.exit x
  branch := fun x => by
    rw [assignment_absorb_branch]
    split
    · next h =>
      subst h
      exact Value.join_le (hτ.branch x) habs.branch
    · exact hτ.branch x
  control := fun x => by
    rw [assignment_absorb_control]
    split
    · next h =>
      subst h
      exact Value.join_le (hτ.control x) habs.control
    · exact hτ.control x
  cells := hsteps.within_of hτ.cells habs.writes
  returned := Value.join_le hτ.returned habs.returned
  outs := fun i => by
    rw [show ((p.absorb k b e).assignment p.varCount).outs i = e.memory.out i from rfl,
      hsteps.out i]
    exact Value.join_le (hτ.outs i) (habs.outs i)

/-! ## What a visit leaves alone -/

section

variable (he : e.exit.vars.length = p.varCount) (hb' : b' ∉ p.affected k b e)

include hb'

theorem cells_unchanged (hreader : b' ∈ p.memoryReaders) : e.memory.cells = k.memory.cells := by
  refine Classical.byContradiction fun hne => hb' (List.mem_append_right _ ?_)
  rw [if_pos hne]
  exact hreader

theorem branch_unchanged {x : BlockId}
    (hx : x = b → b' ∈ p.control.controlledBy b ∨ b' ∈ p.loopBlocks b) :
    ((p.absorb k b e).assignment p.varCount).branch x = k.branch x := by
  rw [assignment_absorb_branch]
  split
  · next h =>
    subst h
    refine Value.join_eq_left_iff.mpr (Value.le_of_not_grows fun hgrows => hb' ?_)
    rw [affected, if_pos hgrows]
    exact List.mem_append_left _ (List.mem_append_left _ (List.mem_append_left _
      (List.mem_append.mpr (hx rfl))))
  · rfl

theorem control_unchanged {x : BlockId} (hx : x = b → b' ∈ p.control.controlledBy b) :
    ((p.absorb k b e).assignment p.varCount).control x = k.control x := by
  rw [assignment_absorb_control]
  split
  · next h =>
    subst h
    refine Value.join_eq_left_iff.mpr (Value.le_of_not_grows fun hgrows => hb' ?_)
    refine List.mem_append_left _ (List.mem_append_left _ (List.mem_append_right _ ?_))
    rw [if_pos hgrows]
    exact hx rfl
  · rfl

theorem aroundIn_unchanged :
    p.aroundIn ((p.absorb k b e).assignment p.varCount) b' =
      p.aroundIn (k.assignment p.varCount) b' := by
  have hdep {x : BlockId} (hx : x ∈ p.control.dependences b') :
      ((p.absorb k b e).assignment p.varCount).branch x = k.branch x ∧
        ((p.absorb k b e).assignment p.varCount).control x = k.control x := by
    have hcontrolled : x = b → b' ∈ p.control.controlledBy b := fun h =>
      ControlDependence.mem_controlledBy_iff.mpr (h ▸ hx)
    exact ⟨branch_unchanged hb' fun h => .inl (hcontrolled h), control_unchanged hb' hcontrolled⟩
  have hcontrol : p.controlIn ((p.absorb k b e).assignment p.varCount) b' =
      p.controlIn (k.assignment p.varCount) b' := by
    refine congrArg Value.joins (List.map_congr_left fun x hx => ?_)
    rw [(hdep hx).1, (hdep hx).2]
    rfl
  have hwidening : p.wideningIn ((p.absorb k b e).assignment p.varCount) b' =
      p.wideningIn (k.assignment p.varCount) b' := by
    refine congrArg Value.joins (List.flatMap_congr fun l hl => ?_)
    refine List.map_congr_left ?_
    intro x hx
    rw [branch_unchanged hb' fun h => .inr ?_]
    · rfl
    · obtain ⟨hloop, hbody⟩ := List.mem_filter.mp hl
      refine List.mem_flatMap.mpr ⟨l, List.mem_filter.mpr ⟨hloop, ?_⟩, of_decide_eq_true hbody⟩
      exact decide_eq_true (h ▸ hx)
  have hdepth : p.depthIn ((p.absorb k b e).assignment p.varCount) b' =
      p.depthIn (k.assignment p.varCount) b' := by
    rw [depthIn, depthIn]
    split
    · rfl
    · refine congrArg Value.joins (List.map_congr_left fun x hx => ?_)
      rw [(hdep hx).1, (hdep hx).2]
      rfl
  rw [aroundIn, aroundIn, hcontrol, hwidening, hdepth]

include he

theorem entryIn_unchanged (hk : k.Sized p.varCount) :
    p.entryIn ((p.absorb k b e).assignment p.varCount) b' =
      p.entryIn (k.assignment p.varCount) b' := by
  rw [entryIn, entryIn]
  congr 1
  refine List.map_congr_left ?_
  intro x hx
  rw [assignment_absorb_exit he]
  split
  · next h =>
    subst h
    have hsize := hk.assignment x
    refine State.join_eq_left (Nat.le_of_eq (he.trans hsize.symm))
      (State.le_of_not_grows fun hgrows => hb' ?_)
    have hgrows' : ((k.exits.get? x).getD (.untainted p.varCount)).grows e.exit = true := hgrows
    refine List.mem_append_left _ (List.mem_append_right _ ?_)
    rw [if_pos hgrows']
    exact Graph.mem_predecessors_iff.mp hx
  · rfl

/-- A block that a visit does not put back on the worklist does what it did before. -/
theorem effects_unchanged (hk : k.Sized p.varCount) (hm : Fits p a₀ k.memory)
    (hsteps : Steps p a₀ k.memory e.memory ws) (hwatched : p.Watched a₀ b' block) :
    p.blockEffects ((p.absorb k b e).assignment p.varCount) b' (Storage.ofProblem p a₀) block =
      p.blockEffects (k.assignment p.varCount) b' (Storage.ofProblem p a₀) block := by
  have hcells : p.blockEffects ((p.absorb k b e).assignment p.varCount) b'
      (Storage.ofProblem p a₀) block =
      p.blockEffects { (p.absorb k b e).assignment p.varCount with cells := k.memory.view } b'
        (Storage.ofProblem p a₀) block := by
    rcases hwatched with hreader | hfree
    · have hsame := cells_unchanged hb' hreader
      have hview : e.memory.view = k.memory.view := by
        rw [Memory.view, Memory.view, hsame]
        exact List.map_congr_left fun x hx => by rw [hsteps.extend.location (hm.keys x hx)]
      rw [← hview]
      rfl
    · exact (hfree _ _).symm
  have haround := aroundIn_unchanged hb'
  have hcontrol : p.controlIn ((p.absorb k b e).assignment p.varCount) b' =
      p.controlIn (k.assignment p.varCount) b' := congrArg Surroundings.control haround
  have hentry := entryIn_unchanged he hb' hk
  rw [hcells]
  show p.blockEffects ⟨_, _, _, _, _, _⟩ b' _ block = _
  rw [blockEffects, blockEffects, ← haround, ← hcontrol, ← hentry]
  rfl

end

/-! ## The invariant -/

theorem position?_some {i : Nat} (h : p.position? b = some i) : p.order[i]? = some b := by
  obtain ⟨hlt, hget, -⟩ := List.findIdx?_eq_some_iff_getElem.mp h
  rw [List.getElem?_eq_getElem hlt, beq_iff_eq.mp hget]

theorem exists_position (hb : b ∈ p.order) : ∃ i, p.position? b = some i := by
  refine Option.isSome_iff_exists.mp ?_
  show (p.order.findIdx? (· == b)).isSome = true
  rw [List.findIdx?_isSome, List.any_eq_true]
  exact ⟨b, hb, beq_self_eq_true b⟩

/-- Puts a value into the cell of a location, if it has one. -/
def seed (a : Arena) (cells : OrderedMap LocId Value) (e : Location × Value) :
    OrderedMap LocId Value :=
  match a.find? e.1 with
  | some id => cells.insert id e.2
  | none => cells

/-- The values that memory starts with, if there are cells for them. -/
def seedList (p : Problem) : List (Location × Value) :=
  p.function.params.zipIdx.flatMap fun (v, i) =>
    [(⟨.paramTarget i, []⟩, .single i Kind.directOnly),
      (⟨.variable v, []⟩, .single i Kind.directOnly)]

theorem seedCells_eq (p : Problem) (a : Arena) :
    p.seedCells a = p.seedList.foldl (seed a) .empty := by
  rw [seedCells, seedList, List.foldl_flatMap]
  rfl

/-- Each cell that memory starts with is that of a location on the list. -/
theorem exists_mem_seedList {a : Arena} {e : LocId × Value} (he : e ∈ (p.seedCells a).entries) :
    ∃ l, (l, e.2) ∈ p.seedList ∧ a.find? l = some e.1 := by
  rw [seedCells_eq] at he
  refine List.foldlRecOn (motive := fun cells : OrderedMap LocId Value =>
    ∀ e ∈ cells.entries, ∃ l, (l, e.2) ∈ p.seedList ∧ a.find? l = some e.1) _ _
    (fun e he => absurd he List.not_mem_nil) (fun cells hcells seeded hseeded e he => ?_) e he
  rw [seed] at he
  split at he
  · next id hid =>
    have hget := OrderedMap.get?_eq_some_iff.mpr he
    rw [OrderedMap.get?_insert] at hget
    split at hget
    · next hkey => exact ⟨seeded.1, Option.some.inj hget ▸ hseeded, hkey ▸ hid⟩
    · exact hcells e (OrderedMap.get?_eq_some_iff.mp hget)
  · exact hcells e he

theorem seedCells_keys (p : Problem) (a : Arena) : ∀ e ∈ (p.seedCells a).entries, e.1 < a.size := by
  intro e he
  obtain ⟨l, -, hfound⟩ := exists_mem_seedList he
  exact (find?_some hfound).1

theorem sound_start (hw : p.WellPosed a₀) : p.Sound a₀ (p.start a₀) where
  fits := ⟨.refl hw.ready.wellFormed, seedCells_keys p a₀, fun _ h => absurd h List.not_mem_nil⟩
  sized := fun _ _ h => absurd h.symm (Option.some_ne_none _)
  seeded := .refl _
  settled := fun b hb _ _ _ hout => by
    obtain ⟨i, hi⟩ := exists_position hb
    exact absurd hi (hout i (IdSet.mem_ofList.mpr (List.mem_range.mpr
      (List.getElem?_eq_some_iff.mp (position?_some hi)).1)))
  visited := fun b hb _ _ hout => by
    obtain ⟨i, hi⟩ := exists_position hb
    exact absurd hi (hout i (IdSet.mem_ofList.mpr (List.mem_range.mpr
      (List.getElem?_eq_some_iff.mp (position?_some hi)).1)))

/-- A block that is not on the worklist after a visit was not put back by it, and
was not on the worklist before, unless it is the block that was visited. -/
theorem not_affected {rest : IdSet} {i : Nat} (hrest : ∀ n, n ∈ rest ↔ n ∈ k.worklist ∧ n ≠ i)
    (hb : p.order[i]? = some b) (hb' : b' ∈ p.order)
    (hout : ∀ j ∈ (p.absorb { k with worklist := rest } b e).worklist, p.position? b' ≠ some j) :
    b' ∉ p.affected { k with worklist := rest } b e ∧
      (b' ≠ b → ∀ j ∈ k.worklist, p.position? b' ≠ some j) := by
  constructor
  · intro hmem
    obtain ⟨j, hj⟩ := exists_position hb'
    refine hout j (IdSet.mem_union.mpr (.inr (IdSet.mem_ofList.mpr ?_))) hj
    exact List.mem_filterMap.mpr ⟨b', hmem, hj⟩
  · intro hne j hj hpos
    refine hout j (IdSet.mem_union.mpr (.inl ((hrest j).mpr ⟨hj, ?_⟩))) hpos
    rintro rfl
    exact hne (Option.some.inj ((position?_some hpos).symm.trans hb))

/-- A visit keeps the invariant. -/
theorem sound_visit (hw : p.WellPosed a₀) {k' : Knowledge} (h : p.Sound a₀ k)
    (hvisit : p.Visits k b k') : p.Sound a₀ k' := by
  obtain ⟨hi, hrest, hb⟩ := hvisit
  rename_i i rest
  have hmem : b ∈ p.order := List.mem_of_getElem? hb
  rw [visit]
  cases hblock : p.function.block? b with
  | none =>
      have hout {x : BlockId} {block : Block} (hx : p.function.block? x = some block)
          (hx' : ∀ j ∈ rest, p.position? x ≠ some j) :
          ∀ j ∈ k.worklist, p.position? x ≠ some j := by
        intro j hj hpos
        refine hx' j ((hrest j).mpr ⟨hj, ?_⟩) hpos
        rintro rfl
        obtain rfl := Option.some.inj ((position?_some hpos).symm.trans hb)
        exact absurd hx (by rw [hblock]; simp only [reduceCtorEq, not_false_eq_true])
      exact ⟨h.fits, h.sized, h.seeded,
        fun x hx block hxb hwatched hx' => h.settled x hx block hxb hwatched (hout hxb hx'),
        fun x hx block hxb hx' => h.visited x hx block hxb (hout hxb hx')⟩
  | some block =>
      obtain ⟨ws, hsteps, hexit, hlower, -⟩ := execute_bounds (k := { k with worklist := rest })
        hw.ready h.fits h.sized (hw.kept b hmem block hblock) b
      have hgrow := below_absorb (b := b) hexit hsteps
      have hself := absorbed_absorb (b := b) hexit hsteps
      refine ⟨hsteps.fits, sized_absorb h.sized hexit, h.seeded.trans hsteps.view_within, ?_, ?_⟩
      · intro x hx block' hxb hwatched hout
        obtain ⟨hfree, hold⟩ := not_affected hrest hb hx hout
        rw [effects_unchanged hexit hfree h.sized h.fits hsteps hwatched]
        -- the visited block has its own effects absorbed, any other one had them before
        by_cases hxeq : x = b
        · subst hxeq
          obtain rfl := Option.some.inj (hblock.symm.trans hxb)
          exact hself.mono hlower (.refl _)
        · exact (h.settled x hx block' hxb hwatched (hold hxeq)).mono (.refl _) hgrow
      · intro x hx block' hxb hout
        show ∃ s, (Knowledge.joinExit k.exits b _).get? x = some s
        rw [Knowledge.joinExit, OrderedMap.get?_insert]
        by_cases hxeq : x = b
        · exact ⟨_, if_pos hxeq⟩
        · rw [if_neg hxeq]
          exact h.visited x hx block' hxb ((not_affected hrest hb hx hout).2 hxeq)

theorem sound_of_reached (hw : p.WellPosed a₀) (h : p.Reached a₀ k) : p.Sound a₀ k := by
  induction h with
  | start => exact sound_start hw
  | visit _ hvisit ih => exact sound_visit hw ih hvisit

/-! ## The end of a run -/

/-- Where the worklist has run out, a block has nothing to add. -/
theorem settled_of_exhausted (hw : p.WellPosed a₀) (h : p.Reached a₀ k)
    (hdone : k.worklist.isEmpty = true) (hb : b ∈ p.order)
    (hblock : p.function.block? b = some block) (hwatched : p.Watched a₀ b block) :
    Absorbed p (p.blockEffects (k.assignment p.varCount) b (Storage.ofProblem p a₀) block)
      (k.assignment p.varCount) b :=
  (sound_of_reached hw h).settled b hb block hblock hwatched fun _ hj =>
    absurd (IdSet.mem_def.mp hj) (List.isEmpty_iff.mp hdone ▸ List.not_mem_nil)

theorem visits_of_next? {k' : Knowledge} (h : p.next? k = some (b, k')) : p.Visits k b k' := by
  rw [next?] at h
  cases hpop : k.worklist.popMin? with
  | none =>
      rw [hpop] at h
      exact absurd h (by simp only [Option.bind_eq_bind, Option.bind_none, reduceCtorEq,
        not_false_eq_true])
  | some popped =>
      obtain ⟨i, rest⟩ := popped
      rw [hpop] at h
      cases hb : p.order[i]? with
      | none =>
          simp only [Option.bind_eq_bind, Option.bind_some, hb, Option.bind_none,
            reduceCtorEq] at h
      | some x =>
          simp only [Option.bind_eq_bind, Option.bind_some, hb, Option.pure_def,
            Option.some.injEq, Prod.mk.injEq] at h
          obtain ⟨rfl, rfl⟩ := h
          obtain ⟨hi, hrest⟩ := IdSet.mem_of_popMin? hpop
          exact .visit hi hrest hb

/-- The visits of a run are visits in the order of the positions. -/
theorem reached_of_mem_visits {a : Arena} {budget : Nat} {k₀ : Knowledge} (h : p.Reached a k₀)
    {x : BlockId × Knowledge} (hx : x ∈ p.visits budget k₀) : p.Reached a x.2 := by
  induction budget generalizing k₀ with
  | zero => exact absurd hx List.not_mem_nil
  | succ budget ih =>
      rw [visits] at hx
      cases hnext : p.next? k₀ with
      | none =>
          rw [hnext] at hx
          exact absurd hx List.not_mem_nil
      | some y =>
          obtain ⟨b, k⟩ := y
          rw [hnext] at hx
          have hk : p.Reached a k := .visit h (visits_of_next? hnext)
          rcases List.mem_cons.mp hx with rfl | hx
          · exact hk
          · exact ih hk hx

end Problem

/-- What is known at the end of a run can be reached. -/
theorem Run.reached_final (p : Problem) (a : Arena) (budget : Nat) :
    p.Reached a (Run.ofProblem p a budget).final := by
  show p.Reached a ((((p.visits budget (p.start a)).getLast?).map Prod.snd).getD (p.start a))
  cases hlast : (p.visits budget (p.start a)).getLast? with
  | none => exact .start
  | some x => exact Problem.reached_of_mem_visits .start (List.mem_of_getLast? hlast)

theorem Run.exhausted_of_ok {r : Run} {result : FunctionResult} (h : r.result = .ok result) :
    r.final.worklist.isEmpty = true := by
  rw [Run.result] at h
  split at h
  · next hdone => exact hdone
  · exact absurd h (by simp only [reduceCtorEq, not_false_eq_true])

end TaintAnalysis
