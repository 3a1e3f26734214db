import TaintAnalysis.Proofs.Memory.Convergence
import TaintAnalysis.Proofs.Solver.Sources
import TaintAnalysis.Proofs.Solver.Surroundings
import TaintAnalysis.Proofs.Solver.Growth
import TaintAnalysis.Proofs.Taint.Room

/-!
# The worklist runs out

The number of visits is limited by the configuration, but the limit is never what
ends a run that is long enough. A visit takes one block from the worklist. It puts
blocks back only if something has grown: the taint of a branch, of the surroundings
or of the exit state of the visited block, or that of a memory cell. All of these
have room for finitely many changes: the sources are the parameters, and the cells
are locations that the function can mention, of which there are finitely many even
though the arena grows while the solver runs.

So a run halts after a number of visits that depends on the problem alone, and the
limit only decides whether that number is reached.
-/

namespace TaintAnalysis

open Arena

/-! ## Memory only grows -/

/-- The second memory has all the taint of the first one, and the same cells if it has no more. -/
structure Fills (m m' : Memory) : Prop where
  le : ∀ id, m.cell id ≤ m'.cell id
  same : (∀ id, m'.cell id ≤ m.cell id) → m'.cells = m.cells

namespace Fills

variable {m m' m'' : Memory}

theorem of_cells (h : m'.cells = m.cells) : Fills m m' where
  le := fun id => by rw [Memory.cell, Memory.cell, h]; exact Value.le_refl _
  same := fun _ => h

theorem trans (h : Fills m m') (h' : Fills m' m'') : Fills m m'' where
  le := fun id => Value.le_trans (h.le id) (h'.le id)
  same := fun hle => by
    -- what lies between two equal memories is equal to them
    have hback : ∀ id, m''.cell id ≤ m'.cell id := fun id => Value.le_trans (hle id) (h.le id)
    have hsame := h'.same hback
    rw [hsame]
    refine h.same fun id => ?_
    have hid := hle id
    rwa [Memory.cell, hsame] at hid

theorem write (p : Problem) (m : Memory) (id : LocId) (v : Value) : Fills m (m.write p id v) := by
  rw [Memory.write]
  split
  · exact .of_cells rfl
  · refine ⟨fun id' => ?_, fun hle => ?_⟩
    · show m.cell id' ≤ ((m.cells.joinAt id v).get? id').getD Value.bottom
      rw [OrderedMap.getD_joinAt]
      split
      · next h => exact h ▸ Value.le_join_left _ _
      · exact Value.le_refl _
    · refine OrderedMap.joinAt_eq_self ?_
      have hid : ((m.cells.joinAt id v).get? id).getD Value.bottom ≤ m.cell id := hle id
      rw [OrderedMap.getD_joinAt, if_pos rfl] at hid
      exact (Value.join_le_iff.mp hid).2

theorem writeAll (p : Problem) (ids : List LocId) (v : Value) (m : Memory) :
    Fills m (ids.foldl (fun m id => m.write p id v) m) := by
  induction ids generalizing m with
  | nil => exact .of_cells rfl
  | cons id rest ih => exact (Fills.write p m id v).trans (ih _)

end Fills

/-- The arena names only what the function can mention, and what is written through a parameter
is written through a parameter of the function. -/
structure Memory.Inside (p : Problem) (D : Nat) (m : Memory) : Prop where
  arena : Arena.Inside p.function D m.arena
  writes : ∀ i ∈ m.paramWrites.keys, i < p.function.paramCount

variable {D : Nat} {p : Problem}

theorem Memory.lt_of_mem_writtenParams {l : Location} (hl : Location.Nameable p.function D l)
    {i : Nat} (hi : i ∈ Memory.writtenParams p l) : i < p.function.paramCount := by
  rw [Memory.writtenParams] at hi
  split at hi
  · next j hj =>
    obtain rfl := List.mem_singleton.mp hi
    obtain ⟨root, path⟩ := l
    cases root <;> simp only [Location.param?, reduceCtorEq, Option.some.injEq] at hj
    exact hj ▸ hl.root.lt_params
  · split at hi
    · obtain ⟨e, he, rfl⟩ := List.mem_map.mp hi
      simpa [Function.paramCount] using List.snd_lt_of_mem_zipIdx (List.mem_filter.mp he).1
    · exact absurd hi List.not_mem_nil

theorem Memory.Inside.write {m : Memory} (hm : m.Inside p D) (id : LocId) (v : Value) :
    (m.write p id v).Inside p D := by
  rw [Memory.write]
  split
  · exact hm
  · refine ⟨hm.arena, ?_⟩
    refine List.foldlRecOn
      (motive := fun writes : OrderedMap Nat Value => ∀ i ∈ writes.keys, i < p.function.paramCount)
      _ _ hm.writes fun writes hwrites j hj i hi => ?_
    obtain ⟨e, he, rfl⟩ := List.mem_map.mp hi
    rcases OrderedMap.entries_joinAt he with hold | ⟨hkey, -⟩
    · exact hwrites e.1 (List.mem_map_of_mem hold)
    · exact hkey ▸ lt_of_mem_writtenParams (hm.arena.location id) hj

/-- Whatever is done to memory, it is filled. -/
theorem fills_keptByWrites {T : Fragment} :
    KeptByWrites p T (fun _ => True) (fun _ => True) Fills where
  refl := fun _ => .of_cells rfl
  trans := .trans
  after := fun _ => trivial
  lookup := fun _ _ => .of_cells rfl
  read := fun _ _ => trivial
  write := fun _ _ _ _ => .writeAll p _ _ _

/-- The text of a function. -/
def Function.fragment (f : Function) : Fragment where
  expr := Expr.Within f
  place := Place.Within f
  unary := fun h => ⟨h.vars, h.fields⟩
  left := .left
  right := .right
  addressed := fun h => ⟨h.vars, h.fields⟩
  deref := fun h => ⟨h.vars, h.fields⟩
  field := fun h => ⟨h.vars, fun n hn => h.fields n (List.mem_append_left _ hn)⟩
  indexed := fun h => ⟨fun v hv => h.vars v (List.mem_append_left _ hv),
    fun n hn => h.fields n (List.mem_append_left _ hn)⟩
  position := fun h => ⟨fun v hv => h.vars v (List.mem_append_right _ hv),
    fun n hn => h.fields n (List.mem_append_right _ hn)⟩

theorem Function.fragment_covers {f : Function} {block : Block} (hblock : block ∈ f.blocks.values)
    {i : Instruction} (hi : i ∈ block.instructions) : f.fragment.Covers i := by
  have hwithin := Instruction.Within.of_mem hblock hi
  refine ⟨hwithin.place, hwithin.operands, ?_⟩
  rintro vars reason rfl v hv
  refine ⟨fun w hw => ?_, fun _ hname => absurd hname List.not_mem_nil⟩
  obtain rfl := List.mem_singleton.mp hw
  refine List.mem_flatMap.mpr ⟨block, hblock, List.mem_append_left _ ?_⟩
  exact List.mem_flatMap.mpr ⟨_, hi, List.mem_append_right _ hv⟩

/-- What is looked up on behalf of the text of the function names only what the function can
mention. -/
theorem inside_keptByWrites : KeptByWrites p p.function.fragment (fun _ => True)
    (Memory.Inside p D) fun _ m' => m'.Inside p D where
  refl := id
  trans := fun _ h => h
  after := id
  lookup := by
    intro m γ n cells hn hm
    refine ⟨?_, hm.writes⟩
    show Arena.Inside p.function D (n.run m.arena).2
    cases hn with
    | place h => exact PointsTo.resolve_stays h m.arena hm.arena
    | targets h => exact PointsTo.exprTargets_stays _ h m.arena hm.arena
    | storage v => exact (Problem.arena_storageOf v m.arena).symm ▸ hm.arena
  read := fun _ _ => trivial
  write := fun _ _ hm _ => List.foldlRecOn (motive := fun m : Memory => m.Inside p D) _ _ hm
    fun _ hm id _ => hm.write id _

namespace Composed

variable {α : Type} {c : Effect α} {P : α → Prop}

theorem fills {T : Fragment} (h : Composed p T (fun _ => True) P c) (m : Memory) :
    Fills m (c.run m).2 :=
  (h.run fills_keptByWrites trivial).2

theorem inside (h : Composed p p.function.fragment (fun _ => True) P c) {m : Memory}
    (hm : m.Inside p D) : (c.run m).2.Inside p D :=
  (h.run inside_keptByWrites hm).2

end Composed

theorem finishBlock_fills (around : Surroundings) (s : State) (is : List Instruction)
    (t : Terminator) (m : Memory) : Fills m ((p.finishBlock around s is t).run m).2 :=
  (finishBlock_composed (T := .all) Value.closed_true (fun _ => trivial)
    ⟨trivial, trivial, trivial⟩ trivial (fun i _ => Fragment.all_covers i) fun _ _ => trivial).fills m

theorem execute_fills (k : Knowledge) (b : BlockId) (block : Block) :
    Fills k.memory (p.execute k b block).memory :=
  finishBlock_fills _ _ block.instructions block.terminator k.memory

theorem transferAll_inside {block : Block} (hblock : block ∈ p.function.blocks.values)
    {is : List Instruction} (his : ∀ i ∈ is, i ∈ block.instructions) (around : Surroundings)
    (s : State) {m : Memory} (hm : m.Inside p D) :
    Memory.Inside p D ((p.transferAll around s is).run m).2 :=
  (transferAll_composed Value.closed_true (fun _ => trivial) ⟨trivial, trivial, trivial⟩ trivial
    fun i hi => Function.fragment_covers hblock (his i hi)).inside hm

theorem execute_inside {k : Knowledge} {b : BlockId} {block : Block}
    (hk : k.memory.Inside p D) (hblock : p.function.block? b = some block) :
    Memory.Inside p D (p.execute k b block).memory := by
  have hmem : block ∈ p.function.blocks.values := OrderedMap.mem_values_iff.mpr ⟨b, hblock⟩
  have hcomposed : Composed p p.function.fragment (fun _ => True) _
      (p.finishBlock (p.surroundings k b) (p.entryState k b) block.instructions block.terminator) :=
    finishBlock_composed Value.closed_true (fun _ => trivial) ⟨trivial, trivial, trivial⟩ trivial
      (fun i hi => Function.fragment_covers hmem hi) fun e he => Expr.Within.of_terminator hmem he
  exact hcomposed.inside hk

/-! ## Visits -/

/-- Where a value is kept while the solver runs. -/
inductive Slot where
  | cell (id : LocId)
  | branch (b : BlockId)
  | control (b : BlockId)
  | exit (b : BlockId) (v : VarId)

namespace Problem

variable {k k' : Knowledge} {b : BlockId} {block : Block} {a₀ : Arena}

/-- The value in a slot. -/
def slot (p : Problem) (k : Knowledge) : Slot → Value
  | .cell id => k.memory.cell id
  | .branch b => k.branch b
  | .control b => k.control b
  | .exit b v => ((k.assignment p.varCount).exit b).get v

/-- The slots that can change: those of the blocks that are visited, and those of the cells whose
number is small enough. -/
def slots (p : Problem) (bound : Nat) : Set Slot :=
  Slot.cell '' {id | id < bound} ∪ Slot.branch '' {b | b ∈ p.order} ∪
    Slot.control '' {b | b ∈ p.order} ∪
    (fun x => Slot.exit x.1 x.2) '' ({b | b ∈ p.order} ×ˢ {v | v < p.varCount})

theorem finite_slots (p : Problem) (bound : Nat) : (p.slots bound).Finite := by
  have horder : {b | b ∈ p.order}.Finite := p.order.finite_toSet
  exact ((((Set.finite_lt_nat bound).image _).union (horder.image _)).union
    (horder.image _)).union ((horder.prod (Set.finite_lt_nat p.varCount)).image _)

theorem slot_absorb_le {e : Execution} (he : e.exit.vars.length = p.varCount)
    (hfills : Fills k.memory e.memory) (x : Slot) :
    p.slot k x ≤ p.slot (p.absorb k b e) x := by
  cases x with
  | cell id => exact hfills.le id
  | branch x =>
      show k.branch x ≤ ((p.absorb k b e).assignment p.varCount).branch x
      rw [assignment_absorb_branch]
      split
      · next h => exact h ▸ Value.le_join_left _ _
      · exact Value.le_refl _
  | control x =>
      show k.control x ≤ ((p.absorb k b e).assignment p.varCount).control x
      rw [assignment_absorb_control]
      split
      · next h => exact h ▸ Value.le_join_left _ _
      · exact Value.le_refl _
  | exit x v =>
      show ((k.assignment p.varCount).exit x).get v ≤
        (((p.absorb k b e).assignment p.varCount).exit x).get v
      rw [assignment_absorb_exit he]
      split
      · next h =>
        rw [State.get_join, h]
        exact Value.le_join_left _ _
      · exact Value.le_refl _

/-- A block is put back on the worklist only if some slot has grown. -/
theorem slot_grows {e : Execution} (he : e.exit.vars.length = p.varCount)
    (hfills : Fills k.memory e.memory) (hb : b ∈ p.order) {bound : Nat}
    (hbound : ∀ id, bound ≤ id → e.memory.cell id = Value.bottom)
    (h : p.affected k b e ≠ []) :
    ∃ x ∈ p.slots bound, ¬ p.slot (p.absorb k b e) x ≤ p.slot k x := by
  by_contra hnone
  push Not at hnone
  refine h ?_
  have hbranch : e.branch ≤ k.branch b := by
    have hslot := hnone (.branch b) (.inl (.inl (.inr ⟨b, hb, rfl⟩)))
    change ((p.absorb k b e).assignment p.varCount).branch b ≤ k.branch b at hslot
    rw [assignment_absorb_branch, if_pos rfl] at hslot
    exact (Value.join_le_iff.mp hslot).2
  have hcontrol : e.control ≤ k.control b := by
    have hslot := hnone (.control b) (.inl (.inr ⟨b, hb, rfl⟩))
    change ((p.absorb k b e).assignment p.varCount).control b ≤ k.control b at hslot
    rw [assignment_absorb_control, if_pos rfl] at hslot
    exact (Value.join_le_iff.mp hslot).2
  have hexit : e.exit ≤ (k.exits.get? b).getD (.untainted p.varCount) := by
    refine State.le_iff.mpr fun v => ?_
    by_cases hv : v < p.varCount
    · have hslot := hnone (.exit b v) (.inr ⟨(b, v), ⟨hb, hv⟩, rfl⟩)
      change (((p.absorb k b e).assignment p.varCount).exit b).get v ≤
        ((k.exits.get? b).getD (.untainted p.varCount)).get v at hslot
      rw [assignment_absorb_exit he, if_pos rfl, State.get_join] at hslot
      exact (Value.join_le_iff.mp hslot).2
    · have hnone : e.exit.get v = Value.bottom := by
        have hlen : e.exit.vars.length ≤ v := he ▸ Nat.le_of_not_lt hv
        rw [State.get, List.getD_eq_getElem?_getD, List.getElem?_eq_none hlen]
        rfl
      rw [hnone]
      exact Value.bottom_le _
  have hcells : e.memory.cells = k.memory.cells := by
    refine hfills.same fun id => ?_
    by_cases hid : id < bound
    · exact hnone (.cell id) (.inl (.inl (.inl ⟨id, hid, rfl⟩)))
    · rw [hbound id (Nat.le_of_not_lt hid)]
      exact Value.bottom_le _
  rw [affected, if_neg fun hg => Value.grows_iff.mp hg hbranch,
    if_neg fun hg => Value.grows_iff.mp hg hcontrol,
    if_neg fun hg => State.grows_iff.mp hg hexit, if_neg (not_not_intro hcells)]
  rfl

/-- The arena can be read and names only what the function can mention, and the worklist only has
positions of blocks. -/
structure Contained (p : Problem) (D : Nat) (k : Knowledge) : Prop where
  readable : Readable p D k.memory
  inside : k.memory.Inside p D
  worklist : ∀ i ∈ k.worklist, i < p.order.length

theorem contained_visit (h : p.Contained D k) (hvisit : p.Visits k b k') : p.Contained D k' := by
  obtain @⟨i, _, rest, hi, hrest, hb⟩ := hvisit
  have hrest' : ∀ i ∈ rest, i < p.order.length := fun j hj => h.worklist j ((hrest j).mp hj).1
  have hreadable := visit_later (k := { k with worklist := rest }) h.readable b
  rw [visit] at hreadable ⊢
  cases hblock : p.function.block? b with
  | none => exact ⟨h.readable, h.inside, hrest'⟩
  | some block =>
      rw [hblock] at hreadable
      have hinside := execute_inside (k := { k with worklist := rest }) h.inside hblock
      refine ⟨hreadable.readable, hinside, fun j hj => ?_⟩
      rcases IdSet.mem_union.mp hj with hj | hj
      · exact hrest' j hj
      · obtain ⟨x, -, hx⟩ := List.mem_filterMap.mp (IdSet.mem_ofList.mp hj)
        exact (List.getElem?_eq_some_iff.mp (position?_some hx)).1

theorem contained_of_reached (hstart : p.Contained D (p.start a₀)) (h : p.Reached a₀ k) :
    p.Contained D k := by
  induction h with
  | start => exact hstart
  | visit _ hvisit ih => exact contained_visit ih hvisit

theorem Contained.cell_eq_bottom (h : p.Contained D k) {id : LocId}
    (hid : 2 ^ locationBits p.function D ≤ id) : k.memory.cell id = Value.bottom := by
  have hsize := PointsTo.size_le_of_inside h.readable.ready.wellFormed h.inside.arena
  rw [Memory.cell]
  cases hget : k.memory.cells.get? id with
  | none => rfl
  | some v =>
      have hlt := h.readable.keys (id, v) (OrderedMap.get?_eq_some_iff.mp hget)
      exact absurd hlt (Nat.not_lt.mpr (Nat.le_trans hsize hid))

theorem clean_slot {s : SourceId} (h : CleanOf s k) (x : Slot) : Value.Clean s (p.slot k x) := by
  cases x with
  | cell id =>
      show Value.Clean s ((k.memory.cells.get? id).getD Value.bottom)
      cases hget : k.memory.cells.get? id with
      | none => exact Value.clean_bottom s
      | some v => exact h.memory.cells (id, v) (OrderedMap.get?_eq_some_iff.mp hget)
  | branch b => exact h.branch b
  | control b => exact h.control b
  | exit b v =>
      show Value.Clean s (((k.exits.get? b).getD (.untainted p.varCount)).get v)
      cases hget : k.exits.get? b with
      | none => exact State.clean_untainted _ v
      | some t => exact h.exits b t hget v

/-- How much the slots can still grow. -/
noncomputable def slack (p : Problem) (D : Nat) (k : Knowledge) : Nat :=
  Value.room (p.slots (2 ^ locationBits p.function D)) p.function.paramCount (p.slot k)

/-- A visit takes a block off the worklist for good, or it takes up some of the slack. -/
theorem slack_visit (hstart : p.Contained D (p.start a₀)) (h : p.Reached a₀ k)
    (hvisit : p.Visits k b k') :
    p.slack D k' < p.slack D k ∨
      p.slack D k' ≤ p.slack D k ∧ k'.worklist.size < k.worklist.size := by
  have hreached : p.Reached a₀ k' := .visit h hvisit
  have hcontained := contained_of_reached hstart hreached
  have hclean (s : SourceId) (hs : p.function.paramCount ≤ s) := cleanOf_of_reached hs hreached
  have hfinite := p.finite_slots (2 ^ locationBits p.function D)
  have hsized := (allImbued_of_reached h).sized
  obtain @⟨i, _, rest, hi, hrest, hb⟩ := hvisit
  have hsmaller : rest.size < k.worklist.size := by
    have hsub : ∀ n, n ∈ rest → n ∈ k.worklist := fun n hn => ((hrest n).mp hn).1
    refine lt_of_le_of_ne (IdSet.size_le_of_subset hsub) fun heq => ?_
    have hsame := IdSet.eq_of_subset_of_size hsub heq.ge
    exact ((hrest i).mp (hsame ▸ hi)).2 rfl
  rw [visit] at hcontained hclean hreached ⊢
  cases hblock : p.function.block? b with
  | none => exact .inr ⟨Nat.le_refl _, hsmaller⟩
  | some block =>
      simp only [hblock] at hcontained hclean ⊢
      have hfills := execute_fills (p := p) { k with worklist := rest } b block
      obtain ⟨hlen, -⟩ := execute_imbues (p := p) (k := { k with worklist := rest }) hsized b block
      have hgrow := slot_absorb_le (b := b) hlen hfills
      by_cases haffected : p.affected { k with worklist := rest } b
          (p.execute { k with worklist := rest } b block) = []
      · refine .inr ⟨Value.room_le hfinite hgrow, ?_⟩
        have hworklist : (p.absorb { k with worklist := rest } b
            (p.execute { k with worklist := rest } b block)).worklist = rest := by
          refine IdSet.ext fun n => ?_
          show n ∈ rest ∪ _ ↔ n ∈ rest
          rw [haffected]
          simp
        rwa [hworklist]
      · obtain ⟨x, hx, hnot⟩ := slot_grows hlen hfills (List.mem_of_getElem? hb)
          (fun id hid => hcontained.cell_eq_bottom hid) haffected
        exact .inl (Value.room_lt hfinite hgrow hx
          (fun s hs => clean_slot (hclean s hs) x) hnot)

/-! ## Runs that halt -/

/-- The worklist runs out after a number of visits. -/
inductive Halts (p : Problem) : Knowledge → Nat → Prop where
  | done {k : Knowledge} (hdone : k.worklist.isEmpty = true) : Halts p k 0
  | visit {k k' : Knowledge} {b : BlockId} {n : Nat} (hnext : p.next? k = some (b, k'))
      (hrest : Halts p k' n) : Halts p k (n + 1)

theorem next?_of_isEmpty (h : k.worklist.isEmpty = true) : p.next? k = none := by
  have hpop : k.worklist.popMin? = none := by
    rcases hlist : k.worklist with ⟨elems, hasc⟩
    rw [hlist] at h
    obtain rfl := List.isEmpty_iff.mp h
    rfl
  rw [next?, hpop]
  rfl

theorem exists_next? (h : p.Contained D k) (hne : ¬ k.worklist.isEmpty = true) :
    ∃ b k', p.next? k = some (b, k') := by
  rcases hlist : k.worklist with ⟨elems, hasc⟩
  cases elems with
  | nil => exact absurd (by rw [hlist]; rfl) hne
  | cons i rest =>
      have hi : i < p.order.length := h.worklist i (by rw [hlist]; exact List.mem_cons_self)
      have hpop : k.worklist.popMin? = some (i, ⟨rest, (List.pairwise_cons.mp hasc).2⟩) := by
        rw [hlist]
        rfl
      have hb := List.getElem?_eq_getElem hi
      rw [next?, hpop]
      simp [hb]

/-- The worklist runs out, whatever can be known when it is looked at. -/
theorem exists_halts (hstart : p.Contained D (p.start a₀)) (h : p.Reached a₀ k) :
    ∃ n, p.Halts k n := by
  -- the slack comes first: where it shrinks, the worklist may become longer
  have hwf : WellFounded (Prod.Lex (· < · : Nat → Nat → Prop) (· < · : Nat → Nat → Prop)) :=
    WellFounded.prod_lex Nat.lt_wfRel.wf Nat.lt_wfRel.wf
  induction hm : (p.slack D k, k.worklist.size) using hwf.induction generalizing k with
  | _ m ih =>
      subst hm
      by_cases hdone : k.worklist.isEmpty = true
      · exact ⟨0, .done hdone⟩
      · obtain ⟨b, k', hnext⟩ := exists_next? (contained_of_reached hstart h) hdone
        have hvisit := visits_of_next? hnext
        have hless : Prod.Lex (· < ·) (· < ·) (p.slack D k', k'.worklist.size)
            (p.slack D k, k.worklist.size) := by
          rw [Prod.lex_def]
          rcases slack_visit hstart h hvisit with hlt | ⟨hle, hlt⟩
          · exact .inl hlt
          · rcases Nat.lt_or_eq_of_le hle with hlt' | heq
            · exact .inl hlt'
            · exact .inr ⟨heq, hlt⟩
        obtain ⟨n, hn⟩ := ih _ hless (.visit h hvisit) rfl
        exact ⟨n + 1, .visit hnext hn⟩

namespace Halts

variable {n : Nat}

/-- A run that is cut off has used up its budget. -/
theorem length_visits (h : p.Halts k n) (budget : Nat) :
    (p.visits budget k).length = min n budget := by
  induction h generalizing budget with
  | done hdone => simp [visits_of_none (next?_of_isEmpty hdone)]
  | visit hnext _ ih =>
      cases budget with
      | zero => simp [visits]
      | succ budget =>
          rw [visits_of_some hnext, List.length_cons, ih budget]
          omega

/-- What exceeds the number of visits is not used. -/
theorem visits_eq (h : p.Halts k n) {budget : Nat} (hbudget : n ≤ budget) :
    p.visits budget k = p.visits n k := by
  induction h generalizing budget with
  | done hdone => rw [visits_of_none (next?_of_isEmpty hdone), visits]
  | visit hnext _ ih =>
      obtain ⟨budget, rfl⟩ : ∃ m, budget = m + 1 := ⟨budget - 1, by omega⟩
      rw [visits_of_some hnext, visits_of_some hnext, ih (by omega)]

/-- The worklist has run out exactly if the budget covers the number of visits. -/
theorem exhausted_iff (h : p.Halts k n) (budget : Nat) :
    (p.known budget k).worklist.isEmpty = true ↔ n ≤ budget := by
  induction h generalizing budget with
  | done hdone => simpa [known, visits_of_none (next?_of_isEmpty hdone)] using hdone
  | @visit k k' b n hnext _ ih =>
      cases budget with
      | zero =>
          have hne : ¬ k.worklist.isEmpty = true := fun hdone => by
            simp [next?_of_isEmpty hdone] at hnext
          simpa [known, visits] using hne
      | succ budget =>
          rw [known_of_some hnext, ih budget]
          omega

end Halts

end Problem

/-! ## Functions -/

namespace Run

variable {f : Function} {config : Config} {table : SummaryTable} {peers : List String}

theorem contained_start (f : Function) (config : Config) (table : SummaryTable)
    (peers : List String) : (ofFunction f config table peers).problem.Contained config.maxPathDepth
      (ofFunction f config table peers).start where
  readable := readable_start f config table peers
  inside := ⟨PointsTo.analyze_inside f config, fun _ hi => absurd hi List.not_mem_nil⟩
  worklist := fun _ hi => List.mem_range.mp (IdSet.mem_ofList.mp hi)

/-- The run of a function halts: with a limit that covers the visits that it takes it gives the
same result always, and with any other limit it is cut off there. -/
theorem exists_result (f : Function) (config : Config) (table : SummaryTable)
    (peers : List String) : ∃ result : FunctionResult, ∀ limit,
      (ofFunction f { config with maxBlockVisits := limit } table peers).result =
        if result.visits ≤ limit then .ok result else .error ⟨f.name, limit⟩ := by
  obtain ⟨n, hn⟩ := Problem.exists_halts (contained_start f config table peers) .start
  let run (limit : Nat) := ofFunction f { config with maxBlockVisits := limit } table peers
  have hlength (limit : Nat) : (run limit).visits.length = min n limit := hn.length_visits limit
  have hdone (limit : Nat) : (run limit).final.worklist.isEmpty = true ↔ n ≤ limit :=
    hn.exhausted_iff limit
  let r := run n
  refine ⟨⟨r.summary, (List.range r.problem.varCount).map r.taintOf, n⟩, fun limit => ?_⟩
  show (run limit).result = _
  split
  · next hle =>
    have hsame : run limit = run n := by
      show Run.mk _ _ _ = Run.mk _ _ _
      exact congrArg _ (hn.visits_eq hle)
    rw [hsame, result, if_pos ((hdone n).mpr (Nat.le_refl n)), hlength, Nat.min_self]
  · next hlt =>
    have hcut : min n limit = limit := Nat.min_eq_right (Nat.le_of_not_le hlt)
    rw [result, if_neg (mt (hdone limit).mp hlt), hlength, hcut]
    rfl

end Run

end TaintAnalysis
