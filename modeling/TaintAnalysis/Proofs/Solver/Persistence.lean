import TaintAnalysis.Proofs.Solver.Halting

/-!
# What memory holds, it keeps

The cells of memory are joined into and never replaced. So the taint that an
instruction leaves in memory is there after the rest of its block, and after
every visit that follows, up to the end of the run (`Executes.within_final`).

In the other direction, a block that reads memory is visited again whenever a cell
has changed. Its last visit in a run that converged therefore begins with all the
taint that memory holds in the end (`executes_last`). Together: what is written
anywhere is seen wherever memory is read, whatever the order of the two.
-/

namespace TaintAnalysis

open Arena

/-! ## Computations that only add taint to memory -/

variable {p : Problem} {D : Nat} {m m' : Memory} {ls : List Location}

theorem cell_le_taintAt (m : Memory) (id : LocId) :
    m.cell id ≤ m.view.taintAt (m.arena.location id) := by
  rw [Memory.cell]
  cases hget : m.cells.get? id with
  | none => exact Value.bottom_le _
  | some v =>
      have hmem := List.mem_map_of_mem (f := fun e : LocId × Value => (m.arena.location e.1, e.2))
        (OrderedMap.get?_eq_some_iff.mp hget)
      exact Cells.le_taintAt hmem

/-- Filling memory takes no taint away from any location. -/
theorem Fills.view_within (h : Fills m m') (hm : Readable p D m)
    (hextend : m.arena.Extends m'.arena) : m.view.Within m'.view := by
  intro x hx
  obtain ⟨⟨id, v⟩, he, rfl⟩ := List.mem_map.mp hx
  have hcell : m.cell id = v := by
    rw [Memory.cell, OrderedMap.get?_eq_some_iff.mpr he, Option.getD_some]
  rw [← hcell, ← hextend.location (hm.keys _ he)]
  exact Value.le_trans (h.le id) (cell_le_taintAt m' id)

theorem Composed.view_within {T : Fragment} {α : Type} {c : Effect α} {P : α → Prop}
    (h : Composed p T (fun _ => True) P c) (hm : Readable p D m) :
    m.view.Within (c.run m).2.view :=
  (h.fills m).view_within hm (h.proceeds m hm).extend

theorem transferAll_within (around : Surroundings) (s : State) (is : List Instruction)
    (hm : Readable p D m) : m.view.Within ((p.transferAll around s is).run m).2.view :=
  (transferAll_composed Value.closed_true (fun _ => trivial) ⟨trivial, trivial, trivial⟩ trivial
    fun i _ => Fragment.all_covers i).view_within hm

/-- What is written to a cell is there. -/
theorem le_cell_write (p : Problem) (m : Memory) (id : LocId) (v : Value) :
    v ≤ (m.write p id v).cell id := by
  rw [Memory.write]
  split
  · next hv =>
    rw [Value.isBottom_iff.mp hv]
    exact Value.bottom_le _
  · show v ≤ ((m.cells.joinAt id v).get? id).getD Value.bottom
    rw [OrderedMap.getD_joinAt, if_pos rfl]
    exact Value.le_join_right _ _

theorem le_cell_writeAll (v : Value) {ids : List LocId} {id : LocId} (hid : id ∈ ids) (m : Memory) :
    v ≤ (ids.foldl (fun m id => m.write p id v) m).cell id := by
  induction ids generalizing m with
  | nil => exact absurd hid List.not_mem_nil
  | cons first rest ih =>
      rcases List.mem_cons.mp hid with rfl | hid
      · exact Value.le_trans (le_cell_write p m id v) ((Fills.writeAll p rest v _).le id)
      · exact ih hid _

theorem le_taintAt_writeAll (v : Value) {ids : List LocId} (hm : Readable p D m)
    (hids : ∀ id ∈ ids, id < m.arena.size) {id : LocId} (hid : id ∈ ids) :
    v ≤ (Memory.view (ids.foldl (fun m id => m.write p id v) m)).taintAt
      (m.arena.location id) := by
  have hlater := (writeAll_later (p := p) hm hids v).1
  refine Value.le_trans (le_cell_writeAll (p := p) v hid m) ?_
  rw [← hlater.extend.location (hids id hid)]
  exact cell_le_taintAt _ id

theorem fills_naming {α : Type} {n : Naming α} (m : Memory) :
    Fills m ((Effect.naming n).run m).2 :=
  .of_cells rfl

/-! ## From an instruction to the end of the run -/

namespace Problem

variable {k : Knowledge} {b : BlockId} {block : Block} {budget : Nat}

theorem visit_fills (k : Knowledge) (b : BlockId) : Fills k.memory (p.visit k b).memory := by
  rw [visit]
  split
  · exact execute_fills k b _
  · exact .of_cells rfl

/-- Whatever is visited, what memory held before is there at the end. -/
theorem known_fills (budget : Nat) (k : Knowledge) {e : Knowledge × BlockId × Knowledge}
    (he : e ∈ p.changes budget k) :
    Fills (p.visit e.1 e.2.1).memory (p.known budget k).memory := by
  obtain ⟨-, hchanges⟩ := known_of_visits (p := p) (k := k) (I := fun _ => True)
    (R := fun k k' => Fills k.memory k'.memory) (fun _ _ => .of_cells rfl) (fun _ _ _ => .trans)
    (fun k b _ _ hvisit => ⟨trivial, hvisit.memory ▸ visit_fills k b⟩) budget trivial
  obtain ⟨hvisit, -, hafter⟩ := hchanges e he
  exact hvisit.memory ▸ hafter

end Problem

/-- What memory holds after an instruction, it holds after the rest of the block. -/
theorem execute_fills_of_split {k : Knowledge} {b : BlockId} {block : Block}
    {before after : List Instruction} {i : Instruction} {s : State}
    (his : block.instructions = before ++ i :: after)
    (hrun : (p.transferAll (p.surroundings k b) (p.entryState k b) before).run k.memory = (s, m)) :
    Fills ((p.transfer (p.surroundings k b) s i).run m).2 (p.execute k b block).memory := by
  rw [memory_execute_of_split his hrun]
  exact finishBlock_fills _ _ _ _ _

namespace Run

variable {f : Function} {config : Config} {table : SummaryTable} {peers : List String}
  {b : BlockId} {i : Instruction} {around : Surroundings} {s : State}

/-- What memory holds after an instruction was executed, it holds at the end of the run. -/
theorem Executes.within_final (h : (ofFunction f config table peers).Executes b i around s m) :
    let r := ofFunction f config table peers
    (Memory.view ((r.problem.transfer around s i).run m).2).Within r.final.memory.view := by
  intro r
  obtain ⟨hbefore, hafter⟩ := h.between
  have hreadable := (transfer_proceeds (D := config.maxPathDepth) around s i m
    hbefore.readable).readable
  obtain ⟨k, block, before, after, hk, hblock, his, rfl, hrun⟩ := h
  obtain ⟨e, he, hek⟩ := List.mem_map.mp hk
  obtain ⟨rfl, rfl⟩ := Prod.mk.inj hek
  have hend : Fills ((ofFunction f config table peers).problem.visit e.1 e.2.1).memory
      (ofFunction f config table peers).final.memory :=
    Problem.known_fills config.maxBlockVisits _ he
  rw [Problem.memory_visit hblock] at hend
  have hfills := (execute_fills_of_split his hrun).trans hend
  exact hfills.view_within hreadable hafter.extend

end Run

/-! ## The last visit of a block that reads memory -/

namespace Problem

variable {k k' : Knowledge} {b b' : BlockId} {budget : Nat}

/-- A visit that does not leave a reader of memory on the worklist has not changed a cell. -/
theorem cells_visit_of_not_listed (hvisit : p.Visits k b k') (hb' : b' ∈ p.order)
    (hreader : b' ∈ p.memoryReaders) (hout : ∀ j ∈ k'.worklist, p.position? b' ≠ some j) :
    k'.memory.cells = k.memory.cells ∧
      (b' ≠ b → ∀ j ∈ k.worklist, p.position? b' ≠ some j) := by
  obtain @⟨i, _, rest, hi, hrest, hb⟩ := hvisit
  rw [visit] at hout ⊢
  cases hblock : p.function.block? b with
  | none =>
      rw [hblock] at hout
      refine ⟨rfl, fun hne j hj hpos => hout j ((hrest j).mpr ⟨hj, ?_⟩) hpos⟩
      rintro rfl
      exact hne (Option.some.inj ((position?_some hpos).symm.trans hb))
  | some block =>
      rw [hblock] at hout
      obtain ⟨hfree, hold⟩ := not_affected hrest hb hb' hout
      exact ⟨cells_unchanged hfree hreader, hold⟩

/-- Where the worklist has run out, a reader of memory has been visited on the cells that there
are in the end. If it was not, it had not been waiting, and the cells have stayed the same. -/
theorem visited_last (hdone : (p.known budget k).worklist.isEmpty = true) (hb : b ∈ p.order)
    (hreader : b ∈ p.memoryReaders) :
    (∃ e ∈ p.changes budget k, e.2.1 = b ∧
      e.1.memory.cells = (p.known budget k).memory.cells) ∨
    ((∀ j ∈ k.worklist, p.position? b ≠ some j) ∧
      k.memory.cells = (p.known budget k).memory.cells) := by
  have hempty {k : Knowledge} (h : k.worklist.isEmpty = true) :
      ∀ j ∈ k.worklist, p.position? b ≠ some j := fun _ hj =>
    absurd (IdSet.mem_def.mp hj) (List.isEmpty_iff.mp h ▸ List.not_mem_nil)
  induction budget generalizing k with
  | zero => exact .inr ⟨hempty hdone, rfl⟩
  | succ budget ih =>
      cases hnext : p.next? k with
      | none =>
          rw [known, visits_of_none hnext] at hdone ⊢
          exact .inr ⟨hempty hdone, rfl⟩
      | some y =>
          obtain ⟨b', k'⟩ := y
          rw [known_of_some hnext] at hdone ⊢
          rw [changes_of_some hnext]
          rcases ih hdone with ⟨e, he, hlast⟩ | ⟨hout, hsame⟩
          · exact .inl ⟨e, List.mem_cons_of_mem _ he, hlast⟩
          · obtain ⟨hcells, hold⟩ :=
              cells_visit_of_not_listed (visits_of_next? hnext) hb hreader hout
            by_cases hbb : b = b'
            · exact .inl ⟨_, List.mem_cons_self, hbb.symm, hcells.symm.trans hsame⟩
            · exact .inr ⟨hold hbb, hcells.symm.trans hsame⟩

theorem Visits.returned (h : p.Visits k b k') : k'.returned = (p.visit k b).returned := by
  cases h with
  | visit _ _ _ =>
      rw [Problem.visit, Problem.visit]
      cases p.function.block? b with
      | none => rfl
      | some block => rfl

theorem returned_le_visit (k : Knowledge) (b : BlockId) : k.returned ≤ (p.visit k b).returned := by
  rw [visit]
  split
  · exact Value.le_join_left _ _
  · exact Value.le_refl _

/-- What a visit returns is in what is returned at the end. -/
theorem returned_visit_le (budget : Nat) (k : Knowledge) {e : Knowledge × BlockId × Knowledge}
    (he : e ∈ p.changes budget k) :
    (p.visit e.1 e.2.1).returned ≤ (p.known budget k).returned := by
  obtain ⟨-, hchanges⟩ := known_of_visits (p := p) (k := k) (I := fun _ => True)
    (R := fun k k' => k.returned ≤ k'.returned) (fun _ _ => Value.le_refl _)
    (fun _ _ _ => Value.le_trans)
    (fun k b _ _ hvisit => ⟨trivial, hvisit.returned ▸ returned_le_visit k b⟩) budget trivial
  obtain ⟨hvisit, -, hafter⟩ := hchanges e he
  exact hvisit.returned ▸ hafter

end Problem

namespace Run

variable {f : Function} {config : Config} {table : SummaryTable} {peers : List String}
  {b : BlockId} {block : Block} {i : Instruction}

/-- In a run that converged, a reader of memory is visited on a memory that holds whatever is held
at the end. -/
theorem exists_last_visit (hdone : (ofFunction f config table peers).final.worklist.isEmpty = true)
    (hb : b ∈ (ofFunction f config table peers).problem.order)
    (hreader : b ∈ (ofFunction f config table peers).problem.memoryReaders) :
    let r := ofFunction f config table peers
    ∃ k, (k, b) ∈ r.visited ∧ Readable r.problem config.maxPathDepth k.memory ∧
      r.start.memory.arena.Extends k.memory.arena ∧
      r.final.memory.view.Within k.memory.view ∧
      (r.problem.visit k b).returned ≤ r.final.returned := by
  intro r
  obtain ⟨n, hn⟩ := Problem.exists_position hb
  have hlisted : n ∈ r.start.worklist := IdSet.mem_ofList.mpr (List.mem_range.mpr
    (List.getElem?_eq_some_iff.mp (Problem.position?_some hn)).1)
  rcases Problem.visited_last (k := r.start) hdone hb hreader with
    ⟨e, he, rfl, hcells⟩ | ⟨hout, -⟩
  · obtain ⟨hstart, hend⟩ := (Problem.known_later config.maxBlockVisits
      (readable_start f config table peers)).2 e he
    have hlater : e.1.memory.arena.Extends r.final.memory.arena :=
      (visit_later hstart.readable e.2.1).extend.trans hend.extend
    refine ⟨e.1, List.mem_map.mpr ⟨e, he, rfl⟩, hstart.readable, hstart.extend, ?_,
      Problem.returned_visit_le config.maxBlockVisits r.start he⟩
    have hview : r.final.memory.view = e.1.memory.view := by
      rw [Memory.view, Memory.view, show r.final.memory.cells = e.1.memory.cells from hcells.symm]
      exact List.map_congr_left fun x hx => by rw [hlater.location (hstart.readable.keys x hx)]
    exact hview ▸ .refl _
  · exact absurd hn (hout n hlisted)

/-- Every instruction of a reader of memory is executed on a memory that holds whatever is held at
the end. -/
theorem executes_last (hdone : (ofFunction f config table peers).final.worklist.isEmpty = true)
    (hb : b ∈ (ofFunction f config table peers).problem.order)
    (hreader : b ∈ (ofFunction f config table peers).problem.memoryReaders)
    (hblock : f.block? b = some block) (hi : i ∈ block.instructions) :
    let r := ofFunction f config table peers
    ∃ around s m, r.Executes b i around s m ∧ r.final.memory.view.Within m.view := by
  intro r
  obtain ⟨k, hk, hreadable, -, hwithin, -⟩ := exists_last_visit hdone hb hreader
  obtain ⟨before, after, his⟩ := List.append_of_mem hi
  exact ⟨_, _, _, ⟨k, block, before, after, hk, hblock, his, rfl, rfl⟩,
    hwithin.trans (transferAll_within (r.problem.surroundings k b) (r.problem.entryState k b)
      before hreadable)⟩

end Run

end TaintAnalysis
