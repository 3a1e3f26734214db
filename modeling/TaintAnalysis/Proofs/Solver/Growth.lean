import TaintAnalysis.Proofs.Memory.Saturation
import TaintAnalysis.Proofs.Solver.Computations
import TaintAnalysis.Proofs.Solver.LeastSolution

/-!
# What every step of a run keeps

The equations of the solver describe the functions that name no new storage while
they are analyzed. Some facts hold without that. Whatever a computation names, the
pointer facts can still be read afterwards and every cell keeps its location; one
that only evaluates leaves the taint of memory as it is (`Names`), and one that
writes takes nothing away from what is written through the parameters (`Proceeds`).

Both are relations between the memory before and the memory after that looking up,
reading and writing keep (`renamed_keptByReads`, `later_keptByWrites`), so they hold of
whatever is put together from these. A run is a sequence of visits: what was recorded
in one of them is in the summary at the end, and if the worklist has run out, then
every block of the order was visited.
-/

namespace TaintAnalysis

open Arena

section

variable (p : Problem) (D : Nat)

/-- The pointer facts can be read in the memory, and every cell has a location. -/
structure Readable (m : Memory) : Prop where
  ready : p.pointsTo.Ready D m.arena
  keys : ∀ e ∈ m.cells.entries, e.1 < m.arena.size

/-- From one memory to the other only locations were named. -/
structure Renamed (m m' : Memory) : Prop where
  readable : Readable p D m'
  extend : m.arena.Extends m'.arena
  cells : m'.cells = m.cells
  paramWrites : m'.paramWrites = m.paramWrites

/-- The other memory comes later: what is named stays named, and what was written
through a parameter stays written. -/
structure Later (m m' : Memory) : Prop where
  readable : Readable p D m'
  extend : m.arena.Extends m'.arena
  out : ∀ i, m.out i ≤ m'.out i

/-- The computation names locations and does nothing else to memory. -/
def Names {α : Type} (c : Effect α) : Prop :=
  ∀ m, Readable p D m → Renamed p D m (c.run m).2

/-- The computation takes nothing away from memory. -/
def Proceeds {α : Type} (c : Effect α) : Prop :=
  ∀ m, Readable p D m → Later p D m (c.run m).2

end

variable {p : Problem} {D : Nat} {m m' m'' : Memory} {α β : Type} {c : Effect α}
  {f : α → Effect β}

namespace Renamed

theorem refl (h : Readable p D m) : Renamed p D m m :=
  ⟨h, .refl _, rfl, rfl⟩

theorem trans (h : Renamed p D m m') (h' : Renamed p D m' m'') : Renamed p D m m'' :=
  ⟨h'.readable, h.extend.trans h'.extend, h'.cells.trans h.cells,
    h'.paramWrites.trans h.paramWrites⟩

theorem view_eq (hm : Readable p D m) (h : Renamed p D m m') : m'.view = m.view := by
  rw [Memory.view, Memory.view, h.cells]
  exact List.map_congr_left fun e he => by rw [h.extend.location (hm.keys e he)]

theorem later (h : Renamed p D m m') : Later p D m m' :=
  ⟨h.readable, h.extend, fun i => by
    rw [Memory.out, Memory.out, h.paramWrites]
    exact Value.le_refl _⟩

end Renamed

namespace Later

theorem trans (h : Later p D m m') (h' : Later p D m' m'') : Later p D m m'' :=
  ⟨h'.readable, h.extend.trans h'.extend, fun i => Value.le_trans (h.out i) (h'.out i)⟩

end Later

theorem facts_eq_of_extends (hm : Readable p D m) (h : m.arena.Extends m'.arena) :
    p.pointsTo.pathFacts D m'.arena = p.pointsTo.pathFacts D m.arena :=
  PointsTo.pathFacts_eq hm.ready.inRange h

/-! ## Computations that only evaluate -/

namespace Names

theorem pure (x : α) : Names p D (Pure.pure x) :=
  fun _ hm => .refl hm

theorem bind (hc : Names p D c) (hf : ∀ x, Names p D (f x)) : Names p D (c >>= f) :=
  fun m hm => (hc m hm).trans (hf (c.run m).1 (c.run m).2 (hc m hm).readable)

theorem read (ids : IdSet) : Names p D (Effect.read ids) :=
  fun _ hm => .refl hm

/-- What may be named does not matter as long as the arena stays well-formed. -/
theorem naming {n : Naming α} (h : ∀ a, p.pointsTo.Ready D a →
    GrowsTo (p.pointsTo.layout D) (fun _ => True) a (n.run a).2) :
    Names p D (Effect.naming n) := by
  intro m hm
  have hgrow := h m.arena hm.ready
  exact ⟨⟨hm.ready.grow hgrow, fun e he => hgrow.extend.lt_size (hm.keys e he)⟩, hgrow.extend,
    rfl, rfl⟩

theorem mapM {l : List α} {g : α → Effect β} (h : ∀ x ∈ l, Names p D (g x)) :
    Names p D (l.mapM g) := by
  induction l with
  | nil => exact .pure []
  | cons x rest ih =>
      rw [List.mapM_cons]
      exact .bind (h x List.mem_cons_self) fun y =>
        .bind (ih fun z hz => h z (List.mem_cons_of_mem x hz)) fun ys => .pure _

end Names

theorem resolve_names (place : Place) : Names p D (Effect.naming (p.pointsTo.resolve place)) :=
  .naming fun _ ha => (PointsTo.resolve_findsAll ha place).1

theorem varLocation_names (v : VarId) : Names p D (Effect.naming (p.pointsTo.varLocation v)) :=
  .naming fun _ ha => (PointsTo.varLocation_found ha v).1

theorem exprTargets_names (e : Expr) : Names p D (Effect.naming (p.pointsTo.exprTargets e)) :=
  .naming fun _ ha => (PointsTo.exprTargets_found ha e).1

section

variable {T : Fragment} {γ : Type} {n : Naming γ} {cells : γ → IdSet} {P : α → Prop}

/-- Whatever is looked up, the arena stays well-formed and has the cells that are found. -/
theorem Lookup.finds {a : Arena} (h : Lookup p T n cells) (ha : p.pointsTo.Ready D a) :
    GrowsTo (p.pointsTo.layout D) (fun _ => True) a (n.run a).2 ∧
      ∀ id ∈ (cells (n.run a).1).elems, id < (n.run a).2.size := by
  cases h with
  | @place place _ =>
      obtain ⟨hgrow, hden⟩ := PointsTo.resolve_findsAll ha place
      exact ⟨hgrow, hden.1⟩
  | @targets e _ =>
      obtain ⟨hgrow, hden⟩ := PointsTo.exprTargets_found ha e
      exact ⟨hgrow, hden.1⟩
  | storage v =>
      rw [Problem.storageOf_run]
      split
      · obtain ⟨hgrow, hpoints⟩ := PointsTo.varLocation_found ha v
        exact ⟨hgrow, fun id hid => List.mem_singleton.mp hid ▸ hpoints.1⟩
      · exact ⟨.refl ha.wellFormed, fun id hid => absurd hid List.not_mem_nil⟩

theorem renamed_keptByReads : KeptByReads p T (fun _ => True) (Readable p D) (Renamed p D) where
  refl := .refl
  trans := .trans
  after := Renamed.readable
  lookup := fun hn hm => Names.naming (fun _ ha => (hn.finds ha).1) _ hm
  read := fun _ _ => trivial

theorem ReadsOnly.names (h : ReadsOnly p T (fun _ => True) P c) : Names p D c :=
  fun _ hm => (h.run renamed_keptByReads hm).2

end

theorem evalVar_names (s : State) (v : VarId) : Names p D (p.evalVar s v) :=
  (evalVar_readsOnly (T := .all) Value.closed_true (fun _ => trivial) v).names

theorem eval_names (s : State) (e : Expr) : Names p D (p.eval s e) :=
  (eval_readsOnly (T := .all) Value.closed_true (fun _ => trivial) e trivial).names

theorem evalPositions_names (s : State) (place : Place) : Names p D (p.evalPositions s place) :=
  (evalPositions_readsOnly (T := .all) Value.closed_true (fun _ => trivial) place trivial).names

theorem addressTaint_names (s : State) (base : VarId) (r : Resolution) (place : Place) :
    Names p D (p.addressTaint s base r (p.evalPositions s place)) :=
  (addressTaint_readsOnly (T := .all) Value.closed_true (fun _ => trivial) base r
    (evalPositions_readsOnly Value.closed_true (fun _ => trivial) place trivial)).names

/-- Resolving a place and evaluating its address, as a load and a store begin. -/
def Problem.access (p : Problem) (s : State) (place : Place) : Effect (Resolution × Value) := do
  let r ← Effect.naming (p.pointsTo.resolve place)
  return (r, ← p.addressTaint s place.base r (p.evalPositions s place))

/-- The numbers that a place resolves to stand for its targets when the address is evaluated. -/
theorem access_denotes (hm : Readable p D m) (s : State) (place : Place) :
    let x := (p.access s place).run m
    Renamed p D m x.2 ∧ x.2.arena.Denotes x.1.1.targets.elems
      ((p.pointsTo.pathFacts D m.arena).resolve place).targets := by
  have hnamed := resolve_names place m hm
  obtain ⟨-, hden⟩ := PointsTo.resolve_findsAll hm.ready place
  have haddress := addressTaint_names s place.base
    ((Effect.naming (p.pointsTo.resolve place)).run m).1 place _ hnamed.readable
  exact ⟨hnamed.trans haddress, hden.mono haddress.extend⟩

theorem evalArgument_names (s : State) (arg : Expr) : Names p D (p.evalArgument s arg) :=
  (evalArgument_readsOnly (T := .all) Value.closed_true (fun _ => trivial) trivial).names

theorem terminate_names (around : Surroundings) (s : State) (t : Terminator) :
    Names p D (p.terminate around s t) :=
  (terminate_readsOnly (T := .all) Value.closed_true (fun _ => trivial)
    ⟨trivial, trivial, trivial⟩ fun _ _ => trivial).names

/-! ## Computations that write -/

theorem arena_write (p : Problem) (m : Memory) (id : LocId) (v : Value) :
    (m.write p id v).arena = m.arena := by
  rw [Memory.write]
  split <;> rfl

theorem arena_writeAll (p : Problem) (ids : List LocId) (v : Value) (m : Memory) :
    (ids.foldl (fun m id => m.write p id v) m).arena = m.arena :=
  List.foldlRecOn (motive := fun m' : Memory => m'.arena = m.arena) ids _ rfl
    fun m' hm' id _ => (arena_write p m' id v).trans hm'

theorem write_later (hm : Readable p D m) {id : LocId} (hid : id < m.arena.size) (v : Value) :
    Later p D m (m.write p id v) := by
  rw [Memory.write]
  split
  · exact (Renamed.refl hm).later
  · refine ⟨⟨hm.ready, fun e he => ?_⟩, .refl _, fun i => ?_⟩
    · rcases OrderedMap.entries_joinAt he with hold | ⟨hkey, -⟩
      · exact hm.keys e hold
      · exact hkey ▸ hid
    · show (m.paramWrites.get? i).getD Value.bottom ≤ (OrderedMap.get? ((Memory.writtenParams p
        (m.arena.location id)).foldl (fun writes i => writes.joinAt i v) m.paramWrites) i).getD
          Value.bottom
      rw [OrderedMap.getD_foldl_joinAt]
      split
      · exact Value.le_join_left _ _
      · exact Value.le_refl _

/-- Writing to several locations. If one of them is visible to the caller, then what is written
is recorded. -/
theorem writeAll_later {ids : List LocId} (hm : Readable p D m)
    (hids : ∀ id ∈ ids, id < m.arena.size) (v : Value) :
    let after := ids.foldl (fun m id => m.write p id v) m
    Later p D m after ∧
      ∀ id ∈ ids, ∀ i ∈ Memory.writtenParams p (m.arena.location id), v ≤ after.out i := by
  induction ids generalizing m with
  | nil => exact ⟨(Renamed.refl hm).later, fun _ hid => absurd hid List.not_mem_nil⟩
  | cons id rest ih =>
      have hwrite := write_later hm (hids id List.mem_cons_self) v
      have hrest : ∀ id' ∈ rest, id' < m.arena.size := fun id' hid' =>
        hids id' (List.mem_cons_of_mem id hid')
      obtain ⟨hlater, hrecorded⟩ := ih hwrite.readable fun id' hid' =>
        hwrite.extend.lt_size (hrest id' hid')
      refine ⟨hwrite.trans hlater, fun id' hid' i hi => ?_⟩
      rcases List.mem_cons.mp hid' with rfl | hid'
      · refine Value.le_trans ?_ (hlater.out i)
        rw [Memory.write]
        split
        · next hv =>
          rw [Value.isBottom_iff.mp hv]
          exact Value.bottom_le _
        · show v ≤ (OrderedMap.get? ((Memory.writtenParams p (m.arena.location id')).foldl
            (fun writes i => writes.joinAt i v) m.paramWrites) i).getD Value.bottom
          rw [OrderedMap.getD_foldl_joinAt, if_pos hi]
          exact Value.le_join_right _ _
      · refine hrecorded id' hid' i ?_
        rwa [hwrite.extend.location (hrest id' hid')]

theorem later_keptByWrites {T : Fragment} :
    KeptByWrites p T (fun _ => True) (Readable p D) (Later p D) where
  refl := fun hm => (Renamed.refl hm).later
  trans := .trans
  after := Later.readable
  lookup := fun hn hm => (renamed_keptByReads.lookup hn hm).later
  read := fun _ _ => trivial
  write := fun hn hm hlater _ => (writeAll_later hlater.readable
    (fun id hid => hlater.extend.lt_size ((hn.finds hm.ready).2 id hid)) _).1

theorem Composed.proceeds {T : Fragment} {P : α → Prop} (h : Composed p T (fun _ => True) P c) :
    Proceeds p D c :=
  fun _ hm => (h.run later_keptByWrites hm).2

theorem writeThrough_proceeds (value : Value) (arg : Expr) :
    Proceeds p D (p.writeThrough value arg) :=
  (writeThrough_composed (T := .all) (V := fun _ => True) trivial trivial).proceeds

theorem define_proceeds (s : State) (v : VarId) (value : Value) :
    Proceeds p D (p.define s v value) :=
  (define_composed (T := .all) (V := fun _ => True) (fun _ => trivial) v trivial).proceeds

/-! ## Instructions and visits -/

theorem transfer_proceeds (around : Surroundings) (s : State) (i : Instruction) :
    Proceeds p D (p.transfer around s i) :=
  (transfer_composed Value.closed_true (fun _ => trivial) ⟨trivial, trivial, trivial⟩ trivial
    (Fragment.all_covers i)).proceeds

theorem transferAll_proceeds (around : Surroundings) (s : State) (is : List Instruction) :
    Proceeds p D (p.transferAll around s is) :=
  (transferAll_composed Value.closed_true (fun _ => trivial) ⟨trivial, trivial, trivial⟩ trivial
    fun i _ => Fragment.all_covers i).proceeds

theorem finishBlock_proceeds (around : Surroundings) (s : State) (after : List Instruction)
    (t : Terminator) : Proceeds p D (p.finishBlock around s after t) :=
  (finishBlock_composed (T := .all) Value.closed_true (fun _ => trivial)
    ⟨trivial, trivial, trivial⟩ trivial (fun i _ => Fragment.all_covers i)
    fun _ _ => trivial).proceeds

/-- The memory that a block leaves, seen from one of its instructions on. -/
theorem memory_execute_of_split {k : Knowledge} {b : BlockId} {block : Block}
    {before after : List Instruction} {i : Instruction} {s : State} {m : Memory}
    (his : block.instructions = before ++ i :: after)
    (hrun : (p.transferAll (p.surroundings k b) (p.entryState k b) before).run k.memory = (s, m)) :
    (p.execute k b block).memory =
      ((p.finishBlock (p.surroundings k b) ((p.transfer (p.surroundings k b) s i).run m).1 after
        block.terminator).run ((p.transfer (p.surroundings k b) s i).run m).2).2 := by
  have hsplit : (p.transferAll (p.surroundings k b) (p.entryState k b)
      block.instructions).run k.memory = (p.transferAll (p.surroundings k b)
        ((p.transfer (p.surroundings k b) s i).run m).1 after).run
          ((p.transfer (p.surroundings k b) s i).run m).2 := by
    rw [his, Problem.transferAll, List.foldlM_append, StateT.run_bind]
    rw [Problem.transferAll] at hrun
    rw [hrun]
    rfl
  have hmemory : (p.execute k b block).memory = ((p.terminate (p.surroundings k b)
      ((p.transferAll (p.surroundings k b) (p.entryState k b) block.instructions).run k.memory).1
      block.terminator).run
      ((p.transferAll (p.surroundings k b) (p.entryState k b) block.instructions).run
        k.memory).2).2 := rfl
  rw [hmemory, hsplit]
  rfl

/-- The effect of a block seen from one of its instructions on. -/
theorem execute_later_of_split {k : Knowledge} {b : BlockId} {block : Block}
    {before after : List Instruction} {i : Instruction} {s : State} {m : Memory}
    (hm : Readable p D m) (his : block.instructions = before ++ i :: after)
    (hrun : (p.transferAll (p.surroundings k b) (p.entryState k b) before).run k.memory = (s, m)) :
    Later p D ((p.transfer (p.surroundings k b) s i).run m).2
      (p.execute k b block).memory := by
  have hstep := transfer_proceeds (D := D) (p.surroundings k b) s i m hm
  rw [memory_execute_of_split his hrun]
  exact finishBlock_proceeds _ _ after _ _ hstep.readable

theorem execute_later {k : Knowledge} (hk : Readable p D k.memory) (b : BlockId) (block : Block) :
    Later p D k.memory (p.execute k b block).memory :=
  finishBlock_proceeds _ _ block.instructions block.terminator k.memory hk

theorem visit_later {k : Knowledge} (hk : Readable p D k.memory) (b : BlockId) :
    Later p D k.memory (p.visit k b).memory := by
  rw [Problem.visit]
  split
  · exact execute_later hk b _
  · exact (Renamed.refl hk).later

/-! ## The visits of a run -/

namespace Problem

variable {k k' : Knowledge} {b : BlockId} {block : Block} {budget : Nat}

/-- What is known after the visits that begin with some knowledge. -/
def known (p : Problem) (budget : Nat) (k : Knowledge) : Knowledge :=
  ((p.visits budget k).getLast?.map Prod.snd).getD k

/-- The visits that begin with some knowledge, with what was known before and after each. -/
def changes (p : Problem) (budget : Nat) (k : Knowledge) :
    List (Knowledge × BlockId × Knowledge) :=
  (k :: (p.visits budget k).map Prod.snd).zip (p.visits budget k)

theorem visits_of_none (h : p.next? k = none) : p.visits budget k = [] := by
  cases budget with
  | zero => rfl
  | succ budget => rw [visits, h]

theorem visits_of_some (h : p.next? k = some (b, k')) :
    p.visits (budget + 1) k = (b, k') :: p.visits budget k' := by
  rw [visits, h]

theorem known_of_some (h : p.next? k = some (b, k')) :
    p.known (budget + 1) k = p.known budget k' := by
  rw [known, known, visits_of_some h, List.getLast?_cons]
  cases (p.visits budget k').getLast? with
  | none => rfl
  | some x => rfl

theorem changes_of_some (h : p.next? k = some (b, k')) :
    p.changes (budget + 1) k = (k, b, k') :: p.changes budget k' := by
  rw [changes, changes, visits_of_some h]
  rfl

theorem visit_worklist (k : Knowledge) (rest : IdSet) (b : BlockId) :
    (p.visit { k with worklist := rest } b).memory = (p.visit k b).memory := by
  rw [visit, visit]
  cases p.function.block? b with
  | none => rfl
  | some block => rfl

theorem Visits.memory (h : p.Visits k b k') : k'.memory = (p.visit k b).memory := by
  cases h with
  | visit _ _ _ => exact visit_worklist k _ b

theorem memory_visit (hblock : p.function.block? b = some block) :
    (p.visit k b).memory = (p.execute k b block).memory := by
  rw [visit, hblock]
  rfl

theorem mem_worklist_visit {i : Nat} (hi : i ∈ k.worklist) : i ∈ (p.visit k b).worklist := by
  rw [visit]
  split
  · exact IdSet.mem_union.mpr (.inl hi)
  · exact hi

/-- What every visit keeps holds between the beginning and each visit, and between each visit and
the end. -/
theorem known_of_visits {I : Knowledge → Prop} {R : Knowledge → Knowledge → Prop}
    (hrefl : ∀ k, I k → R k k) (htrans : ∀ k k' k'', R k k' → R k' k'' → R k k'')
    (hvisit : ∀ k b k', I k → p.Visits k b k' → I k' ∧ R k k') (budget : Nat) (hk : I k) :
    R k (p.known budget k) ∧ ∀ e ∈ p.changes budget k,
      p.Visits e.1 e.2.1 e.2.2 ∧ R k e.1 ∧ R e.2.2 (p.known budget k) := by
  induction budget generalizing k with
  | zero => exact ⟨hrefl k hk, fun e he => absurd he List.not_mem_nil⟩
  | succ budget ih =>
      cases hnext : p.next? k with
      | none =>
          rw [known, changes, visits_of_none hnext]
          exact ⟨hrefl k hk, fun e he => absurd he List.not_mem_nil⟩
      | some y =>
          obtain ⟨b, k'⟩ := y
          have hfirst := visits_of_next? hnext
          obtain ⟨hk', hstep⟩ := hvisit k b k' hk hfirst
          obtain ⟨hend, hchanges⟩ := ih hk'
          rw [known_of_some hnext, changes_of_some hnext]
          refine ⟨htrans _ _ _ hstep hend, fun e he => ?_⟩
          rcases List.mem_cons.mp he with rfl | he
          · exact ⟨hfirst, hrefl k hk, hend⟩
          · obtain ⟨hlater, hbefore, hafter⟩ := hchanges e he
            exact ⟨hlater, htrans _ _ _ hstep hbefore, hafter⟩

/-- Each visit comes later than the beginning, and the end comes later than each visit. -/
theorem known_later (budget : Nat) (hk : Readable p D k.memory) :
    Later p D k.memory (p.known budget k).memory ∧
      ∀ e ∈ p.changes budget k, Later p D k.memory e.1.memory ∧
        Later p D (p.visit e.1 e.2.1).memory (p.known budget k).memory := by
  obtain ⟨hend, hchanges⟩ := known_of_visits (p := p)
    (I := fun k => Readable p D k.memory) (R := fun k k' => Later p D k.memory k'.memory)
    (fun _ hk => (Renamed.refl hk).later) (fun _ _ _ => .trans) (fun _ b _ hk hvisit => by
      have hlater := visit_later hk b
      rw [← hvisit.memory] at hlater
      exact ⟨hlater.readable, hlater⟩) budget hk
  refine ⟨hend, fun e he => ?_⟩
  obtain ⟨hvisit, hbefore, hafter⟩ := hchanges e he
  exact ⟨hbefore, hvisit.memory ▸ hafter⟩

/-- Where the worklist has run out, every block that was on it has been visited. -/
theorem visited_of_exhausted (budget : Nat)
    (hdone : (p.known budget k).worklist.isEmpty = true) {i : Nat} (hi : i ∈ k.worklist)
    (hb : p.order[i]? = some b) : ∃ e ∈ p.changes budget k, e.2.1 = b := by
  have hmem : ¬ k.worklist.isEmpty = true := fun h =>
    absurd (IdSet.mem_def.mp hi) (List.isEmpty_iff.mp h ▸ List.not_mem_nil)
  induction budget generalizing k with
  | zero => exact absurd hdone hmem
  | succ budget ih =>
      cases hnext : p.next? k with
      | none =>
          rw [known, visits_of_none hnext] at hdone
          exact absurd hdone hmem
      | some y =>
          obtain ⟨b', k'⟩ := y
          rw [known_of_some hnext] at hdone
          rw [changes_of_some hnext]
          cases visits_of_next? hnext with
          | @visit j _ rest _ hrest hb' =>
              by_cases hj : i = j
              · subst hj
                exact ⟨_, List.mem_cons_self, Option.some.inj (hb'.symm.trans hb)⟩
              · have hi' := mem_worklist_visit (p := p) (k := { k with worklist := rest })
                  (b := b') ((hrest i).mpr ⟨hi, hj⟩)
                obtain ⟨e, he, heq⟩ := ih hdone hi' fun h =>
                  absurd (IdSet.mem_def.mp hi') (List.isEmpty_iff.mp h ▸ List.not_mem_nil)
                exact ⟨e, List.mem_cons_of_mem _ he, heq⟩

end Problem

namespace Run

/-- What was known before each visit of a run, with the block that was visited. -/
def visited (r : Run) : List (Knowledge × BlockId) :=
  ((r.start :: r.visits.map Prod.snd).zip r.visits).map fun e => (e.1, e.2.1)

/-- The instruction is executed in a visit of the block, from the state and on the memory. -/
def Executes (r : Run) (b : BlockId) (i : Instruction) (around : Surroundings) (s : State)
    (m : Memory) : Prop :=
  ∃ k block before after, (k, b) ∈ r.visited ∧ r.problem.function.block? b = some block ∧
    block.instructions = before ++ i :: after ∧ around = r.problem.surroundings k b ∧
    (r.problem.transferAll around (r.problem.entryState k b) before).run k.memory = (s, m)

variable {f : Function} {config : Config} {table : SummaryTable} {peers : List String}
  {b : BlockId} {i : Instruction} {around : Surroundings} {s : State} {m : Memory}

/-- What is known at the start and after a visit can be reached. -/
theorem reached_of_mem {k : Knowledge} (h : k ∈ (ofFunction f config table peers).start ::
      (ofFunction f config table peers).visits.map Prod.snd) :
    (ofFunction f config table peers).problem.Reached (PointsTo.analyze f config).2 k := by
  rcases List.mem_cons.mp h with hstart | hvisit
  · rw [hstart]
    exact .start
  · obtain ⟨y, hy, hyk⟩ := List.mem_map.mp hvisit
    rw [← hyk]
    exact Problem.reached_of_mem_visits .start hy

theorem reached_of_mem_visited {k : Knowledge}
    (h : (k, b) ∈ (ofFunction f config table peers).visited) :
    (ofFunction f config table peers).problem.Reached (PointsTo.analyze f config).2 k := by
  obtain ⟨e, he, hek⟩ := List.mem_map.mp h
  obtain ⟨rfl, -⟩ := Prod.mk.inj hek
  exact reached_of_mem (List.of_mem_zip he).1

theorem readable_start (f : Function) (config : Config) (table : SummaryTable)
    (peers : List String) : Readable (ofFunction f config table peers).problem config.maxPathDepth
      (ofFunction f config table peers).start.memory :=
  ⟨(PointsTo.analyze_advances f config).ready, Problem.seedCells_keys _ _⟩

/-- An instruction is executed on a memory that comes later than the start, and the end of the
run comes later than what it leaves. -/
theorem Executes.between (h : (ofFunction f config table peers).Executes b i around s m) :
    let r := ofFunction f config table peers
    Later r.problem config.maxPathDepth r.start.memory m ∧
      Later r.problem config.maxPathDepth ((r.problem.transfer around s i).run m).2
        r.final.memory := by
  intro r
  obtain ⟨k, block, before, after, hk, hblock, his, rfl, hrun⟩ := h
  obtain ⟨e, he, hek⟩ := List.mem_map.mp hk
  obtain ⟨rfl, rfl⟩ := Prod.mk.inj hek
  obtain ⟨hstart, hend⟩ := (Problem.known_later config.maxBlockVisits
    (readable_start f config table peers)).2 e he
  have hbefore := transferAll_proceeds (D := config.maxPathDepth)
    (r.problem.surroundings e.1 e.2.1) (r.problem.entryState e.1 e.2.1) before _ hstart.readable
  rw [hrun] at hbefore
  have hafter := execute_later_of_split hbefore.readable his hrun
  rw [← Problem.memory_visit hblock] at hafter
  exact ⟨hstart.trans hbefore, hafter.trans hend⟩

/-- An instruction is executed on a memory that comes later than the start. What it writes
through a parameter is in the summary of the run. -/
theorem Executes.later (h : (ofFunction f config table peers).Executes b i around s m) :
    let r := ofFunction f config table peers
    Later r.problem config.maxPathDepth r.start.memory m ∧
      ∀ n, ((r.problem.transfer around s i).run m).2.out n ≤ r.summary.out n := by
  intro r
  obtain ⟨hbefore, hafter⟩ := h.between
  exact ⟨hbefore, fun n => out_summary r n ▸ hafter.out n⟩

/-- Every instruction of a block in the order of a run that converged is executed. -/
theorem executes_of_exhausted {block : Block}
    (hdone : (ofFunction f config table peers).final.worklist.isEmpty = true)
    (hb : b ∈ (ofFunction f config table peers).problem.order) (hblock : f.block? b = some block)
    (hi : i ∈ block.instructions) :
    ∃ around s m, (ofFunction f config table peers).Executes b i around s m := by
  obtain ⟨n, hn⟩ := Problem.exists_position hb
  have hget := Problem.position?_some hn
  obtain ⟨e, he, heq⟩ := Problem.visited_of_exhausted config.maxBlockVisits hdone
    (k := (ofFunction f config table peers).start)
    (IdSet.mem_ofList.mpr (List.mem_range.mpr (List.getElem?_eq_some_iff.mp hget).1)) hget
  obtain ⟨before, after, his⟩ := List.append_of_mem hi
  exact ⟨_, _, _, e.1, block, before, after, List.mem_map.mpr ⟨e, he, heq ▸ rfl⟩, hblock, his, rfl,
    rfl⟩

end Run

end TaintAnalysis
