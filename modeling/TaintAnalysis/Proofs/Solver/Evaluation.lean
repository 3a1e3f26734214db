import TaintAnalysis.Proofs.Maps
import TaintAnalysis.Proofs.Solver.Equations

/-!
# Expressions have the taint that the equations give them

The solver works on a memory: a map from numbers to values, and an arena that
says what the numbers stand for. The equations speak of locations. `Memory.view`
reads a memory by location, and the aim is that a computation on a memory does
what the equations say about its view.

Evaluating an expression may name locations and does nothing else to the memory.
`Evaluates` is the judgment for such a computation: on the given memory, and
also after more locations were named, it has a certain result and changes no
taint. In this form the judgments of the parts of a computation can be put
together without a word about the arenas in between.

Which variables live in memory must not change on the way, because an
instruction does different things to the two sorts of variables. That is what
`Kept` is about: the storage that is named by addresses is that of arrays, or of
variables whose storage was named from the beginning.
-/

namespace TaintAnalysis

open Arena

namespace Memory

/-- The taint of memory by location. -/
def view (m : Memory) : Cells :=
  m.cells.entries.map fun e => (m.arena.location e.1, e.2)

/-- The taint written through a parameter. -/
def out (m : Memory) (i : Nat) : Value :=
  (m.paramWrites.get? i).getD Value.bottom

theorem read_eq {m : Memory} {ids : IdSet} {ls : List Location}
    (h : m.arena.Denotes ids.elems ls) : m.read ids = Cells.read m.view ls := by
  have hany (id : LocId) : (ids.elems.any (m.arena.overlaps id)) =
      ls.any fun l => (m.arena.location id).overlaps l := by
    rw [Bool.eq_iff_iff, List.any_eq_true, List.any_eq_true]
    constructor
    · intro hex
      obtain ⟨i, hi, ho⟩ := hex
      exact ⟨_, h.location_mem hi, ho⟩
    · intro hex
      obtain ⟨l, hl, ho⟩ := hex
      obtain ⟨i, hi, rfl⟩ := (h.2 l).mp hl
      exact ⟨i, hi, ho⟩
  rw [read, Cells.read, Cells.gather, view, List.filter_map, List.map_map]
  refine congrArg Value.joins (congrArg (List.map Prod.snd) ?_)
  exact List.filter_congr fun e _ => hany e.1

end Memory

section

variable (p : Problem) (a₀ : Arena)

/-- The storage of the variable may be named without any consequences. -/
def Kept (v : VarId) : Prop :=
  p.pointsTo.isArrayVar v = true ∨ a₀.Has ⟨.variable v, []⟩

/-- The storage that resolving a place names was named from the beginning, or is
that of an array. -/
def KeptPlace (place : Place) : Prop :=
  ∀ v, p.pointsTo.function.storage? place = some v → Kept p a₀ v

/-- The memory can occur in a run that starts with the arena. -/
structure Fits (m : Memory) : Prop where
  grows : GrowsTo (p.pointsTo.layout a₀.maxDepth) (Kept p a₀) a₀ m.arena
  keys : ∀ e ∈ m.cells.entries, e.1 < m.arena.size
  /-- Only parameters that taint was written through are listed. -/
  tainted : ∀ e ∈ m.paramWrites.entries, e.2 ≠ Value.bottom

/-- From one memory to the other only locations were named. -/
structure Quiet (m m' : Memory) : Prop where
  fits : Fits p a₀ m'
  extend : m.arena.Extends m'.arena
  cells : m'.cells = m.cells
  paramWrites : m'.paramWrites = m.paramWrites

/-- The computation has a certain result and changes no taint, now and after more
locations were named. -/
def Evaluates {α : Type} (m : Memory) (c : Effect α) (x : α) : Prop :=
  ∀ m', Quiet p a₀ m m' → (c.run m').1 = x ∧ Quiet p a₀ m' (c.run m').2

end

variable {p : Problem} {a₀ : Arena} {m m' m'' : Memory}

/-! ## Memories that fit -/

theorem kept_array (w : VarId) (h : p.pointsTo.isArrayVar w = true) : Kept p a₀ w :=
  .inl h

namespace Fits

theorem ready (hp : p.pointsTo.Ready a₀.maxDepth a₀) (h : Fits p a₀ m) :
    p.pointsTo.Ready a₀.maxDepth m.arena :=
  hp.grow h.grows

theorem facts_eq (hp : p.pointsTo.Ready a₀.maxDepth a₀) (h : Fits p a₀ m) :
    p.pointsTo.pathFacts a₀.maxDepth m.arena = (Storage.ofProblem p a₀).facts :=
  PointsTo.pathFacts_eq hp.inRange h.grows.extend

/-- Which variables live in memory is settled from the beginning. -/
theorem livesInMemory_eq (h : Fits p a₀ m) (v : VarId) :
    p.pointsTo.livesInMemory m.arena v = (Storage.ofProblem p a₀).resident v := by
  show p.pointsTo.livesInMemory m.arena v = p.pointsTo.livesInMemory a₀ v
  rw [PointsTo.livesInMemory, PointsTo.livesInMemory, Bool.eq_iff_iff, Bool.and_eq_true,
    Bool.and_eq_true, isMemoryResident_iff, isMemoryResident_iff]
  constructor
  · intro hboth
    obtain ⟨hnamed, hscalar⟩ := hboth
    rcases h.grows.storage v hnamed with hold | harray | hold
    · exact ⟨hold, hscalar⟩
    · -- an array is an aggregate, whose value is not kept in memory
      obtain ⟨ty, hty, harr⟩ := (Option.any_eq_true _ _).mp harray
      obtain ⟨ty', hty', hno⟩ := (Option.any_eq_true _ _).mp hscalar
      obtain rfl := Option.some.inj (hty.symm.trans hty')
      cases ty with
      | array element length => exact absurd hno Bool.false_ne_true
      | _ => exact absurd harr Bool.false_ne_true
    · exact ⟨hold, hscalar⟩
  · intro hboth
    obtain ⟨hnamed, hscalar⟩ := hboth
    exact ⟨h.grows.extend.has hnamed, hscalar⟩

/-- Naming more locations leaves the memory fitting. -/
theorem grow {a : Arena} (h : Fits p a₀ m)
    (ha : GrowsTo (p.pointsTo.layout a₀.maxDepth) (Kept p a₀) m.arena a) :
    Quiet p a₀ m { m with arena := a } where
  fits := ⟨h.grows.trans ha, fun e he => ha.extend.lt_size (h.keys e he), h.tainted⟩
  extend := ha.extend
  cells := rfl
  paramWrites := rfl

end Fits

namespace Quiet

theorem refl (h : Fits p a₀ m) : Quiet p a₀ m m :=
  ⟨h, .refl _, rfl, rfl⟩

theorem trans (h : Quiet p a₀ m m') (h' : Quiet p a₀ m' m'') : Quiet p a₀ m m'' :=
  ⟨h'.fits, h.extend.trans h'.extend, h'.cells.trans h.cells, h'.paramWrites.trans h.paramWrites⟩

theorem view_eq (hm : Fits p a₀ m) (h : Quiet p a₀ m m') : m'.view = m.view := by
  rw [Memory.view, Memory.view, h.cells]
  exact List.map_congr_left fun e he => by rw [h.extend.location (hm.keys e he)]

end Quiet

/-! ## Evaluation -/

namespace Evaluates

variable {α β : Type} {c : Effect α} {f : α → Effect β} {x : α} {y : β}

theorem pure (m : Memory) (x : α) : Evaluates p a₀ m (Pure.pure x) x :=
  fun _ h => ⟨rfl, .refl h.fits⟩

theorem bind (hc : Evaluates p a₀ m c x) (hf : Evaluates p a₀ m (f x) y) :
    Evaluates p a₀ m (c >>= f) y := by
  intro m' hm'
  obtain ⟨hx, hquiet⟩ := hc m' hm'
  obtain ⟨hy, hquiet'⟩ := hf _ (hm'.trans hquiet)
  show ((f (c.run m').1).run (c.run m').2).1 = y ∧
    Quiet p a₀ m' ((f (c.run m').1).run (c.run m').2).2
  rw [hx]
  exact ⟨hy, hquiet.trans hquiet'⟩

end Evaluates

theorem read_evaluates (hm : Fits p a₀ m) {s : IdSet} {ls : List Location}
    (h : m.arena.Denotes s.elems ls) :
    Evaluates p a₀ m (Effect.read s) (Cells.read m.view ls) := by
  intro m' hm'
  refine ⟨?_, .refl hm'.fits⟩
  rw [← hm'.view_eq hm]
  exact Memory.read_eq (h.mono hm'.extend)

section

variable (hp : p.pointsTo.Ready a₀.maxDepth a₀)

include hp

/-- A place is resolved as its path says. -/
theorem resolve_quiet (hm : Fits p a₀ m) {place : Place} (hplace : KeptPlace p a₀ place) :
    ∃ m₁ r, (Effect.naming (p.pointsTo.resolve place)).run m = (r, m₁) ∧ Quiet p a₀ m m₁ ∧
      m₁.arena.Denotes r.targets.elems ((Storage.ofProblem p a₀).facts.resolve place).targets ∧
      m₁.arena.Denotes r.pointerCells.elems
        ((Storage.ofProblem p a₀).facts.resolve place).pointerCells ∧
      r.derefsBase = ((Storage.ofProblem p a₀).facts.resolve place).derefsBase := by
  obtain ⟨hgrow, htargets, hcells, hbase, -⟩ := PointsTo.resolve_resolves (R := Kept p a₀)
    (hm.ready hp) kept_array hplace
  rw [hm.facts_eq hp] at htargets hcells hbase
  exact ⟨_, _, rfl, hm.grow hgrow, htargets, hcells, hbase⟩

/-- An expression refers to what its path says. -/
theorem targets_quiet (hm : Fits p a₀ m) {e : Expr}
    (he : ∀ place ∈ e.addressed, KeptPlace p a₀ place) :
    ∃ m₁ ids, (Effect.naming (p.pointsTo.exprTargets e)).run m = (ids, m₁) ∧ Quiet p a₀ m m₁ ∧
      m₁.arena.Denotes ids.elems ((Storage.ofProblem p a₀).facts.exprTargets e) := by
  obtain ⟨hgrow, hden⟩ := PointsTo.exprTargets_findsAll (R := Kept p a₀) kept_array e
    (hm.ready hp) he
  rw [hm.facts_eq hp] at hden
  exact ⟨_, _, rfl, hm.grow hgrow, hden⟩

/-- The storage of a variable that lives in memory has its number already. -/
theorem varLocation_quiet (hm : Fits p a₀ m) {v : VarId}
    (hv : (Storage.ofProblem p a₀).resident v = true) :
    ∃ m₁ id, (Effect.naming (p.pointsTo.varLocation v)).run m = (id, m₁) ∧
      Quiet p a₀ m m₁ ∧ m₁.arena.Points id ⟨.variable v, []⟩ := by
  have hnamed : m.arena.Has ⟨.variable v, []⟩ := by
    have hlives := (hm.livesInMemory_eq v).trans hv
    rw [PointsTo.livesInMemory, Bool.and_eq_true] at hlives
    exact isMemoryResident_iff.mp hlives.1
  obtain ⟨hgrow, hpoints⟩ := PointsTo.varLocation_finds (R := Kept p a₀) (hm.ready hp)
    (v := v) fun hno => absurd hnamed hno
  exact ⟨_, _, rfl, hm.grow hgrow, hpoints⟩

theorem evalVar_evaluates (hm : Fits p a₀ m) (s : State) (v : VarId) :
    Evaluates p a₀ m (p.evalVar s v) ((Storage.ofProblem p a₀).valueOfVar m.view s v) := by
  intro m' hm'
  simp only [Problem.evalVar, StateT.run_bind, StateT.run_get, pure_bind]
  rw [hm'.fits.livesInMemory_eq v, Storage.valueOfVar]
  split
  · next hv =>
    obtain ⟨m₁, id, hrun, hquiet, hpoints⟩ := varLocation_quiet hp hm'.fits hv
    have hread := read_evaluates hquiet.fits (s := .singleton id) (.singleton hpoints) m₁
      (.refl hquiet.fits)
    rw [StateT.run_bind, hrun]
    rw [hquiet.view_eq hm'.fits, hm'.view_eq hm] at hread
    refine ⟨?_, hquiet⟩
    show (s.get v).join ((Effect.read (.singleton id)).run m₁).1 = _
    rw [hread.1]
  · exact ⟨rfl, .refl hm'.fits⟩

theorem addressTaint_evaluates (hm : Fits p a₀ m) {s : State} (base : VarId) {r : Resolution}
    {r' : PathResolution} {c : Effect Value} {x : Value}
    (hcells : m.arena.Denotes r.pointerCells.elems r'.pointerCells)
    (hbase : r.derefsBase = r'.derefsBase) (hc : Evaluates p a₀ m c x) :
    Evaluates p a₀ m (p.addressTaint s base r c)
      ((Storage.ofProblem p a₀).address m.view s base r' x) := by
  rw [Problem.addressTaint, Storage.address, ← hbase]
  split
  · exact .bind (evalVar_evaluates hp hm s base)
      (.bind (read_evaluates hm hcells) (.bind hc (.pure m _)))
  · exact .bind (.pure m Value.bottom)
      (.bind (read_evaluates hm hcells) (.bind hc (.pure m _)))

end

mutual

/-- The solver computes the taint of an expression that the equations give it. -/
theorem eval_evaluates (hp : p.pointsTo.Ready a₀.maxDepth a₀) (s : State) :
    ∀ (e : Expr) {m : Memory}, Fits p a₀ m → (∀ place ∈ e.addressed, KeptPlace p a₀ place) →
      Evaluates p a₀ m (p.eval s e) ((Storage.ofProblem p a₀).value m.view s e)
  | .var v, m, hm, _ => by
      rw [Problem.eval, Storage.value]
      exact evalVar_evaluates hp hm s v
  | .const _, m, _, _ => by
      rw [Problem.eval, Storage.value]
      exact .pure m _
  | .unary _ e, m, hm, he => by
      rw [Problem.eval, Storage.value]
      exact eval_evaluates hp s e hm he
  | .binary _ l r, m, hm, he => by
      rw [Problem.eval, Storage.value]
      have hl := eval_evaluates hp s l hm fun place h => he place (List.mem_append_left _ h)
      have hr := eval_evaluates hp s r hm fun place h => he place (List.mem_append_right _ h)
      exact .bind hl (.bind hr (.pure m _))
  | .addrOf place, m, hm, he => by
      rw [Problem.eval, Storage.value]
      intro m' hm'
      obtain ⟨m₁, r, hrun, hm₁, -, hcells, hbase⟩ := resolve_quiet hp hm'.fits
        (he place List.mem_cons_self)
      have hpos := evalPositions_evaluates hp s place hm₁.fits fun place' h =>
        he place' (List.mem_cons_of_mem _ h)
      have haddr := addressTaint_evaluates hp hm₁.fits (s := s) place.base hcells hbase hpos
      rw [hm₁.view_eq hm'.fits, hm'.view_eq hm] at haddr
      rw [StateT.run_bind, hrun]
      obtain ⟨hvalue, hquiet⟩ := haddr.bind (f := fun v => pure v.toIndirect) (.pure m₁ _) m₁
        (.refl hm₁.fits)
      exact ⟨hvalue, hm₁.trans hquiet⟩

theorem evalPositions_evaluates (hp : p.pointsTo.Ready a₀.maxDepth a₀) (s : State) :
    ∀ (place : Place) {m : Memory}, Fits p a₀ m →
      (∀ place' ∈ place.addressedInside, KeptPlace p a₀ place') →
      Evaluates p a₀ m (p.evalPositions s place)
        ((Storage.ofProblem p a₀).positions m.view s place)
  | .var _, m, _, _ => by
      rw [Problem.evalPositions, Storage.positions]
      exact .pure m _
  | .deref inner, m, hm, h => by
      rw [Problem.evalPositions, Storage.positions]
      exact evalPositions_evaluates hp s inner hm h
  | .field inner _, m, hm, h => by
      rw [Problem.evalPositions, Storage.positions]
      exact evalPositions_evaluates hp s inner hm h
  | .index inner e, m, hm, h => by
      rw [Problem.evalPositions, Storage.positions]
      have hinner := evalPositions_evaluates hp s inner hm fun place' hp' =>
        h place' (List.mem_append_left _ hp')
      have he := eval_evaluates hp s e hm fun place' hp' => h place' (List.mem_append_right _ hp')
      exact .bind hinner (.bind he (.pure m _))

end

end TaintAnalysis
