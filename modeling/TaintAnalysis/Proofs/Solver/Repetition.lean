import TaintAnalysis.Proofs.Solver.Writes

/-!
# A later execution does at least what an earlier one did

A block is executed again with more taint in its surroundings and in memory, and with more
locations named. By then everything that the earlier execution named is named. So the later one
finds the same cells under the same numbers, and it reads at least what the earlier one read.

`Repeats` compares a computation on one memory with another one on any memory that comes after
what the first one leaves. Comparing with the memory afterwards, not with the one
before, is what makes naming harmless: whichever locations the first computation names, the second
one only looks them up. A variable may come to live in memory in between, which adds to its taint.

The comparison is kept by sequencing. So it is proved of the smallest steps, then of what an
instruction reads and of what it writes, and of a whole block by induction on the instructions
(`execute_mono`).
-/

namespace TaintAnalysis

open Arena

/-- The second memory has the cells of the first one under the same numbers, and at least
their taint. -/
structure Memory.Precedes (m m' : Memory) : Prop where
  extend : m.arena.Extends m'.arena
  cell : ∀ id, m.cell id ≤ m'.cell id

section

variable (p : Problem) (D : Nat)

/-- The computation takes nothing away from a memory that can be read. -/
def Sustains {α : Type} (c : Effect α) : Prop :=
  ∀ m, Readable p D m → Readable p D (c.run m).2 ∧ m.Precedes (c.run m).2

/-- On every memory after what the first computation leaves, the second one returns something
that is related to what the first one returns. -/
def Repeats {α β : Type} (R : α → β → Prop) (m : Memory) (c : Effect α) (c' : Effect β) : Prop :=
  ∀ m', Readable p D m' → (c.run m).2.Precedes m' → R (c.run m).1 (c'.run m').1

/-- Looking for the cells again, on an arena where everything is named that was named the first
time, finds no fewer of them. -/
structure Steady (n : Naming IdSet) : Prop where
  grows : ∀ a, p.pointsTo.Ready D a →
    GrowsTo (p.pointsTo.layout D) (fun _ => True) a (n.run a).2
  again : ∀ a a', p.pointsTo.Ready D a → p.pointsTo.Ready D a' → (n.run a).2.Extends a' →
    ∀ id ∈ (n.run a).1, id ∈ (n.run a').1

end

variable {p : Problem} {D : Nat} {m m' m'' : Memory} {α β γ δ : Type}

namespace Memory.Precedes

theorem refl (m : Memory) : m.Precedes m :=
  ⟨.refl _, fun _ => Value.le_refl _⟩

theorem trans (h : m.Precedes m') (h' : m'.Precedes m'') : m.Precedes m'' :=
  ⟨h.extend.trans h'.extend, fun id => Value.le_trans (h.cell id) (h'.cell id)⟩

end Memory.Precedes

theorem Renamed.precedes (h : Renamed p D m m') : m.Precedes m' :=
  ⟨h.extend, fun id => by rw [Memory.cell, Memory.cell, h.cells]; exact Value.le_refl _⟩

namespace Sustains

variable {c : Effect α} {f : α → Effect β}

theorem of_names (h : Names p D c) : Sustains p D c :=
  fun m hm => ⟨(h m hm).readable, (h m hm).precedes⟩

theorem bind (hc : Sustains p D c) (hf : ∀ x, Sustains p D (f x)) : Sustains p D (c >>= f) := by
  intro m hm
  obtain ⟨hmid, hprec⟩ := hc m hm
  obtain ⟨hend, hprec'⟩ := hf (c.run m).1 (c.run m).2 hmid
  exact ⟨hend, hprec.trans hprec'⟩

end Sustains

namespace Repeats

variable {R : α → β → Prop} {R' : γ → δ → Prop} {c : Effect α} {c' : Effect β}
  {f : α → Effect γ} {g : β → Effect δ}

theorem pure {x : α} {y : β} (h : R x y) : Repeats p D R m (Pure.pure x) (Pure.pure y) :=
  fun _ _ _ => h

/-- The rest of the first computation is followed on the memory that its beginning leaves. -/
theorem bind (hm : Readable p D m) (hc : Sustains p D c) (hc' : Sustains p D c')
    (hf : ∀ x, Sustains p D (f x)) (h : Repeats p D R m c c')
    (hg : ∀ y, R (c.run m).1 y → Repeats p D R' (c.run m).2 (f (c.run m).1) (g y)) :
    Repeats p D R' m (c >>= f) (c' >>= g) := by
  intro m' hm' hprec
  have hmid := (hf (c.run m).1 (c.run m).2 (hc m hm).1).2
  have hfirst := h m' hm' (hmid.trans hprec)
  obtain ⟨hafter, hlater⟩ := hc' m' hm'
  exact hg _ hfirst _ hafter (hprec.trans hlater)

/-- The same where nothing is written. -/
theorem eval_bind (hm : Readable p D m) (hc : Names p D c) (hc' : Names p D c')
    (hf : ∀ x, Names p D (f x)) (h : Repeats p D R m c c')
    (hg : ∀ y, R (c.run m).1 y → Repeats p D R' (c.run m).2 (f (c.run m).1) (g y)) :
    Repeats p D R' m (c >>= f) (c' >>= g) :=
  .bind hm (.of_names hc) (.of_names hc') (fun x => .of_names (hf x)) h hg

end Repeats

/-! ## Finding cells again -/

/-- A location has one number. -/
theorem eq_of_denotes {y : Layout} {a : Arena} (hw : a.WellFormed y) {s t : IdSet}
    {ls : List Location} (hs : a.Denotes s.elems ls) (ht : a.Denotes t.elems ls) : s = t := by
  have hsub {s t : IdSet} (hs : a.Denotes s.elems ls) (ht : a.Denotes t.elems ls) {id : LocId}
      (hid : id ∈ s) : id ∈ t := by
    obtain ⟨id', hid', hl⟩ := (ht.2 _).mp (hs.location_mem hid)
    exact hw.eq_of_location_eq ⟨ht.1 id' hid', hl⟩ (hs.points hid) ▸ hid'
  exact IdSet.ext fun id => ⟨hsub hs ht, hsub ht hs⟩

section

variable {a a' : Arena} (ha : p.pointsTo.Ready D a) (ha' : p.pointsTo.Ready D a')

include ha ha'

theorem varLocation_again {v : VarId} (h : ((p.pointsTo.varLocation v).run a).2.Extends a') :
    ((p.pointsTo.varLocation v).run a).1 = ((p.pointsTo.varLocation v).run a').1 := by
  obtain ⟨-, hpoints⟩ := PointsTo.varLocation_found ha v
  obtain ⟨hgrow, hpoints'⟩ := PointsTo.varLocation_found ha' v
  exact hgrow.wellFormed.eq_of_location_eq (hpoints.mono (h.trans hgrow.extend)) hpoints'

theorem resolve_again {place : Place} (h : ((p.pointsTo.resolve place).run a).2.Extends a') :
    ((p.pointsTo.resolve place).run a).1 = ((p.pointsTo.resolve place).run a').1 := by
  obtain ⟨hgrow, htargets, hcells, hbase, -⟩ := PointsTo.resolve_found ha place
  obtain ⟨hgrow', htargets', hcells', hbase', -⟩ := PointsTo.resolve_found ha' place
  have hafter := h.trans hgrow'.extend
  rw [PointsTo.pathFacts_eq (D := D) ha.inRange (hgrow.extend.trans h)] at htargets' hcells' hbase'
  have hsame {r r' : Resolution} (ht : r.targets = r'.targets)
      (hc : r.pointerCells = r'.pointerCells) (hb : r.derefsBase = r'.derefsBase) : r = r' := by
    cases r
    cases r'
    cases ht
    cases hc
    cases hb
    rfl
  exact hsame (eq_of_denotes hgrow'.wellFormed (htargets.mono hafter) htargets')
    (eq_of_denotes hgrow'.wellFormed (hcells.mono hafter) hcells') (hbase.trans hbase'.symm)

theorem exprTargets_again {e : Expr} (h : ((p.pointsTo.exprTargets e).run a).2.Extends a') :
    ((p.pointsTo.exprTargets e).run a).1 = ((p.pointsTo.exprTargets e).run a').1 := by
  obtain ⟨hgrow, hden⟩ := PointsTo.exprTargets_found ha e
  obtain ⟨hgrow', hden'⟩ := PointsTo.exprTargets_found ha' e
  rw [PointsTo.pathFacts_eq (D := D) ha.inRange (hgrow.extend.trans h)] at hden'
  exact eq_of_denotes hgrow'.wellFormed (hden.mono (h.trans hgrow'.extend)) hden'

end

theorem livesInMemory_of_extends {a a' : Arena} (h : a.Extends a') {v : VarId}
    (hv : p.pointsTo.livesInMemory a v = true) : p.pointsTo.livesInMemory a' v = true := by
  rw [PointsTo.livesInMemory, Bool.and_eq_true, isMemoryResident_iff] at hv ⊢
  exact ⟨h.has hv.1, hv.2⟩

theorem exprTargets_steady (e : Expr) : Steady p D (p.pointsTo.exprTargets e) where
  grows := fun _ ha => (PointsTo.exprTargets_found ha e).1
  again := fun _ _ ha ha' h _ hid => exprTargets_again ha ha' h ▸ hid

theorem pure_steady (ids : IdSet) : Steady p D (pure ids) where
  grows := fun _ ha => .refl ha.wellFormed
  again := fun _ _ _ _ _ _ hid => hid

/-- Once a variable lives in memory, it stays there. -/
theorem storageOf_steady (v : VarId) : Steady p D (p.storageOf v) where
  grows := fun _ ha => ((Lookup.storage v : Lookup p .all _ _).finds ha).1
  again := fun a a' ha ha' h id hid => by
    rw [Problem.storageOf_run] at h hid ⊢
    split at h
    · next hv =>
      rw [if_pos hv] at hid
      have hgrow := (PointsTo.varLocation_found ha v).1
      rw [if_pos (livesInMemory_of_extends (hgrow.extend.trans h) hv),
        ← varLocation_again ha ha' h]
      exact hid
    · next hv =>
      rw [if_neg hv] at hid
      exact absurd hid (IdSet.not_mem_empty id)

/-! ## Evaluating again -/

section

variable {s t : State} {R : Value → Value → Prop}

/-- More taint in more cells is read. -/
theorem read_le_of_precedes (hm : Readable p D m) {ids : IdSet}
    (hids : ∀ id ∈ ids, id < m.arena.size) (h : m.Precedes m') : m.read ids ≤ m'.read ids := by
  rw [Memory.read, Value.joins_le_iff]
  intro v hv
  obtain ⟨⟨id, v⟩, he, rfl⟩ := List.mem_map.mp hv
  obtain ⟨he, hover⟩ := List.mem_filter.mp he
  have hcell : v ≤ m'.cell id := by
    have hget : m.cell id = v := by
      rw [Memory.cell, OrderedMap.get?_eq_some_iff.mpr he, Option.getD_some]
    exact hget ▸ h.cell id
  rw [Memory.cell] at hcell
  cases hget : m'.cells.get? id with
  | none =>
      rw [hget] at hcell
      exact Value.le_trans hcell (Value.bottom_le _)
  | some v' =>
      rw [hget, Option.getD_some] at hcell
      refine Value.le_trans hcell (Value.le_joins (List.mem_map.mpr ⟨(id, v'), ?_, rfl⟩))
      refine List.mem_filter.mpr ⟨OrderedMap.get?_eq_some_iff.mp hget, ?_⟩
      obtain ⟨i, hi, hover⟩ := List.any_eq_true.mp hover
      refine List.any_eq_true.mpr ⟨i, hi, ?_⟩
      rw [overlaps, h.extend.location (hm.keys _ he), h.extend.location (hids i hi)]
      exact hover

theorem read_repeats (hm : Readable p D m) {ids : IdSet} (hids : ∀ id ∈ ids, id < m.arena.size) :
    Repeats p D (· ≤ ·) m (Effect.read ids) (Effect.read ids) :=
  fun _ _ hprec => read_le_of_precedes hm hids hprec

theorem resolve_repeats (hm : Readable p D m) (place : Place) :
    Repeats p D (· = ·) m (Effect.naming (p.pointsTo.resolve place))
      (Effect.naming (p.pointsTo.resolve place)) :=
  fun _ hm' hprec => resolve_again hm.ready hm'.ready hprec.extend

theorem exprTargets_repeats (hm : Readable p D m) (e : Expr) :
    Repeats p D (· = ·) m (Effect.naming (p.pointsTo.exprTargets e))
      (Effect.naming (p.pointsTo.exprTargets e)) :=
  fun _ hm' hprec => exprTargets_again hm.ready hm'.ready hprec.extend

theorem evalVar_run (s : State) (v : VarId) (m : Memory) :
    let named := (p.pointsTo.varLocation v).run m.arena
    let m₁ : Memory := { m with arena := named.2 }
    (p.evalVar s v).run m =
      if p.pointsTo.livesInMemory m.arena v = true then
        ((s.get v).join (m₁.read (.singleton named.1)), m₁)
      else (s.get v, m) := by
  simp only [Problem.evalVar, StateT.run_bind, StateT.run_get, pure_bind]
  split <;> rfl

/-- A variable that lives in memory has its storage named already. -/
theorem memory_evalVar (s : State) (v : VarId) (m : Memory) : ((p.evalVar s v).run m).2 = m := by
  rw [evalVar_run]
  split
  · next hv =>
    show { m with arena := ((p.pointsTo.varLocation v).run m.arena).2 } = m
    rw [Problem.arena_varLocation hv]
  · rfl

/-- A variable that lives in memory lives there later, and one that did not may do so by then. -/
theorem evalVar_repeats (hm : Readable p D m) (hst : s ≤ t) (v : VarId) :
    Repeats p D (· ≤ ·) m (p.evalVar s v) (p.evalVar t v) := by
  intro m' hm' hprec
  have hstate : s.get v ≤ t.get v := State.le_iff.mp hst v
  have hnamed := evalVar_names s v m hm
  rw [evalVar_run] at hprec hnamed ⊢
  rw [evalVar_run]
  by_cases hv : p.pointsTo.livesInMemory m.arena v = true
  · rw [if_pos hv] at hprec hnamed ⊢
    rw [if_pos (livesInMemory_of_extends (hnamed.extend.trans hprec.extend) hv)]
    obtain ⟨-, hpoints⟩ := PointsTo.varLocation_found hm.ready v
    have hnamed' := varLocation_names v m' hm'
    have hids : ∀ id ∈ IdSet.singleton ((p.pointsTo.varLocation v).run m.arena).1,
        id < ((p.pointsTo.varLocation v).run m.arena).2.size := fun id hid =>
      IdSet.mem_singleton.mp hid ▸ hpoints.1
    have hread := read_le_of_precedes hnamed.readable hids (hprec.trans hnamed'.precedes)
    rw [varLocation_again hm.ready hm'.ready hprec.extend] at hread ⊢
    exact Value.join_mono hstate hread
  · rw [if_neg hv]
    split
    · exact Value.le_trans hstate (Value.le_join_left _ _)
    · exact hstate

/-- What is read to compute an address, where the place was resolved to the same cells. -/
theorem addressTaint_repeats (hm : Readable p D m) (hst : s ≤ t) (base : VarId) {r : Resolution}
    (hr : ∀ id ∈ r.pointerCells, id < m.arena.size) {c c' : Effect Value} (hc : Names p D c)
    (hc' : Names p D c') (h : ∀ m, Readable p D m → Repeats p D (· ≤ ·) m c c') :
    Repeats p D (· ≤ ·) m (p.addressTaint s base r c) (p.addressTaint t base r c') := by
  have hrest (m : Memory) (hm : Readable p D m) (hr : ∀ id ∈ r.pointerCells, id < m.arena.size)
      (x y : Value) (hxy : x ≤ y) : Repeats p D (· ≤ ·) m
        (do let pointers ← Effect.read r.pointerCells; return (x.join pointers).join (← c))
        (do let pointers ← Effect.read r.pointerCells; return (y.join pointers).join (← c')) := by
    refine .eval_bind hm (.read _) (.read _) (fun _ => .bind hc fun _ => .pure _)
      (read_repeats hm hr) fun _ hpointers => ?_
    exact .eval_bind hm hc hc' (fun _ => .pure _) (h m hm)
      fun _ hpositions => .pure (Value.join_mono (Value.join_mono hxy hpointers) hpositions)
  have hnames (x : Value) : Names p D
      (do let pointers ← Effect.read r.pointerCells; return (x.join pointers).join (← c)) :=
    .bind (.read _) fun _ => .bind hc fun _ => .pure _
  rw [Problem.addressTaint, Problem.addressTaint]
  split
  · have hnamed := evalVar_names s base m hm
    exact .eval_bind hm (evalVar_names s base) (evalVar_names t base) hnames
      (evalVar_repeats hm hst base) fun y hxy =>
        hrest _ hnamed.readable (fun id hid => hnamed.extend.lt_size (hr id hid)) _ _ hxy
  · exact .eval_bind hm (.pure _) (.pure _) hnames
      (.pure (R := fun x y : Value => x ≤ y) (Value.le_refl _)) fun y hxy =>
        hrest m hm hr _ _ hxy

/-- A place is resolved to the same cells, and its address has at least the taint. -/
theorem access_repeats (hm : Readable p D m) (hst : s ≤ t) (place : Place)
    (h : ∀ m, Readable p D m →
      Repeats p D (· ≤ ·) m (p.evalPositions s place) (p.evalPositions t place)) :
    Repeats p D (fun x y => x.1 = y.1 ∧ x.2 ≤ y.2) m (p.access s place) (p.access t place) := by
  have hnamed := resolve_names place m hm
  obtain ⟨-, -, hcells, -, -⟩ := PointsTo.resolve_found hm.ready place
  refine .eval_bind hm (resolve_names place) (resolve_names place)
    (fun r => .bind (addressTaint_names s _ r place) fun _ => .pure _)
    (resolve_repeats hm place) ?_
  rintro _ rfl
  exact .eval_bind hnamed.readable (addressTaint_names s _ _ place)
    (addressTaint_names t _ _ place) (fun _ => .pure _)
    (addressTaint_repeats hnamed.readable hst place.base hcells.1 (evalPositions_names s place)
      (evalPositions_names t place) h) fun _ hle => .pure ⟨rfl, hle⟩

end

mutual

/-- More taint in the variables and in memory gives an expression more taint. -/
theorem eval_repeats {s t : State} (hst : s ≤ t) : ∀ (e : Expr) {m : Memory}, Readable p D m →
    Repeats p D (· ≤ ·) m (p.eval s e) (p.eval t e)
  | .var v, m, hm => by
      rw [Problem.eval, Problem.eval]
      exact evalVar_repeats hm hst v
  | .const _, m, _ => by
      rw [Problem.eval, Problem.eval]
      exact .pure (Value.le_refl _)
  | .unary _ e, m, hm => by
      rw [Problem.eval, Problem.eval]
      exact eval_repeats hst e hm
  | .binary _ l r, m, hm => by
      rw [Problem.eval, Problem.eval]
      have hleft := (eval_names s l m hm).readable
      exact .eval_bind hm (eval_names s l) (eval_names t l)
        (fun _ => .bind (eval_names s r) fun _ => .pure _) (eval_repeats hst l hm)
        fun _ hl => .eval_bind hleft (eval_names s r) (eval_names t r) (fun _ => .pure _)
          (eval_repeats hst r hleft) fun _ hr => .pure (Value.join_mono hl hr)
  | .addrOf place, m, hm => by
      have haccess := access_repeats hm hst place fun m hm => evalPositions_repeats hst place hm
      have hvalue (s : State) : p.eval s (.addrOf place) = (do
          let x ← p.access s place
          return x.2.toIndirect) := by
        simp only [Problem.eval, Problem.access, bind_assoc, pure_bind]
      rw [hvalue, hvalue]
      exact .eval_bind hm (Problem.access_names s place) (Problem.access_names t place)
        (fun _ => .pure _) haccess fun _ hxy => .pure (Value.toIndirect_mono hxy.2)

theorem evalPositions_repeats {s t : State} (hst : s ≤ t) : ∀ (place : Place) {m : Memory},
    Readable p D m → Repeats p D (· ≤ ·) m (p.evalPositions s place) (p.evalPositions t place)
  | .var _, m, _ => by
      rw [Problem.evalPositions, Problem.evalPositions]
      exact .pure (Value.le_refl _)
  | .deref inner, m, hm => by
      rw [Problem.evalPositions, Problem.evalPositions]
      exact evalPositions_repeats hst inner hm
  | .field inner _, m, hm => by
      rw [Problem.evalPositions, Problem.evalPositions]
      exact evalPositions_repeats hst inner hm
  | .index inner e, m, hm => by
      rw [Problem.evalPositions, Problem.evalPositions]
      have hinner := (evalPositions_names s inner m hm).readable
      exact .eval_bind hm (evalPositions_names s inner) (evalPositions_names t inner)
        (fun _ => .bind (eval_names s e) fun _ => .pure _) (evalPositions_repeats hst inner hm)
        fun _ hx => .eval_bind hinner (eval_names s e) (eval_names t e) (fun _ => .pure _)
          (eval_repeats hst e hinner) fun _ hy => .pure (Value.join_mono hx hy)

end

section

variable {s t : State}

theorem evalArgument_repeats (hm : Readable p D m) (hst : s ≤ t) (arg : Expr) :
    Repeats p D (· ≤ ·) m (p.evalArgument s arg) (p.evalArgument t arg) := by
  have hnamed := exprTargets_names arg m hm
  obtain ⟨-, hden⟩ := PointsTo.exprTargets_found hm.ready arg
  refine .eval_bind hm (exprTargets_names arg) (exprTargets_names arg)
    (fun _ => .bind (eval_names s arg) fun _ => .bind (.read _) fun _ => .pure _)
    (exprTargets_repeats hm arg) ?_
  rintro _ rfl
  have hvalue := eval_names s arg _ hnamed.readable
  exact .eval_bind hnamed.readable (eval_names s arg) (eval_names t arg)
    (fun _ => .bind (.read _) fun _ => .pure _) (eval_repeats hst arg hnamed.readable)
    fun _ hx => .eval_bind hvalue.readable (.read _) (.read _) (fun _ => .pure _)
      (read_repeats hvalue.readable fun id hid => hvalue.extend.lt_size (hden.1 id hid))
      fun _ hy => .pure (Value.join_mono hx hy)

theorem arguments_repeat (hm : Readable p D m) (hst : s ≤ t) (args : List Expr) :
    Repeats p D (List.Forall₂ (· ≤ ·)) m (args.mapM (p.evalArgument s))
      (args.mapM (p.evalArgument t)) := by
  induction args generalizing m with
  | nil => exact .pure .nil
  | cons arg rest ih =>
      rw [List.mapM_cons, List.mapM_cons]
      have hnames (s : State) : Names p D (rest.mapM (p.evalArgument s)) :=
        .mapM fun arg _ => evalArgument_names s arg
      have hfirst := (evalArgument_names s arg m hm).readable
      exact .eval_bind hm (evalArgument_names s arg) (evalArgument_names t arg)
        (fun _ => .bind (hnames s) fun _ => .pure _) (evalArgument_repeats hm hst arg)
        fun _ hx => .eval_bind hfirst (hnames s) (hnames t) (fun _ => .pure _) (ih hfirst)
          fun _ hxs => .pure (.cons hx hxs)

theorem terminate_repeats (hm : Readable p D m) {around around' : Surroundings}
    (haround : around.control ≤ around'.control) (hst : s ≤ t) (e : Terminator) :
    Repeats p D (fun x y => x.1 ≤ y.1 ∧ x.2 ≤ y.2) m (p.terminate around s e)
      (p.terminate around' t e) := by
  have hbottom := Value.le_refl Value.bottom
  cases e with
  | jump target => exact .pure ⟨hbottom, hbottom⟩
  | missing => exact .pure ⟨hbottom, hbottom⟩
  | branch condition thenBlock elseBlock =>
      exact .eval_bind hm (eval_names s condition) (eval_names t condition) (fun _ => .pure _)
        (eval_repeats hst condition hm) fun _ hx => .pure ⟨hx, hbottom⟩
  | ret value =>
      cases value with
      | none => exact .pure ⟨hbottom, hbottom⟩
      | some value =>
          exact .eval_bind hm (eval_names s value) (eval_names t value) (fun _ => .pure _)
            (eval_repeats hst value hm) fun _ hx => .pure ⟨hbottom, Value.join_mono hx haround⟩

end

/-! ## Writing again -/

/-- At least the value is written, to no fewer cells. -/
structure PlannedWrite.Below (p : Problem) (D : Nat) (w w' : PlannedWrite) : Prop where
  cells : w.1 = w'.1
  steady : Steady p D w.1
  value : w.2 ≤ w'.2

/-- The state and the plan of an instruction, compared. -/
structure PlanBelow (p : Problem) (D : Nat) (x y : State × List PlannedWrite) : Prop where
  state : x.1 ≤ y.1
  length : x.1.vars.length ≤ y.1.vars.length
  writes : List.Forall₂ (PlannedWrite.Below p D) x.2 y.2

/-- The state and the record of an instruction, compared. -/
structure RecordBelow (x y : State × Ledger) : Prop where
  state : x.1 ≤ y.1
  length : x.1.vars.length ≤ y.1.vars.length
  total : ∀ id, x.2.total id ≤ y.2.total id

section

variable {s t : State} {a b : Surroundings} {x y : Value}

theorem PlanBelow.append {x y : State × List PlannedWrite} {ws ws' : List PlannedWrite}
    (h : PlanBelow p D x y) (hws : List.Forall₂ (PlannedWrite.Below p D) ws ws') :
    PlanBelow p D (x.1, x.2 ++ ws) (y.1, y.2 ++ ws') :=
  ⟨h.state, h.length, List.rel_append h.writes hws⟩

theorem planAssigned_below (hst : s ≤ t) (hlen : s.vars.length ≤ t.vars.length)
    (dst : Option VarId) (hxy : x ≤ y) :
    PlanBelow p D (p.planAssigned s dst x) (p.planAssigned t dst y) := by
  cases dst with
  | none => exact ⟨hst, hlen, .nil⟩
  | some v =>
      refine ⟨State.set_mono v hlen hst hxy, ?_, .cons ⟨rfl, storageOf_steady v, hxy⟩ .nil⟩
      show (s.set v x).vars.length ≤ (t.set v y).vars.length
      rw [State.length_set, State.length_set]
      exact hlen

theorem planTouched_below (hst : s ≤ t) (hlen : s.vars.length ≤ t.vars.length)
    (vars : List VarId) : PlanBelow p D (p.planTouched s vars) (p.planTouched t vars) := by
  induction vars generalizing s t with
  | nil => exact ⟨hst, hlen, .nil⟩
  | cons v rest ih =>
      have hall := Value.le_refl p.allSources
      have hset := planAssigned_below (p := p) (D := D) hst hlen (some v) hall
      obtain ⟨hstate, hlength, hwrites⟩ := ih hset.state hset.length
      exact ⟨hstate, hlength, .cons ⟨rfl, storageOf_steady v, hall⟩
        (.cons ⟨rfl, exprTargets_steady _, hall⟩ hwrites)⟩

theorem planSummary_below (hxy : x ≤ y) (args : List Expr) {actuals actuals' : List Value}
    (hactuals : List.Forall₂ (· ≤ ·) actuals actuals') (outs : List (Nat × Value)) :
    List.Forall₂ (PlannedWrite.Below p D) (p.planSummary x args actuals outs)
      (p.planSummary y args actuals' outs) := by
  induction outs with
  | nil => exact .nil
  | cons out rest ih =>
      rw [Problem.planSummary, Problem.planSummary, List.filterMap_cons, List.filterMap_cons]
      cases args[out.1]? with
      | none => exact ih
      | some arg =>
          exact .cons ⟨rfl, exprTargets_steady arg,
            Value.join_mono (Value.substitute_mono (Value.le_refl _) hactuals) hxy⟩ ih

/-- An instruction plans to write at least what it planned before. -/
theorem plan_repeats (hm : Readable p D m) (hst : s ≤ t) (hlen : s.vars.length ≤ t.vars.length)
    (hab : a.Below b) (i : Instruction) :
    Repeats p D (PlanBelow p D) m (p.plan a s i) (p.plan b t i) := by
  have hassign (dst : VarId) {x y : Value} (hxy : x ≤ y) :=
    planAssigned_below (p := p) (D := D) hst hlen (some dst)
      (Value.join_mono (Value.join_mono hxy hab.control) hab.widening)
  have heval (dst : VarId) (e : Expr) : Repeats p D (PlanBelow p D) m
      (p.plan a s (.assign dst e)) (p.plan b t (.assign dst e)) :=
    .eval_bind hm (eval_names s e) (eval_names t e) (fun _ => .pure _) (eval_repeats hst e hm)
      fun _ hx => .pure (hassign dst hx)
  have haccess (place : Place) := access_repeats hm hst place fun _ hm =>
    evalPositions_repeats hst place hm
  cases i with
  | assign dst e => exact heval dst e
  | cast dst e ty => exact heval dst e
  | load dst place =>
      obtain ⟨hnamed, hden⟩ := access_denotes hm s place
      refine .eval_bind hm (Problem.access_names s place) (Problem.access_names t place)
        (fun _ => .bind (.read _) fun _ => .pure _) (haccess place) ?_
      rintro ⟨r, address⟩ ⟨rfl, haddress⟩
      exact .eval_bind hnamed.readable (.read _) (.read _) (fun _ => .pure _)
        (read_repeats hnamed.readable hden.1) fun _ hx => .pure
          (hassign dst (Value.join_mono hx (Value.toIndirect_mono haddress)))
  | store place src =>
      have hnamed := (access_denotes hm s place).1
      refine .eval_bind hm (Problem.access_names s place) (Problem.access_names t place)
        (fun _ => .bind (eval_names s src) fun _ => .pure _) (haccess place) ?_
      rintro ⟨r, address⟩ ⟨rfl, haddress⟩
      exact .eval_bind hnamed.readable (eval_names s src) (eval_names t src) (fun _ => .pure _)
        (eval_repeats hst src hnamed.readable) fun _ hx => .pure ⟨hst, hlen,
          .cons ⟨rfl, pure_steady _, Value.join_mono (Value.join_mono hx
            (Value.toIndirect_mono haddress)) hab.control⟩ .nil⟩
  | call dst callee args =>
      have hargs (s : State) : Names p D (args.mapM (p.evalArgument s)) :=
        .mapM fun arg _ => evalArgument_names s arg
      refine .eval_bind hm (hargs s) (hargs t) (fun actuals => ?_) (arguments_repeat hm hst args)
        fun actuals hactuals => ?_
      · cases p.summaryOf? callee with
        | some summary => exact .pure _
        | none => exact .pure _
      · cases p.summaryOf? callee with
        | some summary =>
            exact .pure ((planAssigned_below hst hlen dst (Problem.callResult_mono p.pointsTo
              p.memoryReaders hab callee hactuals (.refl summary))).append
                (planSummary_below hab.control args hactuals summary.outs))
        | none =>
            refine .pure ((planAssigned_below hst hlen dst (Value.le_refl _)).append ?_)
            rw [List.forall₂_map_left_iff, List.forall₂_map_right_iff, List.forall₂_same]
            exact fun arg _ => ⟨rfl, exprTargets_steady arg, Value.le_refl _⟩
  | opaqueCode touched reason => exact .pure (planTouched_below hst hlen touched)

end

namespace Problem

theorem carryOut_ready {w : PlannedWrite} (hm : p.pointsTo.Ready D m.arena)
    (hw : Steady p D w.1) :
    p.pointsTo.Ready D ((p.carryOut w).run m).2.arena ∧
      m.arena.Extends ((p.carryOut w).run m).2.arena := by
  have hgrow := hw.grows m.arena hm
  rw [arena_carryOut]
  exact ⟨hm.grow hgrow, hgrow.extend⟩

theorem carryAll_extends {ws ws' : List PlannedWrite}
    (h : List.Forall₂ (PlannedWrite.Below p D) ws ws') (hm : p.pointsTo.Ready D m.arena) :
    m.arena.Extends ((p.carryAll ws).run m).2.arena := by
  induction h generalizing m with
  | nil => exact .refl _
  | cons hw _ ih =>
      obtain ⟨hready, hextend⟩ := carryOut_ready hm hw.steady
      exact hextend.trans (ih hready)

/-- Plans are carried out on memories of which only the arenas matter. -/
theorem total_carryOut_le {w w' : PlannedWrite} (h : PlannedWrite.Below p D w w')
    (hm : p.pointsTo.Ready D m.arena) (hm' : p.pointsTo.Ready D m'.arena)
    (hext : ((p.carryOut w).run m).2.arena.Extends m'.arena) (id : LocId) :
    ((p.carryOut w).run m).1.total id ≤ ((p.carryOut w').run m').1.total id := by
  refine Ledger.total_le_iff.mpr ?_
  rintro e he rfl
  obtain ⟨id, hid, rfl⟩ := List.mem_map.mp he
  rw [arena_carryOut] at hext
  have hagain := h.steady.again m.arena m'.arena hm hm' hext id hid
  rw [h.cells] at hagain
  exact Value.le_trans h.value
    (Ledger.le_total (e := (id, w'.2)) (List.mem_map.mpr ⟨id, hagain, rfl⟩))

theorem total_carryAll_le {ws ws' : List PlannedWrite}
    (h : List.Forall₂ (PlannedWrite.Below p D) ws ws') (hm : p.pointsTo.Ready D m.arena)
    (hm' : p.pointsTo.Ready D m'.arena)
    (hext : ((p.carryAll ws).run m).2.arena.Extends m'.arena) (id : LocId) :
    ((p.carryAll ws).run m).1.total id ≤ ((p.carryAll ws').run m').1.total id := by
  induction h generalizing m m' with
  | nil => exact Value.le_refl _
  | @cons w w' rest rest' hw hrest ih =>
      obtain ⟨hready, -⟩ := carryOut_ready hm hw.steady
      obtain ⟨hready', hextend'⟩ := carryOut_ready (w := w') hm' (hw.cells ▸ hw.steady)
      have hlater := carryAll_extends hrest hready
      have hfirst := total_carryOut_le hw hm hm' (hlater.trans hext) id
      have hsecond := ih hready hready' (hext.trans hextend')
      show Ledger.total (_ ++ _) id ≤ Ledger.total (_ ++ _) id
      rw [Ledger.total_append, Ledger.total_append]
      exact Value.join_mono hfirst hsecond

theorem record_sustains (around : Surroundings) (s : State) (i : Instruction) :
    Sustains p D (p.record around s i) := by
  intro m hm
  refine ⟨record_readable hm around s i, ?_, fun id => ?_⟩
  · rw [memory_record]
    exact (transfer_proceeds around s i m hm).extend
  · rw [record_gains hm around s i id]
    exact Value.le_join_left _ _

theorem memory_recordAll_append (around : Surroundings) (s : State) (is js : List Instruction)
    (m : Memory) :
    let x := (p.recordAll around s is).run m
    ((p.recordAll around s (is ++ js)).run m).2 = ((p.recordAll around x.1.1 js).run x.2).2 := by
  induction is generalizing s m with
  | nil => rfl
  | cons i rest ih => exact ih _ _

theorem recordAll_sustains (around : Surroundings) (s : State) (is : List Instruction) :
    Sustains p D (p.recordAll around s is) := by
  induction is generalizing s with
  | nil => exact .of_names (.pure _)
  | cons i rest ih =>
      exact .bind (record_sustains around s i) fun x => .bind (ih x.1) fun _ => .of_names (.pure _)

section

variable {s t : State} {a b : Surroundings}

/-- What a plan is carried out on precedes what is left in the end. -/
theorem plan_precedes (hm : Readable p D m) (s : State) (i : Instruction) :
    ((p.plan a s i).run m).2.Precedes ((p.record a s i).run m).2 := by
  have hplanned := plan_names a s i m hm
  -- compared with itself, the plan finds the cells again that it writes to
  have hself := plan_repeats hm (State.le_refl s) (Nat.le_refl _)
    (.refl a) i _ hplanned.readable (.refl _)
  refine ⟨carryAll_extends hself.writes hplanned.readable.ready, fun id => ?_⟩
  show ((p.plan a s i).run m).2.cell id ≤
    ((p.carryAll ((p.plan a s i).run m).1.2).run ((p.plan a s i).run m).2).2.cell id
  rw [carryAll_gains _ _ id]
  exact Value.le_join_left _ _

/-- An instruction assigns and writes at least what it did before. -/
theorem record_repeats (hm : Readable p D m) (hst : s ≤ t)
    (hlen : s.vars.length ≤ t.vars.length) (hab : a.Below b) (i : Instruction) :
    Repeats p D RecordBelow m (p.record a s i) (p.record b t i) := by
  intro m' hm' hprec
  have hplanned := plan_names a s i m hm
  have hplanned' := plan_names b t i m' hm'
  have hplan := plan_repeats hm hst hlen hab i m' hm' ((plan_precedes hm s i).trans hprec)
  exact ⟨hplan.state, hplan.length, total_carryAll_le hplan.writes hplanned.readable.ready
    hplanned'.readable.ready (hprec.extend.trans hplanned'.extend)⟩

theorem recordAll_repeats (hm : Readable p D m) (hst : s ≤ t)
    (hlen : s.vars.length ≤ t.vars.length) (hab : a.Below b) (is : List Instruction) :
    Repeats p D RecordBelow m (p.recordAll a s is) (p.recordAll b t is) := by
  induction is generalizing m s t with
  | nil => exact .pure ⟨hst, hlen, fun _ => Value.le_refl _⟩
  | cons i rest ih =>
      obtain ⟨hafter, -⟩ := record_sustains a s i m hm
      refine .bind hm (record_sustains a s i) (record_sustains b t i)
        (fun x => .bind (recordAll_sustains a x.1 rest) fun _ => .of_names (.pure _))
        (record_repeats hm hst hlen hab i) fun y hfirst => ?_
      refine .bind hafter (recordAll_sustains a _ rest) (recordAll_sustains b y.1 rest)
        (fun _ => .of_names (.pure _)) (ih hafter hfirst.state hfirst.length) fun z hrest => ?_
      refine .pure ⟨hrest.state, hrest.length, fun id => ?_⟩
      rw [Ledger.total_append, Ledger.total_append]
      exact Value.join_mono (hfirst.total id) (hrest.total id)

end

/-! ## Executing a block again -/

/-- The state of the variables after the first instructions of a block. -/
def stateAfter (p : Problem) (k : Knowledge) (b : BlockId) (before : List Instruction) : State :=
  ((p.transferAll (p.surroundings k b) (p.entryState k b) before).run k.memory).1

/-- The taint of a variable there, with that of its storage. -/
def taintAfter (p : Problem) (k : Knowledge) (b : BlockId) (before : List Instruction)
    (v : VarId) : Value :=
  let x := (p.transferAll (p.surroundings k b) (p.entryState k b) before).run k.memory
  ((p.evalVar x.1 v).run x.2).1

/-- Executing the block on the second knowledge does at least what executing it on the first
one does. -/
structure Ascends (p : Problem) (b : BlockId) (block : Block) (k k' : Knowledge) : Prop where
  control : (p.execute k b block).control ≤ (p.execute k' b block).control
  exit : (p.execute k b block).exit ≤ (p.execute k' b block).exit
  branch : (p.execute k b block).branch ≤ (p.execute k' b block).branch
  returned : (p.execute k b block).returned ≤ (p.execute k' b block).returned
  written : ∀ id, p.written k b block id ≤ p.written k' b block id
  /-- At every point of the block the state of the variables is at least the same. -/
  state : ∀ before after, block.instructions = before ++ after →
    p.stateAfter k b before ≤ p.stateAfter k' b before
  /-- So is the taint of each of them, with that of its storage. -/
  taint : ∀ before after, block.instructions = before ++ after → ∀ v,
    p.taintAfter k b before v ≤ p.taintAfter k' b before v

/-- A block is executed again with more taint in its surroundings, on a memory that comes after
the one that its execution left. -/
theorem execute_mono {k k' : Knowledge} {b : BlockId} {block : Block}
    (hk : Readable p D k.memory) (hk' : Readable p D k'.memory)
    (hafter : (p.execute k b block).memory.Precedes k'.memory)
    (hentry : p.entryState k b ≤ p.entryState k' b)
    (hlen : (p.entryState k b).vars.length ≤ (p.entryState k' b).vars.length)
    (haround : (p.surroundings k b).Below (p.surroundings k' b)) : p.Ascends b block k k' := by
  have hsustains (k : Knowledge) (is : List Instruction) :=
    recordAll_sustains (p := p) (D := D) (p.surroundings k b) (p.entryState k b) is
  obtain ⟨hmid, -⟩ := hsustains k block.instructions _ hk
  obtain ⟨hmid', hlater'⟩ := hsustains k' block.instructions _ hk'
  -- what the instructions leave precedes what the whole block leaves
  have hend : ((p.recordAll (p.surroundings k b) (p.entryState k b) block.instructions).run
      k.memory).2.Precedes k'.memory := by
    refine .trans ?_ hafter
    rw [execute_eq]
    exact (terminate_names _ _ block.terminator _ hmid).precedes
  have hrun := recordAll_repeats hk hentry hlen haround block.instructions _ hk' hend
  have hlast := hafter.trans hlater'
  rw [execute_eq] at hlast
  have hvalues : _ ∧ _ := terminate_repeats hmid haround.control hrun.state block.terminator _ hmid'
    hlast
  have hpoint {before after : List Instruction} (hsplit : block.instructions = before ++ after) :
      ((p.recordAll (p.surroundings k b) (p.entryState k b) before).run
        k.memory).2.Precedes k'.memory := by
    refine .trans ?_ hend
    rw [hsplit, memory_recordAll_append]
    exact (recordAll_sustains _ _ after _ (hsustains k before _ hk).1).2
  have hbefore {before after : List Instruction} (hsplit : block.instructions = before ++ after) :=
    recordAll_repeats hk hentry hlen haround before _ hk' (hpoint hsplit)
  refine ⟨haround.control, ?_, ?_, ?_, hrun.total, fun before after hsplit => ?_,
    fun before after hsplit v => ?_⟩
  · rw [execute_eq, execute_eq]
    exact hrun.state
  · rw [execute_eq, execute_eq]
    exact hvalues.1
  · rw [execute_eq, execute_eq]
    exact hvalues.2
  · rw [stateAfter, stateAfter, run_transferAll, run_transferAll]
    exact (hbefore hsplit).state
  · rw [taintAfter, taintAfter, run_transferAll, run_transferAll]
    obtain ⟨hpoint', hlater⟩ := hsustains k' before _ hk'
    refine evalVar_repeats (hsustains k before _ hk).1 (hbefore hsplit).state v _ hpoint' ?_
    rw [memory_evalVar]
    exact (hpoint hsplit).trans hlater

end Problem

end TaintAnalysis
