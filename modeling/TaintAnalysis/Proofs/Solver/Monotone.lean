import TaintAnalysis.Proofs.Solver.Equations
import TaintAnalysis.Proofs.Taint.Summary

/-!
# The equations are monotone

More taint in the surroundings of a block, in memory or in the summaries of called functions never
takes anything away from what the block does. Neither does a memory that tells less apart. Every
operation of the taint values is monotone, and the functions of the equations are put together from
them, so this is one lemma for each of these functions, by the cases of its definition.

The two memories that are compared need not have the same locations. A relation says which
locations of the one stand for a location of the other (`Storage.Under`), and cells are compared
along it. Where the storage is the same, the relation is equality.

States are compared together with their lengths: assigning to a variable that one state has and the
other lacks would otherwise break the order.
-/

namespace TaintAnalysis

/-- A state and what is written, compared up to a relation between locations. -/
structure AheadBy (r : Location → Location → Prop) (x y : State × Cells) : Prop where
  state : x.1 ≤ y.1
  length : x.1.vars.length ≤ y.1.vars.length
  writes : x.2.Under r y.2

/-- A state and what is written, compared. -/
structure Ahead (x y : State × Cells) : Prop where
  state : x.1 ≤ y.1
  length : x.1.vars.length ≤ y.1.vars.length
  writes : x.2.Within y.2

theorem AheadBy.ahead {x y : State × Cells} (h : AheadBy (· = ·) x y) : Ahead x y :=
  ⟨h.state, h.length, Cells.within_iff_under.mpr h.writes⟩

/-- Surroundings, compared. -/
structure Surroundings.Below (a b : Surroundings) : Prop where
  control : a.control ≤ b.control
  widening : a.widening ≤ b.widening
  depth : a.depth ≤ b.depth

theorem Surroundings.Below.refl (a : Surroundings) : a.Below a :=
  ⟨Value.le_refl _, Value.le_refl _, Value.le_refl _⟩

/-- Along the relation, the second storage has what the first one has: as many variables live in
it, and the places with the property lead to no fewer locations. -/
structure Storage.Under (r : Location → Location → Prop) (P : Place → Prop) (S T : Storage) :
    Prop where
  resident : ∀ v, S.resident v = true → T.resident v = true
  storage : ∀ v, r ⟨.variable v, []⟩ ⟨.variable v, []⟩
  overlaps : ∀ l l' k k', r l' l → r k' k → l.overlaps k = true → l'.overlaps k' = true
  targets : ∀ p, P p → ∀ l ∈ (S.facts.resolve p).targets,
    ∃ l' ∈ (T.facts.resolve p).targets, r l' l
  pointerCells : ∀ p, P p → ∀ l ∈ (S.facts.resolve p).pointerCells,
    ∃ l' ∈ (T.facts.resolve p).pointerCells, r l' l
  derefsBase : ∀ p, P p → (S.facts.resolve p).derefsBase = (T.facts.resolve p).derefsBase
  exprTargets : ∀ e : Expr, (∀ p ∈ e.addressed, P p) → ∀ l ∈ S.facts.exprTargets e,
    ∃ l' ∈ T.facts.exprTargets e, r l' l

theorem Storage.Under.refl (S : Storage) : S.Under (· = ·) (fun _ => True) S where
  resident := fun _ h => h
  storage := fun _ => rfl
  overlaps := by
    rintro l _ k _ rfl rfl hover
    exact hover
  targets := fun _ _ l hl => ⟨l, hl, rfl⟩
  pointerCells := fun _ _ l hl => ⟨l, hl, rfl⟩
  derefsBase := fun _ _ => rfl
  exprTargets := fun _ _ l hl => ⟨l, hl, rfl⟩

namespace Storage

variable {r : Location → Location → Prop} {P : Place → Prop} {S T : Storage} {c d : Cells}
  {s t : State}

section

variable (hST : S.Under r P T) (hc : c.Under r d) (hs : s ≤ t)

include hST hc

/-! ## Expressions -/

theorem read_under {ls ls' : List Location} (h : ∀ l ∈ ls, ∃ l' ∈ ls', r l' l) :
    c.read ls ≤ d.read ls' :=
  hc.read_le hST.overlaps h

include hs

theorem valueOfVar_under (v : VarId) : S.valueOfVar c s v ≤ T.valueOfVar d t v := by
  have hstate : s.get v ≤ t.get v := State.le_iff.mp hs v
  rw [valueOfVar, valueOfVar]
  by_cases hv : S.resident v = true
  · rw [if_pos hv, if_pos (hST.resident v hv)]
    exact Value.join_mono hstate (read_under hST hc fun l hl =>
      ⟨l, hl, List.mem_singleton.mp hl ▸ hST.storage v⟩)
  · rw [if_neg hv]
    split
    · exact Value.le_trans hstate (Value.le_join_left _ _)
    · exact hstate

theorem address_under {place : Place} (hplace : P place) {x y : Value} (hxy : x ≤ y) :
    S.address c s place.base (S.facts.resolve place) x ≤
      T.address d t place.base (T.facts.resolve place) y := by
  refine Value.join_mono (Value.join_mono ?_ (read_under hST hc (hST.pointerCells place hplace)))
    hxy
  rw [hST.derefsBase place hplace]
  split
  · exact valueOfVar_under hST hc hs place.base
  · exact Value.le_refl _

end

mutual

theorem value_under (hST : S.Under r P T) (hc : c.Under r d) (hs : s ≤ t) :
    ∀ e : Expr, (∀ p ∈ e.addressed, P p) → S.value c s e ≤ T.value d t e
  | .var v, _ => by
      rw [value, value]
      exact valueOfVar_under hST hc hs v
  | .const _, _ => by
      rw [value, value]
      exact Value.le_refl _
  | .unary _ e, he => by
      rw [value, value]
      exact value_under hST hc hs e he
  | .binary _ l r, he => by
      rw [Expr.addressed] at he
      rw [value, value]
      exact Value.join_mono (value_under hST hc hs l fun p hp => he p (List.mem_append_left _ hp))
        (value_under hST hc hs r fun p hp => he p (List.mem_append_right _ hp))
  | .addrOf place, he => by
      rw [Expr.addressed] at he
      rw [value, value]
      exact Value.toIndirect_mono (address_under hST hc hs (he place List.mem_cons_self)
        (positions_under hST hc hs place fun p hp => he p (List.mem_cons_of_mem _ hp)))

theorem positions_under (hST : S.Under r P T) (hc : c.Under r d) (hs : s ≤ t) :
    ∀ place : Place, (∀ p ∈ place.addressedInside, P p) →
      S.positions c s place ≤ T.positions d t place
  | .var _, _ => by
      rw [positions, positions]
      exact Value.le_refl _
  | .deref inner, h => by
      rw [positions, positions]
      exact positions_under hST hc hs inner h
  | .field inner _, h => by
      rw [positions, positions]
      exact positions_under hST hc hs inner h
  | .index inner e, h => by
      rw [Place.addressedInside] at h
      rw [positions, positions]
      exact Value.join_mono
        (positions_under hST hc hs inner fun p hp => h p (List.mem_append_left _ hp))
        (value_under hST hc hs e fun p hp => h p (List.mem_append_right _ hp))

end

section

variable (hST : S.Under r P T) (hc : c.Under r d) (hs : s ≤ t)

include hST hc hs

theorem addressOf_under {place : Place} (hplace : P place)
    (hinside : ∀ p ∈ place.addressedInside, P p) :
    S.addressOf c s place ≤ T.addressOf d t place :=
  address_under hST hc hs hplace (positions_under hST hc hs place hinside)

theorem argument_under {arg : Expr} (harg : ∀ p ∈ arg.addressed, P p) :
    S.argument c s arg ≤ T.argument d t arg :=
  Value.join_mono (value_under hST hc hs arg harg)
    (read_under hST hc (hST.exprTargets arg harg))

end

/-! ## Writes -/

theorem mapWrites_under {ls ls' : List Location} (h : ∀ l ∈ ls, ∃ l' ∈ ls', r l' l) {x y : Value}
    (hxy : x ≤ y) : Cells.Under r (ls.map fun l => (l, x)) (ls'.map fun l => (l, y)) := by
  refine .of_entries fun e he => ?_
  obtain ⟨l, hl, rfl⟩ := List.mem_map.mp he
  obtain ⟨l', hl', hr⟩ := h l hl
  exact ⟨_, List.mem_map.mpr ⟨l', hl', rfl⟩, hr, hxy⟩

variable (hST : S.Under r P T)

include hST

theorem defines_under (v : VarId) {x y : Value} (hxy : x ≤ y) :
    (S.defines v x).Under r (T.defines v y) := by
  rw [defines, defines]
  by_cases hv : S.resident v = true
  · rw [if_pos hv, if_pos (hST.resident v hv)]
    refine .of_entries fun e he => ?_
    obtain rfl := List.mem_singleton.mp he
    exact ⟨_, List.mem_singleton.mpr rfl, hST.storage v, hxy⟩
  · rw [if_neg hv]
    exact .nil _ _

theorem writesThrough_under {arg : Expr} (harg : ∀ p ∈ arg.addressed, P p) {x y : Value}
    (hxy : x ≤ y) : (S.writesThrough x arg).Under r (T.writesThrough y arg) :=
  mapWrites_under (hST.exprTargets arg harg) hxy

theorem summaryWrites_under {x y : Value} (hxy : x ≤ y) {args : List Expr}
    (hargs : ∀ arg ∈ args, ∀ p ∈ arg.addressed, P p) {actuals actuals' : List Value}
    (hactuals : List.Forall₂ (· ≤ ·) actuals actuals') {m n : Summary} (hmn : m.Below n) :
    (S.summaryWrites x args actuals m).Under r (T.summaryWrites y args actuals' n) := by
  intro e he
  obtain ⟨out, hout, he⟩ := List.mem_flatMap.mp he
  obtain ⟨out', hout', hkey, hle⟩ := hmn.outs out hout
  cases harg : args[out.1]? with
  | none =>
      rw [harg] at he
      exact absurd he List.not_mem_nil
  | some arg =>
      rw [harg] at he
      have hvalue : (out.2.substitute actuals).join x ≤ (out'.2.substitute actuals').join y :=
        Value.join_mono (Value.substitute_mono hle hactuals) hxy
      have hunder := writesThrough_under hST (hargs arg (List.mem_of_getElem? harg)) hvalue
      intro v hv
      refine hunder e he v fun e' he' hr => hv e' (List.mem_flatMap.mpr ⟨out', hout', ?_⟩) hr
      rw [hkey, harg]
      exact he'

end Storage

namespace Problem

variable {p : Problem} {S T : Storage} {r : Location → Location → Prop} {P : Place → Prop}
  {c d : Cells} {s t : State} {a b : Surroundings} {u : SummaryTable}

/-- The same problem with other summaries. -/
def withSummaries (p : Problem) (u : SummaryTable) : Problem :=
  { p with summaries := u }

/-- The same problem with other summaries, other pointer facts and another list of the blocks that
read memory. -/
def withFacts (p : Problem) (u : SummaryTable) (m : PointsTo) (readers : List BlockId) : Problem :=
  { p with summaries := u, pointsTo := m, memoryReaders := readers }

variable (m : PointsTo) (readers : List BlockId)

/-! ## Instructions -/

theorem length_assigned (dst : Option VarId) (x : Value) :
    (assigned S s dst x).1.vars.length = s.vars.length := by
  cases dst with
  | none => rfl
  | some v => exact State.length_set s v x

theorem length_touched (vars : List VarId) :
    (p.touched S s vars).1.vars.length = s.vars.length := by
  induction vars generalizing s with
  | nil => rfl
  | cons v rest ih =>
      rw [touched]
      exact ih.trans (State.length_set s v _)

/-- No instruction declares a variable. -/
theorem length_outcome (i : Instruction) :
    (p.outcome S c a s i).1.vars.length = s.vars.length := by
  cases i with
  | assign dst e => exact length_assigned (some dst) _
  | cast dst e ty => exact length_assigned (some dst) _
  | load dst place => exact length_assigned (some dst) _
  | store place src => rfl
  | call dst callee args =>
      rw [outcome]
      cases p.summaryOf? callee with
      | some summary => exact length_assigned dst _
      | none => exact length_assigned dst _
  | opaqueCode vars reason => exact length_touched vars

theorem length_outcomes (is : List Instruction) :
    (p.outcomes S c a s is).1.vars.length = s.vars.length := by
  induction is generalizing s with
  | nil => rfl
  | cons i rest ih => exact ih.trans (length_outcome i)

theorem assigned_under (hST : S.Under r P T) (hst : s ≤ t)
    (hlen : s.vars.length ≤ t.vars.length) (dst : Option VarId) {x y : Value} (hxy : x ≤ y) :
    AheadBy r (assigned S s dst x) (assigned T t dst y) := by
  cases dst with
  | none => exact ⟨hst, hlen, .nil _ _⟩
  | some v =>
      refine ⟨State.set_mono v hlen hst hxy, ?_, Storage.defines_under hST v hxy⟩
      show (s.set v x).vars.length ≤ (t.set v y).vars.length
      rw [State.length_set, State.length_set]
      exact hlen

theorem touched_under (hST : S.Under r P T) (hst : s ≤ t) (hlen : s.vars.length ≤ t.vars.length)
    (vars : List VarId) :
    AheadBy r (p.touched S s vars) ((p.withFacts u m readers).touched T t vars) := by
  induction vars generalizing s t with
  | nil => exact ⟨hst, hlen, .nil _ _⟩
  | cons v rest ih =>
      have hle := Value.le_refl p.allSources
      have hall : (p.withFacts u m readers).allSources = p.allSources := rfl
      obtain ⟨hstate, hlength, hwrites⟩ := ih (State.set_mono v hlen hst hle)
        (by rw [State.length_set, State.length_set]; exact hlen)
      have hthrough : (S.writesThrough p.allSources (.var v)).Under r
          (T.writesThrough p.allSources (.var v)) :=
        Storage.writesThrough_under hST (fun _ hp => absurd hp List.not_mem_nil) hle
      rw [touched, touched, hall]
      exact ⟨hstate, hlength,
        .append_mono (.append_mono (Storage.defines_under hST v hle) hthrough) hwrites⟩

theorem callResult_mono (hab : a.Below b) (callee : Callee) {actuals actuals' : List Value}
    (hactuals : List.Forall₂ (· ≤ ·) actuals actuals') {x y : Summary} (hxy : x.Below y) :
    p.callResult a callee actuals x ≤
      (p.withFacts u m readers).callResult b callee actuals' y := by
  have hvalue := Value.join_mono (Value.join_mono
    (Value.substitute_mono hxy.returned hactuals) hab.control) hab.widening
  have hpeers : (p.withFacts u m readers).peers = p.peers := rfl
  rw [callResult, callResult, hpeers]
  split
  · exact Value.join_mono hvalue hab.depth
  · exact hvalue

theorem AheadBy.append {x y : State × Cells} {ws ws' : Cells} (h : AheadBy r x y)
    (hws : ws.Under r ws') : AheadBy r (x.1, x.2 ++ ws) (y.1, y.2 ++ ws') :=
  ⟨h.state, h.length, .append_mono h.writes hws⟩

section

variable (hST : S.Under r P T) (hu : p.summaries.Below u) (hc : c.Under r d) (hab : a.Below b)

include hST hu hc hab

/-- A call is compared by the summaries, the values of the arguments, and what these refer to. -/
theorem call_under (hst : s ≤ t) (hlen : s.vars.length ≤ t.vars.length) (dst : Option VarId)
    (callee : Callee) {args : List Expr} (hargs : ∀ arg ∈ args, ∀ p ∈ arg.addressed, P p) :
    AheadBy r (p.outcome S c a s (.call dst callee args))
      ((p.withFacts u m readers).outcome T d b t (.call dst callee args)) := by
  have hactuals : List.Forall₂ (· ≤ ·) (args.map (S.argument c s)) (args.map (T.argument d t)) := by
    rw [List.forall₂_map_left_iff, List.forall₂_map_right_iff, List.forall₂_same]
    exact fun arg harg => Storage.argument_under hST hc hst (hargs arg harg)
  have hsummary : Option.Rel Summary.Below (p.summaryOf? callee)
      ((p.withFacts u m readers).summaryOf? callee) := by
    rw [summaryOf?, summaryOf?]
    cases callee.name? with
    | none => exact .none
    | some name => exact hu name
  rw [outcome, outcome]
  cases hx : p.summaryOf? callee with
  | none =>
      cases hy : (p.withFacts u m readers).summaryOf? callee with
      | some y => rw [hx, hy] at hsummary; nomatch hsummary
      | none =>
          refine AheadBy.append (assigned_under hST hst hlen dst (Value.le_refl _)) ?_
          intro e he v hv
          obtain ⟨arg, harg, he⟩ := List.mem_flatMap.mp he
          refine Storage.writesThrough_under hST (hargs arg harg) (Value.le_refl _) e he v ?_
          exact fun e' he' hr => hv e' (List.mem_flatMap.mpr ⟨arg, harg, he'⟩) hr
  | some x =>
      cases hy : (p.withFacts u m readers).summaryOf? callee with
      | none => rw [hx, hy] at hsummary; nomatch hsummary
      | some y =>
          rw [hx, hy] at hsummary
          cases hsummary with
          | some hxy =>
              exact AheadBy.append
                (assigned_under hST hst hlen dst
                  (callResult_mono m readers hab callee hactuals hxy))
                (Storage.summaryWrites_under hST hab.control hargs hactuals hxy)

/-- What an instruction does grows with the state, memory, the surroundings and the summaries. -/
theorem outcome_under (hst : s ≤ t) (hlen : s.vars.length ≤ t.vars.length) {i : Instruction}
    (hi : ∀ p ∈ i.places, P p) :
    AheadBy r (p.outcome S c a s i) ((p.withFacts u m readers).outcome T d b t i) := by
  have hassign (dst : VarId) {x y : Value} (hxy : x ≤ y) :=
    assigned_under hST hst hlen (some dst)
      (Value.join_mono (Value.join_mono hxy hab.control) hab.widening)
  have hoperand {e : Expr} (he : e ∈ i.operands) : ∀ p ∈ e.addressed, P p := fun p hp =>
    hi p (List.mem_append_right _ (List.mem_append_right _ (List.mem_flatMap.mpr ⟨e, he, hp⟩)))
  have haddress {place : Place} (hplace : i.place? = some place) :
      P place ∧ S.addressOf c s place ≤ T.addressOf d t place := by
    have hp := hi place (List.mem_append_left _ (by simp [hplace]))
    refine ⟨hp, Storage.addressOf_under hST hc hst hp fun q hq => ?_⟩
    refine hi q (List.mem_append_right _ (List.mem_append_left _ ?_))
    rw [hplace]
    exact hq
  cases i with
  | assign dst e =>
      exact hassign dst (Storage.value_under hST hc hst e (hoperand List.mem_cons_self))
  | cast dst e ty =>
      exact hassign dst (Storage.value_under hST hc hst e (hoperand List.mem_cons_self))
  | load dst place =>
      obtain ⟨hplace, hle⟩ := haddress rfl
      exact hassign dst (Value.join_mono
        (Storage.read_under hST hc (hST.targets place hplace)) (Value.toIndirect_mono hle))
  | store place src =>
      obtain ⟨hplace, hle⟩ := haddress rfl
      exact ⟨hst, hlen, Storage.mapWrites_under (hST.targets place hplace)
        (Value.join_mono (Value.join_mono
          (Storage.value_under hST hc hst src (hoperand List.mem_cons_self))
          (Value.toIndirect_mono hle)) hab.control)⟩
  | call dst callee args =>
      exact call_under m readers hST hu hc hab hst hlen dst callee fun arg harg =>
        hoperand (List.mem_append_right _ harg)
  | opaqueCode vars reason => exact touched_under m readers hST hst hlen vars

theorem outcomes_under (hst : s ≤ t) (hlen : s.vars.length ≤ t.vars.length)
    {is : List Instruction} (his : ∀ i ∈ is, ∀ p ∈ i.places, P p) :
    AheadBy r (p.outcomes S c a s is) ((p.withFacts u m readers).outcomes T d b t is) := by
  induction is generalizing s t with
  | nil => exact ⟨hst, hlen, .nil _ _⟩
  | cons i rest ih =>
      have hi := outcome_under m readers hST hu hc hab hst hlen
        (his i List.mem_cons_self)
      obtain ⟨hstate, hlength, hwrites⟩ := ih hi.state hi.length fun j hj =>
        his j (List.mem_cons_of_mem i hj)
      exact ⟨hstate, hlength, .append_mono hi.writes hwrites⟩

end

/-- On the same memory. -/
theorem outcome_mono (hu : p.summaries.Below u) (hc : c.Within d) (hab : a.Below b) (hst : s ≤ t)
    (hlen : s.vars.length ≤ t.vars.length) (i : Instruction) :
    Ahead (p.outcome S c a s i) ((p.withSummaries u).outcome S d b t i) :=
  (outcome_under p.pointsTo p.memoryReaders (.refl S) hu
    (Cells.within_iff_under.mp hc) hab hst hlen fun _ _ => trivial).ahead

end Problem

/-! ## Guesses -/

namespace Assignment

/-- The second guess has all the taint of the first one. -/
structure Below (σ τ : Assignment) : Prop where
  exit : ∀ b, σ.exit b ≤ τ.exit b
  branch : ∀ b, σ.branch b ≤ τ.branch b
  control : ∀ b, σ.control b ≤ τ.control b
  cells : σ.cells.Within τ.cells
  returned : σ.returned ≤ τ.returned
  outs : ∀ i, σ.outs i ≤ τ.outs i

/-- The same up to a relation between locations. -/
structure Under (r : Location → Location → Prop) (σ τ : Assignment) : Prop where
  exit : ∀ b, σ.exit b ≤ τ.exit b
  branch : ∀ b, σ.branch b ≤ τ.branch b
  control : ∀ b, σ.control b ≤ τ.control b
  cells : σ.cells.Under r τ.cells
  returned : σ.returned ≤ τ.returned
  outs : ∀ i, σ.outs i ≤ τ.outs i

variable {σ τ υ : Assignment} {r : Location → Location → Prop}

theorem Below.under (h : σ.Below τ) : σ.Under (· = ·) τ :=
  ⟨h.exit, h.branch, h.control, Cells.within_iff_under.mp h.cells, h.returned, h.outs⟩

theorem Under.below (h : σ.Under (· = ·) τ) : σ.Below τ :=
  ⟨h.exit, h.branch, h.control, Cells.within_iff_under.mpr h.cells, h.returned, h.outs⟩

theorem Below.trans_under (h : σ.Below τ) (h' : τ.Under r υ) : σ.Under r υ where
  exit := fun b => State.le_trans (h.exit b) (h'.exit b)
  branch := fun b => Value.le_trans (h.branch b) (h'.branch b)
  control := fun b => Value.le_trans (h.control b) (h'.control b)
  cells := h'.cells.within_trans h.cells
  returned := Value.le_trans h.returned h'.returned
  outs := fun i => Value.le_trans (h.outs i) (h'.outs i)

theorem Under.trans_below (h : σ.Under r τ) (h' : τ.Below υ) : σ.Under r υ where
  exit := fun b => State.le_trans (h.exit b) (h'.exit b)
  branch := fun b => Value.le_trans (h.branch b) (h'.branch b)
  control := fun b => Value.le_trans (h.control b) (h'.control b)
  cells := h.cells.trans_within h'.cells
  returned := Value.le_trans h.returned h'.returned
  outs := fun i => Value.le_trans (h.outs i) (h'.outs i)

theorem Below.refl (σ : Assignment) : σ.Below σ :=
  ⟨fun _ => State.le_refl _, fun _ => Value.le_refl _, fun _ => Value.le_refl _, .refl _,
    Value.le_refl _, fun _ => Value.le_refl _⟩

theorem Below.trans (h : σ.Below τ) (h' : τ.Below υ) : σ.Below υ where
  exit := fun b => State.le_trans (h.exit b) (h'.exit b)
  branch := fun b => Value.le_trans (h.branch b) (h'.branch b)
  control := fun b => Value.le_trans (h.control b) (h'.control b)
  cells := h.cells.trans h'.cells
  returned := Value.le_trans h.returned h'.returned
  outs := fun i => Value.le_trans (h.outs i) (h'.outs i)

/-- No state of the guess has more than `n` variables. -/
def Sized (σ : Assignment) (n : Nat) : Prop :=
  ∀ b, (σ.exit b).vars.length ≤ n

end Assignment

/-- What a block does, compared. -/
structure Effects.Below (e f : Effects) : Prop where
  control : e.control ≤ f.control
  exit : e.exit ≤ f.exit
  branch : e.branch ≤ f.branch
  returned : e.returned ≤ f.returned
  writes : e.writes.Within f.writes

theorem Effects.Below.refl (e : Effects) : e.Below e :=
  ⟨Value.le_refl _, State.le_refl _, Value.le_refl _, Value.le_refl _, .refl _⟩

/-- The same up to a relation between locations. -/
structure Effects.Under (r : Location → Location → Prop) (e f : Effects) : Prop where
  control : e.control ≤ f.control
  exit : e.exit ≤ f.exit
  branch : e.branch ≤ f.branch
  returned : e.returned ≤ f.returned
  writes : e.writes.Under r f.writes

namespace Problem

variable {p : Problem} {S T : Storage} {r : Location → Location → Prop} {P : Place → Prop}
  {σ τ : Assignment} {u : SummaryTable} (m : PointsTo) (readers : List BlockId) {seeds : Cells}

theorem length_seedState (p : Problem) : p.seedState.vars.length = p.varCount := by
  have hfold (l : List (VarId × Nat)) (s : State) :
      (l.foldl (fun s e => s.set e.1 (.single e.2 Kind.directOnly)) s).vars.length =
        s.vars.length := by
    induction l generalizing s with
    | nil => rfl
    | cons e rest ih => rw [List.foldl_cons, ih, State.length_set]
  rw [seedState, hfold, State.untainted, List.length_replicate]

theorem get_foldl_set {l : List (VarId × Nat)} (hnodup : (l.map Prod.fst).Nodup) {s : State}
    (hlen : ∀ e ∈ l, e.1 < s.vars.length) {e : VarId × Nat} (he : e ∈ l) :
    (l.foldl (fun s (v, k) => s.set v (.single k Kind.directOnly)) s).get e.1 =
      .single e.2 Kind.directOnly := by
  induction l generalizing s with
  | nil => exact absurd he List.not_mem_nil
  | cons x rest ih =>
      rw [List.map_cons, List.nodup_cons] at hnodup
      rw [List.foldl_cons]
      rcases List.mem_cons.mp he with rfl | he
      · have hkeep : ∀ (l : List (VarId × Nat)) (s : State), e.1 ∉ l.map Prod.fst →
            (l.foldl (fun s (v, k) => s.set v (.single k Kind.directOnly)) s).get e.1 =
              s.get e.1 := by
          intro l
          induction l with
          | nil => exact fun _ _ => rfl
          | cons y rest ih =>
              intro s hno
              rw [List.map_cons, List.mem_cons, not_or] at hno
              rw [List.foldl_cons, ih _ hno.2, State.get_set, if_neg fun h => hno.1 h.1]
        rw [hkeep rest _ hnodup.1, State.get_set,
          if_pos ⟨rfl, hlen e List.mem_cons_self⟩]
      · refine ih hnodup.2 (fun e he => ?_) he
        rw [State.length_set]
        exact hlen e (List.mem_cons_of_mem x he)

/-- On entry a parameter has itself as a source. -/
theorem get_seedState {v : VarId} {k : Nat} (hv : p.function.paramIndex? v = some k) :
    p.seedState.get v = .single k Kind.directOnly := by
  have hmem : (v, k) ∈ p.function.params.zipIdx := by
    rw [List.mem_zipIdx_iff_getElem?]
    exact List.getElem?_eq_some_iff.mpr (by
      obtain ⟨h, heq⟩ := List.idxOf?_eq_some_iff.mp hv
      exact ⟨h, heq.1⟩)
  refine get_foldl_set (e := (v, k)) ?_ (fun e he => ?_) hmem
  · rw [List.zipIdx_map_fst]
    exact List.Pairwise.sublist List.filter_sublist List.nodup_range
  · have hparam := List.mem_of_mem_filter (List.fst_mem_of_mem_zipIdx he)
    rw [State.length_untainted]
    exact List.mem_range.mp hparam

theorem length_entryBase (p : Problem) (b : BlockId) :
    (if b = p.graph.entry then p.seedState else .untainted p.varCount).vars.length =
      p.varCount := by
  split
  · exact length_seedState p
  · rw [State.untainted, List.length_replicate]

/-- A function is entered with the seeds. -/
theorem seedState_le_entryIn (σ : Assignment) {b : BlockId} (hb : b = p.graph.entry) :
    p.seedState ≤ p.entryIn σ b := by
  have hbase := (State.foldl_join_le_iff.mp (State.le_refl (p.entryIn σ b))).1
  rwa [if_pos hb] at hbase

theorem varCount_le_length_entryIn (σ : Assignment) (b : BlockId) :
    p.varCount ≤ (p.entryIn σ b).vars.length := by
  refine Nat.le_trans (Nat.le_of_eq (length_entryBase p b).symm) State.le_length_foldl_join

theorem length_entryIn (hσ : σ.Sized p.varCount) (b : BlockId) :
    (p.entryIn σ b).vars.length = p.varCount := by
  refine Nat.le_antisymm (State.length_foldl_join_le (Nat.le_of_eq (length_entryBase p b)) ?_)
    (varCount_le_length_entryIn σ b)
  intro t ht
  obtain ⟨x, -, rfl⟩ := List.mem_map.mp ht
  exact hσ x

theorem length_effects_exit (hσ : σ.Sized p.varCount) (b : BlockId) :
    (p.effects σ b S).exit.vars.length = p.varCount := by
  rw [effects]
  split
  · cases p.function.block? b with
    | none => exact List.length_replicate
    | some block => exact (length_outcomes block.instructions).trans (length_entryIn hσ b)
  · exact List.length_replicate

theorem entryIn_le (h : ∀ b, σ.exit b ≤ τ.exit b) (b : BlockId) :
    p.entryIn σ b ≤ p.entryIn τ b := by
  rw [entryIn, State.foldl_join_le_iff]
  obtain ⟨hbase, hpreds⟩ := State.foldl_join_le_iff.mp (State.le_refl (p.entryIn τ b))
  refine ⟨hbase, fun t ht => ?_⟩
  obtain ⟨x, hx, rfl⟩ := List.mem_map.mp ht
  exact State.le_trans (h x) (hpreds _ (List.mem_map.mpr ⟨x, hx, rfl⟩))

theorem entryIn_mono (h : σ.Below τ) (b : BlockId) : p.entryIn σ b ≤ p.entryIn τ b :=
  entryIn_le h.exit b

/-- The surroundings of a block depend on the branches alone. -/
theorem aroundIn_le (hbranch : ∀ x, σ.branch x ≤ τ.branch x)
    (hcontrol : ∀ x, σ.control x ≤ τ.control x) (b : BlockId) :
    (p.aroundIn σ b).Below (p.aroundIn τ b) where
  control := Value.joins_map_mono fun x _ =>
    Value.toIndirect_mono (Value.join_mono (hbranch x) (hcontrol x))
  widening := by
    refine Value.joins_mono ?_
    intro v hv
    obtain ⟨l, hl, hv⟩ := List.mem_flatMap.mp hv
    obtain ⟨x, hx, rfl⟩ := List.mem_map.mp hv
    exact ⟨_, List.mem_flatMap.mpr ⟨l, hl, List.mem_map.mpr ⟨x, hx, rfl⟩⟩,
      Value.toFull_mono (hbranch x)⟩
  depth := by
    show p.depthIn σ b ≤ p.depthIn τ b
    rw [depthIn, depthIn]
    split
    · exact Value.le_refl _
    · exact Value.joins_map_mono fun x _ => Value.join_mono
        (Value.toFull_mono (hbranch x)) (Value.toFull_mono (hcontrol x))

theorem aroundIn_mono (h : σ.Below τ) (b : BlockId) : (p.aroundIn σ b).Below (p.aroundIn τ b) :=
  aroundIn_le h.branch h.control b

theorem finish_under {c d : Cells} {s t : State} {x y : Value} (hST : S.Under r P T)
    (hc : c.Under r d) (hst : s ≤ t) (hxy : x ≤ y) {e : Terminator} (he : ∀ p ∈ e.addressed, P p) :
    (finish S c x s e).1 ≤ (finish T d y t e).1 ∧ (finish S c x s e).2 ≤ (finish T d y t e).2 := by
  have hbottom : Value.bottom ≤ Value.bottom := Value.le_refl _
  cases e with
  | branch condition thenBlock elseBlock =>
      exact ⟨Storage.value_under hST hc hst condition he, hbottom⟩
  | ret value =>
      cases value with
      | none => exact ⟨hbottom, hbottom⟩
      | some value =>
          exact ⟨hbottom, Value.join_mono (Storage.value_under hST hc hst value he) hxy⟩
  | jump target => exact ⟨hbottom, hbottom⟩
  | missing => exact ⟨hbottom, hbottom⟩

theorem finish_mono {c d : Cells} {s t : State} {x y : Value} (hc : c.Within d) (hst : s ≤ t)
    (hxy : x ≤ y) (e : Terminator) :
    (finish S c x s e).1 ≤ (finish S d y t e).1 ∧ (finish S c x s e).2 ≤ (finish S d y t e).2 :=
  finish_under (.refl S) (Cells.within_iff_under.mp hc) hst hxy fun _ _ => trivial

/-- The places of every block that is visited have the property. -/
def Throughout (p : Problem) (P : Place → Prop) : Prop :=
  ∀ b ∈ p.order, ∀ block, p.function.block? b = some block → ∀ place ∈ block.places, P place

section

variable (hST : S.Under r P T) (hP : p.Throughout P) (hu : p.summaries.Below u)
  (hσ : σ.Sized p.varCount) (h : σ.Under r τ)

include hST hP hu hσ h

/-- What a block does grows with the guess and the summaries. -/
theorem effects_under (b : BlockId) :
    (p.effects σ b S).Under r ((p.withFacts u m readers).effects τ b T) := by
  have hlen : (p.entryIn σ b).vars.length ≤ (p.entryIn τ b).vars.length :=
    Nat.le_trans (Nat.le_of_eq (length_entryIn hσ b)) (varCount_le_length_entryIn τ b)
  have hblock (block : Block) (hplaces : ∀ place ∈ block.places, P place) :
      (p.blockEffects σ b S block).Under r
        ((p.withFacts u m readers).blockEffects τ b T block) := by
    have haround : (p.aroundIn σ b).Below (p.aroundIn τ b) := aroundIn_le h.branch h.control b
    have hrun := outcomes_under m readers hST hu h.cells haround
      (entryIn_le h.exit b) hlen fun i hi place hp => hplaces place
        (List.mem_append_left _ (List.mem_flatMap.mpr ⟨i, hi, hp⟩))
    have hfinish := finish_under hST h.cells hrun.state haround.control (e := block.terminator)
      fun place hp => hplaces place (List.mem_append_right _ hp)
    exact ⟨haround.control, hrun.state, hfinish.1, hfinish.2, hrun.writes⟩
  have hidle : p.noEffects.Under r p.noEffects :=
    ⟨Value.le_refl _, State.le_refl _, Value.le_refl _, Value.le_refl _, .nil _ _⟩
  show Effects.Under r _ (if b ∈ p.order then
    ((p.function.block? b).map ((p.withFacts u m readers).blockEffects τ b T)).getD p.noEffects
    else p.noEffects)
  rw [effects]
  split
  · next hb =>
    cases hget : p.function.block? b with
    | none => exact hidle
    | some block => exact hblock block (hP b hb block hget)
  · exact hidle

theorem writes_under : (p.writes σ S).Under r ((p.withFacts u m readers).writes τ T) := by
  intro e he v hv
  obtain ⟨b, hb, he⟩ := List.mem_flatMap.mp he
  refine (effects_under m readers hST hP hu hσ h b).writes
    e he v fun e' he' hr => ?_
  exact hv e' (List.mem_flatMap.mpr ⟨b, hb, he'⟩) hr

/-- The right-hand sides of the equations grow with the guess and the summaries. -/
theorem next_under {seeds' : Cells} (hseeds : seeds.Under r seeds')
    (hparams : ∀ l l', r l' l → Memory.writtenParams p l ⊆
      Memory.writtenParams (p.withFacts u m readers) l') :
    (p.next σ S seeds).Under r ((p.withFacts u m readers).next τ T seeds') where
  exit := fun b => (effects_under m readers hST hP hu hσ h b).exit
  branch := fun b => (effects_under m readers hST hP hu hσ h b).branch
  control := fun b => (effects_under m readers hST hP hu hσ h b).control
  cells := .append_mono hseeds (writes_under m readers hST hP hu hσ h)
  returned := Value.joins_map_mono fun b _ => (effects_under m readers hST hP hu hσ h b).returned
  outs := fun _ => (writes_under m readers hST hP hu hσ h).gather_le fun l l' hr hi =>
    decide_eq_true (hparams l l' hr (of_decide_eq_true hi))

end

/-- On the same memory. -/
theorem next_mono (hu : p.summaries.Below u) (hσ : σ.Sized p.varCount) (h : σ.Below τ) :
    (p.next σ S seeds).Below ((p.withSummaries u).next τ S seeds) :=
  Assignment.Under.below <| next_under p.pointsTo p.memoryReaders (.refl S)
    (fun _ _ _ _ _ _ => trivial) hu hσ h.under (Cells.within_iff_under.mp (.refl seeds))
    fun _ _ hl => hl ▸ List.Subset.refl _

end Problem

end TaintAnalysis
