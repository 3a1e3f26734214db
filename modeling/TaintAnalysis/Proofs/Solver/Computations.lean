import TaintAnalysis.Solver.Run
import TaintAnalysis.Proofs.Memory.Naming
import TaintAnalysis.Proofs.Taint.Order

/-!
# What the solver's computations are made of

To memory the solver does three things. It looks up the cells that a place, an expression or a
variable stands for, which may name locations; it reads cells; and it writes to cells that it has
looked up. Every instruction and every terminator is put together from these by sequencing, and
between them only taint is joined and weakened.

`ReadsOnly` and `Composed` say so of a computation, without a word about memory. What then holds of
memory is a matter of the three steps: if a relation between the memory before and the memory
after holds of each of them and of their sequence, it holds of a whole block (`ReadsOnly.run`,
`Composed.run`).
-/

namespace TaintAnalysis

/-! ## Text and taint -/

/-- Expressions and places that come with all their parts. -/
structure Fragment where
  expr : Expr → Prop
  place : Place → Prop
  unary {op : UnOp} {e : Expr} : expr (.unary op e) → expr e
  left {op : BinOp} {l r : Expr} : expr (.binary op l r) → expr l
  right {op : BinOp} {l r : Expr} : expr (.binary op l r) → expr r
  addressed {q : Place} : expr (.addrOf q) → place q
  deref {q : Place} : place (.deref q) → place q
  field {q : Place} {name : String} : place (.field q name) → place q
  indexed {q : Place} {e : Expr} : place (.index q e) → place q
  position {q : Place} {e : Expr} : place (.index q e) → expr e

/-- All expressions and places. -/
def Fragment.all : Fragment where
  expr := fun _ => True
  place := fun _ => True
  unary := id
  left := id
  right := id
  addressed := id
  deref := id
  field := id
  indexed := id
  position := id

/-- The text of an instruction is in the fragment. -/
structure Fragment.Covers (T : Fragment) (i : Instruction) : Prop where
  place : ∀ q, i.place? = some q → T.place q
  operands : ∀ e ∈ i.operands, T.expr e
  touched : ∀ vars reason, i = .opaqueCode vars reason → ∀ v ∈ vars, T.expr (.var v)

theorem Fragment.all_covers (i : Instruction) : Fragment.all.Covers i :=
  ⟨fun _ _ => trivial, fun _ _ => trivial, fun _ _ _ _ _ => trivial⟩

/-- A property of values that everything keeps that the solver does with them. -/
structure Value.Closed (V : Value → Prop) : Prop where
  bottom : V Value.bottom
  join {x y : Value} : V x → V y → V (x.join y)
  toIndirect {x : Value} : V x → V x.toIndirect
  substitute {x : Value} {actuals : List Value} : (∀ a ∈ actuals, V a) → V (x.substitute actuals)

theorem Value.closed_true : Value.Closed fun _ => True :=
  ⟨trivial, fun _ _ => trivial, fun _ => trivial, fun _ => trivial⟩

/-- Everything that a block adds has the property. -/
structure Surroundings.All (V : Value → Prop) (around : Surroundings) : Prop where
  control : V around.control
  widening : V around.widening
  depth : V around.depth

/-! ## Storage -/

namespace Problem

variable {p : Problem}

/-- The storage of a variable, if the variable lives in memory. -/
def storageOf (p : Problem) (v : VarId) : Naming IdSet := do
  if p.pointsTo.livesInMemory (← get) v then return .singleton (← p.pointsTo.varLocation v)
  else return .empty

theorem storageOf_run (v : VarId) (a : Arena) :
    (p.storageOf v).run a =
      if p.pointsTo.livesInMemory a v = true then
        (.singleton ((p.pointsTo.varLocation v).run a).1, ((p.pointsTo.varLocation v).run a).2)
      else (.empty, a) := by
  simp only [storageOf, StateT.run_bind, StateT.run_get, pure_bind]
  split <;> rfl

/-- A variable that lives in memory has its storage named already. -/
theorem arena_varLocation {a : Arena} {v : VarId} (h : p.pointsTo.livesInMemory a v = true) :
    ((p.pointsTo.varLocation v).run a).2 = a := by
  rw [PointsTo.livesInMemory, Bool.and_eq_true] at h
  obtain ⟨id, hid⟩ := Option.isSome_iff_exists.mp h.1
  rw [PointsTo.varLocation, Arena.root, if_neg (by simp)]
  show (Arena.intern _ _ a).2 = a
  simp only [Arena.intern, hid]

theorem arena_storageOf (v : VarId) (a : Arena) : ((p.storageOf v).run a).2 = a := by
  rw [storageOf_run]
  split
  · next h => exact arena_varLocation h
  · rfl

end Problem

theorem Memory.read_empty (m : Memory) : m.read .empty = Value.bottom := by
  have hnone : (m.cells.entries.filter fun e => IdSet.empty.elems.any (m.arena.overlaps e.1)) = [] :=
    List.filter_eq_nil_iff.mpr fun _ _ => Bool.false_ne_true
  rw [Memory.read, hnone]
  rfl

/-! ## Looking up, reading and writing -/

section

variable (p : Problem) (T : Fragment) (V : Value → Prop)

/-- What the solver looks up on behalf of the text in a fragment, and the cells that are found. -/
inductive Lookup : {γ : Type} → Naming γ → (γ → IdSet) → Prop
  | place {q : Place} (h : T.place q) : Lookup (p.pointsTo.resolve q) Resolution.targets
  | targets {e : Expr} (h : T.expr e) : Lookup (p.pointsTo.exprTargets e) id
  | storage (v : VarId) : Lookup (p.storageOf v) id

/-- The computation is put together from lookups and from reading cells. If all values that are
read have the property of values, then what it returns has the given property. -/
inductive ReadsOnly : {α : Type} → (α → Prop) → Effect α → Prop
  | pure {α : Type} {P : α → Prop} {x : α} (h : P x) : ReadsOnly P (Pure.pure x)
  | lookup {γ : Type} {n : Naming γ} {cells : γ → IdSet} (h : Lookup p T n cells) :
      ReadsOnly (fun _ => True) (Effect.naming n)
  | read (ids : IdSet) : ReadsOnly V (Effect.read ids)
  | bind {α β : Type} {P : α → Prop} {Q : β → Prop} {c : Effect α} {g : α → Effect β}
      (hc : ReadsOnly P c) (hg : ∀ x, P x → ReadsOnly Q (g x)) : ReadsOnly Q (c >>= g)

/-- The same with writing: cells are looked up, and then a value that has the property is
computed and written to them. -/
inductive Composed : {α : Type} → (α → Prop) → Effect α → Prop
  | reads {α : Type} {P : α → Prop} {c : Effect α} (h : ReadsOnly p T V P c) : Composed P c
  | write {γ : Type} {n : Naming γ} {cells : γ → IdSet} {value : γ → Effect Value}
      (h : Lookup p T n cells) (hvalue : ∀ x, ReadsOnly p T V V (value x)) :
      Composed (fun _ => True) (do
        let x ← Effect.naming n
        let v ← value x
        Effect.writeAll p (cells x) v)
  | bind {α β : Type} {P : α → Prop} {Q : β → Prop} {c : Effect α} {g : α → Effect β}
      (hc : Composed P c) (hg : ∀ x, P x → Composed Q (g x)) : Composed Q (c >>= g)

/-- A relation between the memory before and the memory after that looking up and reading keep,
where the memory before is as required. -/
structure KeptByReads (I : Memory → Prop) (R : Memory → Memory → Prop) : Prop where
  refl {m : Memory} : I m → R m m
  trans {m m' m'' : Memory} : R m m' → R m' m'' → R m m''
  after {m m' : Memory} : R m m' → I m'
  lookup {m : Memory} {γ : Type} {n : Naming γ} {cells : γ → IdSet} : Lookup p T n cells → I m →
    R m ((Effect.naming n).run m).2
  read {m : Memory} (ids : IdSet) : I m → V (m.read ids)

/-- A relation that writing keeps as well. Something may have happened between looking up the
cells and writing to them. -/
structure KeptByWrites (I : Memory → Prop) (R : Memory → Memory → Prop) : Prop extends
    KeptByReads p T V I R where
  write {m m' : Memory} {γ : Type} {n : Naming γ} {cells : γ → IdSet} {v : Value} :
    Lookup p T n cells → I m → R ((Effect.naming n).run m).2 m' → V v →
    R m' ((Effect.writeAll p (cells (n.run m.arena).1) v).run m').2

end

variable {p : Problem} {T : Fragment} {V : Value → Prop} {I : Memory → Prop}
  {R : Memory → Memory → Prop} {α β γ : Type} {P : α → Prop} {Q : β → Prop}

/-- What looking up and reading keep is kept by everything that is put together from them. -/
theorem ReadsOnly.run {c : Effect α} (h : ReadsOnly p T V P c) (hR : KeptByReads p T V I R)
    {m : Memory} (hm : I m) : P (c.run m).1 ∧ R m (c.run m).2 := by
  induction h generalizing m with
  | pure hx => exact ⟨hx, hR.refl hm⟩
  | lookup hn => exact ⟨trivial, hR.lookup hn hm⟩
  | read ids => exact ⟨hR.read ids hm, hR.refl hm⟩
  | bind _ _ ihc ihg =>
      obtain ⟨hx, hfirst⟩ := ihc hm
      obtain ⟨hy, hrest⟩ := ihg _ hx (hR.after hfirst)
      exact ⟨hy, hR.trans hfirst hrest⟩

/-- The same with writing. -/
theorem Composed.run {c : Effect α} (h : Composed p T V P c) (hR : KeptByWrites p T V I R)
    {m : Memory} (hm : I m) : P (c.run m).1 ∧ R m (c.run m).2 := by
  induction h generalizing m with
  | reads hc => exact hc.run hR.toKeptByReads hm
  | write hn hvalue =>
      have hfound := hR.lookup hn hm
      obtain ⟨hv, hcomputed⟩ := (hvalue _).run hR.toKeptByReads (hR.after hfound)
      have hwritten := hR.write hn hm hcomputed hv
      exact ⟨trivial, hR.trans (hR.trans hfound hcomputed) hwritten⟩
  | bind _ _ ihc ihg =>
      obtain ⟨hx, hfirst⟩ := ihc hm
      obtain ⟨hy, hrest⟩ := ihg _ hx (hR.after hfirst)
      exact ⟨hy, hR.trans hfirst hrest⟩

namespace ReadsOnly

theorem mapM {l : List α} {g : α → Effect β} (h : ∀ x ∈ l, ReadsOnly p T V Q (g x)) :
    ReadsOnly p T V (fun ys => ∀ y ∈ ys, Q y) (l.mapM g) := by
  induction l with
  | nil => exact .pure fun _ hy => absurd hy List.not_mem_nil
  | cons x rest ih =>
      rw [List.mapM_cons]
      exact .bind (h x List.mem_cons_self) fun y hy =>
        .bind (ih fun z hz => h z (List.mem_cons_of_mem x hz)) fun ys hys =>
          .pure (List.forall_mem_cons.mpr ⟨hy, hys⟩)

end ReadsOnly

namespace Composed

theorem pure {x : α} (h : P x) : Composed p T V P (Pure.pure x) :=
  .reads (.pure h)

/-- A value is written that was known before the cells were looked up. -/
theorem writeAll {n : Naming γ} {cells : γ → IdSet} (h : Lookup p T n cells) {v : Value}
    (hv : V v) : Composed p T V (fun _ => True) (do
      let x ← Effect.naming n
      Effect.writeAll p (cells x) v) :=
  .write h fun _ => .pure hv

theorem forM {l : List α} {g : α → Effect Unit}
    (h : ∀ x ∈ l, Composed p T V (fun _ => True) (g x)) :
    Composed p T V (fun _ => True) (l.forM g) := by
  induction l with
  | nil => exact .pure trivial
  | cons x rest ih =>
      exact .bind (h x List.mem_cons_self) fun _ _ => ih fun y hy => h y (List.mem_cons_of_mem x hy)

theorem foldlM {l : List β} {g : α → β → Effect α}
    (h : ∀ y, P y → ∀ x ∈ l, Composed p T V P (g y x)) {y : α} (hy : P y) :
    Composed p T V P (l.foldlM g y) := by
  induction l generalizing y with
  | nil => exact .pure hy
  | cons x rest ih =>
      rw [List.foldlM_cons]
      exact .bind (h y hy x List.mem_cons_self) fun z hz =>
        ih (fun y' hy' x' hx => h y' hy' x' (List.mem_cons_of_mem x hx)) hz

end Composed

/-! ## Expressions -/

variable {s : State} {around : Surroundings}

/-- A variable that does not live in memory has no cells to read. -/
theorem evalVar_eq (s : State) (v : VarId) : p.evalVar s v = (do
    let ids ← Effect.naming (p.storageOf v)
    return (s.get v).join (← Effect.read ids)) := by
  funext m
  have hright : (do
      let ids ← Effect.naming (p.storageOf v)
      return (s.get v).join (← Effect.read ids) : Effect Value).run m =
        ((s.get v).join (Memory.read { m with arena := ((p.storageOf v).run m.arena).2 }
          ((p.storageOf v).run m.arena).1),
          { m with arena := ((p.storageOf v).run m.arena).2 }) := rfl
  show (p.evalVar s v).run m = _
  refine Eq.trans ?_ hright.symm
  rw [Problem.storageOf_run]
  simp only [Problem.evalVar, StateT.run_bind, StateT.run_get, pure_bind]
  by_cases hv : p.pointsTo.livesInMemory m.arena v = true
  · rw [if_pos hv, if_pos hv]
    rfl
  · rw [if_neg hv, if_neg hv, Memory.read_empty, Value.join_bottom]
    rfl

section

variable (hV : Value.Closed V) (hs : ∀ v, V (s.get v))

include hV hs

theorem evalVar_readsOnly (v : VarId) : ReadsOnly p T V V (p.evalVar s v) := by
  rw [evalVar_eq]
  exact .bind (.lookup (.storage v)) fun ids _ =>
    .bind (.read ids) fun _ hx => .pure (hV.join (hs v) hx)

theorem addressTaint_readsOnly (base : VarId) (r : Resolution) {c : Effect Value}
    (hc : ReadsOnly p T V V c) : ReadsOnly p T V V (p.addressTaint s base r c) := by
  have hrest (x : Value) (hx : V x) : ReadsOnly p T V V (do
      let pointers ← Effect.read r.pointerCells
      return (x.join pointers).join (← c)) :=
    .bind (.read _) fun _ hy => .bind hc fun _ hz => .pure (hV.join (hV.join hx hy) hz)
  rw [Problem.addressTaint]
  split
  · exact .bind (evalVar_readsOnly hV hs base) hrest
  · exact .bind (.pure hV.bottom) hrest

end

mutual

theorem eval_readsOnly (hV : Value.Closed V) (hs : ∀ v, V (s.get v)) :
    ∀ e : Expr, T.expr e → ReadsOnly p T V V (p.eval s e)
  | .var v, _ => by
      rw [Problem.eval]
      exact evalVar_readsOnly hV hs v
  | .const _, _ => by
      rw [Problem.eval]
      exact .pure hV.bottom
  | .unary _ e, h => by
      rw [Problem.eval]
      exact eval_readsOnly hV hs e (T.unary h)
  | .binary _ l r, h => by
      rw [Problem.eval]
      exact .bind (eval_readsOnly hV hs l (T.left h)) fun _ hx =>
        .bind (eval_readsOnly hV hs r (T.right h)) fun _ hy => .pure (hV.join hx hy)
  | .addrOf q, h => by
      have hpositions := evalPositions_readsOnly hV hs q (T.addressed h)
      rw [Problem.eval]
      exact .bind (.lookup (.place (T.addressed h))) fun r _ =>
        .bind (addressTaint_readsOnly hV hs q.base r hpositions) fun _ hx =>
          .pure (hV.toIndirect hx)

theorem evalPositions_readsOnly (hV : Value.Closed V) (hs : ∀ v, V (s.get v)) :
    ∀ q : Place, T.place q → ReadsOnly p T V V (p.evalPositions s q)
  | .var _, _ => by
      rw [Problem.evalPositions]
      exact .pure hV.bottom
  | .deref inner, h => by
      rw [Problem.evalPositions]
      exact evalPositions_readsOnly hV hs inner (T.deref h)
  | .field inner _, h => by
      rw [Problem.evalPositions]
      exact evalPositions_readsOnly hV hs inner (T.field h)
  | .index inner e, h => by
      rw [Problem.evalPositions]
      exact .bind (evalPositions_readsOnly hV hs inner (T.indexed h)) fun _ hx =>
        .bind (eval_readsOnly hV hs e (T.position h)) fun _ hy => .pure (hV.join hx hy)

end

section

variable (hV : Value.Closed V) (hs : ∀ v, V (s.get v))

include hV hs

theorem evalArgument_readsOnly {arg : Expr} (harg : T.expr arg) :
    ReadsOnly p T V V (p.evalArgument s arg) :=
  .bind (.lookup (.targets harg)) fun ids _ => .bind (eval_readsOnly hV hs arg harg) fun _ hx =>
    .bind (.read ids) fun _ hy => .pure (hV.join hx hy)

/-- What a terminator says about the branch and about the returned value. -/
theorem terminate_readsOnly (haround : around.All V) {t : Terminator}
    (ht : ∀ e, t.operand? = some e → T.expr e) :
    ReadsOnly p T V (fun x => V x.1 ∧ V x.2) (p.terminate around s t) := by
  cases t with
  | jump target | missing => exact .pure ⟨hV.bottom, hV.bottom⟩
  | branch condition thenBlock elseBlock =>
      exact .bind (eval_readsOnly hV hs condition (ht condition rfl)) fun _ hx =>
        .pure ⟨hx, hV.bottom⟩
  | ret value =>
      cases value with
      | none => exact .pure ⟨hV.bottom, hV.bottom⟩
      | some value =>
          exact .bind (eval_readsOnly hV hs value (ht value rfl)) fun _ hx =>
            .pure ⟨hV.bottom, hV.join hx haround.control⟩

end

/-! ## Instructions -/

/-- A variable that does not live in memory has no cells to write to. -/
theorem define_eq_writeAll (s : State) (v : VarId) (value : Value) : p.define s v value = (do
    let ids ← Effect.naming (p.storageOf v)
    Effect.writeAll p ids value
    return s.set v value) := by
  funext m
  have hright : (do
      let ids ← Effect.naming (p.storageOf v)
      Effect.writeAll p ids value
      return s.set v value : Effect State).run m = (do
        Effect.writeAll p ((p.storageOf v).run m.arena).1 value
        return s.set v value : Effect State).run
          { m with arena := ((p.storageOf v).run m.arena).2 } := rfl
  show (p.define s v value).run m = _
  refine Eq.trans ?_ hright.symm
  rw [Problem.storageOf_run]
  simp only [Problem.define, StateT.run_bind, StateT.run_get, pure_bind]
  by_cases hv : p.pointsTo.livesInMemory m.arena v = true
  · rw [if_pos hv, if_pos hv]
    rfl
  · rw [if_neg hv, if_neg hv]
    rfl

theorem writeThrough_composed {value : Value} (hvalue : V value) {arg : Expr} (harg : T.expr arg) :
    Composed p T V (fun _ => True) (p.writeThrough value arg) :=
  .writeAll (.targets harg) hvalue

section

variable (hs : ∀ v, V (s.get v))

include hs

theorem State.get_set_of_all (v : VarId) {x : Value} (hx : V x) (w : VarId) :
    V ((s.set v x).get w) := by
  rw [State.get_set]
  split
  · exact hx
  · exact hs w

theorem define_composed (v : VarId) {value : Value} (hvalue : V value) :
    Composed p T V (fun t => ∀ w, V (t.get w)) (p.define s v value) := by
  rw [define_eq_writeAll, ← bind_assoc]
  exact .bind (.writeAll (.storage v) hvalue) fun _ _ => .pure (State.get_set_of_all hs v hvalue)

end

section

variable (hV : Value.Closed V) (hs : ∀ v, V (s.get v)) (haround : around.All V)

include hV hs haround

/-- What the callee writes through its parameters is written through the arguments. -/
theorem summaryLoop_composed {args : List Expr} (hargs : ∀ arg ∈ args, T.expr arg)
    {actuals : List Value} (hactuals : ∀ a ∈ actuals, V a) (outs : List (Nat × Value)) :
    Composed p T V (fun t => ∀ w, V (t.get w))
      (do
        for (i, written) in outs do
          if let some arg := args[i]? then
            p.writeThrough ((written.substitute actuals).join around.control) arg
        return s) := by
  induction outs with
  | nil => exact .pure hs
  | cons out rest ih =>
      obtain ⟨i, written⟩ := out
      rw [List.forIn_cons]
      cases harg : args[i]? with
      | none =>
          simp only [pure_bind, harg]
          exact ih
      | some arg =>
          simp only [bind_assoc, pure_bind, harg]
          have hwritten := hV.join (hV.substitute (x := written) hactuals) haround.control
          exact .bind (writeThrough_composed hwritten (hargs arg (List.mem_of_getElem? harg)))
            fun _ _ => ih

theorem callKnown_composed (dst : Option VarId) (callee : Callee) {args : List Expr}
    (hargs : ∀ arg ∈ args, T.expr arg) {actuals : List Value} (hactuals : ∀ a ∈ actuals, V a)
    (summary : Summary) : Composed p T V (fun t => ∀ w, V (t.get w))
      (p.callKnown around s dst callee args actuals summary) := by
  have hloop (t : State) (ht : ∀ v, V (t.get v)) := summaryLoop_composed (p := p) (s := t) hV ht
    haround hargs hactuals summary.outs
  cases dst with
  | none => exact .bind (.pure hs) hloop
  | some v =>
      have hreturned := hV.substitute (x := summary.returned) hactuals
      have hresult := hV.join (hV.join hreturned haround.control) haround.widening
      refine .bind (define_composed hs v ?_) hloop
      split
      · exact hV.join hresult haround.depth
      · exact hresult

omit hV haround in
theorem callUnknown_composed (hall : V p.allSources) (dst : Option VarId) {args : List Expr}
    (hargs : ∀ arg ∈ args, T.expr arg) :
    Composed p T V (fun t => ∀ w, V (t.get w)) (p.callUnknown s dst args) := by
  have hrest (t : State) (ht : ∀ v, V (t.get v)) : Composed p T V (fun t => ∀ w, V (t.get w))
      (do args.forM (p.writeThrough p.allSources); return t) :=
    .bind (.forM fun arg harg => writeThrough_composed hall (hargs arg harg)) fun _ _ => .pure ht
  cases dst with
  | none => exact .bind (.pure hs) hrest
  | some v => exact .bind (define_composed hs v hall) hrest

/-- What an instruction does, if unknown code is tainted by nothing that is not allowed. -/
theorem transfer_composed (hall : V p.allSources) {i : Instruction} (hi : T.Covers i) :
    Composed p T V (fun t => ∀ w, V (t.get w)) (p.transfer around s i) := by
  have hadd {x : Value} (hx : V x) : V ((x.join around.control).join around.widening) :=
    hV.join (hV.join hx haround.control) haround.widening
  have haddress (q : Place) (hq : T.place q) (r : Resolution) : ReadsOnly p T V V
      (p.addressTaint s q.base r (p.evalPositions s q)) :=
    addressTaint_readsOnly hV hs q.base r (evalPositions_readsOnly hV hs q hq)
  cases i with
  | assign dst e | cast dst e ty =>
      exact .bind (.reads (eval_readsOnly hV hs e (hi.operands e List.mem_cons_self)))
        fun x hx => define_composed hs dst (hadd hx)
  | load dst q =>
      have hq := hi.place q rfl
      exact .bind (.reads (.lookup (.place hq))) fun r _ => .bind (.reads (haddress q hq r))
        fun _ haddr => .bind (.reads (.read r.targets)) fun _ hx =>
          define_composed hs dst (hadd (hV.join hx (hV.toIndirect haddr)))
  | store q src =>
      -- the cells are looked up first, and what is written to them is computed then
      have hq := hi.place q rfl
      have hsrc := eval_readsOnly (p := p) hV hs src (hi.operands src List.mem_cons_self)
      have hwrite := Composed.write (V := V) (.place hq) fun r => .bind (haddress q hq r)
        fun _ haddr => .bind hsrc fun _ hx =>
          .pure (hV.join (hV.join hx (hV.toIndirect haddr)) haround.control)
      have hstore := hwrite.bind (Q := fun t : State => ∀ w, V (t.get w)) fun _ _ => .pure hs
      simp only [bind_assoc, pure_bind] at hstore
      exact hstore
  | call dst callee args =>
      have hargs : ∀ arg ∈ args, T.expr arg := fun arg harg =>
        hi.operands arg (List.mem_append_right _ harg)
      refine .bind (.reads (.mapM fun arg harg => evalArgument_readsOnly hV hs (hargs arg harg)))
        fun actuals hactuals => ?_
      cases p.summaryOf? callee with
      | some summary => exact callKnown_composed hV hs haround dst callee hargs hactuals summary
      | none => exact callUnknown_composed hs hall dst hargs
  | opaqueCode vars reason =>
      exact .foldlM (fun t ht v hv => .bind (define_composed ht v hall) fun t ht =>
        .bind (writeThrough_composed hall (hi.touched vars reason rfl v hv)) fun _ _ => .pure ht) hs

theorem transferAll_composed (hall : V p.allSources) {is : List Instruction}
    (his : ∀ i ∈ is, T.Covers i) :
    Composed p T V (fun t => ∀ w, V (t.get w)) (p.transferAll around s is) :=
  .foldlM (fun _ ht i hi => transfer_composed hV ht haround hall (his i hi)) hs

end

/-! ## Blocks -/

namespace Problem

/-- What is left of a block after one of its instructions. -/
def finishBlock (p : Problem) (around : Surroundings) (s : State)
    (after : List Instruction) (t : Terminator) : Effect (State × Value × Value) := do
  let s ← p.transferAll around s after
  return (s, ← p.terminate around s t)

end Problem

theorem finishBlock_composed (hV : Value.Closed V) (hs : ∀ v, V (s.get v))
    (haround : around.All V) (hall : V p.allSources) {is : List Instruction}
    (his : ∀ i ∈ is, T.Covers i) {t : Terminator} (ht : ∀ e, t.operand? = some e → T.expr e) :
    Composed p T V (fun x => (∀ w, V (x.1.get w)) ∧ V x.2.1 ∧ V x.2.2)
      (p.finishBlock around s is t) :=
  .bind (transferAll_composed hV hs haround hall his) fun _ hstate =>
    .bind (.reads (terminate_readsOnly hV hstate haround ht)) fun _ hx => .pure ⟨hstate, hx⟩

end TaintAnalysis
