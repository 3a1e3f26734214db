import TaintAnalysis.Flow.Graph
import TaintAnalysis.Proofs.Memory.FactOrder
import TaintAnalysis.Proofs.Memory.NamedStorage

/-!
# Handing a store over to a callee

A store through a pointer variable can be replaced by a call of a function that stores
its second argument in what the first one refers to. To the pointer analysis the two are
different instructions: the store records which pointers it puts into memory, the call
does not.

If no address is stored, the store records nothing either. Then the analysis of the one
function takes the same steps as that of the other, names the same locations in the same
order, and ends with the same facts (`analyze_delegated`).
-/

namespace TaintAnalysis

open Arena

/-- A store through a pointer variable is left as it is, or handed over to a function. -/
inductive Instruction.Delegated (setter : String) (P : VarId → Expr → Prop) :
    Instruction → Instruction → Prop where
  | same (i : Instruction) : Delegated setter P i i
  | store (q : VarId) (e : Expr) (h : P q e) : Delegated setter P
      (.store (.deref (.var q)) e) (.call none (.direct setter) [.var q, e])

/-- Some stores of the block are handed over. -/
structure Block.Delegated (setter : String) (P : VarId → Expr → Prop) (block block' : Block) :
    Prop where
  instructions : List.Forall₂ (Instruction.Delegated setter P) block.instructions
    block'.instructions
  terminator : block'.terminator = block.terminator

/-- Some stores of the function are handed over. -/
structure Function.Delegated (setter : String) (P : VarId → Expr → Prop) (f f' : Function) :
    Prop where
  blocks : List.Forall₂ (fun e e' => e'.1 = e.1 ∧ e.2.Delegated setter P e'.2)
    f.blocks.entries f'.blocks.entries
  rest : f' = { f with blocks := f'.blocks }

/-! ## What stays the same -/

theorem exists_related {α β : Type} {R : α → β → Prop} {l : List α} {l' : List β}
    (h : List.Forall₂ R l l') {x : α} (hx : x ∈ l) : ∃ y ∈ l', R x y := by
  induction h with
  | nil => exact absurd hx List.not_mem_nil
  | cons hxy _ ih =>
      rcases List.mem_cons.mp hx with rfl | hx
      · exact ⟨_, List.mem_cons_self, hxy⟩
      · obtain ⟨y, hy, hxy⟩ := ih hx
        exact ⟨y, List.mem_cons_of_mem _ hy, hxy⟩

namespace Function.Delegated

variable {setter : String} {P : VarId → Expr → Prop} {f f' : Function}

theorem vars_eq (h : f.Delegated setter P f') : f'.vars = f.vars := by
  rw [h.rest]

theorem values (h : f.Delegated setter P f') :
    List.Forall₂ (Block.Delegated setter P) f.blocks.values f'.blocks.values := by
  rw [OrderedMap.values, OrderedMap.values, List.forall₂_map_left_iff, List.forall₂_map_right_iff]
  exact h.blocks.imp fun _ _ hb => hb.2

theorem instructions (h : f.Delegated setter P f') :
    List.Forall₂ (Instruction.Delegated setter P) f.instructions f'.instructions :=
  List.rel_flatMap h.values fun _ _ hb => hb.instructions

/-- What is collected from the function is the same if it is the same for the two instructions. -/
theorem flatMap_eq (h : f.Delegated setter P f') {β : Type} {g : Instruction → List β}
    {e : Terminator → List β} (hg : ∀ q src, g (.call none (.direct setter) [.var q, src]) =
      g (.store (.deref (.var q)) src)) :
    f'.blocks.values.flatMap (fun b => b.instructions.flatMap g ++ e b.terminator) =
      f.blocks.values.flatMap fun b => b.instructions.flatMap g ++ e b.terminator := by
  rw [eq_comm, ← List.forall₂_eq_eq_eq]
  refine List.rel_flatMap h.values fun b b' hb => ?_
  rw [hb.terminator]
  refine List.rel_append (List.rel_flatMap hb.instructions fun i i' hi => ?_) ?_
  · rw [List.forall₂_eq_eq_eq]
    cases hi with
    | same => rfl
    | store q src _ => exact (hg q src).symm
  · rw [List.forall₂_eq_eq_eq]

/-- The control flow is the same. -/
theorem graph_eq (h : f.Delegated setter P f') : Graph.ofFunction f' = Graph.ofFunction f := by
  have hedges : f'.blocks.mapValues (fun _ block => block.successors) =
      f.blocks.mapValues fun _ block => block.successors := by
    refine OrderedMap.eq_of_entries ?_
    show f'.blocks.entries.map _ = f.blocks.entries.map _
    rw [eq_comm, ← List.forall₂_eq_eq_eq, List.forall₂_map_left_iff, List.forall₂_map_right_iff]
    refine h.blocks.imp fun e e' he => ?_
    show (e.1, e.2.terminator.successors) = (e'.1, e'.2.terminator.successors)
    rw [he.2.terminator, he.1]
  have hexits : (f'.blocks.entries.filter fun e => e.2.terminator.isReturn).map Prod.fst =
      (f.blocks.entries.filter fun e => e.2.terminator.isReturn).map Prod.fst := by
    rw [eq_comm, ← List.forall₂_eq_eq_eq, List.forall₂_map_left_iff, List.forall₂_map_right_iff]
    refine (List.rel_filter (fun e e' he => ?_) h.blocks).imp fun e e' he => he.1.symm
    show e.2.terminator.isReturn = true ↔ e'.2.terminator.isReturn = true
    rw [he.2.terminator]
  have hentry : f'.entry = f.entry := by rw [h.rest]
  rw [Graph.ofFunction, Graph.ofFunction, hentry, hedges, hexits]

theorem block? (h : f.Delegated setter P f') {b : BlockId} {block : Block}
    (hblock : f.block? b = some block) :
    ∃ block', f'.block? b = some block' ∧ block.Delegated setter P block' := by
  obtain ⟨⟨b', block'⟩, hmem, hkey, hdelegated⟩ :=
    exists_related h.blocks (OrderedMap.get?_eq_some_iff.mp hblock)
  obtain rfl : b' = b := hkey
  exact ⟨block', OrderedMap.get?_eq_some_iff.mpr hmem, hdelegated⟩

end Function.Delegated

namespace PathFacts

/-- A store that can be handed over: something is known about the pointer, and what is stored
carries no address. -/
structure Delegable (m : PathFacts) (q : VarId) (e : Expr) : Prop where
  pointer : m.IsPointer q
  told : m.vars q ≠ []
  plain : m.exprTargets e = []

variable {m : PathFacts} {l : Location}

/-- The store writes where the value of the pointer leads. -/
theorem Delegable.resolve {q : VarId} {e : Expr} (h : m.Delegable q e) :
    m.resolve (.deref (.var q)) = ⟨m.exprTargets (.var q), [], true⟩ := by
  have htold : m.varTargets q ≠ [] := varTargets_pointer h.pointer ▸ h.told
  simp only [PathFacts.resolve, follow, derefVar, exprTargets,
    if_neg fun hnil => htold (List.isEmpty_iff.mp hnil)]

/-! ## A path leads somewhere -/

theorem storedTargets_ne_nil (m : PathFacts) (l : Location) : m.storedTargets true l ≠ [] := by
  rw [storedTargets]
  split
  · exact List.cons_ne_nil _ _
  · split
    · next hknown => exact fun hnil => by simp [hnil] at hknown
    · split
      · exact List.cons_ne_nil _ _
      · exact List.cons_ne_nil _ _

theorem derefVar_ne_nil (m : PathFacts) (v : VarId) : m.derefVar v ≠ [] := by
  rw [derefVar]
  split
  · exact List.cons_ne_nil _ _
  · next hne => exact fun hnil => hne (List.isEmpty_iff.mpr hnil)

theorem indexed_ne_nil (m : PathFacts) (index : Option Int) (l : Location) :
    m.indexed index l ≠ [] := by
  rw [indexed]
  split
  · exact fun hnil => storedTargets_ne_nil m l (List.map_eq_nil_iff.mp hnil)
  · exact List.cons_ne_nil _ _

theorem flatMap_ne_nil {ls : List Location} {g : Location → List Location} (hls : ls ≠ [])
    (hg : ∀ l, g l ≠ []) : ls.flatMap g ≠ [] := by
  obtain ⟨l, hl⟩ := List.exists_mem_of_ne_nil _ hls
  exact fun hnil => hg l (List.flatMap_eq_nil_iff.mp hnil l hl)

/-- There is no path that leads to no location. -/
theorem reached_ne_nil (m : PathFacts) : ∀ (p : Place) {ls : List Location},
    (m.follow p).reached = .inr ls → ls ≠ []
  | .var _, _, h => nomatch h
  | .deref p, ls, h => by
      simp only [follow] at h
      split at h
      · exact Sum.inr.inj h ▸ derefVar_ne_nil m _
      · next ls' hls =>
        exact Sum.inr.inj h ▸ flatMap_ne_nil (reached_ne_nil m p hls) (storedTargets_ne_nil m)
  | .index p e, ls, h => by
      simp only [follow] at h
      split at h
      · split at h
        · exact Sum.inr.inj h ▸ fun hnil => derefVar_ne_nil m _ (List.map_eq_nil_iff.mp hnil)
        · exact Sum.inr.inj h ▸ List.cons_ne_nil _ _
      · next ls' hls =>
        exact Sum.inr.inj h ▸ flatMap_ne_nil (reached_ne_nil m p hls) (indexed_ne_nil m _)
  | .field p name, ls, h => by
      simp only [follow] at h
      split at h
      · exact Sum.inr.inj h ▸ List.cons_ne_nil _ _
      · next ls' hls =>
        exact Sum.inr.inj h ▸ fun hnil => reached_ne_nil m p hls (List.map_eq_nil_iff.mp hnil)

theorem resolve_ne_nil (m : PathFacts) (p : Place) : (m.resolve p).targets ≠ [] := by
  rw [PathFacts.resolve]
  split
  · exact List.cons_ne_nil _ _
  · next ls hls => exact reached_ne_nil m p hls

end PathFacts

namespace PointsTo

/-- The same facts, about another function. -/
def about (m : PointsTo) (f' : Function) : PointsTo :=
  { m with function := f' }

/-- The value of the expression carries no address that is known. -/
def Addressless (m : PointsTo) : Expr → Prop
  | .var v => m.isArrayVar v = false ∧ m.targetsOf v = .empty
  | .addrOf _ => False
  | .binary op l r => op.movesPointer = true → m.Addressless l ∧ m.Addressless r
  | .unary .. | .const _ => True

variable {m m' : PointsTo} {a : Arena} {e : Expr} {i i' : Instruction}

theorem Addressless.run_exprTargets : ∀ {e : Expr}, m.Addressless e →
    (m.exprTargets e).run a = (.empty, a)
  | .var v, h => by
      obtain ⟨harray, hnone⟩ := h
      rw [exprTargets, varTargets, if_neg (Bool.eq_false_iff.mp harray), hnone]
      rfl
  | .const _, _ | .unary .., _ => rfl
  | .addrOf _, h => h.elim
  | .binary op l r, h => by
      rw [exprTargets]
      split
      · next hop =>
        show (Arena.collect (((m.exprTargets l).run a).1 ∪
          ((m.exprTargets r).run ((m.exprTargets l).run a).2).1)
            (Arena.shifted m.maxTrackedIndex)).run
              ((m.exprTargets r).run ((m.exprTargets l).run a).2).2 = (.empty, a)
        rw [(h hop).1.run_exprTargets, (h hop).2.run_exprTargets]
        rfl
      · rfl

/-- With fewer facts no more addresses are known. -/
theorem Addressless.of_gains (hgains : m.Gains m') : ∀ {e : Expr}, m'.Addressless e →
    m.Addressless e
  | .var v, h => by
      obtain ⟨harray, hnone⟩ := h
      rw [isArrayVar, hgains.function] at harray
      refine ⟨harray, IdSet.ext fun id => ⟨fun hid => ?_, fun hid => absurd hid (by simp)⟩⟩
      exact hnone ▸ hgains.vars v id hid
  | .const _, _ | .unary .., _ => trivial
  | .addrOf _, h => h.elim
  | .binary .., h => fun hop => ⟨(h hop).1.of_gains hgains, (h hop).2.of_gains hgains⟩

/-- The facts by path say the same. -/
theorem addressless_of_exprTargets {D : Nat} : ∀ {e : Expr},
    (m.pathFacts D a).exprTargets e = [] → m.Addressless e
  | .var v, h => by
      rw [PathFacts.exprTargets, PathFacts.varTargets] at h
      split at h
      · exact absurd h (List.cons_ne_nil _ _)
      · next harray =>
        refine ⟨Bool.eq_false_iff.mpr harray, IdSet.ext fun id => ⟨fun hid => ?_, fun hid =>
          absurd hid (IdSet.not_mem_empty id)⟩⟩
        have hmem : a.location id ∈ (m.pathFacts D a).vars v := List.mem_map_of_mem hid
        exact absurd hmem (h ▸ List.not_mem_nil)
  | .const _, _ | .unary .., _ => trivial
  | .addrOf p, h => PathFacts.resolve_ne_nil _ p h
  | .binary op l r, h => fun hop => by
      rw [PathFacts.exprTargets, if_pos hop, List.map_eq_nil_iff, List.append_eq_nil_iff] at h
      exact ⟨addressless_of_exprTargets h.1, addressless_of_exprTargets h.2⟩

/-! ## The same facts about another function -/

section

variable {f' : Function} (h : f'.vars = m.function.vars)

include h

theorem isPointerVar_about (v : VarId) : (m.about f').isPointerVar v = m.isPointerVar v := by
  rw [isPointerVar, isPointerVar, ← Function.ty?_congr h]
  rfl

theorem isArrayVar_about (v : VarId) : (m.about f').isArrayVar v = m.isArrayVar v := by
  rw [isArrayVar, isArrayVar, ← Function.ty?_congr h]
  rfl

theorem varLocation_about (v : VarId) : (m.about f').varLocation v = m.varLocation v := by
  rw [varLocation, varLocation, ← Function.ty?_congr h]
  rfl

theorem varTargets_about (v : VarId) : (m.about f').varTargets v = m.varTargets v := by
  rw [varTargets, varTargets, isArrayVar_about h, varLocation_about h]
  rfl

theorem derefVar_about (v : VarId) : (m.about f').derefVar v = m.derefVar v := by
  rw [derefVar, derefVar, varTargets_about h]

theorem follow_about : ∀ p : Place, (m.about f').follow p = m.follow p
  | .var _ => rfl
  | .deref p => by
      simp only [follow, follow_about p, derefVar_about h]
      rfl
  | .index p _ => by
      simp only [follow, follow_about p, isPointerVar_about h, derefVar_about h,
        varLocation_about h]
      rfl
  | .field p _ => by
      simp only [follow, follow_about p, varLocation_about h]

theorem resolve_about (p : Place) : (m.about f').resolve p = m.resolve p := by
  simp only [resolve, follow_about h, varLocation_about h]

theorem exprTargets_about : ∀ e : Expr, (m.about f').exprTargets e = m.exprTargets e
  | .var v => varTargets_about h v
  | .const _ | .unary .. => rfl
  | .addrOf p => by
      simp only [exprTargets, resolve_about h]
  | .binary _ l r => by
      simp only [exprTargets, exprTargets_about l, exprTargets_about r]
      rfl

theorem registerExpr_about : ∀ e : Expr, (m.about f').registerExpr e = m.registerExpr e
  | .var _ | .const _ => rfl
  | .addrOf p => by
      simp only [registerExpr, resolve_about h]
  | .unary _ e => by
      simp only [registerExpr, registerExpr_about e]
  | .binary _ l r => by
      simp only [registerExpr, registerExpr_about l, registerExpr_about r]

omit h in
theorem addVarTargets_about (v : VarId) (targets : IdSet) :
    (m.about f').addVarTargets v targets = (m.addVarTargets v targets).about f' := by
  rw [addVarTargets, addVarTargets]
  split
  · rfl
  · rfl

omit h in
/-- Adding facts one after the other does not depend on what the facts are about. -/
theorem foldl_about {α : Type} {g : PointsTo → α → PointsTo}
    (hg : ∀ (m : PointsTo) x, g (m.about f') x = (g m x).about f') (l : List α) :
    l.foldl g (m.about f') = (l.foldl g m).about f' := by
  induction l generalizing m with
  | nil => rfl
  | cons x rest ih => rw [List.foldl_cons, List.foldl_cons, hg, ih]

/-- Propagating through an instruction adds the same facts. -/
theorem propagate_about (i : Instruction) (a : Arena) :
    ((m.about f').propagate i).run a =
      (((m.propagate i).run a).1.about f', ((m.propagate i).run a).2) := by
  have hassign (dst : VarId) (n : Naming IdSet) :
      ((if m.isPointerVar dst then do return (m.about f').addVarTargets dst (← n)
        else return m.about f' : Naming PointsTo).run a) =
      ((((if m.isPointerVar dst then do return m.addVarTargets dst (← n)
        else return m : Naming PointsTo).run a).1).about f',
        ((if m.isPointerVar dst then do return m.addVarTargets dst (← n)
          else return m : Naming PointsTo).run a).2) := by
    split
    · exact congrArg (·, _) (addVarTargets_about dst _)
    · rfl
  cases i with
  | assign dst e | cast dst e _ =>
      simp only [propagate, isPointerVar_about h, exprTargets_about h]
      exact hassign dst _
  | load dst place =>
      simp only [propagate, isPointerVar_about h, resolve_about h]
      exact hassign dst (do Arena.collectAll (← m.resolve place).targets _)
  | store place src =>
      simp only [propagate, exprTargets_about h, resolve_about h, StateT.run_bind]
      generalize (m.exprTargets src).run a = stored
      show (if stored.1.isEmpty = true then _ else _ : Naming PointsTo).run stored.2 =
        (((if stored.1.isEmpty = true then _ else _ : Naming PointsTo).run stored.2).1.about f',
          ((if stored.1.isEmpty = true then _ else _ : Naming PointsTo).run stored.2).2)
      split
      · rfl
      · exact congrArg (·, _) (foldl_about (fun _ _ => rfl) _)
  | call dst callee args =>
      cases dst with
      | none => rfl
      | some dst =>
          simp only [propagate, isPointerVar_about h]
          split
          · exact congrArg (·, _) (addVarTargets_about dst _)
          · rfl
  | opaqueCode touched reason =>
      have hfilter : (m.about f').isPointerVar = m.isPointerVar :=
        funext fun v => isPointerVar_about h v
      simp only [propagate, hfilter]
      exact congrArg (·, _) (foldl_about (fun m v => addVarTargets_about v _) _)

end

/-! ## Instructions that are handed over -/

section

variable {setter : String} {P : VarId → Expr → Prop} {f f' : Function} {last : PointsTo}
  (hP : ∀ q e, P q e → last.isPointerVar q = true ∧ last.Addressless e)

include hP

/-- A call adds no facts, and neither does a store where no address is stored. -/
theorem propagate_delegated (h : f'.vars = m.function.vars) (hi : i.Delegated setter P i')
    (hlast : m.Gains last) (a : Arena) :
    ((m.about f').propagate i').run a =
      (((m.propagate i).run a).1.about f', ((m.propagate i).run a).2) := by
  cases hi with
  | same => exact propagate_about h i a
  | store q e hqe =>
      have hnone := ((hP q e hqe).2.of_gains hlast).run_exprTargets (a := a)
      rw [store_run_of_isEmpty (by rw [hnone]; rfl), hnone]
      rfl

theorem foldlM_delegated {is is' : List Instruction}
    (his : List.Forall₂ (Instruction.Delegated setter P) is is')
    (h : f'.vars = m.function.vars) (a : Arena)
    (hlast : ((is.foldlM propagate m).run a).1.Gains last) :
    (is'.foldlM propagate (m.about f')).run a =
      (((is.foldlM propagate m).run a).1.about f', ((is.foldlM propagate m).run a).2) := by
  induction his generalizing m a with
  | nil => rfl
  | @cons i i' is is' hi his ih =>
      have hstep := propagate_gains m a i
      have hrest : Gains ((m.propagate i).run a).1
          ((is.foldlM propagate ((m.propagate i).run a).1).run ((m.propagate i).run a).2).1 :=
        foldlM_gains (fun m b _ i _ => propagate_gains m b i) _
      rw [List.foldlM_cons] at hlast ⊢
      rw [List.foldlM_cons, StateT.run_bind,
        propagate_delegated hP h hi (hstep.trans (hrest.trans hlast)) a]
      exact ih (hstep.function ▸ h) _ hlast

/-- Following a pointer variable names nothing, so neither instruction names anything but what
the stored expression names. -/
theorem registerInstruction_delegated (h : f'.vars = m.function.vars)
    (hi : i.Delegated setter P i') (hlast : m.Gains last) :
    (m.about f').registerInstruction i' = m.registerInstruction i := by
  have hexpr : (m.about f').registerExpr = m.registerExpr := funext (registerExpr_about h)
  cases hi with
  | same =>
      simp only [registerInstruction, hexpr, resolve_about h]
  | store q e hqe =>
      have harray : m.isArrayVar q = false := by
        rw [isArrayVar, ← hlast.function]
        exact Ty.isArray_of_isPointer (hP q e hqe).1
      have hresolve : m.resolve (.deref (.var q)) = pure ⟨if (m.targetsOf q).isEmpty then
          .singleton Arena.unknown else m.targetsOf q, .empty, true⟩ := by
        simp only [resolve, follow, derefVar, varTargets, harray, pure_bind, Bool.false_eq_true,
          if_false]
      simp only [registerInstruction, Instruction.place?, Instruction.operands, hexpr, hresolve]
      rfl

end

/-! ## The whole analysis -/

section

variable {setter : String} {P : VarId → Expr → Prop} {f f' : Function} {config : Config}

/-- Both instructions mention the pointer and then what is stored. -/
theorem factBits_delegated (h : f.Delegated setter P f') :
    factBits f' config = factBits f config := by
  have hoccurrences : f'.occurrences = f.occurrences :=
    h.flatMap_eq (g := Instruction.occurrences) (e := Terminator.occurrences) fun _ _ => rfl
  have hfieldNames : f'.fieldNames = f.fieldNames :=
    h.flatMap_eq (g := Instruction.fieldNames) (e := Terminator.fieldNames) fun _ _ => rfl
  rw [factBits, factBits, hoccurrences, hfieldNames, h.vars_eq]

theorem forM_delegated {α : Type} {R : α → α → Prop} {l l' : List α} {g g' : α → Naming Unit}
    (hl : List.Forall₂ R l l') (hg : ∀ x y, R x y → g' y = g x) : l'.forM g' = l.forM g := by
  induction hl with
  | nil => rfl
  | cons hx _ ih =>
      show (do g' _; List.forM _ g') = (do g _; List.forM _ g)
      rw [hg _ _ hx, ih]

theorem initial_delegated (h : f.Delegated setter P f') (a : Arena) :
    (initial f' config).run a =
      (((initial f config).run a).1.about f', ((initial f config).run a).2) := by
  have hfold (l : List (VarId × Nat)) (m : PointsTo) (a : Arena) :
      (l.foldlM (setUp f') (m.about f')).run a =
        (((l.foldlM (setUp f) m).run a).1.about f', ((l.foldlM (setUp f) m).run a).2) := by
    induction l generalizing m a with
    | nil => rfl
    | cons e rest ih =>
        have hstep : (setUp f' (m.about f') e).run a =
            (((setUp f m e).run a).1.about f', ((setUp f m e).run a).2) := by
          rw [setUp, setUp, Function.ty?_congr h.vars_eq]
          cases (f.ty? e.1).bind Ty.pointee? with
          | none => rfl
          | some pointee => exact congrArg (·, _) (addVarTargets_about _ _)
        rw [List.foldlM_cons, List.foldlM_cons, StateT.run_bind, hstep]
        exact ih _ _
  show (f'.params.zipIdx.foldlM (setUp f') _).run a = _
  rw [Function.params_congr h.vars_eq]
  exact hfold _ ⟨f, config.maxTrackedIndex, .empty, .empty⟩ a

theorem registerBlock_delegated {m last : PointsTo} (h : f'.vars = m.function.vars)
    (hP : ∀ q e, P q e → last.isPointerVar q = true ∧ last.Addressless e)
    {block block' : Block} (hblock : block.Delegated setter P block') (hlast : m.Gains last) :
    (m.about f').registerBlock block' = m.registerBlock block := by
  have hexpr : (m.about f').registerExpr = m.registerExpr := funext (registerExpr_about h)
  rw [registerBlock, registerBlock, hblock.terminator, hexpr,
    forM_delegated hblock.instructions fun i i' hi => registerInstruction_delegated hP h hi hlast]

theorem setup_delegated (h : f.Delegated setter P f')
    (hP : ∀ q e, P q e → (analyze f config).1.isPointerVar q = true ∧
      (analyze f config).1.Addressless e) :
    setup f' config = ((setup f config).1.about f', (setup f config).2) := by
  have hlast : (setup f config).1.Gains (analyze f config).1 := saturate_gains _ _
  have hvars : f'.vars = (setup f config).1.function.vars := by
    rw [(setup_gains f config).function, h.vars_eq]
  have hregister : f'.blocks.values.forM ((setup f config).1.about f').registerBlock =
      f.blocks.values.forM (setup f config).1.registerBlock :=
    forM_delegated (h.values) fun _ _ hb => registerBlock_delegated hvars hP hb hlast
  rw [setup, StateT.run_bind, initial_delegated h]
  show StateT.run (do f'.blocks.values.forM ((setup f config).1.about f').registerBlock
                      return (setup f config).1.about f' : Naming PointsTo) _ = _
  rw [hregister]
  rfl

theorem saturate_delegated (h : f.Delegated setter P f') {last : PointsTo}
    (hP : ∀ q e, P q e → last.isPointerVar q = true ∧ last.Addressless e) (bits : Nat)
    (s : PointsTo × Arena) (hs : s.1.function = f) (hlast : (saturate bits s).1.Gains last) :
    saturate bits (s.1.about f', s.2) =
      ((saturate bits s).1.about f', (saturate bits s).2) := by
  have hround (s : PointsTo × Arena) (hs : s.1.function = f)
      (hlast : (s.1.round.run s.2).1.Gains last) : (s.1.about f').round.run s.2 =
        ((s.1.round.run s.2).1.about f', (s.1.round.run s.2).2) := by
    have hvars : f'.vars = s.1.function.vars := by rw [hs, h.vars_eq]
    show (f'.instructions.foldlM propagate (s.1.about f')).run s.2 = _
    rw [round, hs] at hlast ⊢
    exact foldlM_delegated hP (h.instructions) hvars s.2 hlast
  induction s using saturate.induct bits with
  | case1 s next hgrow ih =>
      rw [saturate, if_pos hgrow] at hlast
      have hnext := hround s hs ((saturate_gains bits next).trans hlast)
      rw [saturate, hnext, saturate.eq_1 bits s, if_pos hgrow]
      exact (if_pos hgrow).trans (ih ((round_gains s.1 s.2).function.trans hs) hlast)
  | case2 s next hdone =>
      rw [saturate, if_neg hdone] at hlast
      rw [saturate, hround s hs hlast, saturate.eq_1 bits s, if_neg hdone]
      exact if_neg hdone

/-- Handing over stores in which no address is stored does not change what the analysis finds. -/
theorem analyze_delegated (h : f.Delegated setter (finalFacts f config).Delegable f') :
    analyze f' config = ((analyze f config).1.about f', (analyze f config).2) := by
  have hP (q : VarId) (e : Expr) (hqe : (finalFacts f config).Delegable q e) :
      (analyze f config).1.isPointerVar q = true ∧ (analyze f config).1.Addressless e :=
    ⟨isPointer_iff.mp hqe.pointer, addressless_of_exprTargets hqe.plain⟩
  show saturate (factBits f' config) (setup f' config) = _
  rw [factBits_delegated h, setup_delegated h hP]
  exact saturate_delegated h hP _ _ (setup_gains f config).function (.refl _)

end

end PointsTo

end TaintAnalysis
