import TaintAnalysis.Memory.Saturation
import TaintAnalysis.Proofs.Maps
import TaintAnalysis.Proofs.Memory.Resolution

/-!
# What the pointer analysis leaves behind

The solver starts from the arena in which the pointer analysis ended. Two things
about it matter later. The facts and the arena fit together: every number in the
facts is named, and the arena is well-formed. And the storage of every place
that is loaded from or stored to has been named, because places are registered
before anything is propagated; so accesses to memory name no storage while the
solver runs.

Both are invariants of the steps of the analysis. `Advances` says what every
step keeps, and the loop that repeats the rounds keeps it because a round does.
-/

namespace TaintAnalysis

namespace PointsTo

open Arena

/-- A step of the analysis that keeps facts and arena together. -/
structure Advances (D : Nat) (s t : PointsTo × Arena) : Prop where
  function : t.1.function = s.1.function
  maxTrackedIndex : t.1.maxTrackedIndex = s.1.maxTrackedIndex
  ready : t.1.Ready D t.2
  extend : s.2.Extends t.2

variable {m : PointsTo} {D : Nat} {a b : Arena} {s t u : PointsTo × Arena}

namespace Advances

theorem refl (h : m.Ready D a) : Advances D (m, a) (m, a) :=
  ⟨rfl, rfl, h, .refl a⟩

theorem trans (hst : Advances D s t) (htu : Advances D t u) : Advances D s u :=
  ⟨htu.function.trans hst.function, htu.maxTrackedIndex.trans hst.maxTrackedIndex, htu.ready,
    hst.extend.trans htu.extend⟩

/-- A step that only names locations. -/
theorem of_grows {R : VarId → Prop} (h : m.Ready D a) (hab : GrowsTo (m.layout D) R a b) :
    Advances D (m, a) (m, b) :=
  ⟨rfl, rfl, h.grow hab, hab.extend⟩

end Advances

/-! ## Adding facts -/

theorem addVarTargets_inRange (h : m.InRange a) {targets : IdSet} (v : VarId)
    (htargets : ∀ id ∈ targets, id < a.size) : (m.addVarTargets v targets).InRange a := by
  rw [addVarTargets]
  split
  · exact h
  · refine ⟨fun w id hid => ?_, h.cells⟩
    rw [targetsOf, OrderedMap.get?_insert] at hid
    split at hid
    · rcases IdSet.mem_union.mp hid with hid | hid
      · exact h.vars v id hid
      · exact htargets id hid
    · exact h.vars w id hid

theorem addVarTargets_layout (v : VarId) (targets : IdSet) :
    (m.addVarTargets v targets).layout D = m.layout D := by
  rw [addVarTargets]
  split <;> rfl

theorem addVarTargets_advances (h : m.Ready D a) {targets : IdSet} (v : VarId)
    (htargets : ∀ id ∈ targets, id < a.size) :
    Advances D (m, a) (m.addVarTargets v targets, a) where
  function := congrArg Layout.function (addVarTargets_layout (D := D) v targets)
  maxTrackedIndex := congrArg Layout.maxTrackedIndex (addVarTargets_layout (D := D) v targets)
  ready := ⟨(addVarTargets_layout v targets).symm ▸ h.wellFormed,
    addVarTargets_inRange h.inRange v htargets⟩
  extend := .refl a

theorem addCellTargets_advances (h : m.Ready D a) {targets : IdSet} {id : LocId}
    (hid : id < a.size) (htargets : ∀ t ∈ targets, t < a.size) :
    Advances D (m, a) (m.addCellTargets targets id, a) := by
  refine ⟨rfl, rfl, ⟨h.wellFormed, h.inRange.vars, fun e he => ?_⟩, .refl a⟩
  have hget := OrderedMap.get?_eq_some_iff.mpr he
  rw [addCellTargets, OrderedMap.get?_insert] at hget
  split at hget
  · next hkey =>
    refine ⟨hkey ▸ hid, fun t ht => ?_⟩
    rw [← Option.some.inj hget] at ht
    rcases IdSet.mem_union.mp ht with ht | ht
    · cases hold : m.cells.get? id with
      | none =>
          rw [hold] at ht
          exact absurd ht (IdSet.not_mem_empty t)
      | some old =>
          rw [hold] at ht
          exact (h.inRange.cells _ (OrderedMap.get?_eq_some_iff.mp hold)).2 t ht
    · exact htargets t ht
  · exact h.inRange.cells e (OrderedMap.get?_eq_some_iff.mp hget)

/-- Adding facts one after the other while nothing is named. -/
theorem foldl_advances {α : Type} {f : PointsTo → α → PointsTo} {l : List α} (h : m.Ready D a)
    (hf : ∀ m' : PointsTo, m'.Ready D a → ∀ x ∈ l, Advances D (m', a) (f m' x, a)) :
    Advances D (m, a) (l.foldl f m, a) := by
  induction l generalizing m with
  | nil => exact .refl h
  | cons x rest ih =>
      have hx := hf m h x List.mem_cons_self
      exact hx.trans (ih hx.ready fun m' hm' y hy => hf m' hm' y (List.mem_cons_of_mem x hy))

/-! ## Finding locations, whatever is named on the way -/

theorem varLocation_found (h : m.Ready D a) (v : VarId) :
    Finds (m.layout D) (fun _ => True) a ((m.varLocation v).run a) ⟨.variable v, []⟩ :=
  varLocation_finds h fun _ => trivial

theorem exprTargets_found (h : m.Ready D a) (e : Expr) :
    FindsAll (m.layout D) (fun _ => True) a ((m.exprTargets e).run a)
      ((m.pathFacts D a).exprTargets e) :=
  exprTargets_findsAll (fun _ _ => trivial) e h fun _ _ _ _ => trivial

theorem resolve_found (h : m.Ready D a) (p : Place) :
    Resolves (m.layout D) (fun _ => True) a ((m.resolve p).run a) ((m.pathFacts D a).resolve p)
      (m.function.storage? p) :=
  resolve_resolves h (fun _ _ => trivial) fun _ _ => trivial

/-- A resolved place with the locations it may denote. -/
theorem resolve_findsAll (h : m.Ready D a) (p : Place) :
    FindsAll (m.layout D) (fun _ => True) a
      (((m.resolve p).run a).1.targets, ((m.resolve p).run a).2)
      ((m.pathFacts D a).resolve p).targets :=
  ⟨(resolve_found h p).grows, (resolve_found h p).targets⟩

/-- What is stored where a place may denote is found by number as by path. -/
theorem loaded_findsAll (h : m.Ready D a) (place : Place) :
    FindsAll (m.layout D) (fun _ => True) a
      ((do
        let r ← m.resolve place
        collectAll r.targets (m.storedTargets false)).run a)
      (((m.pathFacts D a).resolve place).targets.flatMap
        ((m.pathFacts D a).storedTargets false)) := by
  obtain ⟨hgrow, htargets⟩ := resolve_findsAll h place
  obtain ⟨hgrow', hden⟩ := collectAll_facts (R := fun _ => True) (G := (·.storedTargets false))
    (h.grow hgrow) htargets fun hc hi => storedTargets_findsAll hc hi false
  rw [pathFacts_eq h.inRange hgrow.extend] at hden
  exact ⟨hgrow.trans hgrow', hden⟩

/-! ## One instruction -/

/-- A store of something that carries no address adds nothing, wherever it goes. -/
theorem store_run_of_isEmpty {place : Place} {src : Expr}
    (hempty : ((m.exprTargets src).run a).1.isEmpty = true) :
    (m.propagate (.store place src)).run a = (m, ((m.exprTargets src).run a).2) := by
  show (if ((m.exprTargets src).run a).1.isEmpty = true then _ else _ : Naming PointsTo).run
    ((m.exprTargets src).run a).2 = _
  rw [if_pos hempty]
  rfl

theorem store_run {place : Place} {src : Expr}
    (hempty : ¬ ((m.exprTargets src).run a).1.isEmpty = true) :
    (m.propagate (.store place src)).run a =
      (((m.resolve place).run ((m.exprTargets src).run a).2).1.targets.elems.foldl
        (fun m' id => m'.addCellTargets ((m.exprTargets src).run a).1 id) m,
        ((m.resolve place).run ((m.exprTargets src).run a).2).2) := by
  show (if ((m.exprTargets src).run a).1.isEmpty = true then _ else _ : Naming PointsTo).run
    ((m.exprTargets src).run a).2 = _
  rw [if_neg hempty]
  rfl

theorem propagate_advances (h : m.Ready D a) (i : Instruction) :
    Advances D (m, a) ((m.propagate i).run a) := by
  have hexpr (e : Expr) := exprTargets_found h e
  have hassign (dst : VarId) (e : Expr) : Advances D (m, a)
      ((if m.isPointerVar dst then do return m.addVarTargets dst (← m.exprTargets e)
        else return m : Naming PointsTo).run a) := by
    split
    · obtain ⟨hgrow, hden⟩ := hexpr e
      exact (Advances.of_grows h hgrow).trans (addVarTargets_advances (h.grow hgrow) dst hden.1)
    · exact .refl h
  have hunknown : ∀ id ∈ IdSet.singleton unknown, id < a.size := by
    intro id hid
    rw [IdSet.mem_singleton.mp hid]
    exact h.wellFormed.points_unknown.1
  cases i with
  | assign dst e => exact hassign dst e
  | cast dst e ty => exact hassign dst e
  | load dst place =>
      rw [propagate]
      split
      · obtain ⟨hgrow, hden⟩ := loaded_findsAll h place
        exact (Advances.of_grows h hgrow).trans (addVarTargets_advances (h.grow hgrow) dst hden.1)
      · exact .refl h
  | store place src =>
      obtain ⟨hgrow, hden⟩ := hexpr src
      have hb := h.grow hgrow
      obtain ⟨hgrow', htargets⟩ := resolve_findsAll hb place
      have hadd := foldl_advances (hb.grow hgrow')
        (f := fun m' id => m'.addCellTargets ((m.exprTargets src).run a).1 id)
        (l := ((m.resolve place).run ((m.exprTargets src).run a).2).1.targets.elems)
        fun m' hm' id hid => addCellTargets_advances hm' (htargets.1 id hid) fun t ht =>
          hgrow'.extend.lt_size (hden.1 t ht)
      have hnamed := Advances.of_grows h hgrow
      by_cases hempty : ((m.exprTargets src).run a).1.isEmpty = true
      · rw [store_run_of_isEmpty hempty]
        exact hnamed
      · rw [store_run hempty]
        exact (hnamed.trans (.of_grows hb hgrow')).trans hadd
  | call dst callee args =>
      cases dst with
      | none => exact .refl h
      | some dst =>
          rw [propagate]
          split
          · exact addVarTargets_advances h dst hunknown
          · exact .refl h
  | opaqueCode touched reason =>
      exact foldl_advances h fun m' hm' v _ => addVarTargets_advances hm' v hunknown

/-! ## Registering places -/

theorem registerExpr_grows {a : Arena} (h : m.Ready D a) : ∀ e : Expr,
    GrowsTo (m.layout D) (fun _ => True) a ((m.registerExpr e).run a).2
  | .var _ => .refl h.wellFormed
  | .const _ => .refl h.wellFormed
  | .unary _ e => registerExpr_grows h e
  | .binary _ l r => by
      have hl := registerExpr_grows h l
      exact hl.trans (registerExpr_grows (h.grow hl) r)
  | .addrOf p => (resolve_findsAll h p).1

/-- Going through a list while locations are named: each element may rely on
what fits together so far. -/
theorem forM_grows {α : Type} {f : α → Naming Unit} {l : List α} (h : m.Ready D a)
    (hf : ∀ b, m.Ready D b → ∀ x ∈ l,
      GrowsTo (m.layout D) (fun _ => True) b ((f x).run b).2) :
    GrowsTo (m.layout D) (fun _ => True) a ((l.forM f).run a).2 := by
  induction l generalizing a with
  | nil => exact .refl h.wellFormed
  | cons x rest ih =>
      have hx := hf a h x List.mem_cons_self
      exact hx.trans (ih (h.grow hx) fun b hb y hy => hf b hb y (List.mem_cons_of_mem x hy))

/-- What one element names stays named while the rest of the list is dealt with. -/
theorem forM_has {α : Type} {f : α → Naming Unit} {xs : List α} {l : Location} (h : m.Ready D a)
    (hf : ∀ b, m.Ready D b → ∀ x ∈ xs,
      GrowsTo (m.layout D) (fun _ => True) b ((f x).run b).2) {x : α} (hx : x ∈ xs)
    (hl : ∀ b, m.Ready D b → ((f x).run b).2.Has l) : ((xs.forM f).run a).2.Has l := by
  induction xs generalizing a with
  | nil => exact absurd hx List.not_mem_nil
  | cons y rest ih =>
      have hy := hf a h y List.mem_cons_self
      have hrest : ∀ b, m.Ready D b → ∀ x ∈ rest,
          GrowsTo (m.layout D) (fun _ => True) b ((f x).run b).2 :=
        fun b hb z hz => hf b hb z (List.mem_cons_of_mem y hz)
      rcases List.mem_cons.mp hx with rfl | hmem
      · exact (forM_grows (h.grow hy) hrest).extend.has (hl a h)
      · exact ih (h.grow hy) hrest hmem

theorem registerInstruction_grows (h : m.Ready D a) (i : Instruction) :
    GrowsTo (m.layout D) (fun _ => True) a ((m.registerInstruction i).run a).2 := by
  have hoperands (b : Arena) (hb : m.Ready D b) := forM_grows (f := m.registerExpr)
    (l := i.operands) hb fun c hc e _ => registerExpr_grows hc e
  rw [registerInstruction]
  cases i.place? with
  | none => exact hoperands a h
  | some place =>
      have hplace := (resolve_findsAll h place).1
      exact hplace.trans (hoperands _ (h.grow hplace))

theorem registerInstruction_has (h : m.Ready D a) {i : Instruction} {place : Place} {v : VarId}
    (hplace : i.place? = some place) (hv : m.function.storage? place = some v) :
    ((m.registerInstruction i).run a).2.Has ⟨.variable v, []⟩ := by
  rw [registerInstruction, hplace]
  have hres := resolve_found h place
  exact (forM_grows (f := m.registerExpr) (l := i.operands) (h.grow hres.grows)
    fun c hc e _ => registerExpr_grows hc e).extend.has (hres.named v hv)

theorem registerBlock_grows (h : m.Ready D a) (block : Block) :
    GrowsTo (m.layout D) (fun _ => True) a ((m.registerBlock block).run a).2 := by
  have hinstructions := forM_grows (f := m.registerInstruction) (l := block.instructions) h
    fun c hc i _ => registerInstruction_grows hc i
  refine hinstructions.trans ?_
  show GrowsTo _ _ _ ((block.terminator.operand?.forM m.registerExpr).run _).2
  cases block.terminator.operand? with
  | none => exact .refl hinstructions.wellFormed
  | some e => exact registerExpr_grows (h.grow hinstructions) e

theorem registerBlock_has (h : m.Ready D a) {block : Block} {i : Instruction} {place : Place}
    {v : VarId} (hi : i ∈ block.instructions) (hplace : i.place? = some place)
    (hv : m.function.storage? place = some v) :
    ((m.registerBlock block).run a).2.Has ⟨.variable v, []⟩ := by
  have hgrows : ∀ b, m.Ready D b → ∀ i ∈ block.instructions,
      GrowsTo (m.layout D) (fun _ => True) b ((m.registerInstruction i).run b).2 :=
    fun b hb i _ => registerInstruction_grows hb i
  have hinstructions := forM_grows h hgrows
  have hhas : ((block.instructions.forM m.registerInstruction).run a).2.Has ⟨.variable v, []⟩ :=
    forM_has h hgrows hi fun b hb => registerInstruction_has hb hplace hv
  show (((block.terminator.operand?.forM m.registerExpr).run
    ((block.instructions.forM m.registerInstruction).run a).2).2).Has _
  cases block.terminator.operand? with
  | none => exact hhas
  | some e => exact (registerExpr_grows (h.grow hinstructions) e).extend.has hhas

/-! ## The whole analysis -/

theorem foldlM_advances {α : Type} {f : PointsTo → α → Naming PointsTo} {xs : List α}
    (h : m.Ready D a)
    (hf : ∀ m' b, m'.function = m.function → m'.Ready D b → ∀ x ∈ xs,
      Advances D (m', b) ((f m' x).run b)) :
    Advances D (m, a) ((xs.foldlM f m).run a) := by
  induction xs generalizing m a with
  | nil => exact .refl h
  | cons x rest ih =>
      rw [List.foldlM_cons]
      have hx := hf m a rfl h x List.mem_cons_self
      exact hx.trans (ih hx.ready fun m' b hfun hb y hy =>
        hf m' b (hfun.trans hx.function) hb y (List.mem_cons_of_mem x hy))

/-- Setting up the object of one parameter. -/
def setUp (f : Function) (m : PointsTo) (e : VarId × Nat) : Naming PointsTo :=
  match (f.ty? e.1).bind Ty.pointee? with
  | some pointee => do
      return m.addVarTargets e.1 (.singleton (← Arena.root (.paramTarget e.2) (some pointee)))
  | none => return m

/-- A parameter that is a pointer or an array gets an object of its own. -/
theorem setUp_advances {f : Function} {v : VarId} {i : Nat} (hfun : m.function = f)
    (h : m.Ready D a) (hparam : f.params[i]? = some v) :
    Advances D (m, a) ((setUp f m (v, i)).run a) ∧ ∀ pointee, (f.ty? v).bind Ty.pointee? =
      some pointee → ∃ id, ((setUp f m (v, i)).run a).1 = m.addVarTargets v (.singleton id) ∧
        ((setUp f m (v, i)).run a).2.Points id ⟨.paramTarget i, []⟩ := by
  rw [setUp]
  simp only []
  cases hty : (f.ty? v).bind Ty.pointee? with
  | none => exact ⟨.refl h, fun _ hsome => absurd hsome.symm (Option.some_ne_none _)⟩
  | some pointee =>
      have hroot := root_finds (y := m.layout D) (R := fun _ => True)
        (r := .paramTarget i) h.wellFormed (some pointee) fun _ => by
          refine ⟨?_, fun _ _ => trivial⟩
          rw [Location.rootTy?, show (m.layout D).function = f from hfun, hparam,
            Option.bind_some, hty]
      refine ⟨(Advances.of_grows h hroot.1).trans
        (addVarTargets_advances (h.grow hroot.1) v fun id hid => ?_), fun _ _ => ⟨_, rfl, hroot.2⟩⟩
      rw [IdSet.mem_singleton.mp hid]
      exact hroot.2.1

theorem ready_new (f : Function) (maxDepth maxTrackedIndex : Nat) :
    Ready ⟨f, maxTrackedIndex, .empty, .empty⟩ maxDepth (.new maxDepth) where
  wellFormed := wellFormed_new f maxDepth maxTrackedIndex
  inRange := ⟨fun _ id hid => absurd hid (IdSet.not_mem_empty id),
    fun _ he => absurd he List.not_mem_nil⟩

theorem initial_advances (f : Function) (config : Config) :
    Advances config.maxPathDepth
      (⟨f, config.maxTrackedIndex, .empty, .empty⟩, .new config.maxPathDepth)
      ((initial f config).run (.new config.maxPathDepth)) :=
  foldlM_advances (ready_new f _ _) fun _ _ hfun hb _ he =>
    (setUp_advances hfun hb (List.mem_zipIdx_iff_getElem?.mp he)).1

theorem saturate_advances (bits : Nat) (s : PointsTo × Arena) (h : s.1.Ready D s.2) :
    Advances D s (saturate bits s) := by
  have hround (s : PointsTo × Arena) (h : s.1.Ready D s.2) :
      Advances D s (s.1.round.run s.2) :=
    foldlM_advances h fun m' b _ hb i _ => propagate_advances hb i
  induction s using saturate.induct bits with
  | case1 s next hgrow ih =>
      rw [saturate, if_pos hgrow]
      exact (hround s h).trans (ih (hround s h).ready)
  | case2 s next hdone =>
      rw [saturate, if_neg hdone]
      exact hround s h

/-- Facts and arena fit together at the end of the analysis. -/
theorem analyze_advances (f : Function) (config : Config) :
    Advances config.maxPathDepth
      (⟨f, config.maxTrackedIndex, .empty, .empty⟩, .new config.maxPathDepth)
      (analyze f config) := by
  have hinitial := initial_advances f config
  have hregister := forM_grows (l := f.blocks.values) hinitial.ready
    fun b hb block _ => registerBlock_grows hb block
  have hsetup := hinitial.trans (.of_grows hinitial.ready hregister)
  exact hsetup.trans (saturate_advances _ _ hsetup.ready)

/-- The storage of the places that a function loads from or stores to is named
before the solver starts. -/
theorem analyze_has (f : Function) (config : Config) {block : Block} {i : Instruction}
    {place : Place} {v : VarId} (hblock : block ∈ f.blocks.values) (hi : i ∈ block.instructions)
    (hplace : i.place? = some place) (hv : f.storage? place = some v) :
    (analyze f config).2.Has ⟨.variable v, []⟩ := by
  have hinitial := initial_advances f config
  have hgrows : ∀ b, ((initial f config).run (.new config.maxPathDepth)).1.Ready
      config.maxPathDepth b → ∀ block ∈ f.blocks.values, GrowsTo _ (fun _ => True) b
        ((((initial f config).run (.new config.maxPathDepth)).1.registerBlock block).run b).2 :=
    fun b hb block _ => registerBlock_grows hb block
  have hregister := forM_grows hinitial.ready hgrows
  have hsetup := hinitial.trans (.of_grows hinitial.ready hregister)
  refine (saturate_advances _ _ hsetup.ready).extend.has (forM_has hinitial.ready hgrows hblock ?_)
  intro b hb
  refine registerBlock_has hb hi hplace ?_
  rw [hinitial.function]
  exact hv

end PointsTo

end TaintAnalysis
