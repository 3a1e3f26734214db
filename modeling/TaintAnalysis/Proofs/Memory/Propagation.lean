import TaintAnalysis.Proofs.Memory.FactOrder

/-!
# What the pointer analysis adds

The pointer analysis goes through the instructions of a function again and again, and adds what
each of them says about pointers. This file says what that is at most, by path: an instruction
gives targets to a variable, or puts them into a cell of memory (`PathFacts.Adds`), and before the
first instruction there are only the objects of the parameters (`PathFacts.Initial`). So a
property of the facts that the objects of the parameters have, and that is kept when something is
added, holds whenever the analysis comes to an instruction, and at the end
(`PointsTo.Pending.invariant`).
-/

namespace TaintAnalysis

namespace PathFacts

variable {m n : PathFacts} {i : Instruction} {v : VarId} {l t : Location}

/-- The instruction makes the location a target of the variable. -/
def Gives (m : PathFacts) (v : VarId) (t : Location) : Instruction → Prop
  | .assign dst e | .cast dst e _ => dst = v ∧ m.IsPointer v ∧ t ∈ m.exprTargets e
  | .load dst place => dst = v ∧ m.IsPointer v ∧
      ∃ l ∈ (m.resolve place).targets, t ∈ m.storedTargets false l
  | .store .. => False
  | .call dst _ _ => dst = some v ∧ m.IsPointer v ∧ t = .unknown
  | .opaqueCode touched _ => v ∈ touched ∧ m.IsPointer v ∧ t = .unknown

/-- The instruction puts a pointer to the second location into the first. -/
def Puts (m : PathFacts) (l t : Location) : Instruction → Prop
  | .store place src => l ∈ (m.resolve place).targets ∧ t ∈ m.exprTargets src
  | .assign .. | .cast .. | .load .. | .call .. | .opaqueCode .. => False

theorem Accounts.gives (h : m.Accounts i) (hgives : m.Gives v t i) : t ∈ m.vars v := by
  cases i with
  | assign dst e =>
      obtain ⟨rfl, hptr, ht⟩ := hgives
      exact h hptr t ht
  | cast dst e ty =>
      obtain ⟨rfl, hptr, ht⟩ := hgives
      exact h hptr t ht
  | load dst place =>
      obtain ⟨rfl, hptr, l, hl, ht⟩ := hgives
      exact h hptr l hl t ht
  | store place src => exact hgives.elim
  | call dst callee args =>
      obtain ⟨rfl, hptr, rfl⟩ := hgives
      exact h v rfl hptr
  | opaqueCode touched reason =>
      obtain ⟨hv, hptr, rfl⟩ := hgives
      exact h v hv hptr

theorem Accounts.puts (h : m.Accounts i) (hputs : m.Puts l t i) : m.Held l t := by
  cases i with
  | store place src => exact h l hputs.1 t hputs.2
  | _ => exact hputs.elim

/-- The second facts are the first ones, and what the instruction adds to them. -/
structure Adds (m m' : PathFacts) (i : Instruction) : Prop where
  layout : m'.layout = m.layout
  vars : ∀ v t, t ∈ m'.vars v → t ∈ m.vars v ∨ m.Gives v t i
  held : ∀ l t, m'.Held l t → m.Held l t ∨ m.Puts l t i

theorem Adds.refl (m : PathFacts) (i : Instruction) : m.Adds m i :=
  ⟨rfl, fun _ _ => .inl, fun _ _ => .inl⟩

/-- The facts say that the parameters refer to their objects, and nothing else. -/
structure Initial (m : PathFacts) : Prop where
  vars : ∀ v, ∀ t ∈ m.vars v, ∃ i pointee, m.layout.function.params[i]? = some v ∧
    (m.layout.function.ty? v).bind Ty.pointee? = some pointee ∧ t = ⟨.paramTarget i, []⟩
  held : ∀ l t, ¬ m.Held l t

end PathFacts

namespace PointsTo

open Arena

variable {m : PointsTo} {D : Nat} {a b : Arena} {v w : VarId} {targets : IdSet} {i : Instruction}
  {l t : Location} {f : Function} {config : Config}

/-! ## Facts by number and by path -/

theorem mem_vars_pathFacts {t : Location} :
    t ∈ (m.pathFacts D a).vars v ↔ ∃ id ∈ m.targetsOf v, a.location id = t :=
  List.mem_map

theorem held_pathFacts {l t : Location} : (m.pathFacts D a).Held l t ↔
    ∃ cell, a.location cell = l ∧ ∃ id ∈ m.held cell, a.location id = t := by
  constructor
  · rintro ⟨_, he, rfl, ht⟩
    obtain ⟨⟨cell, set⟩, hcell, rfl⟩ := List.mem_map.mp he
    obtain ⟨id, hid, rfl⟩ := List.mem_map.mp ht
    refine ⟨cell, rfl, id, ?_, rfl⟩
    rw [held, OrderedMap.get?_eq_some_iff.mpr hcell]
    exact hid
  · rintro ⟨cell, rfl, id, hid, rfl⟩
    rw [held] at hid
    cases hget : m.cells.get? cell with
    | none =>
        rw [hget] at hid
        exact absurd hid (IdSet.not_mem_empty id)
    | some set =>
        rw [hget] at hid
        exact ⟨_, List.mem_map.mpr ⟨_, OrderedMap.get?_eq_some_iff.mp hget, rfl⟩, rfl,
          List.mem_map.mpr ⟨id, hid, rfl⟩⟩

theorem mem_vars_addVarTargets (ht : t ∈ ((m.addVarTargets v targets).pathFacts D a).vars w) :
    t ∈ (m.pathFacts D a).vars w ∨ w = v ∧ ∃ id ∈ targets, a.location id = t := by
  rw [addVarTargets] at ht
  split at ht
  · exact .inl ht
  · obtain ⟨id, hid, rfl⟩ := mem_vars_pathFacts.mp ht
    rw [targetsOf, OrderedMap.get?_insert] at hid
    split at hid
    · next hw =>
      rcases IdSet.mem_union.mp hid with hid | hid
      · exact .inl (mem_vars_pathFacts.mpr ⟨id, hw ▸ hid, rfl⟩)
      · exact .inr ⟨hw, id, hid, rfl⟩
    · exact .inl (mem_vars_pathFacts.mpr ⟨id, hid, rfl⟩)

theorem cells_addVarTargets (m : PointsTo) (D : Nat) (a : Arena) (v : VarId) (targets : IdSet) :
    ((m.addVarTargets v targets).pathFacts D a).cells = (m.pathFacts D a).cells := by
  rw [addVarTargets]
  split <;> rfl

theorem layout_addVarTargets (m : PointsTo) (D : Nat) (a : Arena) (v : VarId) (targets : IdSet) :
    ((m.addVarTargets v targets).pathFacts D a).layout = (m.pathFacts D a).layout := by
  rw [addVarTargets]
  split <;> rfl

theorem held_addCellTargets {cell : LocId}
    (ht : ((m.addCellTargets targets cell).pathFacts D a).Held l t) :
    (m.pathFacts D a).Held l t ∨ a.location cell = l ∧ ∃ id ∈ targets, a.location id = t := by
  obtain ⟨cell', rfl, id, hid, rfl⟩ := held_pathFacts.mp ht
  rw [held, addCellTargets, OrderedMap.get?_insert] at hid
  split at hid
  · next hcell =>
    rcases IdSet.mem_union.mp hid with hid | hid
    · exact .inl (held_pathFacts.mpr ⟨cell', rfl, id, hcell ▸ hid, rfl⟩)
    · exact .inr ⟨hcell ▸ rfl, id, hid, rfl⟩
  · exact .inl (held_pathFacts.mpr ⟨cell', rfl, id, hid, rfl⟩)

/-! ## One instruction -/

/-- Targets are found while locations are named, and then they are added to a variable. -/
theorem addVarTargets_adds (h : m.Ready D a) {r : IdSet × Arena} {ls : List Location}
    (hfinds : FindsAll (m.layout D) (fun _ => True) a r ls)
    (hls : ∀ t ∈ ls, (m.pathFacts D a).Gives v t i) :
    (m.pathFacts D a).Adds ((m.addVarTargets v r.1).pathFacts D r.2) i := by
  obtain ⟨hgrow, hden⟩ := hfinds
  have hkept := pathFacts_eq (D := D) h.inRange hgrow.extend
  refine ⟨(layout_addVarTargets m D r.2 v r.1).trans rfl, fun w t ht => ?_, fun l t ht => ?_⟩
  · rw [← hkept]
    refine (mem_vars_addVarTargets ht).imp id ?_
    rintro ⟨rfl, id, hid, rfl⟩
    exact hkept ▸ hls _ (hden.location_mem hid)
  · obtain ⟨e, he, hheld⟩ := ht
    rw [cells_addVarTargets, hkept] at he
    exact .inl ⟨e, he, hheld⟩

theorem assign_adds (h : m.Ready D a) (dst : VarId) (e : Expr) :
    (m.pathFacts D a).Adds (((m.propagate (.assign dst e)).run a).1.pathFacts D
      ((m.propagate (.assign dst e)).run a).2) (.assign dst e) := by
  rw [propagate]
  split
  · next hptr =>
    exact addVarTargets_adds h (exprTargets_found h e) fun t ht =>
      ⟨rfl, isPointer_iff.mpr hptr, ht⟩
  · exact .refl _ _

theorem load_adds (h : m.Ready D a) (dst : VarId) (place : Place) :
    (m.pathFacts D a).Adds (((m.propagate (.load dst place)).run a).1.pathFacts D
      ((m.propagate (.load dst place)).run a).2) (.load dst place) := by
  rw [propagate]
  split
  · next hptr =>
    refine addVarTargets_adds h (loaded_findsAll h place) fun t ht => ?_
    obtain ⟨l, hl, ht⟩ := List.mem_flatMap.mp ht
    exact ⟨rfl, isPointer_iff.mpr hptr, l, hl, ht⟩
  · exact .refl _ _

theorem store_adds (h : m.Ready D a) (place : Place) (src : Expr) :
    (m.pathFacts D a).Adds (((m.propagate (.store place src)).run a).1.pathFacts D
      ((m.propagate (.store place src)).run a).2) (.store place src) := by
  obtain ⟨hgrow, hden⟩ := exprTargets_found h src
  have hb := h.grow hgrow
  have hkept := pathFacts_eq (D := D) h.inRange hgrow.extend
  by_cases hempty : ((m.exprTargets src).run a).1.isEmpty = true
  · rw [store_run_of_isEmpty hempty, hkept]
    exact .refl _ _
  · obtain ⟨hgrow', htargets⟩ := resolve_findsAll hb place
    rw [hkept] at htargets
    have hkept' := (pathFacts_eq (D := D) hb.inRange hgrow'.extend).trans hkept
    rw [store_run hempty]
    -- one cell after the other, on the arena in which all of them are named
    refine List.foldlRecOn
      (motive := fun m' : PointsTo => (m.pathFacts D a).Adds (m'.pathFacts D
        ((m.resolve place).run ((m.exprTargets src).run a).2).2) (.store place src)) _ _
      (hkept' ▸ .refl _ _) fun m' hm' cell hcell => ?_
    refine ⟨hm'.layout, hm'.vars, fun l t ht => ?_⟩
    rcases held_addCellTargets ht with ht | ⟨rfl, id, hid, rfl⟩
    · exact hm'.held l t ht
    · exact .inr ⟨htargets.location_mem hcell, (hden.mono hgrow'.extend).location_mem hid⟩

/-- What an instruction does to the facts. -/
theorem propagate_adds (h : m.Ready D a) (i : Instruction) :
    (m.pathFacts D a).Adds (((m.propagate i).run a).1.pathFacts D ((m.propagate i).run a).2) i := by
  have hunknown (m' : PointsTo) (hm' : (m.pathFacts D a).Adds (m'.pathFacts D a) i) (v : VarId)
      (hv : (m.pathFacts D a).Gives v .unknown i) :
      (m.pathFacts D a).Adds ((m'.addVarTargets v (.singleton unknown)).pathFacts D a) i := by
    refine ⟨(layout_addVarTargets m' D a v _).trans hm'.layout, fun w t ht => ?_, fun l t ht => ?_⟩
    · rcases mem_vars_addVarTargets ht with ht | ⟨rfl, id, hid, rfl⟩
      · exact hm'.vars w t ht
      · rw [IdSet.mem_singleton.mp hid, h.wellFormed.points_unknown.2]
        exact .inr hv
    · obtain ⟨e, he, hheld⟩ := ht
      rw [cells_addVarTargets] at he
      exact hm'.held l t ⟨e, he, hheld⟩
  cases i with
  | assign dst e => exact assign_adds h dst e
  | cast dst e ty =>
      have hadds := assign_adds h dst e
      exact ⟨hadds.layout, hadds.vars, hadds.held⟩
  | load dst place => exact load_adds h dst place
  | store place src => exact store_adds h place src
  | call dst callee args =>
      cases dst with
      | none => exact .refl _ _
      | some dst =>
          rw [propagate]
          split
          · next hptr => exact hunknown m (.refl _ _) dst ⟨rfl, isPointer_iff.mpr hptr, rfl⟩
          · exact .refl _ _
  | opaqueCode touched reason =>
      refine List.foldlRecOn (motive := fun m' : PointsTo => (m.pathFacts D a).Adds
        (m'.pathFacts D a) (.opaqueCode touched reason)) _ _ (.refl _ _) fun m' hm' v hv => ?_
      obtain ⟨hv, hptr⟩ := List.mem_filter.mp hv
      exact hunknown m' hm' v ⟨hv, isPointer_iff.mpr hptr, rfl⟩

/-! ## The whole analysis -/

/-- The analysis comes to the facts when the instructions are still to be looked at in a round. -/
inductive Pending (f : Function) (config : Config) : PointsTo × Arena → List Instruction → Prop
  | start : Pending f config (setup f config) f.instructions
  | instruction {s : PointsTo × Arena} {i : Instruction} {rest : List Instruction} :
      Pending f config s (i :: rest) → Pending f config ((s.1.propagate i).run s.2) rest
  | round {s : PointsTo × Arena} : Pending f config s [] → Pending f config s f.instructions

variable {s : PointsTo × Arena} {rest : List Instruction}

theorem Pending.mem_instructions (h : Pending f config s rest) :
    ∀ i ∈ rest, i ∈ f.instructions := by
  induction h with
  | start => exact fun _ hi => hi
  | instruction _ ih => exact fun i hi => ih i (List.mem_cons_of_mem _ hi)
  | round => exact fun _ hi => hi

theorem Pending.advances (h : Pending f config s rest) :
    Advances config.maxPathDepth (setup f config) s := by
  induction h with
  | start => exact .refl (setup_advances f config).ready
  | instruction _ ih => exact ih.trans (propagate_advances ih.ready _)
  | round _ ih => exact ih

theorem Pending.function (h : Pending f config s rest) : s.1.function = f :=
  h.advances.function.trans (setup_advances f config).function

theorem Pending.foldlM {is : List Instruction} (h : Pending f config s is) :
    Pending f config ((is.foldlM propagate s.1).run s.2) [] := by
  induction is generalizing s with
  | nil => exact h
  | cons i rest ih =>
      rw [List.foldlM_cons]
      exact ih h.instruction

theorem Pending.through (h : Pending f config s f.instructions) :
    Pending f config (s.1.round.run s.2) [] := by
  rw [PointsTo.round, h.function]
  exact h.foldlM

theorem Pending.saturate (bits : Nat) (h : Pending f config s f.instructions) :
    Pending f config (saturate bits s) [] := by
  induction s using saturate.induct bits with
  | case1 s next hgrow ih =>
      rw [PointsTo.saturate, if_pos hgrow]
      exact ih (.round h.through)
  | case2 s next hdone =>
      rw [PointsTo.saturate, if_neg hdone]
      exact h.through

theorem Pending.gains (h : Pending f config s rest) : (setup f config).1.Gains s.1 := by
  induction h with
  | start => exact .refl _
  | instruction _ ih => exact ih.trans (propagate_gains _ _ _)
  | round _ ih => exact ih

theorem pending_analyze (f : Function) (config : Config) : Pending f config (analyze f config) [] :=
  Pending.start.saturate _

/-! ### Before the first instruction -/

theorem setUp_initial {i : Nat} (hfun : m.function = f) (h : m.Ready D a)
    (hparam : f.params[i]? = some v) (hinitial : (m.pathFacts D a).Initial) :
    (((setUp f m (v, i)).run a).1.pathFacts D ((setUp f m (v, i)).run a).2).Initial := by
  obtain ⟨hadvances, hobject⟩ := setUp_advances hfun h hparam
  cases hty : (f.ty? v).bind Ty.pointee? with
  | none =>
      rw [setUp]
      simp only [hty]
      exact hinitial
  | some pointee =>
      obtain ⟨id, hvars, -, hlocation⟩ := hobject pointee hty
      rw [hvars]
      have hkept := pathFacts_eq (D := D) h.inRange hadvances.extend
      refine ⟨fun w t ht => ?_, fun l t ht => ?_⟩
      · rw [layout_addVarTargets]
        rcases mem_vars_addVarTargets ht with ht | ⟨rfl, id', hid, rfl⟩
        · exact hinitial.vars w t (hkept ▸ ht)
        · rw [IdSet.mem_singleton.mp hid, hlocation]
          exact ⟨i, pointee, hfun ▸ hparam, hfun ▸ hty, rfl⟩
      · obtain ⟨e, he, hheld⟩ := ht
        rw [cells_addVarTargets, hkept] at he
        exact hinitial.held l t ⟨e, he, hheld⟩

theorem foldlM_setUp_initial {params : List (VarId × Nat)}
    (hparams : ∀ e ∈ params, f.params[e.2]? = some e.1) (hfun : m.function = f)
    (h : m.Ready D a) (hinitial : (m.pathFacts D a).Initial) :
    (((params.foldlM (setUp f) m).run a).1.pathFacts D
      ((params.foldlM (setUp f) m).run a).2).Initial := by
  induction params generalizing m a with
  | nil => exact hinitial
  | cons e rest ih =>
      rw [List.foldlM_cons]
      have hadvances := (setUp_advances hfun h (hparams e List.mem_cons_self)).1
      exact ih (fun e he => hparams e (List.mem_cons_of_mem _ he))
        (hadvances.function.trans hfun) hadvances.ready
        (setUp_initial hfun h (hparams e List.mem_cons_self) hinitial)

/-- The analysis begins with the objects of the parameters. -/
theorem setup_initial (f : Function) (config : Config) :
    ((setup f config).1.pathFacts config.maxPathDepth (setup f config).2).Initial := by
  have hinitial := initial_advances f config
  have hempty : (pathFacts ⟨f, config.maxTrackedIndex, .empty, .empty⟩ config.maxPathDepth
      (.new config.maxPathDepth)).Initial := by
    refine ⟨fun v t ht => absurd ht List.not_mem_nil, fun l t ht => ?_⟩
    obtain ⟨cell, -, id, hid, -⟩ := held_pathFacts.mp ht
    exact IdSet.not_mem_empty id hid
  have hregister := forM_grows (l := f.blocks.values) hinitial.ready
    fun b hb block _ => registerBlock_grows hb block
  have hsetup : (setup f config).1.pathFacts config.maxPathDepth (setup f config).2 =
      ((initial f config).run (.new config.maxPathDepth)).1.pathFacts config.maxPathDepth
        ((initial f config).run (.new config.maxPathDepth)).2 :=
    pathFacts_eq hinitial.ready.inRange hregister.extend
  rw [hsetup]
  exact foldlM_setUp_initial (fun e he => List.mem_zipIdx_iff_getElem?.mp he) rfl
    (ready_new f _ _) hempty

theorem layout_setup (f : Function) (config : Config) :
    ((setup f config).1.pathFacts config.maxPathDepth (setup f config).2).layout =
      ⟨f, config.maxPathDepth, config.maxTrackedIndex⟩ := by
  have hadvances := setup_advances f config
  rw [pathFacts, layout, hadvances.function, hadvances.maxTrackedIndex]

theorem layout_finalFacts (f : Function) (config : Config) :
    (finalFacts f config).layout = ⟨f, config.maxPathDepth, config.maxTrackedIndex⟩ := by
  have hadvances := analyze_advances f config
  rw [finalFacts, pathFacts, layout, hadvances.function, hadvances.maxTrackedIndex]

/-- A parameter that is a pointer or an array refers to something from the beginning. -/
theorem Pending.settledVar {n : PathFacts} (h : Pending f config s rest) {i : Nat} {v : VarId}
    (hparam : f.params[i]? = some v) {pointee : Ty}
    (hty : (f.ty? v).bind Ty.pointee? = some pointee) :
    (s.1.pathFacts config.maxPathDepth s.2).SettledVar n v := by
  intro hnil
  have hmem : ⟨.paramTarget i, []⟩ ∈ (s.1.pathFacts config.maxPathDepth s.2).vars v :=
    ((setup_refers config hparam hty).mono h.gains h.advances.extend).mem
  rw [PathFacts.varTargets] at hnil
  split at hnil
  · exact absurd hnil (List.cons_ne_nil _ _)
  · exact absurd hmem (hnil ▸ List.not_mem_nil)

/-- What holds of the facts at the beginning, and is kept by every instruction, holds whenever the
analysis comes to an instruction. -/
theorem Pending.invariant {P : PathFacts → Prop} (h : Pending f config s rest)
    (hstart : ∀ m : PathFacts, m.layout = ⟨f, config.maxPathDepth, config.maxTrackedIndex⟩ →
      m.Initial → P m)
    (hstep : ∀ s i rest, Pending f config s (i :: rest) → i ∈ f.instructions →
      P (s.1.pathFacts config.maxPathDepth s.2) →
      ∀ m', (s.1.pathFacts config.maxPathDepth s.2).Adds m' i → P m') :
    P (s.1.pathFacts config.maxPathDepth s.2) := by
  induction h with
  | start => exact hstart _ (layout_setup f config) (setup_initial f config)
  | instruction h ih =>
      exact hstep _ _ _ h (h.mem_instructions _ List.mem_cons_self) ih _
        (propagate_adds h.advances.ready _)
  | round _ ih => exact ih

end PointsTo

end TaintAnalysis
