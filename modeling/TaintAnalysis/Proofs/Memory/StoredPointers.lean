import TaintAnalysis.Proofs.Memory.Convergence
import TaintAnalysis.Proofs.Memory.Overlap

/-!
# Pointers that are stored in memory

At the end of the analysis the facts about pointers account for every instruction: what
an assignment or a load may yield is among the targets of the variable, and what a store
may put into memory is among the targets that are held in the cell
(`finalFacts_accounts`). So a load yields whatever is stored in memory that overlaps its
own.

The storage of a pointer variable is such memory, if its address is taken. But what is
held there and the targets of the variable are kept apart: a store through a pointer to
the variable adds to the cell only, an assignment to the variable adds to its targets
only, and a load through a pointer to the variable finds nothing but the cell. Where the
two agree (`PathFacts.InStep`), reading and writing through the pointer is the same as
reading and writing the variable. Where they do not, it is not.
-/

namespace TaintAnalysis

namespace PathFacts

variable {m : PathFacts} {l l' t : Location} {v : VarId}

/-- The target is one of those held in a cell. -/
def Held (m : PathFacts) (l t : Location) : Prop :=
  ∃ e ∈ m.cells, e.1 = l ∧ t ∈ e.2

/-- Whether a variable is declared as a pointer. -/
def IsPointer (m : PathFacts) (v : VarId) : Prop :=
  (m.layout.function.ty? v).any Ty.isPointer = true

/-- The facts have everything that an instruction adds to them. -/
def Accounts (m : PathFacts) : Instruction → Prop
  | .assign dst e | .cast dst e _ => m.IsPointer dst → ∀ t ∈ m.exprTargets e, t ∈ m.vars dst
  | .load dst place => m.IsPointer dst → ∀ l ∈ (m.resolve place).targets,
      ∀ t ∈ m.storedTargets false l, t ∈ m.vars dst
  | .store place src => ∀ l ∈ (m.resolve place).targets, ∀ t ∈ m.exprTargets src, m.Held l t
  | .call dst _ _ => ∀ v, dst = some v → m.IsPointer v → .unknown ∈ m.vars v
  | .opaqueCode touched _ => ∀ v ∈ touched, m.IsPointer v → .unknown ∈ m.vars v

/-- The targets of a variable are those that are held in its storage, wherever it is read. -/
def InStep (m : PathFacts) (v : VarId) : Prop :=
  ∀ l, l.isUnknown = false → l.overlaps ⟨.variable v, []⟩ = true →
    ∀ t, t ∈ m.vars v ↔ t ∈ m.overlapping l

theorem Held.mem_overlapping (h : m.Held l t) (hover : l.overlaps l' = true) :
    t ∈ m.overlapping l' := by
  obtain ⟨e, he, rfl, ht⟩ := h
  exact List.mem_flatMap.mpr ⟨e, List.mem_filter.mpr ⟨he, hover⟩, ht⟩

theorem storedTargets_of_mem (hl : l.isUnknown = false) (ht : t ∈ m.overlapping l) :
    m.storedTargets false l = m.overlapping l := by
  have hne : (m.overlapping l).isEmpty = false :=
    List.isEmpty_eq_false_iff_exists_mem.mpr ⟨t, ht⟩
  rw [storedTargets, hl, hne]
  rfl

end PathFacts

namespace PointsTo

open Arena

variable {m : PointsTo} {D : Nat} {a b : Arena} {v : VarId} {t : Location}

/-! ## Reading facts by path -/

theorem isPointer_iff : (m.pathFacts D a).IsPointer v ↔ m.isPointerVar v = true :=
  Iff.rfl

theorem mem_vars_of_target (h : m.Ready D a) (hab : a.Extends b) {id : LocId}
    (hid : id ∈ m.targetsOf v) (ht : b.location id = t) : t ∈ (m.pathFacts D a).vars v := by
  rw [hab.location (h.inRange.vars v id hid)] at ht
  exact List.mem_map.mpr ⟨id, hid, ht⟩

theorem held_of_target (h : m.Ready D a) (hab : a.Extends b) {id id' : LocId} {l : Location}
    (hid : id' ∈ m.held id) (hl : b.location id = l) (ht : b.location id' = t) :
    (m.pathFacts D a).Held l t := by
  rw [held] at hid
  cases hget : m.cells.get? id with
  | none =>
      rw [hget] at hid
      exact absurd hid (IdSet.not_mem_empty id')
  | some set =>
      rw [hget] at hid
      have he := OrderedMap.get?_eq_some_iff.mp hget
      obtain ⟨hcell, htargets⟩ := h.inRange.cells _ he
      rw [hab.location hcell] at hl
      rw [hab.location (htargets id' hid)] at ht
      exact ⟨_, List.mem_map.mpr ⟨_, he, rfl⟩, hl, List.mem_map.mpr ⟨id', hid, ht⟩⟩

theorem mem_targetsOf_mono {id : LocId} {w : VarId} {targets : IdSet} (h : id ∈ m.targetsOf v) :
    id ∈ (m.addVarTargets w targets).targetsOf v := by
  rw [addVarTargets]
  split
  · exact h
  · rw [targetsOf, OrderedMap.get?_insert]
    split
    · next hv => exact IdSet.mem_union.mpr (.inl (hv ▸ h))
    · exact h

theorem mem_held_addCellTargets {id id' cell : LocId} {targets : IdSet}
    (h : id' ∈ m.held id ∨ id = cell ∧ id' ∈ targets) :
    id' ∈ (m.addCellTargets targets cell).held id := by
  rw [held, addCellTargets, OrderedMap.get?_insert]
  split
  · next hid => exact IdSet.mem_union.mpr (h.imp (hid ▸ ·) And.right)
  · next hid => exact h.resolve_right fun hboth => hid hboth.1

/-- What one element of a list brings about holds at the end, if every step keeps it. -/
theorem foldl_of_mem {α : Type} {g : PointsTo → α → PointsTo} {P : PointsTo → Prop} {xs : List α}
    {x : α} (hx : x ∈ xs) (hset : ∀ m, P (g m x)) (hkeep : ∀ m y, P m → P (g m y)) :
    P (xs.foldl g m) := by
  obtain ⟨before, after, rfl⟩ := List.append_of_mem hx
  rw [List.foldl_append, List.foldl_cons]
  exact List.foldlRecOn after g (hset _) fun m' h y _ => hkeep m' y h

/-! ## What every instruction finds -/

/-- Targets that are added without effect were there. -/
theorem mem_vars_of_addVarTargets (h : m.Ready D a) (hab : a.Extends b) {targets : IdSet}
    {ls : List Location} (hden : b.Denotes targets.elems ls)
    (hsame : m.addVarTargets v targets = m) : ∀ t ∈ ls, t ∈ (m.pathFacts D a).vars v := by
  intro t ht
  obtain ⟨id, hid, hlocation⟩ := (hden.2 t).mp ht
  refine mem_vars_of_target h hab ?_ hlocation
  have hmem := mem_targetsOf_addVarTargets (m := m) (v := v) (IdSet.mem_def.mpr hid)
  rwa [hsame] at hmem

theorem mem_vars_of_assign (h : m.Ready D a) {dst : VarId} {e : Expr}
    (hptr : m.isPointerVar dst = true)
    (hsame : ((if m.isPointerVar dst then do return m.addVarTargets dst (← m.exprTargets e)
      else return m : Naming PointsTo).run a).1 = m) :
    ∀ t ∈ (m.pathFacts D a).exprTargets e, t ∈ (m.pathFacts D a).vars dst := by
  rw [if_pos hptr] at hsame
  obtain ⟨hgrow, hden⟩ := exprTargets_found h e
  exact mem_vars_of_addVarTargets h hgrow.extend hden hsame

theorem mem_vars_of_load (h : m.Ready D a) {dst : VarId} {place : Place}
    (hptr : m.isPointerVar dst = true)
    (hsame : ((m.propagate (.load dst place)).run a).1 = m) :
    ∀ l ∈ ((m.pathFacts D a).resolve place).targets,
      ∀ t ∈ (m.pathFacts D a).storedTargets false l, t ∈ (m.pathFacts D a).vars dst := by
  intro l hl t ht
  rw [propagate, if_pos hptr] at hsame
  obtain ⟨hgrow, hden⟩ := loaded_findsAll h place
  exact mem_vars_of_addVarTargets h hgrow.extend hden hsame t (List.mem_flatMap.mpr ⟨l, hl, ht⟩)

/-- A store puts each of the targets of its operand into each of the cells that its place may
denote. -/
theorem mem_held_propagate_store (place : Place) {src : Expr} {id id' : LocId}
    (hid' : id' ∈ ((m.exprTargets src).run a).1)
    (hid : id ∈ ((m.resolve place).run ((m.exprTargets src).run a).2).1.targets) :
    id' ∈ ((m.propagate (.store place src)).run a).1.held id := by
  have hne : ¬ ((m.exprTargets src).run a).1.isEmpty = true := fun hempty =>
    absurd (IdSet.mem_def.mp hid') (List.isEmpty_iff.mp hempty ▸ List.not_mem_nil)
  rw [store_run hne]
  exact foldl_of_mem (P := fun m' => id' ∈ m'.held id) (IdSet.mem_def.mp hid)
    (fun m' => mem_held_addCellTargets (.inr ⟨rfl, hid'⟩))
    fun m' cell h => mem_held_addCellTargets (.inl h)

theorem held_of_store (h : m.Ready D a) {place : Place} {src : Expr}
    (hsame : ((m.propagate (.store place src)).run a).1 = m) :
    ∀ l ∈ ((m.pathFacts D a).resolve place).targets,
      ∀ t ∈ (m.pathFacts D a).exprTargets src, (m.pathFacts D a).Held l t := by
  intro l hl t ht
  obtain ⟨hgrow, hden⟩ := exprTargets_found h src
  obtain ⟨hgrow', htargets⟩ := resolve_findsAll (h.grow hgrow) place
  rw [pathFacts_eq (D := D) h.inRange hgrow.extend] at htargets
  obtain ⟨id', hid', rfl⟩ := (hden.2 t).mp ht
  obtain ⟨id, hid, rfl⟩ := (htargets.2 l).mp hl
  have hheld := mem_held_propagate_store place (IdSet.mem_def.mpr hid') hid
  rw [hsame] at hheld
  -- the target keeps its number while the place is resolved
  exact held_of_target h (hgrow.extend.trans hgrow'.extend) hheld rfl
    (hgrow'.extend.location (hden.1 id' hid'))

/-- The facts account for an instruction that adds nothing to them. -/
theorem accounts_of_fixed (h : m.Ready D a) {i : Instruction}
    (hsame : ((m.propagate i).run a).1 = m) : (m.pathFacts D a).Accounts i := by
  cases i with
  | assign dst e => exact fun hptr => mem_vars_of_assign h hptr hsame
  | cast dst e ty => exact fun hptr => mem_vars_of_assign h hptr hsame
  | load dst place => exact fun hptr => mem_vars_of_load h hptr hsame
  | store place src => exact held_of_store h hsame
  | call dst callee args =>
      rintro v rfl hptr
      have hadd : m.addVarTargets v (.singleton unknown) = m := by
        refine Eq.trans ?_ hsame
        show _ = if m.isPointerVar v = true then _ else _
        rw [if_pos (isPointer_iff.mp hptr)]
      have hunknown : a.Denotes (IdSet.singleton unknown).elems [.unknown] :=
        .singleton h.wellFormed.points_unknown
      exact mem_vars_of_addVarTargets h (.refl a) hunknown hadd _ (List.mem_singleton.mpr rfl)
  | opaqueCode touched reason =>
      intro v hv hptr
      have hmem : unknown ∈ m.targetsOf v := by
        rw [← hsame]
        exact foldl_of_mem (P := fun m' => unknown ∈ m'.targetsOf v)
          (List.mem_filter.mpr ⟨hv, isPointer_iff.mp hptr⟩)
          (fun m' => mem_targetsOf_addVarTargets (IdSet.mem_singleton.mpr rfl))
          fun m' w h => mem_targetsOf_mono h
      exact mem_vars_of_target h (.refl a) hmem h.wellFormed.points_unknown.2

theorem isPointer_finalFacts {f : Function} {config : Config} :
    (finalFacts f config).IsPointer v ↔ (f.ty? v).any Ty.isPointer = true := by
  rw [PathFacts.IsPointer, finalFacts, pathFacts, layout, (analyze_gains f config).function]

/-- At the end of the analysis the facts account for every instruction of the function. -/
theorem finalFacts_accounts (f : Function) (config : Config) {i : Instruction}
    (hi : i ∈ f.instructions) : (finalFacts f config).Accounts i := by
  obtain ⟨b, hready, hextend, hsame⟩ := analyze_fixed f config hi
  have haccounts := accounts_of_fixed hready hsame
  rwa [← pathFacts_eq hready.inRange hextend] at haccounts

/-- A load through a pointer yields every pointer that is stored in memory that overlaps what is
loaded, as long as it is known what is loaded. -/
theorem mem_vars_of_store_of_load {f : Function} {config : Config} {place place' : Place}
    {src : Expr} {q : VarId} {l l' : Location} (hstore : .store place src ∈ f.instructions)
    (hload : .load q place' ∈ f.instructions) (hq : (f.ty? q).any Ty.isPointer = true)
    (hl : l ∈ ((finalFacts f config).resolve place).targets)
    (hl' : l' ∈ ((finalFacts f config).resolve place').targets) (hover : l.overlaps l' = true)
    (hknown : l'.isUnknown = false) :
    ∀ t ∈ (finalFacts f config).exprTargets src, t ∈ (finalFacts f config).vars q := by
  intro t ht
  have hmem := (finalFacts_accounts f config hstore l hl t ht).mem_overlapping hover
  refine finalFacts_accounts f config hload (isPointer_finalFacts.mpr hq) l' hl' t ?_
  rwa [PathFacts.storedTargets_of_mem hknown hmem]

/-- Pointers that are stored through a pointer to the variable `p` are held in the storage of `p`,
and pointers that are loaded through a pointer to it are those held there. If these are also the
targets of `p`, then `p` has the targets that are stored, and the targets that it has are
loaded. -/
theorem stores_and_loads (f : Function) (config : Config) (p : VarId) :
    let facts := finalFacts f config
    let storage : Location := ⟨.variable p, []⟩
    (∀ place src, .store place src ∈ f.instructions →
      (∃ l ∈ (facts.resolve place).targets, l.overlaps storage = true) →
      ∀ t ∈ facts.exprTargets src,
        t ∈ facts.overlapping storage ∧ (facts.InStep p → t ∈ facts.vars p)) ∧
    ∀ q place, .load q place ∈ f.instructions → (f.ty? q).any Ty.isPointer = true →
      ∀ l ∈ (facts.resolve place).targets, l.overlaps storage = true → l.isUnknown = false →
        (∀ t ∈ facts.overlapping l, t ∈ facts.vars q) ∧
          (facts.InStep p → ∀ t ∈ facts.vars p, t ∈ facts.vars q) := by
  intro facts storage
  constructor
  · intro place src hstore hover t ht
    obtain ⟨l, hl, hover⟩ := hover
    have hmem := (finalFacts_accounts f config hstore l hl t ht).mem_overlapping hover
    exact ⟨hmem, fun hstep => (hstep storage rfl storage.overlaps_self t).mpr hmem⟩
  · intro q place hload hq l hl hover hknown
    have hloaded : ∀ t ∈ facts.overlapping l, t ∈ facts.vars q := fun t ht =>
      finalFacts_accounts f config hload (isPointer_finalFacts.mpr hq) l hl t
        (PathFacts.storedTargets_of_mem hknown ht ▸ ht)
    exact ⟨hloaded, fun hstep t ht => hloaded t ((hstep l hknown hover t).mp ht)⟩

end PointsTo

/-! ## A pointer that is overwritten through memory -/

/-- A function that makes `p` refer to `a`, stores the address of another variable through a
pointer to `p`, and loads through this pointer. -/
def overwriting (stored : VarId) : Function where
  name := "overwriting"
  returns := .void
  vars :=
    [⟨"a", .int 32, .local⟩, ⟨"b", .int 32, .local⟩, ⟨"p", .pointer (.int 32), .local⟩,
      ⟨"pp", .pointer (.pointer (.int 32)), .local⟩, ⟨"q", .pointer (.int 32), .local⟩]
  blocks := .ofList
    [(0, ⟨[.assign 2 (.addrOf (.var 0)), .assign 3 (.addrOf (.var 2)),
      .store (.deref (.var 3)) (.addrOf (.var stored)), .load 4 (.deref (.var 3))], .ret none⟩)]
  entry := 0
  nextBlock := 1

/-- What its pointers refer to. -/
def overwritingFacts (stored : VarId) : PathFacts :=
  PointsTo.finalFacts (overwriting stored) .standard

theorem stores_and_loads_overwriting :
    ⟨.variable 0, []⟩ ∈ (overwritingFacts 0).vars 2 ∧
      ∀ t ∈ (overwritingFacts 0).vars 2, t ∈ (overwritingFacts 0).vars 4 := by
  have hvars : (overwritingFacts 0).vars 2 = [⟨.variable 0, []⟩] := by decide_cbv
  have hcells : (overwritingFacts 0).cells = [(⟨.variable 2, []⟩, [⟨.variable 0, []⟩])] := by
    decide_cbv
  have hstep : (overwritingFacts 0).InStep 2 := by
    intro l _ hover t
    have hover' : Location.overlaps ⟨.variable 2, []⟩ l = true :=
      Location.overlaps_comm _ l ▸ hover
    rw [hvars, PathFacts.overlapping, hcells]
    simp only [List.filter_cons, hover', if_true, List.filter_nil, List.flatMap_cons,
      List.flatMap_nil, List.append_nil]
  obtain ⟨hstores, hloads⟩ := PointsTo.stores_and_loads (overwriting 0) .standard 2
  have htarget : ⟨.variable 2, []⟩ ∈ ((overwritingFacts 0).resolve (.deref (.var 3))).targets := by
    decide_cbv
  refine ⟨(hstores (.deref (.var 3)) (.addrOf (.var 0)) (by decide) ⟨_, htarget, rfl⟩ _ ?_).2 hstep,
    (hloads 4 (.deref (.var 3)) (by decide) (by decide) _ htarget rfl rfl).2 hstep⟩
  show _ ∈ (overwritingFacts 0).exprTargets (.addrOf (.var 0))
  decide_cbv

/-- The address of `b` is stored through a pointer to `p` and is not among the targets of `p`. The
address of `a` is among them, and is not loaded through the pointer. -/
theorem overwriting_not_inStep :
    let facts := overwritingFacts 1
    (.store (.deref (.var 3)) (.addrOf (.var 1)) ∈ (overwriting 1).instructions ∧
      ⟨.variable 2, []⟩ ∈ (facts.resolve (.deref (.var 3))).targets ∧
      ⟨.variable 1, []⟩ ∈ facts.exprTargets (.addrOf (.var 1)) ∧
      ⟨.variable 1, []⟩ ∉ facts.vars 2) ∧
    .load 4 (.deref (.var 3)) ∈ (overwriting 1).instructions ∧
      ((overwriting 1).ty? 4).any Ty.isPointer = true ∧
      ⟨.variable 0, []⟩ ∈ facts.vars 2 ∧ ⟨.variable 0, []⟩ ∉ facts.vars 4 := by
  intro facts
  have hstored : .store (.deref (.var 3)) (.addrOf (.var 1)) ∈ (overwriting 1).instructions := by
    decide
  have hloaded : .load 4 (.deref (.var 3)) ∈ (overwriting 1).instructions := by decide
  refine ⟨⟨hstored, ?_, ?_, ?_⟩, hloaded, by decide, ?_, ?_⟩ <;> decide_cbv

end TaintAnalysis
