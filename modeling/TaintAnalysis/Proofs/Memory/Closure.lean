import TaintAnalysis.Proofs.Memory.Propagation

/-!
# The pointer analysis ends closed

An instruction changes the facts about pointers only by what it adds to them, so one that
the facts account for leaves them literally as they are (`propagate_eq_of_accounts`). It may
name locations while it is looked at, but the facts say the same about paths however many
locations are named. At the end of the analysis the facts account for every instruction of
the function, so from there on the instructions can be looked at again in any order, and as
often as one likes, without any effect on what pointers may refer to (`analyze_closed`).
-/

namespace TaintAnalysis

namespace PointsTo

open Arena

variable {m : PointsTo} {D : Nat} {a b : Arena} {v : VarId} {targets : IdSet} {ls : List Location}

/-! ## Adding what is known -/

theorem insert_union_eq_self {κ : Type} [DecidableEq κ] {c : OrderedMap κ IdSet} {k : κ}
    (hne : targets.isEmpty = false) (h : ∀ id ∈ targets, id ∈ (c.get? k).getD .empty) :
    c.insert k ((c.get? k).getD .empty ∪ targets) = c := by
  cases hget : c.get? k with
  | none =>
      obtain ⟨id, hid⟩ := List.isEmpty_eq_false_iff_exists_mem.mp hne
      have hmem := h id (IdSet.mem_def.mpr hid)
      rw [hget] at hmem
      exact absurd hmem (IdSet.not_mem_empty id)
  | some old =>
      rw [hget] at h
      have hunion : old ∪ targets = old :=
        IdSet.ext fun id => IdSet.mem_union.trans ⟨fun hid => hid.elim (fun hold => hold) (h id), .inl⟩
      rw [Option.getD_some, hunion]
      exact OrderedMap.insert_eq_self hget

theorem addVarTargets_eq_self (h : ∀ id ∈ targets, id ∈ m.targetsOf v) :
    m.addVarTargets v targets = m := by
  rw [addVarTargets]
  split
  · rfl
  · next hne =>
    rw [targetsOf, insert_union_eq_self (Bool.eq_false_iff.mpr hne) h]

theorem addCellTargets_eq_self {cell : LocId} (hne : targets.isEmpty = false)
    (h : ∀ id ∈ targets, id ∈ m.held cell) : m.addCellTargets targets cell = m := by
  rw [addCellTargets, insert_union_eq_self hne h]

theorem foldl_eq_self {α : Type} {g : PointsTo → α → PointsTo} {xs : List α}
    (h : ∀ x ∈ xs, g m x = m) : xs.foldl g m = m :=
  List.foldlRecOn (motive := (· = m)) xs g rfl fun _ hm x hx => hm ▸ h x hx

/-! ## From paths to numbers -/

/-- Locations that are targets of the variable by path are so by number: no location has two
numbers. -/
theorem mem_targetsOf_of_mem_vars (h : m.Ready D a) (hden : a.Denotes targets.elems ls)
    (hls : ∀ t ∈ ls, t ∈ (m.pathFacts D a).vars v) : ∀ id ∈ targets, id ∈ m.targetsOf v := by
  intro id hid
  obtain ⟨id', hid', hlocation⟩ := mem_vars_pathFacts.mp (hls _ (hden.location_mem hid))
  have heq := h.wellFormed.eq_of_location_eq (points_location (h.inRange.vars v id' hid'))
    (hlocation.symm ▸ hden.points hid)
  exact heq ▸ hid'

theorem mem_held_of_held (h : m.Ready D a) (hden : a.Denotes targets.elems ls) {cell : LocId}
    (hcell : cell < a.size) (hls : ∀ t ∈ ls, (m.pathFacts D a).Held (a.location cell) t) :
    ∀ id ∈ targets, id ∈ m.held cell := by
  intro id hid
  obtain ⟨cell', hlocation, id', hid', htarget⟩ :=
    held_pathFacts.mp (hls _ (hden.location_mem hid))
  have hget : ∃ old, m.cells.get? cell' = some old ∧ id' ∈ old := by
    rw [held] at hid'
    cases hget : m.cells.get? cell' with
    | none =>
        rw [hget] at hid'
        exact absurd hid' (IdSet.not_mem_empty id')
    | some old =>
        rw [hget] at hid'
        exact ⟨old, rfl, hid'⟩
  obtain ⟨old, hget, hold⟩ := hget
  obtain ⟨hlt, hlts⟩ := h.inRange.cells _ (OrderedMap.get?_eq_some_iff.mp hget)
  obtain rfl := h.wellFormed.eq_of_location_eq (points_location hlt)
    (hlocation.symm ▸ points_location hcell)
  obtain rfl := h.wellFormed.eq_of_location_eq (points_location (hlts id' hold))
    (htarget.symm ▸ hden.points hid)
  exact hid'

/-! ## One instruction -/

/-- Targets are found while locations are named; if all of them are known, then nothing is added. -/
theorem addVarTargets_eq_of_finds (h : m.Ready D a) {r : IdSet × Arena}
    (hfinds : FindsAll (m.layout D) (fun _ => True) a r ls)
    (hls : ∀ t ∈ ls, t ∈ (m.pathFacts D a).vars v) : m.addVarTargets v r.1 = m := by
  obtain ⟨hgrow, hden⟩ := hfinds
  refine addVarTargets_eq_self (mem_targetsOf_of_mem_vars (h.grow hgrow) hden fun t ht => ?_)
  rw [pathFacts_eq h.inRange hgrow.extend]
  exact hls t ht

theorem assign_eq_of_accounts (h : m.Ready D a) {dst : VarId} {e : Expr}
    (haccounts : (m.pathFacts D a).IsPointer dst →
      ∀ t ∈ (m.pathFacts D a).exprTargets e, t ∈ (m.pathFacts D a).vars dst) :
    ((m.propagate (.assign dst e)).run a).1 = m := by
  rw [propagate]
  split
  · next hptr =>
    exact addVarTargets_eq_of_finds h (exprTargets_found h e) (haccounts (isPointer_iff.mpr hptr))
  · rfl

theorem load_eq_of_accounts (h : m.Ready D a) {dst : VarId} {place : Place}
    (haccounts : (m.pathFacts D a).Accounts (.load dst place)) :
    ((m.propagate (.load dst place)).run a).1 = m := by
  rw [propagate]
  split
  · next hptr =>
    refine addVarTargets_eq_of_finds h (loaded_findsAll h place) fun t ht => ?_
    obtain ⟨l, hl, ht⟩ := List.mem_flatMap.mp ht
    exact haccounts (isPointer_iff.mpr hptr) l hl t ht
  · rfl

theorem store_eq_of_accounts (h : m.Ready D a) {place : Place} {src : Expr}
    (haccounts : (m.pathFacts D a).Accounts (.store place src)) :
    ((m.propagate (.store place src)).run a).1 = m := by
  by_cases hempty : ((m.exprTargets src).run a).1.isEmpty = true
  · rw [store_run_of_isEmpty hempty]
  · obtain ⟨hgrow, hden⟩ := exprTargets_found h src
    have hb := h.grow hgrow
    obtain ⟨hgrow', htargets⟩ := resolve_findsAll hb place
    have hkept := (pathFacts_eq (D := D) hb.inRange hgrow'.extend).trans
      (pathFacts_eq (D := D) h.inRange hgrow.extend)
    rw [pathFacts_eq (D := D) h.inRange hgrow.extend] at htargets
    rw [store_run hempty]
    refine foldl_eq_self fun cell hcell =>
      addCellTargets_eq_self (Bool.eq_false_iff.mpr hempty) ?_
    -- every cell is looked up in the arena in which all of them are named
    refine mem_held_of_held (hb.grow hgrow') (hden.mono hgrow'.extend) (htargets.1 cell hcell)
      fun t ht => ?_
    rw [hkept]
    exact haccounts _ (htargets.location_mem hcell) t ht

/-- An instruction that the facts account for adds nothing to them. -/
theorem propagate_eq_of_accounts (h : m.Ready D a) {i : Instruction}
    (haccounts : (m.pathFacts D a).Accounts i) : ((m.propagate i).run a).1 = m := by
  have hunknown {v : VarId} (hv : .unknown ∈ (m.pathFacts D a).vars v) :
      m.addVarTargets v (.singleton unknown) = m :=
    addVarTargets_eq_self (mem_targetsOf_of_mem_vars h (.singleton h.wellFormed.points_unknown)
      fun t ht => List.mem_singleton.mp ht ▸ hv)
  cases i with
  | assign dst e => exact assign_eq_of_accounts h haccounts
  | cast dst e ty => exact assign_eq_of_accounts h haccounts
  | load dst place => exact load_eq_of_accounts h haccounts
  | store place src => exact store_eq_of_accounts h haccounts
  | call dst callee args =>
      cases dst with
      | none => rfl
      | some dst =>
          rw [propagate]
          split
          · next hptr => exact hunknown (haccounts dst rfl (isPointer_iff.mpr hptr))
          · rfl
  | opaqueCode touched reason =>
      refine foldl_eq_self fun v hv => ?_
      obtain ⟨hv, hptr⟩ := List.mem_filter.mp hv
      exact hunknown (haccounts v hv (isPointer_iff.mpr hptr))

/-! ## Any number of instructions -/

/-- Instructions that the facts account for can be looked at one after the other without effect. -/
theorem foldlM_eq_of_accounts {is : List Instruction} (h : m.Ready D a)
    (haccounts : ∀ i ∈ is, (m.pathFacts D a).Accounts i) :
    ((is.foldlM propagate m).run a).1 = m := by
  induction is generalizing a with
  | nil => rfl
  | cons i rest ih =>
      obtain ⟨hi, hrest⟩ := List.forall_mem_cons.mp haccounts
      have hsame := propagate_eq_of_accounts h hi
      have hadvances := propagate_advances h i
      rw [List.foldlM_cons]
      show ((rest.foldlM propagate ((m.propagate i).run a).1).run ((m.propagate i).run a).2).1 = m
      have hready := hadvances.ready
      rw [hsame] at hready ⊢
      refine ih hready fun j hj => ?_
      rw [pathFacts_eq h.inRange hadvances.extend]
      exact hrest j hj

/-- The pointer analysis repeats its rounds until one adds nothing, and there is such a round. At
the end, looking at any instructions of the function again, in any order, changes nothing. -/
theorem analyze_closed (f : Function) (config : Config) :
    (∃ n < 2 ^ factBits f config, analyze f config = afterRound^[n + 1] (setup f config) ∧
      (afterRound^[n + 1] (setup f config)).1 = (afterRound^[n] (setup f config)).1 ∧
      ∀ k < n, (afterRound^[k + 1] (setup f config)).1 ≠ (afterRound^[k] (setup f config)).1) ∧
    ∀ is : List Instruction, (∀ i ∈ is, i ∈ f.instructions) →
      ((is.foldlM propagate (analyze f config).1).run (analyze f config).2).1 =
        (analyze f config).1 := by
  obtain ⟨n, hn, hlast, hsame, hadds, -⟩ := analyze_eq f config
  refine ⟨⟨n, hn, hlast, hsame, hadds⟩, fun is his => ?_⟩
  exact foldlM_eq_of_accounts (analyze_advances f config).ready fun i hi =>
    finalFacts_accounts f config (his i hi)

/-- A pointer walks along an array of three elements, against the order of the instructions. -/
def striding : Function where
  name := "stride"
  returns := .void
  vars := [⟨"a", .array (.int 32) (some 3), .local⟩, ⟨"q", .pointer (.int 32), .local⟩]
  blocks := ⟨[(0, ⟨[.assign 1 (.addrOf (.index (.var 1) (.const 1))),
    .assign 1 (.addrOf (.index (.var 0) (.const 0)))], .ret none⟩)], by decide⟩
  entry := 0
  nextBlock := 1

/-- Every element becomes a target, each from the one before it, and past the last one unknown memory;
then looking at the instructions once more, from last to first, changes nothing. -/
theorem analyze_closed_striding :
    ((analyze striding .standard).1.targetsOf 1).elems.map (analyze striding .standard).2.location =
      .unknown :: [0, 1, 2].map (fun i => ⟨.variable 0, [.index (some i)]⟩) ∧
    (striding.instructions.reverse.foldlM propagate (analyze striding .standard).1
      |>.run (analyze striding .standard).2).1 = (analyze striding .standard).1 :=
  ⟨by decide_cbv, (analyze_closed striding .standard).2 _ fun _ h => List.mem_reverse.mp h⟩

end PointsTo

end TaintAnalysis
