import TaintAnalysis.Proofs.Memory.NamedStorage
import TaintAnalysis.Proofs.Memory.StoredPointers

/-!
# Pointers that are set outside the function

A pointer that a call returns, or that opaque code had in hand, may refer to anything, and
the analysis says so: unknown memory is among its targets. So it is among the targets of
whatever such a pointer is copied to, moved to, or stored and loaded into, and of whatever is
loaded through it. A path that follows the pointer leads to unknown memory, from where no step
leads away, and this memory overlaps every location: a store along the path is confined to
nothing (`PointsTo.unknown_of_setOutside`).

A call can also set a pointer that it does not return, if it is handed the address of the
pointer. This is not taken into account: what is passed to a call adds nothing to the facts,
and the pointer keeps the targets that it had (`lent_pointer_keeps_targets`).
-/

namespace TaintAnalysis

/-- The value of the expression may be a pointer that was set outside the function, by a call
that returned it or by opaque code, and was passed on inside it. -/
inductive Function.SetOutside (f : Function) (m : PathFacts) : Expr → Prop
  | returned {v : VarId} {callee : Callee} {args : List Expr} (hv : m.IsPointer v)
      (hcall : .call (some v) callee args ∈ f.instructions) : SetOutside f m (.var v)
  | touched {v : VarId} {vars : List VarId} {reason : String} (hv : m.IsPointer v)
      (hcode : .opaqueCode vars reason ∈ f.instructions) (hmem : v ∈ vars) : SetOutside f m (.var v)
  | assigned {v : VarId} {e : Expr} (hv : m.IsPointer v) (hassign : .assign v e ∈ f.instructions)
      (he : SetOutside f m e) : SetOutside f m (.var v)
  | cast {v : VarId} {e : Expr} {ty : Ty} (hv : m.IsPointer v)
      (hcast : .cast v e ty ∈ f.instructions) (he : SetOutside f m e) : SetOutside f m (.var v)
  /-- Loaded from where such a pointer leads. -/
  | through {v : VarId} {place : Place} (hv : m.IsPointer v)
      (hload : .load v place ∈ f.instructions) (hleaves : f.leaves place = true)
      (hbase : SetOutside f m (.var place.base)) : SetOutside f m (.var v)
  /-- Loaded from where such a pointer was stored. -/
  | stored {v : VarId} {place place' : Place} {src : Expr} {l l' : Location} (hv : m.IsPointer v)
      (hstore : .store place src ∈ f.instructions) (hsrc : SetOutside f m src)
      (hload : .load v place' ∈ f.instructions) (hl : l ∈ (m.resolve place).targets)
      (hl' : l' ∈ (m.resolve place').targets) (hover : l.overlaps l' = true) :
      SetOutside f m (.var v)
  | left {op : BinOp} {l r : Expr} (hop : op.movesPointer = true) (hl : SetOutside f m l) :
      SetOutside f m (.binary op l r)
  | right {op : BinOp} {l r : Expr} (hop : op.movesPointer = true) (hr : SetOutside f m r) :
      SetOutside f m (.binary op l r)
  /-- The address of a part of what such a pointer refers to. -/
  | address {place : Place} (hleaves : f.leaves place = true)
      (hbase : SetOutside f m (.var place.base)) : SetOutside f m (.addrOf place)

/-! ## Unknown memory is never left -/

namespace Layout

variable (y : Layout)

theorem child_unknown (step : Step) : y.child .unknown step = .unknown := rfl

theorem element_unknown (index : Option Int) : y.element .unknown index = .unknown := by
  cases index with
  | none => rfl
  | some i =>
      show (if i < 0 then Location.unknown else if y.maxTrackedIndex ≤ i.toNat then
        Location.unknown else Location.unknown) = _
      rw [ite_self, ite_self]

theorem offset_unknown (index : Option Int) : y.offset .unknown index = .unknown :=
  y.element_unknown index

theorem shifted_unknown : y.shifted .unknown = .unknown :=
  y.element_unknown none

end Layout

namespace PathFacts

variable {m : PathFacts} {v : VarId} {place : Place}

theorem indexed_unknown (index : Option Int) : m.indexed index .unknown = [.unknown] :=
  congrArg (· :: []) (m.layout.element_unknown index)

/-- A path that follows a pointer to unknown memory ends there. -/
theorem unknown_mem_reached : ∀ place : Place, m.layout.function.leaves place = true →
    .unknown ∈ m.derefVar place.base →
      ∃ ls, (m.follow place).reached = .inr ls ∧ .unknown ∈ ls
  | .var _, hleaves, _ => nomatch hleaves
  | .deref p, hleaves, hbase => by
      rw [Function.leaves, Bool.or_eq_true] at hleaves
      rcases hleaves with hleaves | hplain
      · obtain ⟨ls, hreached, hmem⟩ := unknown_mem_reached p hleaves hbase
        refine ⟨ls.flatMap (m.storedTargets true), by rw [follow]; simp only [hreached], ?_⟩
        exact List.mem_flatMap.mpr ⟨.unknown, hmem, List.mem_singleton.mpr rfl⟩
      · obtain ⟨w, hw, -⟩ := (Option.any_eq_true _ _).mp hplain
        obtain rfl := Place.eq_var_of_plain? hw
        exact ⟨_, rfl, hbase⟩
  | .index p e, hleaves, hbase => by
      rw [Function.leaves, Bool.or_eq_true] at hleaves
      rcases hleaves with hleaves | hplain
      · obtain ⟨ls, hreached, hmem⟩ := unknown_mem_reached p hleaves hbase
        refine ⟨ls.flatMap (m.indexed (PointsTo.constantIndex e)),
          by rw [follow]; simp only [hreached], ?_⟩
        refine List.mem_flatMap.mpr ⟨.unknown, hmem, ?_⟩
        rw [indexed_unknown]
        exact List.mem_singleton.mpr rfl
      · obtain ⟨w, hw, hpointer⟩ := (Option.any_eq_true _ _).mp hplain
        obtain rfl := Place.eq_var_of_plain? hw
        refine ⟨(m.derefVar w).map (m.layout.offset · (PointsTo.constantIndex e)), ?_, ?_⟩
        · rw [follow]
          simp only [follow, hpointer, if_true]
        · exact List.mem_map.mpr ⟨.unknown, hbase, m.layout.offset_unknown _⟩
  | .field p name, hleaves, hbase => by
      obtain ⟨ls, hreached, hmem⟩ := unknown_mem_reached p hleaves hbase
      refine ⟨ls.map (m.layout.child · (.field name)), by rw [follow]; simp only [hreached], ?_⟩
      exact List.mem_map.mpr ⟨.unknown, hmem, m.layout.child_unknown _⟩

theorem unknown_mem_resolve (hleaves : m.layout.function.leaves place = true)
    (hbase : .unknown ∈ m.varTargets place.base) : .unknown ∈ (m.resolve place).targets := by
  have hderef : .unknown ∈ m.derefVar place.base := by
    rwa [derefVar, if_neg fun hnil => List.not_mem_nil (List.isEmpty_iff.mp hnil ▸ hbase)]
  obtain ⟨ls, hreached, hmem⟩ := unknown_mem_reached place hleaves hderef
  rw [resolve]
  simp only [hreached]
  exact hmem

end PathFacts

namespace PointsTo

variable {f : Function} {config : Config} {e : Expr} {p : VarId}

theorem function_finalFacts (f : Function) (config : Config) :
    (finalFacts f config).layout.function = f :=
  (analyze_gains f config).function

/-- What was set outside the function may refer to anything. -/
theorem unknown_mem_exprTargets (h : f.SetOutside (finalFacts f config) e) :
    .unknown ∈ (finalFacts f config).exprTargets e := by
  have hvar {v : VarId} (hv : (finalFacts f config).IsPointer v)
      (h : .unknown ∈ (finalFacts f config).vars v) :
      .unknown ∈ (finalFacts f config).exprTargets (.var v) := by
    rwa [PathFacts.exprTargets, PathFacts.varTargets_pointer hv]
  have haccounts {i : Instruction} (hi : i ∈ f.instructions) := finalFacts_accounts f config hi
  have hresolve {place : Place} (hleaves : f.leaves place = true)
      (hbase : .unknown ∈ (finalFacts f config).exprTargets (.var place.base)) :
      .unknown ∈ ((finalFacts f config).resolve place).targets :=
    PathFacts.unknown_mem_resolve ((function_finalFacts f config).symm ▸ hleaves) hbase
  induction h with
  | returned hv hcall => exact hvar hv (haccounts hcall _ rfl hv)
  | touched hv hcode hmem => exact hvar hv (haccounts hcode _ hmem hv)
  | assigned hv hassign _ ih => exact hvar hv (haccounts hassign hv _ ih)
  | cast hv hcast _ ih => exact hvar hv (haccounts hcast hv _ ih)
  | through hv hload hleaves _ ih =>
      exact hvar hv (haccounts hload hv _ (hresolve hleaves ih) _ (List.mem_singleton.mpr rfl))
  | @stored v place place' src l l' hv hstore _ hload hl hl' hover ih =>
      refine hvar hv (haccounts hload hv l' hl' _ ?_)
      by_cases hknown : l'.isUnknown = true
      · rw [PathFacts.storedTargets, if_pos hknown]
        exact List.mem_singleton.mpr rfl
      · have hheld := (haccounts hstore l hl _ ih).mem_overlapping hover
        rwa [PathFacts.storedTargets_of_mem (Bool.not_eq_true _ ▸ hknown) hheld]
  | left hop _ ih =>
      rw [PathFacts.exprTargets, if_pos hop]
      exact List.mem_map.mpr
        ⟨.unknown, List.mem_append_left _ ih, (finalFacts f config).layout.shifted_unknown⟩
  | right hop _ ih =>
      rw [PathFacts.exprTargets, if_pos hop]
      exact List.mem_map.mpr
        ⟨.unknown, List.mem_append_right _ ih, (finalFacts f config).layout.shifted_unknown⟩
  | address hleaves _ ih => exact hresolve hleaves ih

theorem isPointer_of_setOutside {m : PathFacts} (h : f.SetOutside m (.var p)) : m.IsPointer p := by
  cases h <;> assumption

/-- A pointer that was set outside the function may refer to unknown memory, and what is accessed
along a path that follows it is not confined to any locations. -/
theorem unknown_of_setOutside (f : Function) (config : Config) {p : VarId}
    (h : f.SetOutside (finalFacts f config) (.var p)) :
    .unknown ∈ (finalFacts f config).vars p ∧
      ∀ place, place.base = p → f.leaves place = true →
        .unknown ∈ ((finalFacts f config).resolve place).targets ∧
          ∀ l, ∃ t ∈ ((finalFacts f config).resolve place).targets, t.overlaps l = true := by
  have hmem := unknown_mem_exprTargets h
  rw [PathFacts.exprTargets] at hmem
  refine ⟨PathFacts.varTargets_pointer (isPointer_of_setOutside h) ▸ hmem, ?_⟩
  rintro place rfl hleaves
  have hresolve := PathFacts.unknown_mem_resolve
    ((function_finalFacts f config).symm ▸ hleaves) hmem
  exact ⟨hresolve, fun l => ⟨.unknown, hresolve, l.unknown_overlaps⟩⟩

end PointsTo

/-! ## A pointer that is lent to a call -/

/-- A function that makes `p` refer to `a`, hands the address of `p` to a call whose result it keeps
in the given variable, and stores through a copy of `p`. -/
def lending (dst : Option VarId) : Function where
  name := "lending"
  returns := .void
  vars :=
    [⟨"a", .int 32, .local⟩, ⟨"p", .pointer (.int 32), .local⟩, ⟨"q", .pointer (.int 32), .local⟩]
  blocks := .ofList
    [(0, ⟨[.assign 1 (.addrOf (.var 0)), .call dst (.direct "ext") [.addrOf (.var 1)],
      .assign 2 (.var 1), .store (.deref (.var 2)) (.const 1)], .ret none⟩)]
  entry := 0
  nextBlock := 1

/-- What its pointers refer to. -/
def lendingFacts (dst : Option VarId) : PathFacts :=
  PointsTo.finalFacts (lending dst) .standard

/-- If the result is kept in `p`, the store may go anywhere. -/
theorem unknown_of_setOutside_lending :
    .unknown ∈ (lendingFacts (some 1)).vars 2 ∧
      .unknown ∈ ((lendingFacts (some 1)).resolve (.deref (.var 2))).targets := by
  have hcall : .call (some 1) (.direct "ext") [.addrOf (.var 1)] ∈
      (lending (some 1)).instructions := by decide
  have hp : (lending (some 1)).SetOutside (lendingFacts (some 1)) (.var 1) :=
    .returned (PointsTo.isPointer_finalFacts.mpr (by decide)) hcall
  have hq : (lending (some 1)).SetOutside (lendingFacts (some 1)) (.var 2) :=
    .assigned (PointsTo.isPointer_finalFacts.mpr (by decide)) (by decide) hp
  obtain ⟨hvars, hplaces⟩ := PointsTo.unknown_of_setOutside (lending (some 1)) .standard hq
  exact ⟨hvars, (hplaces (.deref (.var 2)) rfl (by decide)).1⟩

/-- If it is not kept, `p` still refers to `a` alone, although the call was handed the storage of
`p`, and the store goes to `a` alone. -/
theorem lent_pointer_keeps_targets :
    .call none (.direct "ext") [.addrOf (.var 1)] ∈ (lending none).instructions ∧
      ⟨.variable 1, []⟩ ∈ (lendingFacts none).exprTargets (.addrOf (.var 1)) ∧
      ((lending none).ty? 1).any Ty.isPointer = true ∧ .unknown ∉ (lendingFacts none).vars 1 ∧
      ((lendingFacts none).resolve (.deref (.var 2))).targets = [⟨.variable 0, []⟩] := by
  refine ⟨by decide, ?_, by decide, ?_, ?_⟩ <;> decide_cbv

end TaintAnalysis
