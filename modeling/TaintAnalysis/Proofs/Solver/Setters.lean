import TaintAnalysis.Proofs.Memory.Delegation
import TaintAnalysis.Proofs.Solver.CallerMemory
import TaintAnalysis.Proofs.Solver.FoldedRuns

/-!
# Storing through a function

A function that stores its second argument in what the first one refers to does for its
caller what a store does. Its summary says so: what is written through the first parameter
depends on the second one, and on the first one as an address (`Run.setter_stores`). A call
puts the taint of the arguments in their place, and with it that of the memory they refer
to, so it writes no less than the store would (`Problem.store_under_call`).

It writes where the value of the pointer leads. If something is known about the pointer,
that is where the store writes, and a function that hands its stores over is reported with
no less taint (`Run.handed_over_within`). If nothing is known, the store goes to unknown
memory, where every read finds it, and the call writes nowhere.
-/

namespace TaintAnalysis

open Arena

/-! ## A function that stores -/

/-- What a store does, and maybe more: what is written through the first parameter depends on
the second one, and on the first one as an address. -/
structure Summary.Stores (m : Summary) : Prop where
  value : Value.single 1 Kind.directOnly ≤ m.out 0
  address : Value.single 0 Kind.indirectOnly ≤ m.out 0

namespace Summary.Stores

variable {m : Summary}

theorem listed (h : m.Stores) : (0, m.out 0) ∈ m.outs := by
  rw [← mem_outParams_iff]
  by_contra hnot
  have hvalue := h.value
  rw [out_of_not_mem hnot, Value.le_bottom_iff] at hvalue
  exact absurd hvalue (by decide)

/-- At a call the taint of the arguments takes the place of the parameters. -/
theorem le_substitute (h : m.Stores) (x y : Value) :
    y.join x.toIndirect ≤ (m.out 0).substitute [x, y] := by
  have hkind {s : SourceId} {k : Kind} (hle : Value.single s k ≤ m.out 0) :
      k ≤ (m.out 0).kindOf s := by
    have hs := Value.le_iff.mp hle s
    rwa [Value.kindOf_single, if_pos rfl] at hs
  refine Value.join_le ?_ ?_
  · exact Value.le_trans (Value.le_joins List.mem_cons_self)
      (Value.throughFormal_le_substitute (s := 1) rfl (hkind h.value))
  · exact Value.le_trans (Value.le_joins List.mem_cons_self)
      (Value.throughFormal_le_substitute (s := 0) rfl (hkind h.address))

end Summary.Stores

/-- The function that stores its second argument in what the first one refers to. -/
def Function.setter (name : String) (pointee ty : Ty) : Function where
  name := name
  returns := .void
  vars := [⟨"p", .pointer pointee, .param⟩, ⟨"v", ty, .param⟩]
  blocks := .ofList [(0, ⟨[.store (.deref (.var 0)) (.var 1)], .ret none⟩)]
  entry := 0
  nextBlock := 1

namespace Storage

variable {S : Storage} {c : Cells} {s : State}

theorem get_le_valueOfVar (v : VarId) : s.get v ≤ S.valueOfVar c s v := by
  rw [valueOfVar]
  split
  · exact Value.le_join_left _ _
  · exact Value.le_refl _

/-- The pointer that a path follows first is part of its address. -/
theorem valueOfVar_le_addressOf (place : Place)
    (h : (S.facts.resolve place).derefsBase = true) :
    S.valueOfVar c s place.base ≤ S.addressOf c s place := by
  rw [addressOf, address, h]
  exact Value.le_trans (Value.le_join_left _ _) (Value.le_join_left _ _)

end Storage

/-- The summary of such a function has what a store does. -/
theorem Run.setter_stores {name : String} {pointee ty : Ty} {config : Config}
    {table : SummaryTable} {peers : List String} {result : FunctionResult}
    (hok : (ofFunction (.setter name pointee ty) config table peers).result = .ok result) :
    result.summary.Stores := by
  have hfree : (Function.setter name pointee ty).AddressFree := rfl
  let p := (Problem.ofFunction (.setter name pointee ty) config table peers).1
  let S := Storage.ofProblem p (PointsTo.analyze (.setter name pointee ty) config).2
  let σ := (ofFunction (.setter name pointee ty) config table peers).final.assignment p.varCount
  have hsolves : p.Solves S (p.seeds _) σ := (Problem.leastSolution_of_exhausted
    (Problem.wellPosed_of_addressFree hfree)
    (fun b _ block hblock => Problem.watched_of_addressFree hfree hblock) reached_ofFunction
    (exhausted_of_ok hok)).solves
  have hentry : p.seedState ≤ p.entryIn σ 0 := Problem.seedState_le_entryIn σ rfl
  have hseed {v : VarId} {i : Nat} (hv : p.function.paramIndex? v = some i) :
      Value.single i Kind.directOnly ≤ S.valueOfVar σ.cells (p.entryIn σ 0) v :=
    Value.le_trans (Problem.get_seedState hv ▸ State.le_iff.mp hentry v)
      (Storage.get_le_valueOfVar v)
  have hpointer : S.facts.ParamPointer 0 0 :=
    Problem.facts_ofFunction (.setter name pointee ty) config table peers ▸
      paramPointer_finalFacts config rfl rfl
  have horder : (0 : BlockId) ∈ p.order := Graph.mem_reversePostorder_of_reaches .refl
  -- what the only store writes to the object of the parameter
  let stored := ((S.value σ.cells (p.entryIn σ 0) (.var 1)).join
    (S.addressOf σ.cells (p.entryIn σ 0) (.deref (.var 0))).toIndirect).join (p.controlIn σ 0)
  have hwrite : (⟨.paramTarget 0, []⟩, stored) ∈ p.writes σ S := by
    refine List.mem_flatMap.mpr ⟨0, horder, ?_⟩
    rw [Problem.effects_eq horder rfl]
    exact List.mem_append_left _ (List.mem_map_of_mem hpointer.mem_derefVar)
  have hout : result.summary.out 0 = p.writtenThrough (p.writes σ S) 0 := by
    rw [summary_of_ok hok, out_summary]
    exact hsolves.outs 0
  have hrecorded : 0 ∈ Memory.writtenParams p ⟨.paramTarget 0, []⟩ := List.mem_singleton.mpr rfl
  have hle : stored ≤ result.summary.out 0 :=
    hout ▸ Cells.le_gather (q := fun l => decide (0 ∈ Memory.writtenParams p l)) hwrite
      (decide_eq_true hrecorded)
  refine ⟨Value.le_trans ?_ hle, Value.le_trans ?_ hle⟩
  · exact Value.le_trans (hseed (v := 1) rfl)
      (Value.le_trans (Value.le_join_left _ _) (Value.le_join_left _ _))
  · refine Value.le_trans (Value.toIndirect_mono (Value.le_trans (hseed (v := 0) rfl)
      (Storage.valueOfVar_le_addressOf (.deref (.var 0)) rfl))) ?_
    exact Value.le_trans (Value.le_join_right _ _) (Value.le_join_left _ _)

/-! ## The same problem with other blocks -/

namespace Problem

/-- The same problem about a function with other blocks, which may be others to read memory. -/
def withBlocks (p : Problem) (blocks : OrderedMap BlockId Block) (readers : List BlockId) :
    Problem :=
  { p with
    function := { p.function with blocks := blocks }
    pointsTo := p.pointsTo.about { p.function with blocks := blocks }
    memoryReaders := readers }

variable {p : Problem} {blocks : OrderedMap BlockId Block} {readers : List BlockId} {a : Arena}
  {S T : Storage} {c : Cells} {around : Surroundings} {s t : State} {setter : String} {m : Summary}

theorem touched_withBlocks (vars : List VarId) :
    (p.withBlocks blocks readers).touched S s vars = p.touched S s vars := by
  induction vars generalizing s with
  | nil => rfl
  | cons v rest ih =>
      rw [touched, touched, ih]
      rfl

theorem outcome_withBlocks (i : Instruction) :
    (p.withBlocks blocks readers).outcome S c around s i = p.outcome S c around s i := by
  cases i with
  | opaqueCode vars reason => exact touched_withBlocks vars
  | _ => rfl

theorem outcomes_withBlocks (is : List Instruction) :
    (p.withBlocks blocks readers).outcomes S c around s is = p.outcomes S c around s is := by
  induction is generalizing s with
  | nil => rfl
  | cons i rest ih => simp only [outcomes, outcome_withBlocks, ih]

/-- Both problems have the same storage. -/
theorem storage_withBlocks (h : p.pointsTo.function = p.function) :
    (Storage.ofProblem p a).Under (· = ·) (fun _ => True)
      (Storage.ofProblem (p.withBlocks blocks readers) a) := by
  have hvars : p.pointsTo.function.vars = p.function.vars := by rw [h]
  have hbelow : (Storage.ofProblem p a).facts.Below
      (Storage.ofProblem (p.withBlocks blocks readers) a).facts :=
    ⟨⟨hvars, rfl, rfl⟩, fun _ _ ht => ht, fun _ _ hheld => hheld⟩
  have habove : (Storage.ofProblem (p.withBlocks blocks readers) a).facts.Below
      (Storage.ofProblem p a).facts :=
    ⟨⟨hvars.symm, rfl, rfl⟩, fun _ _ ht => ht, fun _ _ hheld => hheld⟩
  have hplace (place : Place) :=
    PathFacts.resolve_mono hbelow (PathFacts.settledPath_of_below habove place)
  refine ⟨fun v hv => ?_, fun _ => rfl, ?_, fun place _ l hl => ⟨l, (hplace place).1 hl, rfl⟩,
    fun place _ l hl => ⟨l, (hplace place).2.1 hl, rfl⟩, fun place _ => (hplace place).2.2,
    fun e _ l hl => ⟨l, PathFacts.exprTargets_mono hbelow
      (fun place _ => PathFacts.settledPath_of_below habove place) hl, rfl⟩⟩
  · obtain ⟨hresident, hscalar⟩ := Bool.and_eq_true_iff.mp hv
    rw [h] at hscalar
    exact Bool.and_eq_true_iff.mpr ⟨hresident, hscalar⟩
  · rintro l _ k _ rfl rfl hover
    exact hover

/-! ## A store and a call -/

section

variable (hST : S.Under (· = ·) (fun _ => True) T)
  (hcallee : p.summaryOf? (.direct setter) = some m) (hm : m.Stores)

include hST hcallee hm

/-- The call writes no less than the store, if something is known about the pointer. -/
theorem store_under_call {q : VarId} {e : Expr} (h : S.facts.Delegable q e) (hst : s ≤ t)
    (hlen : s.vars.length ≤ t.vars.length) :
    AheadBy (· = ·) (p.outcome S c around s (.store (.deref (.var q)) e))
      (p.outcome T c around t (.call none (.direct setter) [.var q, e])) := by
  have hc : c.Under (· = ·) c := Cells.within_iff_under.mp (.refl c)
  have hcall : p.outcome T c around t (.call none (.direct setter) [.var q, e]) =
      (t, T.summaryWrites around.control [.var q, e] [T.argument c t (.var q), T.argument c t e]
        m) := by
    rw [outcome, hcallee]
    rfl
  have haddress : S.addressOf c s (.deref (.var q)) ≤ T.argument c t (.var q) := by
    rw [Storage.addressOf, h.resolve, Storage.address, Storage.positions, Storage.positions]
    refine Value.join_le (Value.join_mono ?_ ?_) (Value.bottom_le _)
    · rw [Storage.value]
      exact Storage.valueOfVar_under hST hc hst q
    · exact Storage.read_under hST hc fun _ hl => absurd hl List.not_mem_nil
  have hvalue : S.value c s e ≤ T.argument c t e :=
    Value.le_trans (Storage.value_under hST hc hst e fun _ _ => trivial) (Value.le_join_left _ _)
  rw [hcall]
  refine ⟨hst, hlen, .of_entries fun w hw => ?_⟩
  obtain ⟨l, hl, rfl⟩ := List.mem_map.mp hw
  rw [h.resolve] at hl
  obtain ⟨l', hl', rfl⟩ := hST.exprTargets (.var q) (fun _ _ => trivial) l hl
  refine ⟨(l', _), List.mem_flatMap.mpr ⟨_, hm.listed, List.mem_map_of_mem hl'⟩, rfl, ?_⟩
  exact Value.join_mono (Value.le_trans (Value.join_mono hvalue (Value.toIndirect_mono haddress))
    (hm.le_substitute _ _)) (Value.le_refl _)

theorem outcomes_delegated {is is' : List Instruction}
    (his : List.Forall₂ (Instruction.Delegated setter S.facts.Delegable) is is') (hst : s ≤ t)
    (hlen : s.vars.length ≤ t.vars.length) :
    AheadBy (· = ·) (p.outcomes S c around s is) (p.outcomes T c around t is') := by
  induction his generalizing s t with
  | nil => exact ⟨hst, hlen, .nil _ _⟩
  | @cons i i' is is' hi _ ih =>
      have hstep : AheadBy (· = ·) (p.outcome S c around s i) (p.outcome T c around t i') := by
        cases hi with
        | same =>
            exact outcome_under p.pointsTo p.memoryReaders hST
              (.refl p.summaries) (Cells.within_iff_under.mp (.refl c))
              (.refl _) hst hlen fun _ _ => trivial
        | store q e h => exact store_under_call hST hcallee hm h hst hlen
      obtain ⟨hstate, hlength, hwrites⟩ := ih hstep.state hstep.length
      exact ⟨hstate, hlength, .append_mono hstep.writes hwrites⟩

theorem blockEffects_delegated {block block' : Block}
    (hblock : block.Delegated setter S.facts.Delegable block') (σ : Assignment) (b : BlockId) :
    (p.blockEffects σ b S block).Below
      ((p.withBlocks blocks readers).blockEffects σ b T block') := by
  have hrun : AheadBy (· = ·)
      (p.outcomes S σ.cells (p.aroundIn σ b) (p.entryIn σ b) block.instructions)
      ((p.withBlocks blocks readers).outcomes T σ.cells (p.aroundIn σ b) (p.entryIn σ b)
        block'.instructions) := by
    rw [outcomes_withBlocks]
    exact outcomes_delegated hST hcallee hm hblock.instructions (State.le_refl _) (Nat.le_refl _)
  have hfinish := finish_under hST (Cells.within_iff_under.mp (.refl σ.cells)) hrun.state
    (Value.le_refl (p.controlIn σ b)) (e := block.terminator) fun _ _ => trivial
  rw [blockEffects, blockEffects, hblock.terminator]
  exact ⟨Value.le_refl _, hrun.state, hfinish.1, hfinish.2, hrun.ahead.writes⟩

end

/-- A guess that has everything that is produced with the calls has everything that is produced
with the stores. -/
theorem next_below_of_delegated {τ : Assignment} {seeds : Cells}
    (hfun : p.pointsTo.function = p.function)
    (hcallee : p.summaryOf? (.direct setter) = some m) (hm : m.Stores)
    (hblocks : ∀ b block, p.function.block? b = some block → ∃ block', blocks.get? b = some block' ∧
      block.Delegated setter (Storage.ofProblem p a).facts.Delegable block')
    (h : ((p.withBlocks blocks readers).next τ
      (Storage.ofProblem (p.withBlocks blocks readers) a) seeds).Below τ) :
    (p.next τ (Storage.ofProblem p a) seeds).Below τ := by
  refine next_below_of_absorbed ((Cells.Within.left seeds _).trans h.cells)
    fun b hb block hblock => ?_
  obtain ⟨block', hblock', hdelegated⟩ := hblocks b block hblock
  have habsorbed := absorbed_of_next_below h hb hblock'
  have hbelow : (p.blockEffects τ b (Storage.ofProblem p a) block).Below
      ((p.withBlocks blocks readers).blockEffects τ b
        (Storage.ofProblem (p.withBlocks blocks readers) a) block') :=
    blockEffects_delegated (storage_withBlocks hfun) hcallee hm hdelegated τ b
  exact Absorbed.mono (p := p) ⟨habsorbed.control, habsorbed.exit, habsorbed.branch,
    habsorbed.returned, habsorbed.writes, habsorbed.outs⟩ hbelow (.refl τ)

end Problem

/-! ## A function that hands its stores over -/

namespace Function

variable {f f' : Function} (hvars : f'.vars = f.vars)

include hvars

theorem leaves_congr : ∀ place : Place, f'.leaves place = f.leaves place
  | .var _ => rfl
  | .deref p | .index p _ => by
      simp only [leaves, leaves_congr p, ty?_congr hvars]
  | .field p _ => leaves_congr p

theorem named?_congr : ∀ place : Place, f'.named? place = f.named? place
  | .var _ => rfl
  | .deref p => named?_congr p
  | .index p _ | .field p _ => by
      simp only [named?, named?_congr p, ty?_congr hvars]

theorem storage?_congr : f'.storage? = f.storage? :=
  funext fun place => by rw [storage?, storage?, named?_congr hvars]

theorem stored_congr : f'.stored = f.stored :=
  funext fun place => by rw [stored, stored, leaves_congr hvars]

theorem arrays_congr : f'.arrays = f.arrays :=
  funext fun v => by rw [arrays, arrays, ty?_congr hvars]

theorem referred_congr : ∀ e : Expr, f'.referred e = f.referred e
  | .var v => congrFun (arrays_congr hvars) v
  | .addrOf place => congrFun (stored_congr hvars) place
  | .binary op l r => by
      rw [referred, referred, referred_congr l, referred_congr r]
  | .unary .. | .const _ => rfl

theorem evaluated_congr : f'.evaluated = f.evaluated :=
  funext fun e => by rw [evaluated, evaluated, stored_congr hvars]

theorem executed_congr : f'.executed = f.executed := by
  funext i
  cases i with
  | assign | cast => exact congrFun (evaluated_congr hvars) _
  | load | store =>
      simp only [executed, accessed, stored_congr hvars, evaluated_congr hvars]
  | call dst callee args =>
      simp only [executed, referred_congr hvars, evaluated_congr hvars]
  | opaqueCode touched reason => rw [executed, executed, arrays_congr hvars]

end Function

namespace Function.Delegated

variable {setter : String} {P : VarId → Expr → Prop} {f f' : Function} {config : Config}

/-- A block names no less storage when its stores are handed over. -/
theorem executedIn_subset (h : f.Delegated setter P f')
    (hP : ∀ q e, P q e → (f.ty? q).any Ty.isPointer = true) {block block' : Block}
    (hblock : block.Delegated setter P block') : f.executedIn block ⊆ f'.executedIn block' := by
  have hinstruction (i i' : Instruction) (hi : i.Delegated setter P i') :
      f.executed i ⊆ f.executed i' := by
    cases hi with
    | same => exact List.Subset.refl _
    | store q e hqe =>
        have hstored : f.stored (.deref (.var q)) = [] := by
          simp [stored, leaves, Place.plain?, Ty.isArray_of_isPointer (hP q e hqe)]
        intro v hv
        rw [executed, accessed, hstored] at hv
        exact List.mem_flatMap.mpr ⟨e, List.mem_cons_of_mem _ (List.mem_singleton.mpr rfl),
          List.mem_append_right _ hv⟩
  rw [executedIn, executedIn, executed_congr h.vars_eq, evaluated_congr h.vars_eq,
    hblock.terminator]
  refine List.append_subset.mpr ⟨fun v hv => ?_, List.subset_append_right _ _⟩
  obtain ⟨i, hi, hv⟩ := List.mem_flatMap.mp hv
  obtain ⟨i', hi', hdelegated⟩ := exists_related hblock.instructions hi
  exact List.mem_append_left _ (List.mem_flatMap.mpr ⟨i', hi', hinstruction i i' hdelegated hv⟩)

/-- The two functions take the same addresses. -/
theorem addressesNamed_eq (h : f.Delegated setter (PointsTo.finalFacts f config).Delegable f') :
    f'.addressesNamed config = f.addressesNamed config := by
  have haddressed : f'.addressed = f.addressed :=
    h.flatMap_eq (g := Instruction.addressed) (e := Terminator.addressed) fun _ _ => rfl
  have harena : (PointsTo.analyze f' config).2 = (PointsTo.analyze f config).2 := by
    rw [PointsTo.analyze_delegated h]
  simp only [addressesNamed, haddressed, harena, storage?_congr h.vars_eq, ty?_congr h.vars_eq]

/-- The solver is given the same problem, but for the blocks. -/
theorem ofFunction_eq (h : f.Delegated setter (PointsTo.finalFacts f config).Delegable f')
    (table : SummaryTable) (peers : List String) : Problem.ofFunction f' config table peers =
      ((Problem.ofFunction f config table peers).1.withBlocks f'.blocks
          (Problem.ofFunction f' config table peers).1.memoryReaders,
        (Problem.ofFunction f config table peers).2) := by
  have hfunction : { f with blocks := f'.blocks } = f' := h.rest.symm
  simp only [Problem.ofFunction, Problem.withBlocks, h.graph_eq, PointsTo.analyze_delegated h,
    hfunction]

end Function.Delegated

namespace Run

variable {f f' : Function} {config config₀ : Config} {table table₀ : SummaryTable}
  {peers peers₀ : List String} {setter : String} {pointee ty : Ty}
  {result result' result₀ : FunctionResult}

/-- Whatever a run knows at any time when the stores are made, it knows in the end when they are
handed over to a function that stores. -/
theorem assignment_below_of_delegated
    (h : f.Delegated setter (PointsTo.finalFacts f config).Delegable f') {m : Summary}
    (hready : table.ready? setter = some m) (hm : m.Stores)
    (hnamed : f.addressesNamed config = true) (hlisted : f'.ReadersListed config)
    (hdone : (ofFunction f' config table peers).final.worklist.isEmpty = true) :
    ((ofFunction f config table peers).final.assignment f.vars.length).Below
      ((ofFunction f' config table peers).final.assignment f'.vars.length) := by
  have hposed : (Problem.ofFunction f' config table peers).1.WellPosed _ :=
    Problem.wellPosed_ofFunction (h.addressesNamed_eq.trans hnamed)
  have hnext : ((Problem.ofFunction f' config table peers).1.next
      ((ofFunction f' config table peers).final.assignment f'.vars.length)
      (Storage.ofProblem (Problem.ofFunction f' config table peers).1
        (Problem.ofFunction f' config table peers).2)
      ((Problem.ofFunction f' config table peers).1.seeds
        (Problem.ofFunction f' config table peers).2)).Below
      ((ofFunction f' config table peers).final.assignment f'.vars.length) :=
    Problem.next_below_of_exhausted hposed
      (fun b hb block hblock => Problem.watched_ofFunction hlisted hb hblock) reached_ofFunction
      hdone
  have heq := h.ofFunction_eq table peers
  generalize (Problem.ofFunction f' config table peers).1.memoryReaders = readers at heq
  rw [heq] at hnext
  refine Problem.below_of_reached (Problem.wellPosed_ofFunction hnamed)
    (Problem.next_below_of_delegated (Problem.function_pointsTo f config) hready hm
      (fun b block hblock => ?_) hnext) reached_ofFunction
  rw [Problem.facts_ofFunction]
  exact h.block? hblock

/-- A function that hands stores over to a setter is reported with no less taint, where something
is known about the pointers and no address is stored. -/
theorem handed_over_within
    (hsetter : (ofFunction (.setter setter pointee ty) config₀ table₀ peers₀).result = .ok result₀)
    (hready : table.ready? setter = some result₀.summary)
    (h : f.Delegated setter (PointsTo.finalFacts f config).Delegable f')
    (hnamed : f.addressesNamed config = true) (hlisted : f'.ReadersListed config)
    (hok : (ofFunction f config table peers).result = .ok result)
    (hok' : (ofFunction f' config table peers).result = .ok result') :
    result.Within result' := by
  have hbelow := (assignment_below_of_delegated h hready (setter_stores hsetter) hnamed hlisted
    (exhausted_of_ok hok')).under
  refine within_of_under hnamed h.vars_eq (fun _ => rfl) ?_ hok hok' (fun v hv => ?_) hbelow
  · rintro l _ k _ rfl rfl hover
    exact hover
  · refine (final_has_iff (exhausted_of_ok hok') v).mpr ?_
    rcases (final_has_iff (exhausted_of_ok hok) v).mp hv with hv | ⟨b, hb, block, hblock, hv⟩
    · refine .inl ((PointsTo.analyze_has_iff f' config v).mp ?_)
      rw [PointsTo.analyze_delegated h]
      exact (PointsTo.analyze_has_iff f config v).mpr hv
    · obtain ⟨block', hblock', hdelegated⟩ := h.block? hblock
      refine .inr ⟨b, h.graph_eq ▸ hb, block', hblock', h.executedIn_subset ?_ hdelegated hv⟩
      intro q e hqe
      have hpointer : ((PointsTo.analyze f config).1.function.ty? q).any Ty.isPointer = true :=
        hqe.pointer
      rwa [Problem.function_pointsTo] at hpointer

end Run

/-! ## A pointer that is told something, and one that is not -/

/-- Writes behind the pointer `q`, and returns what is found there. -/
def writing (before : List Instruction) (write : Instruction) : Function where
  name := "writing"
  returns := .int 32
  vars :=
    [⟨"s", .int 32, .param⟩, ⟨"a", .int 32, .local⟩, ⟨"q", .pointer (.int 32), .local⟩,
      ⟨"x", .int 32, .local⟩]
  blocks := .ofList
    [(0, ⟨before ++ [write, .load 3 (.deref (.var 2))], .ret (some (.var 3))⟩)]
  entry := 0
  nextBlock := 1

/-- The store of `s` behind `q`, and the call that takes its place. -/
def storeBehind : Instruction :=
  .store (.deref (.var 2)) (.var 0)

def callSet : Instruction :=
  .call none (.direct "set") [.var 2, .var 0]

/-- The run on the function that stores. -/
def setRun : Run :=
  .ofFunction (.setter "set" (.int 32) (.int 32)) briefly .empty []

/-- The table that has its summary. -/
def setTable : SummaryTable :=
  .ofList [("set", .ready setRun.summary)]

/-- The run on the function that writes. -/
def writingRun (before : List Instruction) (write : Instruction) : Run :=
  .ofFunction (writing before write) briefly setTable []

theorem writing_delegated {P : VarId → Expr → Prop} (h : P 2 (.var 0))
    (before : List Instruction) : (writing before storeBehind).Delegated "set" P
      (writing before callSet) where
  blocks := .cons ⟨rfl, ⟨List.rel_append (List.forall₂_same.mpr fun i _ => .same i)
    (.cons (.store 2 (.var 0) h) (.cons (.same _) .nil)), rfl⟩⟩ .nil
  rest := rfl

theorem delegable_writing : (PointsTo.finalFacts
    (writing [.assign 2 (.addrOf (.var 1))] storeBehind) briefly).Delegable 2 (.var 0) where
  pointer := by
    have hpointer : (writing [.assign 2 (.addrOf (.var 1))] storeBehind).ty? 2 =
        some (.pointer (.int 32)) := rfl
    rw [PathFacts.IsPointer, PointsTo.layout_finalFacts, hpointer]
    rfl
  told := by decide_cbv
  plain := by decide_cbv

theorem readersListed_writing (before : List Instruction) (write : Instruction) :
    (writing before write).ReadersListed briefly := by
  intro b _ block hblock _
  obtain ⟨rfl, rfl⟩ := Prod.mk.inj (List.mem_singleton.mp (OrderedMap.get?_eq_some_iff.mp hblock))
  refine OrderedMap.mem_selected_iff.mpr ⟨_, rfl, ?_⟩
  rw [Problem.readsMemory, Bool.or_eq_true, List.any_eq_true]
  exact .inl ⟨.load 3 (.deref (.var 2)), List.mem_append_right _ (List.mem_cons_of_mem _
    List.mem_cons_self), rfl⟩

theorem handed_over_within_writing :
    ∃ result result', (writingRun [.assign 2 (.addrOf (.var 1))] storeBehind).result = .ok result ∧
      (writingRun [.assign 2 (.addrOf (.var 1))] callSet).result = .ok result' ∧
      result.Within result' := by
  have hset := Run.result_of_exhausted (r := setRun) (by cbv)
  have hok := Run.result_of_exhausted
    (r := writingRun [.assign 2 (.addrOf (.var 1))] storeBehind) (by cbv)
  have hok' := Run.result_of_exhausted
    (r := writingRun [.assign 2 (.addrOf (.var 1))] callSet) (by cbv)
  have hnamed : (writing [.assign 2 (.addrOf (.var 1))] storeBehind).addressesNamed briefly =
      true := by decide_cbv
  exact ⟨_, _, hok, hok', Run.handed_over_within hset rfl (writing_delegated delegable_writing _)
    hnamed (readersListed_writing _ _) hok hok'⟩

/-- Nothing is known about the pointer. The store is found by the load that follows, the call is
not. -/
theorem untold_call_loses :
    (∃ result, setRun.result = .ok result ∧ setTable.ready? "set" = some result.summary) ∧
      (writing [] storeBehind).Delegated "set" (fun _ _ => True) (writing [] callSet) ∧
      ∃ result result', (writingRun [] storeBehind).result = .ok result ∧
        (writingRun [] callSet).result = .ok result' ∧ ¬ result.Within result' ∧
        Value.single 0 Kind.directOnly ≤ result.summary.returned ∧
        result'.summary.returned = Value.bottom := by
  have hset := Run.result_of_exhausted (r := setRun) (by cbv)
  have hok := Run.result_of_exhausted (r := writingRun [] storeBehind) (by cbv)
  have hok' := Run.result_of_exhausted (r := writingRun [] callSet) (by cbv)
  have hfound : Value.single 0 Kind.directOnly ≤ (writingRun [] storeBehind).summary.returned := by
    decide_cbv
  have hlost : (writingRun [] callSet).summary.returned = Value.bottom := by decide_cbv
  refine ⟨⟨_, hset, rfl⟩, writing_delegated trivial [], _, _, hok, hok', fun hwithin => ?_, hfound,
    hlost⟩
  have hle : (writingRun [] storeBehind).summary.returned ≤
      (writingRun [] callSet).summary.returned := hwithin.summary.returned
  rw [hlost] at hle
  exact absurd (Value.le_trans hfound hle) (by decide)

end TaintAnalysis
