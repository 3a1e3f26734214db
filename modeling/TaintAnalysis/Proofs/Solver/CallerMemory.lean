import TaintAnalysis.Proofs.Memory.Facts
import TaintAnalysis.Proofs.Flow.Reachability
import TaintAnalysis.Proofs.Solver.Growth
import TaintAnalysis.Proofs.Solver.Stability

/-!
# Writes to the memory of the caller

What a function stores through a parameter is an effect on its caller, and the summary
lists it under the parameter. The solver notices it by the location that is written:
the object of the parameter, or unknown memory. So everything depends on where the
path of a store leads.

A path that begins by following a pointer parameter leads into the object of the
parameter or to unknown memory, and every step keeps it there, as long as it follows
no pointer that the function itself has stored (`PathFacts.Enters`). Therefore the
taint of what is stored is in the summary, under that parameter.

An array parameter has an object of its own as well, but no path leads to it: an array
is entered at the storage of the variable. What is stored in the elements of an array
parameter is missing in the summary.
-/

namespace TaintAnalysis

open Arena

/-- The variable that the first step of a path follows as a pointer or enters as an array. -/
def Place.entered? : Place → Option VarId
  | .var _ => none
  | .deref p | .index p _ => p.plain?.or p.entered?
  | .field p _ => p.entered?

namespace PathFacts

variable {m : PathFacts} {v : VarId} {i : Nat} {p : Place} {l : Location}

/-- A pointer parameter refers to its object. -/
structure ParamPointer (m : PathFacts) (v : VarId) (i : Nat) : Prop where
  pointer : (m.layout.function.ty? v).any Ty.isPointer = true
  object : ⟨.paramTarget i, []⟩ ∈ m.vars v

/-- What a path has reached includes something below the object of a parameter. -/
def Enters (i : Nat) (s : PathFollowed) : Prop :=
  ∃ ls, s.reached = .inr ls ∧ ∃ l ∈ ls, l.Below (.paramTarget i)

theorem Enters.below {s : PathFollowed} {ls : List Location} (h : Enters i s)
    (hs : s.reached = .inr ls) : ∃ l ∈ ls, l.Below (.paramTarget i) := by
  obtain ⟨ls', hls', hbelow⟩ := h
  obtain rfl := Sum.inr.inj (hs.symm.trans hls')
  exact hbelow

theorem ParamPointer.mem_derefVar (h : m.ParamPointer v i) :
    ⟨.paramTarget i, []⟩ ∈ m.derefVar v := by
  rw [derefVar, varTargets_pointer h.pointer, if_neg]
  · exact h.object
  · rw [List.isEmpty_iff]
    exact List.ne_nil_of_mem h.object

/-- A pointer that is kept in the object of a parameter leads back to it, as long as the function
stores nothing there. -/
theorem mem_storedTargets_of_below (hl : l.Below (.paramTarget i)) (hnone : m.overlapping l = []) :
    ∃ t ∈ m.storedTargets true l, t.Below (.paramTarget i) := by
  rw [storedTargets]
  split
  · exact ⟨.unknown, List.mem_singleton.mpr rfl, .inr rfl⟩
  · next hknown =>
    have hroot : l.root = .paramTarget i := hl.resolve_right fun h => hknown (decide_eq_true h)
    have hparam : l.param? = some i := by
      rw [Location.param?, hroot]
    rw [hnone, hparam]
    exact ⟨_, List.mem_singleton.mpr rfl, .inl rfl⟩

/-- So does an index, which follows only the pointers among the locations. -/
theorem mem_indexed_of_below (hl : l.Below (.paramTarget i)) (k : Option Int)
    (hnone : m.holdsPointer l = true → m.overlapping l = []) :
    ∃ t ∈ m.indexed k l, t.Below (.paramTarget i) := by
  rw [indexed]
  split
  · next hpointer =>
    obtain ⟨t, ht, hbelow⟩ := mem_storedTargets_of_below hl (hnone hpointer)
    exact ⟨_, List.mem_map.mpr ⟨t, ht, rfl⟩, hbelow.offset _⟩
  · exact ⟨_, List.mem_singleton.mpr rfl, hl.element _⟩

/-- A path that begins by following a pointer parameter stays in the object of the parameter, or
in unknown memory, as long as it follows no pointer that the function has stored. -/
theorem enters_follow (h : m.ParamPointer v i) : ∀ p : Place, p.entered? = some v →
    (∀ l ∈ (m.follow p).pointerCells, m.overlapping l = []) → Enters i (m.follow p)
  | .var w, hp, _ =>
      absurd hp (by simp only [Place.entered?, reduceCtorEq, not_false_eq_true])
  | .deref p, hp, hnone => by
      -- either this step follows the parameter, or what was reached before lies in its object
      simp only [follow] at hnone ⊢
      cases hs : (m.follow p).reached with
      | inl w =>
          obtain rfl := PointsTo.eq_var_of_reached hs
          obtain rfl := Option.some.inj hp
          exact ⟨_, rfl, _, h.mem_derefVar, .inl rfl⟩
      | inr ls =>
          simp only [hs] at hnone ⊢
          rw [Place.entered?, PointsTo.plain?_of_reached hs, Option.none_or] at hp
          obtain ⟨l, hl, hbelow⟩ := (enters_follow h p hp fun l hl =>
            hnone l (List.mem_append_left _ hl)).below hs
          obtain ⟨t, ht, hbelow'⟩ := mem_storedTargets_of_below hbelow
            (hnone l (List.mem_append_right _ hl))
          exact ⟨_, rfl, t, List.mem_flatMap.mpr ⟨l, hl, ht⟩, hbelow'⟩
  | .index p e, hp, hnone => by
      simp only [follow] at hnone ⊢
      cases hs : (m.follow p).reached with
      | inl w =>
          obtain rfl := PointsTo.eq_var_of_reached hs
          obtain rfl := Option.some.inj hp
          simp only [h.pointer, if_true]
          exact ⟨_, rfl, _, List.mem_map.mpr ⟨_, h.mem_derefVar, rfl⟩,
            Location.Below.offset (.inl rfl) _⟩
      | inr ls =>
          simp only [hs] at hnone ⊢
          rw [Place.entered?, PointsTo.plain?_of_reached hs, Option.none_or] at hp
          obtain ⟨l, hl, hbelow⟩ := (enters_follow h p hp fun l hl =>
            hnone l (List.mem_append_left _ hl)).below hs
          obtain ⟨t, ht, hbelow'⟩ := mem_indexed_of_below hbelow (PointsTo.constantIndex e)
            fun hpointer =>
              hnone l (List.mem_append_right _ (List.mem_filter.mpr ⟨hl, hpointer⟩))
          exact ⟨_, rfl, t, List.mem_flatMap.mpr ⟨l, hl, ht⟩, hbelow'⟩
  | .field p name, hp, hnone => by
      simp only [follow] at hnone ⊢
      cases hs : (m.follow p).reached with
      | inl w =>
          obtain rfl := PointsTo.eq_var_of_reached hs
          exact absurd hp (by simp only [Place.entered?, reduceCtorEq, not_false_eq_true])
      | inr ls =>
          simp only [hs] at hnone ⊢
          obtain ⟨l, hl, hbelow⟩ := (enters_follow h p hp hnone).below hs
          exact ⟨_, rfl, _, List.mem_map.mpr ⟨l, hl, rfl⟩, hbelow.child _⟩

theorem below_resolve (h : m.ParamPointer v i) (hp : p.entered? = some v)
    (hnone : ∀ l ∈ (m.resolve p).pointerCells, m.overlapping l = []) :
    ∃ l ∈ (m.resolve p).targets, l.Below (.paramTarget i) := by
  have hcells : (m.resolve p).pointerCells = (m.follow p).pointerCells := by
    rw [resolve]
    split <;> rfl
  obtain ⟨ls, hls, hl⟩ := enters_follow h p hp (hcells ▸ hnone)
  have htargets : (m.resolve p).targets = ls := by
    rw [resolve]
    simp only [hls]
  exact htargets ▸ hl

end PathFacts

/-! ## What a store records -/

/-- The taint of what is stored, evaluated after the place. -/
def Problem.storedValue (p : Problem) (s : State) (place : Place) (src : Expr) : Effect Value := do
  let r ← Effect.naming (p.pointsTo.resolve place)
  let _ ← p.addressTaint s place.base r (p.evalPositions s place)
  p.eval s src

variable {p : Problem} {D : Nat} {m : Memory} {v : VarId} {i : Nat} {place : Place}

/-- Writing below the object of a pointer parameter is recorded under the parameter, and so is
writing to unknown memory. -/
theorem mem_writtenParams (hparam : p.function.params[i]? = some v)
    (hv : (p.pointsTo.targetsOf v).isEmpty = false) {l : Location} (hl : l.Below (.paramTarget i)) :
    i ∈ Memory.writtenParams p l := by
  rw [Memory.writtenParams]
  rcases hl with hroot | hroot
  · rw [Location.param?, hroot]
    exact List.mem_singleton.mpr rfl
  · rw [Location.param?, hroot, Location.isUnknown, hroot]
    refine List.mem_map.mpr ⟨(v, i), List.mem_filter.mpr ⟨?_, ?_⟩, rfl⟩
    · exact List.mem_zipIdx_iff_getElem?.mpr hparam
    · rw [hv]
      rfl

/-- The taint of what is stored is recorded under the parameter whose object the place denotes. -/
theorem storedValue_le_out (hm : Readable p D m) {around : Surroundings} {s : State} {src : Expr}
    (hrecorded : ∃ l ∈ ((p.pointsTo.pathFacts D m.arena).resolve place).targets,
      i ∈ Memory.writtenParams p l) :
    ((p.storedValue s place src).run m).1 ≤
      ((p.transfer around s (.store place src)).run m).2.out i := by
  obtain ⟨l, hl, hi⟩ := hrecorded
  obtain ⟨haccess, hden⟩ := access_denotes hm s place
  have hsrc := eval_names s src _ haccess.readable
  obtain ⟨id, hid, rfl⟩ := (hden.2 l).mp hl
  -- the value is evaluated after the place, which may name locations but renames none
  have hlocation := hsrc.extend.location (hden.1 id hid)
  have hwritten (v : Value) := (writeAll_later hsrc.readable
    (fun id hid => hsrc.extend.lt_size (hden.1 id hid)) v).2 id hid i (hlocation.symm ▸ hi)
  exact Value.le_trans (Value.le_trans (Value.le_join_left _ _) (Value.le_join_left _ _))
    (hwritten _)

namespace Run

variable {f : Function} {config : Config} {table : SummaryTable} {peers : List String}
  {result : FunctionResult}

/-- At the end of the analysis a pointer parameter refers to its object. -/
theorem paramPointer_finalFacts (config : Config) (hparam : f.params[i]? = some v)
    (hpointer : (f.ty? v).any Ty.isPointer = true) :
    (PointsTo.finalFacts f config).ParamPointer v i := by
  obtain ⟨ty, hty, hisPointer⟩ := (Option.any_eq_true _ _).mp hpointer
  obtain ⟨pointee, hpointee⟩ : ∃ pointee, (f.ty? v).bind Ty.pointee? = some pointee := by
    rw [hty]
    cases ty with
    | pointer target => exact ⟨target, rfl⟩
    | _ => exact absurd hisPointer Bool.false_ne_true
  refine ⟨?_, PointsTo.paramTarget_mem config hparam hpointee⟩
  show ((PointsTo.analyze f config).1.function.ty? v).any Ty.isPointer = true
  rw [(PointsTo.analyze_gains f config).function]
  exact hpointer

/-- What a reachable block stores in the memory that a pointer parameter refers to is in the
summary of a run that converges, unless the path of the store follows a pointer that the function
itself has stored. -/
theorem stores_recorded {b : BlockId} {block : Block} {src : Expr}
    (hok : (ofFunction f config table peers).result = .ok result)
    (hreach : Relation.ReflTransGen (fun x y => y ∈ (Graph.ofFunction f).successors x) f.entry b)
    (hblock : f.block? b = some block) (hstore : .store place src ∈ block.instructions)
    (hparam : f.params[i]? = some v) (hpointer : (f.ty? v).any Ty.isPointer = true)
    (hentered : place.entered? = some v)
    (hkept : ∀ l ∈ ((PointsTo.finalFacts f config).resolve place).pointerCells,
      (PointsTo.finalFacts f config).overlapping l = []) :
    let r := ofFunction f config table peers
    (∃ around s m, r.Executes b (.store place src) around s m) ∧
      ∀ around s m, r.Executes b (.store place src) around s m →
        ((r.problem.storedValue s place src).run m).1 ≤ result.summary.out i := by
  intro r
  have horder : b ∈ r.problem.order := Graph.mem_reversePostorder_of_reaches hreach
  refine ⟨executes_of_exhausted (exhausted_of_ok hok) horder hblock hstore,
    fun around s m hexec => ?_⟩
  obtain ⟨hlater, hout⟩ := hexec.later
  have hfacts : r.problem.pointsTo.pathFacts config.maxPathDepth m.arena =
      PointsTo.finalFacts f config :=
    facts_eq_of_extends (readable_start f config table peers) hlater.extend
  have hparamPointer := paramPointer_finalFacts config hparam hpointer
  obtain ⟨l, hl, hbelow⟩ := PathFacts.below_resolve hparamPointer hentered hkept
  have hnonempty : (r.problem.pointsTo.targetsOf v).isEmpty = false := by
    obtain ⟨id, hid, -⟩ := List.mem_map.mp hparamPointer.object
    exact List.isEmpty_eq_false_iff_exists_mem.mpr ⟨id, hid⟩
  rw [summary_of_ok hok]
  refine Value.le_trans (storedValue_le_out hlater.readable ⟨l, hfacts ▸ hl, ?_⟩) (hout i)
  exact mem_writtenParams hparam hnonempty hbelow

end Run

/-! ## A parameter that is a pointer, and one that is an array -/

/-- Stores `s` in the first element of what the parameter `p` of the given type refers to. -/
def filling (ty : Ty) : Function where
  name := "filling"
  returns := .void
  vars := [⟨"p", ty, .param⟩, ⟨"s", .int 32, .param⟩]
  blocks := .ofList [(0, ⟨[.store (.index (.var 0) (.const 0)) (.var 1)], .ret none⟩)]
  entry := 0
  nextBlock := 1

/-- The run on such a function. -/
def fillingRun (ty : Ty) : Run :=
  .ofFunction (filling ty) briefly .empty []

/-- What it stores in its only visit, from the seeds. -/
def fillingStored (ty : Ty) : Value :=
  (((fillingRun ty).problem.storedValue
    ((fillingRun ty).problem.entryState (fillingRun ty).start 0) (.index (.var 0) (.const 0))
    (.var 1)).run (fillingRun ty).start.memory).1

theorem fillingRun_executes {ty : Ty} (h : ((fillingRun ty).start, 0) ∈ (fillingRun ty).visited) :
    (fillingRun ty).Executes 0 (.store (.index (.var 0) (.const 0)) (.var 1))
      ((fillingRun ty).problem.surroundings (fillingRun ty).start 0)
      ((fillingRun ty).problem.entryState (fillingRun ty).start 0) (fillingRun ty).start.memory :=
  ⟨_, ⟨[.store (.index (.var 0) (.const 0)) (.var 1)], .ret none⟩, [], [], h, rfl, rfl, rfl, rfl⟩

theorem fillingRun_exhausted_pointer :
    (fillingRun (.pointer (.int 32))).final.worklist.isEmpty = true := by
  cbv

theorem fillingRun_exhausted_array :
    (fillingRun (.array (.int 32) (some 4))).final.worklist.isEmpty = true := by
  cbv

theorem stores_recorded_filling :
    ∃ result, (fillingRun (.pointer (.int 32))).result = .ok result ∧
      Value.single 1 Kind.directOnly ≤ result.summary.out 0 := by
  have hok := Run.result_of_exhausted fillingRun_exhausted_pointer
  have hkept : ∀ l ∈ ((PointsTo.finalFacts (filling (.pointer (.int 32))) briefly).resolve
      (.index (.var 0) (.const 0))).pointerCells,
      (PointsTo.finalFacts (filling (.pointer (.int 32))) briefly).overlapping l = [] := by
    intro l hl
    have hnone : ((PointsTo.finalFacts (filling (.pointer (.int 32))) briefly).resolve
      (.index (.var 0) (.const 0))).pointerCells = [] := by decide_cbv
    exact absurd (hnone ▸ hl) List.not_mem_nil
  have hrecorded := (Run.stores_recorded (i := 0) hok .refl rfl List.mem_cons_self (by decide)
    (by decide) rfl hkept).2 _ _ _ (fillingRun_executes (by decide_cbv))
  have hvalue : fillingStored (.pointer (.int 32)) = Value.single 1 Kind.directOnly := by decide_cbv
  exact ⟨_, hok, hvalue ▸ hrecorded⟩

/-- The parameter is an array, it has an object that it refers to, and yet what is stored in its
first element is not recorded. -/
theorem filled_not_recorded :
    let r := fillingRun (.array (.int 32) (some 4))
    ⟨.paramTarget 0, []⟩ ∈ (PointsTo.finalFacts r.problem.function briefly).vars 0 ∧
      ∃ result, r.result = .ok result ∧ result.summary.out 0 = Value.bottom ∧
        ∃ around s m, r.Executes 0 (.store (.index (.var 0) (.const 0)) (.var 1)) around s m ∧
          ((r.problem.storedValue s (.index (.var 0) (.const 0)) (.var 1)).run m).1 =
            Value.single 1 Kind.directOnly := by
  intro r
  have hobject : ⟨.paramTarget 0, []⟩ ∈
      (PointsTo.finalFacts (filling (.array (.int 32) (some 4))) briefly).vars 0 :=
    PointsTo.paramTarget_mem _ rfl rfl
  have hout : (fillingRun (.array (.int 32) (some 4))).summary.out 0 = Value.bottom := by
    decide_cbv
  have hvalue : fillingStored (.array (.int 32) (some 4)) = Value.single 1 Kind.directOnly := by
    decide_cbv
  exact ⟨hobject, _, Run.result_of_exhausted fillingRun_exhausted_array, hout, _, _, _,
    fillingRun_executes (by decide_cbv), hvalue⟩

end TaintAnalysis
