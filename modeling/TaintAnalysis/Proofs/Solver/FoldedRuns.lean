import TaintAnalysis.Proofs.Memory.FoldedFacts
import TaintAnalysis.Proofs.Solver.Coarsening
import TaintAnalysis.Proofs.Solver.NamedStorage
import TaintAnalysis.Proofs.Solver.Surroundings

/-!
# Runs under coarser settings

What a run finds under coarser settings satisfies the equations over a memory that tells less
apart. Pulled back to the memory of the finer settings it lies above what a run finds there. So
under coarser settings a run reports no less taint (`Run.result_within`), if paths are followed
alike under both of them.

What is named has to be compared as well. A variable lives in memory if its storage is named, and
parameters have their taint in memory only where something is named that can hold it.
-/

namespace TaintAnalysis

open Arena

/-- The paths of the function are followed alike under both configurations: while its pointers are
analyzed, and with what is known about them in the end. -/
structure Function.FollowsAlike (f : Function) (fine coarse : Config) : Prop where
  during : PointsTo.FollowsAlike f fine coarse
  after : ∀ block ∈ f.blocks.values, ∀ place ∈ block.places,
    (PointsTo.finalFacts f fine).FollowedAlike (PointsTo.finalFacts f coarse) place

/-- Each block of the function that depends on memory is on the list of those that do. -/
def Function.ReadersListed (f : Function) (config : Config) : Prop :=
  let p := (Problem.ofFunction f config .empty []).1
  let a := (Problem.ofFunction f config .empty []).2
  ∀ b ∈ p.order, ∀ block, f.block? b = some block →
    (Storage.ofProblem p a).blockReads block = true → b ∈ p.memoryReaders

theorem Function.AddressFree.readersListed {f : Function} (hf : f.AddressFree) (config : Config) :
    f.ReadersListed config :=
  fun _ _ _ hblock => Problem.listed_of_addressFree hf hblock

theorem Function.addressesNamed_congr (f : Function) (config config' : Config) :
    f.addressesNamed config = f.addressesNamed config' := by
  have hresident (v : VarId) : PointsTo.isMemoryResident (PointsTo.analyze f config).2 v =
      PointsTo.isMemoryResident (PointsTo.analyze f config').2 v := by
    rw [Bool.eq_iff_iff, isMemoryResident_iff, isMemoryResident_iff, PointsTo.analyze_has_iff,
      PointsTo.analyze_has_iff]
  simp only [addressesNamed, hresident]

/-- The paths of a function that follows no stored pointer are followed alike under any two
configurations. -/
theorem Function.FollowsDirectly.followsAlike {f : Function} (h : f.FollowsDirectly)
    (fine coarse : Config) : f.FollowsAlike fine coarse where
  during := PointsTo.followsAlike_of_direct h fine coarse
  after := fun block hblock place hplace =>
    (PointsTo.pending_analyze f fine).followedAlike (h.places block hblock place hplace)

namespace Problem

variable {p : Problem} {a b : Arena}

/-! ## Seeds -/

/-- Each cell of the first memory is that of one of the locations, and the cell of the location in
the second memory holds the same. -/
def SeededAlike (a b : Arena) (ls : List Location) (c d : OrderedMap LocId Value) : Prop :=
  ∀ id v, c.get? id = some v → ∃ l ∈ ls, a.find? l = some id ∧
    ∃ id', b.find? l = some id' ∧ d.get? id' = some v

theorem SeededAlike.seed {ls : List Location} {c d : OrderedMap LocId Value}
    (h : SeededAlike a b ls c d) {e : Location × Value} (he : e.1 ∈ ls)
    (hab : (a.find? e.1).isSome = true → (b.find? e.1).isSome = true) :
    SeededAlike a b ls (Problem.seed a c e) (Problem.seed b d e) := by
  -- the cells of other locations are other cells
  have hold {l : Location} {id id' : LocId} {v : Value} (hid : a.find? l = some id)
      (hid' : b.find? l = some id') (hv : d.get? id' = some v) (hne : a.find? e.1 ≠ some id) :
      (Problem.seed b d e).get? id' = some v := by
    rw [Problem.seed]
    split
    · next i hi =>
      rw [OrderedMap.get?_insert, if_neg, hv]
      rintro rfl
      have hloc := (find?_some hid').2.symm.trans (find?_some hi).2
      exact hne (hloc ▸ hid)
    · exact hv
  intro id v hget
  rw [Problem.seed] at hget
  split at hget
  · next i hi =>
    rw [OrderedMap.get?_insert] at hget
    split at hget
    · next heq =>
      obtain rfl := heq
      obtain ⟨id', hid'⟩ := Option.isSome_iff_exists.mp (hab (by rw [hi]; rfl))
      refine ⟨e.1, he, hi, id', hid', ?_⟩
      rw [Problem.seed, hid']
      simp only []
      rw [OrderedMap.get?_insert, if_pos rfl]
      exact hget
    · next hne =>
      obtain ⟨l, hl, hid, id', hid', hv⟩ := h id v hget
      exact ⟨l, hl, hid, id', hid', hold hid hid' hv fun heq =>
        hne (Option.some.inj (heq.symm.trans hi))⟩
  · next hnone =>
    obtain ⟨l, hl, hid, id', hid', hv⟩ := h id v hget
    exact ⟨l, hl, hid, id', hid', hold hid hid' hv fun heq => by simp [hnone] at heq⟩

/-- What is in memory at the beginning is in a memory in which more is named. -/
theorem seeds_under {q : Problem} {r : Location → Location → Prop} (hfun : q.function = p.function)
    (hnamed : ∀ e ∈ p.seedList, a.Has e.1 → b.Has e.1 ∧ r e.1 e.1) :
    (p.seeds a).Under r (q.seeds b) := by
  have hlist : q.seedList = p.seedList := by rw [seedList, seedList, hfun]
  have hseeded : SeededAlike a b (p.seedList.map Prod.fst) (p.seedCells a) (q.seedCells b) := by
    rw [seedCells_eq, seedCells_eq, hlist]
    have hall (l : List (Location × Value)) (hl : l ⊆ p.seedList) (c d : OrderedMap LocId Value)
        (h : SeededAlike a b (p.seedList.map Prod.fst) c d) :
        SeededAlike a b (p.seedList.map Prod.fst) (l.foldl (seed a) c) (l.foldl (seed b) d) := by
      induction l generalizing c d with
      | nil => exact h
      | cons e rest ih =>
          obtain ⟨he, hrest⟩ := List.cons_subset.mp hl
          refine ih hrest _ _ (h.seed (List.mem_map_of_mem he) ?_)
          rw [← has_iff_find?, ← has_iff_find?]
          exact fun hhas => (hnamed e he hhas).1
    exact hall _ (List.Subset.refl _) _ _ fun id v hget => by simp [OrderedMap.get?_empty] at hget
  refine .of_entries fun e he => ?_
  obtain ⟨e, hcell, rfl⟩ := List.mem_map.mp he
  obtain ⟨l, hl, hid, id', hid', hv⟩ := hseeded e.1 e.2 (OrderedMap.get?_eq_some_iff.mpr hcell)
  obtain ⟨x, hx, rfl⟩ := List.mem_map.mp hl
  refine ⟨(b.location id', e.2), List.mem_map_of_mem (OrderedMap.get?_eq_some_iff.mp hv), ?_,
    Value.le_refl _⟩
  show r (b.location id') (a.location e.1)
  rw [(find?_some hid').2, (find?_some hid).2]
  exact (hnamed x hx (has_iff_find?.mpr (by rw [hid]; rfl))).2

end Problem

/-! ## Two configurations -/

namespace Problem

variable {f : Function} {fine coarse config : Config} {t u : SummaryTable} {peers : List String}

theorem facts_ofFunction (f : Function) (config : Config) (t : SummaryTable)
    (peers : List String) :
    (Storage.ofProblem (ofFunction f config t peers).1 (ofFunction f config t peers).2).facts =
      PointsTo.finalFacts f config := by
  have hdepth : (PointsTo.analyze f config).2.maxDepth = config.maxPathDepth :=
    (PointsTo.analyze_advances f config).ready.wellFormed.depth
  show (PointsTo.analyze f config).1.pathFacts (PointsTo.analyze f config).2.maxDepth _ = _
  rw [hdepth]
  rfl

theorem function_pointsTo (f : Function) (config : Config) :
    (PointsTo.analyze f config).1.function = f :=
  (PointsTo.analyze_gains f config).function

/-- The storage under the coarser configuration has what the other one has. -/
theorem storage_under (t u : SummaryTable) (peers : List String) (hcoarse : coarse.Coarsens fine)
    (halike : f.FollowsAlike fine coarse) :
    (Storage.ofProblem (ofFunction f fine t peers).1 (ofFunction f fine t peers).2).Under
      (PointsTo.finalFacts f coarse).layout.Covers
      ((PointsTo.finalFacts f fine).FollowedAlike (PointsTo.finalFacts f coarse))
      (Storage.ofProblem (ofFunction f coarse u peers).1 (ofFunction f coarse u peers).2) := by
  have hcovered := PointsTo.finalFacts_covered hcoarse halike.during
  refine ⟨fun v hv => ?_, fun v => .of_root fun i hi => absurd hi (by simp),
    fun l l' k k' hl hk hover => hl.overlaps hk hover, fun p hp => ?_, fun p hp => ?_,
    fun p hp => ?_, fun e he => ?_⟩
  · obtain ⟨hresident, hscalar⟩ := Bool.and_eq_true_iff.mp hv
    refine Bool.and_eq_true_iff.mpr ⟨?_, ?_⟩
    · exact isMemoryResident_iff.mpr ((PointsTo.analyze_has_iff f coarse v).mpr
        ((PointsTo.analyze_has_iff f fine v).mp (isMemoryResident_iff.mp hresident)))
    · show ((PointsTo.analyze f coarse).1.function.ty? v).any _ = true
      rw [function_pointsTo, ← function_pointsTo f fine]
      exact hscalar
  · rw [facts_ofFunction, facts_ofFunction]
    exact (PathFacts.resolve_covered hcovered hp).targets
  · rw [facts_ofFunction, facts_ofFunction]
    exact (PathFacts.resolve_covered hcovered hp).pointerCells
  · rw [facts_ofFunction, facts_ofFunction]
    exact (PathFacts.resolve_covered hcovered hp).derefsBase
  · rw [facts_ofFunction, facts_ofFunction]
    exact PathFacts.exprTargets_covered hcovered fun p hp => he p (e.targeted_subset hp)

/-- What is written to unknown memory is written through every parameter that points somewhere. -/
theorem mem_writtenParams_of_isUnknown (u : SummaryTable) (peers : List String) {i : Nat}
    {v : VarId} {l : Location} (hparam : f.params[i]? = some v)
    (hv : (PointsTo.finalFacts f coarse).vars v ≠ []) (hl : l.isUnknown = true) :
    i ∈ Memory.writtenParams (ofFunction f coarse u peers).1 l := by
  have hroot : l.param? = none := by
    rw [Location.param?, Location.isUnknown_iff.mp hl]
  simp only [Memory.writtenParams, hroot, hl, if_true]
  refine List.mem_map.mpr ⟨(v, i), List.mem_filter.mpr ⟨?_, ?_⟩, rfl⟩
  · exact List.mem_zipIdx_iff_getElem?.mpr hparam
  · rw [Bool.not_eq_true', Bool.eq_false_iff]
    intro hempty
    exact hv (List.map_eq_nil_iff.mpr (List.isEmpty_iff.mp hempty))

/-- What is written through a parameter is written through it under the coarser configuration. -/
theorem writtenParams_subset (t u : SummaryTable) (peers : List String)
    (hcovered : (PointsTo.finalFacts f fine).CoveredBy (PointsTo.finalFacts f coarse))
    {l l' : Location} (hcovers : (PointsTo.finalFacts f coarse).layout.Covers l' l) :
    Memory.writtenParams (ofFunction f fine t peers).1 l ⊆
      Memory.writtenParams (ofFunction f coarse u peers).1 l' := by
  intro i hi
  rw [Memory.writtenParams] at hi
  split at hi
  · next j hj =>
    obtain rfl := List.mem_singleton.mp hi
    have hroot : l.root = .paramTarget i := by
      obtain ⟨root, path⟩ := l
      cases root <;> simp_all [Location.param?]
    cases hl' : l'.isUnknown with
    | true =>
        have hobject := hcovers.object i hroot
        rw [hroot, PointsTo.layout_finalFacts] at hobject
        obtain ⟨ty, hty⟩ := Option.isSome_iff_exists.mp hobject
        obtain ⟨v, hv, hpointee⟩ := Option.bind_eq_some_iff.mp hty
        exact mem_writtenParams_of_isUnknown u peers hv
          (List.ne_nil_of_mem (PointsTo.paramTarget_mem coarse hv hpointee)) hl'
    | false =>
        have hparam : l'.param? = some i := by
          rw [Location.param?, hcovers.root_eq hl', hroot]
        simp [Memory.writtenParams, hparam]
  · split at hi
    · next hl =>
      obtain ⟨⟨v, j⟩, he, rfl⟩ := List.mem_map.mp hi
      obtain ⟨hmem, htargets⟩ := List.mem_filter.mp he
      refine mem_writtenParams_of_isUnknown u peers (List.mem_zipIdx_iff_getElem?.mp hmem)
        (fun hnil => ?_) (hcovers.isUnknown hl)
      have hvars : (PointsTo.finalFacts f fine).vars v ≠ [] := by
        intro hnil
        have hempty : ((PointsTo.analyze f fine).1.targetsOf v).isEmpty = true :=
          List.isEmpty_iff.mpr (List.map_eq_nil_iff.mp hnil)
        rw [Bool.not_eq_true'] at htargets
        exact absurd (hempty.symm.trans htargets) (by simp)
      obtain ⟨t, ht⟩ := List.exists_mem_of_ne_nil _ hvars
      obtain ⟨t', ht', -⟩ := hcovered.vars v t ht
      exact List.ne_nil_of_mem ht' hnil
    · exact absurd hi List.not_mem_nil

/-- Under the coarser configuration memory starts with what it starts with otherwise. -/
theorem seeds_ofFunction_under (t u : SummaryTable) (peers : List String) (f : Function)
    (fine coarse : Config) :
    ((ofFunction f fine t peers).1.seeds (ofFunction f fine t peers).2).Under
      (PointsTo.finalFacts f coarse).layout.Covers
      ((ofFunction f coarse u peers).1.seeds (ofFunction f coarse u peers).2) := by
  refine seeds_under rfl fun e he hhas => ?_
  obtain ⟨⟨v, i⟩, -, he⟩ := List.mem_flatMap.mp he
  rcases List.mem_cons.mp he with rfl | he
  · have hobject := (PointsTo.analyze_has_object_iff f fine i).mp hhas
    refine ⟨(PointsTo.analyze_has_object_iff f coarse i).mpr hobject, .of_root fun j hj => ?_⟩
    obtain rfl := Root.paramTarget.inj hj
    rw [PointsTo.layout_finalFacts]
    exact hobject
  · obtain rfl := List.mem_singleton.mp he
    exact ⟨(PointsTo.analyze_has_iff f coarse v).mpr ((PointsTo.analyze_has_iff f fine v).mp hhas),
      .of_root fun j hj => absurd hj (by simp)⟩

theorem watched_ofFunction (hlisted : f.ReadersListed config) {b : BlockId} {block : Block}
    (hb : b ∈ (ofFunction f config t peers).1.order)
    (hblock : (ofFunction f config t peers).1.function.block? b = some block) :
    (ofFunction f config t peers).1.Watched (ofFunction f config t peers).2 b block :=
  watched_of_listed fun hreads => hlisted b hb block hblock hreads

end Problem

/-! ## Runs -/

namespace Run

variable {f : Function} {fine coarse : Config} {t u : SummaryTable} {peers : List String}
  {result result' : FunctionResult}

/-- What a run knows at any time, it knows at the end under a coarser configuration that
converges. -/
theorem assignment_under (hcoarse : coarse.Coarsens fine) (halike : f.FollowsAlike fine coarse)
    (hnamed : f.addressesNamed fine = true) (hlisted : f.ReadersListed coarse) (htu : t.Below u)
    (hdone : (ofFunction f coarse u peers).final.worklist.isEmpty = true) :
    ((ofFunction f fine t peers).final.assignment f.vars.length).Under
      (PointsTo.finalFacts f coarse).layout.Covers
      ((ofFunction f coarse u peers).final.assignment f.vars.length) := by
  have hfine : (Problem.ofFunction f fine t peers).1.WellPosed _ :=
    Problem.wellPosed_ofFunction hnamed
  have hposed : (Problem.ofFunction f coarse u peers).1.WellPosed _ :=
    Problem.wellPosed_ofFunction (f.addressesNamed_congr fine coarse ▸ hnamed)
  have hpost := Problem.next_below_of_exhausted hposed
    (fun b hb block hblock => Problem.watched_ofFunction hlisted hb hblock) reached_ofFunction hdone
  have hsized := (Problem.sound_of_reached hposed reached_ofFunction).sized.assignment
  have hplaces : (Problem.ofFunction f fine t peers).1.Throughout
      ((PointsTo.finalFacts f fine).FollowedAlike (PointsTo.finalFacts f coarse)) :=
    fun b _ block hblock => halike.after block (OrderedMap.mem_values_iff.mpr ⟨b, hblock⟩)
  obtain ⟨τ, hτ, hunder⟩ := Problem.exists_next_below
    (p := (Problem.ofFunction f fine t peers).1) (u := u) (PointsTo.analyze f coarse).1
    (Problem.ofFunction f coarse u peers).1.memoryReaders
    (Problem.storage_under t u peers hcoarse halike) hplaces htu
    (Problem.seeds_ofFunction_under t u peers f fine coarse)
    (fun l l' hcovers => Problem.writtenParams_subset t u peers
      (PointsTo.finalFacts_covered hcoarse halike.during) hcovers)
    (fun b => Nat.le_of_eq (hsized b)) hpost
  exact (Problem.below_of_reached hfine hτ reached_ofFunction).trans_under hunder

/-- What the storage of a variable adds to its taint. -/
theorem stored_le_taintOf {r : Run} {v : VarId} (h : r.final.memory.arena.Has ⟨.variable v, []⟩) :
    Cells.read r.final.memory.view [⟨.variable v, []⟩] ≤ r.taintOf v := by
  obtain ⟨id, hid⟩ := Option.isSome_iff_exists.mp (has_iff_find?.mp h)
  rw [taintOf]
  simp only [hid]
  rw [Memory.read_eq (.singleton (find?_some hid))]
  exact Value.le_join_right _ _

/-- What is reported of a variable is what the states say, and its storage, if it has any. -/
theorem taintOf_le {r : Run} {v : VarId} {x : Value} (hseed : r.problem.seedState.get v ≤ x)
    (hexits : ∀ b, ((r.final.assignment r.problem.varCount).exit b).get v ≤ x)
    (hstored : r.final.memory.arena.Has ⟨.variable v, []⟩ →
      Cells.read r.final.memory.view [⟨.variable v, []⟩] ≤ x) : r.taintOf v ≤ x := by
  have hscalar :
      Value.joins (r.problem.seedState.get v :: r.final.exits.values.map (·.get v)) ≤ x := by
    refine Value.joins_le_iff.mpr fun y hy => ?_
    rcases List.mem_cons.mp hy with rfl | hy
    · exact hseed
    · obtain ⟨s, hs, rfl⟩ := List.mem_map.mp hy
      obtain ⟨b, hb⟩ := OrderedMap.mem_values_iff.mp hs
      have hexit : (r.final.assignment r.problem.varCount).exit b = s := by
        show (r.final.exits.get? b).getD _ = s
        rw [hb, Option.getD_some]
      exact hexit ▸ hexits b
  rw [taintOf]
  split
  · next id hid =>
    refine Value.join_le hscalar ?_
    rw [Memory.read_eq (.singleton (find?_some hid))]
    exact hstored (has_iff_find?.mpr (by rw [hid]; rfl))
  · exact hscalar

theorem seed_le_taintOf (r : Run) (v : VarId) : r.problem.seedState.get v ≤ r.taintOf v := by
  have hscalar := Value.le_joins (List.mem_cons_self (a := r.problem.seedState.get v)
    (l := r.final.exits.values.map (·.get v)))
  rw [taintOf]
  split
  · exact Value.le_trans hscalar (Value.le_join_left _ _)
  · exact hscalar

end Run

/-- The second result has all the taint of the first one. -/
structure FunctionResult.Within (a b : FunctionResult) : Prop where
  summary : a.summary.Below b.summary
  vars : List.Forall₂ (· ≤ ·) a.vars b.vars

namespace Run

variable {f : Function} {fine coarse : Config} {t u : SummaryTable} {peers : List String}
  {result result' : FunctionResult}

theorem eq_of_ok {r : Run} (h : r.result = .ok result) :
    result = ⟨r.summary, (List.range r.problem.varCount).map r.taintOf, r.visits.length⟩ := by
  rw [result_of_exhausted (exhausted_of_ok h)] at h
  exact (Except.ok.inj h).symm

/-- What a run finds at the end is reported by another one that finds no less, location by
location, if the second one names the storage that the first one names. -/
theorem within_of_under {g : Function} {rel : Location → Location → Prop}
    (hnamed : f.addressesNamed fine = true) (hvars : g.vars = f.vars)
    (hrel : ∀ v, rel ⟨.variable v, []⟩ ⟨.variable v, []⟩)
    (hoverlaps : ∀ l l' k k', rel l' l → rel k' k → l.overlaps k = true → l'.overlaps k' = true)
    (hok : (ofFunction f fine t peers).result = .ok result)
    (hok' : (ofFunction g coarse u peers).result = .ok result')
    (hhas : ∀ v, (ofFunction f fine t peers).final.memory.arena.Has ⟨.variable v, []⟩ →
      (ofFunction g coarse u peers).final.memory.arena.Has ⟨.variable v, []⟩)
    (hunder : ((ofFunction f fine t peers).final.assignment f.vars.length).Under rel
      ((ofFunction g coarse u peers).final.assignment g.vars.length)) : result.Within result' := by
  have hstored {v : VarId} (hv : (ofFunction f fine t peers).final.memory.arena.Has
      ⟨.variable v, []⟩) : Cells.read (ofFunction f fine t peers).final.memory.view
        [⟨.variable v, []⟩] ≤ (ofFunction g coarse u peers).taintOf v := by
    refine Value.le_trans (hunder.cells.read_le hoverlaps fun l hl => ?_)
      (stored_le_taintOf (hhas v hv))
    exact ⟨l, hl, List.mem_singleton.mp hl ▸ hrel v⟩
  have hseed : (ofFunction f fine t peers).problem.seedState =
      (ofFunction g coarse u peers).problem.seedState := by
    show (f.params.zipIdx.foldl _ (.untainted f.vars.length) : State) =
      g.params.zipIdx.foldl _ (.untainted g.vars.length)
    rw [Function.params_congr hvars, hvars]
  rw [eq_of_ok hok, eq_of_ok hok']
  refine ⟨summary_below_of_le (Problem.wellPosed_ofFunction hnamed) hunder.returned hunder.outs, ?_⟩
  rw [List.forall₂_map_left_iff, List.forall₂_map_right_iff]
  show List.Forall₂ _ (List.range f.vars.length) (List.range g.vars.length)
  rw [hvars]
  refine List.forall₂_same.mpr fun v _ => taintOf_le ?_ (fun b => ?_) hstored
  · exact hseed ▸ seed_le_taintOf (ofFunction g coarse u peers) v
  · exact Value.le_trans (State.le_iff.mp (hunder.exit b) v) (exit_le_taintOf _ b v)

/-- Under a coarser configuration, and with larger summaries of the functions that are called, a
run reports no less taint. -/
theorem result_within (hcoarse : coarse.Coarsens fine) (halike : f.FollowsAlike fine coarse)
    (hnamed : f.addressesNamed fine = true) (hlisted : f.ReadersListed coarse) (htu : t.Below u)
    (hok : (ofFunction f fine t peers).result = .ok result)
    (hok' : (ofFunction f coarse u peers).result = .ok result') : result.Within result' := by
  refine within_of_under hnamed rfl (fun v => .of_root fun i hi => absurd hi (by simp))
    (fun l l' k k' hl hk => hl.overlaps hk) hok hok' (fun v hv => ?_)
    (assignment_under hcoarse halike hnamed hlisted htu (exhausted_of_ok hok'))
  exact (final_has_iff (exhausted_of_ok hok') v).mpr ((final_has_iff (exhausted_of_ok hok) v).mp hv)

end Run

end TaintAnalysis
