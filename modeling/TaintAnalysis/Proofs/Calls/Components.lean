import Mathlib.Logic.Relation
import TaintAnalysis.Calls.Graph
import TaintAnalysis.Proofs.Flow.Search
import TaintAnalysis.Proofs.Maps

/-!
# Components are the classes of mutual calls

The call graph is built from the functions of a program, and its components are
found by searching from every function. Here the graph is read back in terms of
the program: one function calls another one (`Calls`), or can over any number of
calls (`CanCall`). The search finds exactly what a function can call, so a
component consists of the functions that can call each other, and every function
of the program is in exactly one.

A call that leaves a component for good goes to a function that can call strictly
less. The number of functions that a function can call is therefore a measure
for inductions along the calls between components (`callDepth_lt`).
-/

namespace TaintAnalysis

/-- The callees of a function are the functions that its instructions call by name. -/
theorem Function.mem_callees_iff {f : Function} {name : String} :
    name ∈ f.callees ↔
      ∃ block ∈ f.blocks.values, ∃ i ∈ block.instructions, i.directCallee? = some name := by
  rw [callees, mem_foldl_collect_iff, List.mem_flatMap]
  simp only [Block.directCallees, List.mem_filterMap, List.not_mem_nil, false_or]

/-! ## Calls -/

namespace Program

variable {p : Program} {a b c name : String} {f : Function}

theorem function?_eq_some_iff : p.function? name = some f ↔ f ∈ p.functions ∧ f.name = name := by
  constructor
  · intro h
    have hname := List.find?_some h
    exact ⟨List.mem_of_find?_eq_some h, of_decide_eq_true hname⟩
  · intro h
    obtain ⟨hf, rfl⟩ := h
    obtain ⟨g, hg⟩ : ∃ g, p.functions.find? (fun g => g.name = f.name) = some g :=
      Option.isSome_iff_exists.mp (List.find?_isSome.mpr ⟨f, hf, decide_eq_true rfl⟩)
    have hfound := List.find?_some hg
    have hname : g.name = f.name := of_decide_eq_true hfound
    rw [function?, hg, List.inj_on_of_nodup_map p.distinct (List.mem_of_find?_eq_some hg) hf hname]

theorem mem_names_iff : name ∈ p.names ↔ ∃ f, p.function? name = some f := by
  rw [names, List.mem_map]
  exact exists_congr fun f => function?_eq_some_iff.symm

/-- A function of the program calls another one, by name. -/
def Calls (p : Program) (a b : String) : Prop :=
  ∃ f, p.function? a = some f ∧ b ∈ f.callees ∧ b ∈ p.names

/-- A function calls another one over any number of calls. -/
def CanCall (p : Program) : String → String → Prop :=
  Relation.ReflTransGen p.Calls

/-- Two functions can call each other. -/
def Mutual (p : Program) (a b : String) : Prop :=
  p.CanCall a b ∧ p.CanCall b a

theorem Calls.left_mem (h : p.Calls a b) : a ∈ p.names :=
  mem_names_iff.mpr ⟨h.choose, h.choose_spec.1⟩

theorem Calls.right_mem (h : p.Calls a b) : b ∈ p.names :=
  h.choose_spec.2.2

theorem CanCall.mem (h : p.CanCall a b) (ha : a ∈ p.names) : b ∈ p.names := by
  rcases Relation.ReflTransGen.cases_tail h with rfl | ⟨x, -, hx⟩
  · exact ha
  · exact hx.right_mem

namespace Mutual

theorem refl (a : String) : p.Mutual a a :=
  ⟨.refl, .refl⟩

theorem symm (h : p.Mutual a b) : p.Mutual b a :=
  ⟨h.2, h.1⟩

theorem trans (h : p.Mutual a b) (h' : p.Mutual b c) : p.Mutual a c :=
  ⟨h.1.trans h'.1, h'.2.trans h.2⟩

theorem mem (h : p.Mutual a b) (ha : a ∈ p.names) : b ∈ p.names :=
  CanCall.mem h.1 ha

end Mutual

end Program

namespace CallGraph

open Program

variable {p : Program} {a b name : String} {c d : Component}

/-! ## The graph of a program -/

theorem entries_edges_ofProgram (p : Program) : (ofProgram p).edges.entries =
    p.functions.map fun f => (f.name, f.callees.filter p.contains) := by
  refine OrderedMap.entries_ofList ?_
  rw [List.map_map]
  exact p.distinct

theorem functions_ofProgram (p : Program) : (ofProgram p).functions = p.names := by
  rw [functions, OrderedMap.keys, entries_edges_ofProgram, List.map_map]
  rfl

theorem mem_successors_iff : b ∈ (ofProgram p).successors a ↔ p.Calls a b := by
  rw [successors]
  cases hget : (ofProgram p).edges.get? a with
  | none =>
      refine ⟨fun h => absurd h List.not_mem_nil, fun h => ?_⟩
      have hkey := h.left_mem
      rw [← Option.not_isSome_iff_eq_none, Option.isSome_iff_exists,
        ← OrderedMap.mem_keys_iff_exists] at hget
      rw [← functions_ofProgram] at hkey
      exact absurd hkey hget
  | some next =>
      have hmem := OrderedMap.get?_eq_some_iff.mp hget
      rw [entries_edges_ofProgram] at hmem
      obtain ⟨f, hf, hentry⟩ := List.mem_map.mp hmem
      obtain ⟨rfl, rfl⟩ := Prod.mk.inj hentry
      have hfound := function?_eq_some_iff.mpr ⟨hf, rfl⟩
      rw [Option.getD_some, List.mem_filter, Program.contains, decide_eq_true_iff]
      constructor
      · exact fun h => ⟨f, hfound, h⟩
      · intro h
        obtain ⟨g, hg, hcalls⟩ := h
        obtain rfl := Option.some.inj (hfound.symm.trans hg)
        exact hcalls

/-- The search finds exactly the functions that can be called. -/
theorem mem_reachableFrom_iff (ha : a ∈ p.names) :
    b ∈ (ofProgram p).reachableFrom a ↔ p.CanCall a b := by
  have hclosed : ∀ x ∈ p.names, ∀ y ∈ (ofProgram p).successors x, y ∈ p.names :=
    fun x _ y hy => (mem_successors_iff.mp hy).right_mem
  have hbudget : p.names.length ≤ (ofProgram p).nodeCount + 1 := by
    rw [nodeCount, OrderedMap.size, entries_edges_ofProgram, names, List.length_map,
      List.length_map]
    exact Nat.le_succ _
  have hstarts : ∀ x ∈ [a], x ∈ p.names := fun x hx => List.mem_singleton.mp hx ▸ ha
  have hcalls : (fun x y => y ∈ (ofProgram p).successors x) = p.Calls := by
    funext x y
    exact propext mem_successors_iff
  refine (Search.mem_run_iff hclosed hbudget hstarts).trans ?_
  simp [hcalls, Program.CanCall]

/-- How many functions a function can call. -/
def callDepth (g : CallGraph) (name : String) : Nat :=
  (g.reachableFrom name).toFinset.card

theorem callDepth_le (hcan : p.CanCall a b) (ha : a ∈ p.names) :
    (ofProgram p).callDepth b ≤ (ofProgram p).callDepth a := by
  refine Finset.card_le_card fun x hx => ?_
  rw [List.mem_toFinset, mem_reachableFrom_iff (hcan.mem ha)] at hx
  rw [List.mem_toFinset, mem_reachableFrom_iff ha]
  exact hcan.trans hx

/-- A call that cannot lead back goes to a function that can call less. -/
theorem callDepth_lt (hcalls : p.Calls a b) (hback : ¬ p.CanCall b a) :
    (ofProgram p).callDepth b < (ofProgram p).callDepth a := by
  refine Finset.card_lt_card ⟨fun x hx => ?_, fun hsub => hback ?_⟩
  · rw [List.mem_toFinset, mem_reachableFrom_iff hcalls.right_mem] at hx
    rw [List.mem_toFinset, mem_reachableFrom_iff hcalls.left_mem]
    exact .head hcalls hx
  · have hself : a ∈ (ofProgram p).reachableFrom a :=
      (mem_reachableFrom_iff hcalls.left_mem).mpr .refl
    exact (mem_reachableFrom_iff hcalls.right_mem).mp
      (List.mem_toFinset.mp (hsub (List.mem_toFinset.mpr hself)))

/-! ## One component -/

theorem sameComponent_iff (ha : a ∈ p.names) (hb : b ∈ p.names) :
    (ofProgram p).sameComponent a b = true ↔ p.Mutual a b := by
  rw [sameComponent, Bool.and_eq_true, decide_eq_true_iff, decide_eq_true_iff,
    mem_reachableFrom_iff ha, mem_reachableFrom_iff hb]
  exact Iff.rfl

theorem mem_componentOf_iff (ha : a ∈ p.names) :
    b ∈ ((ofProgram p).componentOf a).functions ↔ p.Mutual a b := by
  rw [componentOf, sorted, List.mem_mergeSort, functions_ofProgram, List.mem_filter]
  constructor
  · exact fun h => (sameComponent_iff ha h.1).mp h.2
  · exact fun h => ⟨h.mem ha, (sameComponent_iff ha (h.mem ha)).mpr h⟩

theorem nodup_componentOf (p : Program) (a : String) :
    ((ofProgram p).componentOf a).functions.Nodup := by
  rw [componentOf, sorted, (List.mergeSort_perm _ _).nodup_iff, functions_ofProgram]
  exact p.distinct.filter _

/-- Functions that can call each other have the same component. -/
theorem componentOf_eq (ha : a ∈ p.names) (h : p.Mutual a b) :
    (ofProgram p).componentOf a = (ofProgram p).componentOf b := by
  have hb := h.mem ha
  have hmembers : (ofProgram p).functions.filter ((ofProgram p).sameComponent a) =
      (ofProgram p).functions.filter ((ofProgram p).sameComponent b) := by
    rw [functions_ofProgram]
    refine List.filter_congr fun x hx => Bool.eq_iff_iff.mpr ?_
    rw [sameComponent_iff ha hx, sameComponent_iff hb hx]
    exact ⟨h.symm.trans, h.trans⟩
  rw [componentOf, componentOf, hmembers]
  congr 1
  -- only a single function has to be asked whether it calls itself
  by_cases hmany : 1 < ((ofProgram p).functions.filter ((ofProgram p).sameComponent b)).length
  · rw [decide_eq_true hmany, Bool.true_or, Bool.true_or]
  · have hmem (x : String) (hx : p.Mutual b x) :
        x ∈ (ofProgram p).functions.filter ((ofProgram p).sameComponent b) := by
      have hxp := hx.mem hb
      exact List.mem_filter.mpr ⟨functions_ofProgram p ▸ hxp, (sameComponent_iff hb hxp).mpr hx⟩
    obtain ⟨x, hx⟩ := List.length_eq_one_iff.mp (Nat.le_antisymm (Nat.not_lt.mp hmany)
      (List.length_pos_of_mem (hmem b (.refl b))))
    rw [hx] at hmem
    rw [List.mem_singleton.mp (hmem a h.symm), List.mem_singleton.mp (hmem b (.refl b))]

/-! ## All components -/

theorem mem_components_iff : c ∈ (ofProgram p).components ↔
    ∃ a ∈ p.names, (ofProgram p).componentOf a = c := by
  rw [components, mem_foldl_collect_iff, functions_ofProgram, List.mem_map]
  exact ⟨fun h => h.resolve_left List.not_mem_nil, .inr⟩

theorem mem_names_of_mem_component (hc : c ∈ (ofProgram p).components)
    (hname : name ∈ c.functions) : name ∈ p.names := by
  obtain ⟨a, ha, rfl⟩ := mem_components_iff.mp hc
  exact ((mem_componentOf_iff ha).mp hname).mem ha

/-- A component is that of each of its functions. -/
theorem componentOf_of_mem (hc : c ∈ (ofProgram p).components) (hname : name ∈ c.functions) :
    (ofProgram p).componentOf name = c := by
  obtain ⟨a, ha, rfl⟩ := mem_components_iff.mp hc
  exact (componentOf_eq ha ((mem_componentOf_iff ha).mp hname)).symm

theorem mem_component_iff (hc : c ∈ (ofProgram p).components) (ha : a ∈ c.functions) :
    b ∈ c.functions ↔ p.Mutual a b := by
  rw [← componentOf_of_mem hc ha]
  exact mem_componentOf_iff (mem_names_of_mem_component hc ha)

theorem componentOf_mem_components (ha : a ∈ p.names) :
    (ofProgram p).componentOf a ∈ (ofProgram p).components :=
  mem_components_iff.mpr ⟨a, ha, rfl⟩

theorem mem_componentOf_self (ha : a ∈ p.names) :
    a ∈ ((ofProgram p).componentOf a).functions :=
  (mem_componentOf_iff ha).mpr (.refl a)

/-- No function is in two components. -/
theorem nodup_functions_components (p : Program) :
    ((ofProgram p).components.flatMap (·.functions)).Nodup := by
  refine List.nodup_flatMap.mpr ⟨fun c hc => ?_, ?_⟩
  · obtain ⟨a, -, rfl⟩ := mem_components_iff.mp hc
    exact nodup_componentOf p a
  · refine List.Pairwise.imp_of_mem ?_ (nodup_foldl_collect List.nodup_nil)
    intro c d hc hd hne x hx hx'
    exact hne ((componentOf_of_mem hc hx).symm.trans (componentOf_of_mem hd hx'))

/-- A component that is not recursive is a single function, which does not call itself. -/
theorem functions_of_not_recursive (hc : c ∈ (ofProgram p).components)
    (hrec : c.isRecursive = false) (ha : a ∈ c.functions) :
    c.functions = [a] ∧ ¬ p.Calls a a := by
  have hap := mem_names_of_mem_component hc ha
  obtain rfl := componentOf_of_mem hc ha
  rw [componentOf, Bool.or_eq_false_iff, decide_eq_false_iff_not, decide_eq_false_iff_not] at hrec
  have hperm := List.mergeSort_perm
    ((ofProgram p).functions.filter ((ofProgram p).sameComponent a)) (fun a b => decide (a ≤ b))
  have hlen : ((ofProgram p).componentOf a).functions.length = 1 :=
    Nat.le_antisymm (hperm.length_eq ▸ Nat.not_lt.mp hrec.1) (List.length_pos_of_mem ha)
  obtain ⟨x, hx⟩ := List.length_eq_one_iff.mp hlen
  rw [hx] at ha ⊢
  exact ⟨by rw [List.mem_singleton.mp ha], fun hcalls => hrec.2 (mem_successors_iff.mpr hcalls)⟩

end CallGraph

end TaintAnalysis
