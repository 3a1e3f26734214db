import Mathlib.Logic.Relation
import TaintAnalysis.Flow.Graph
import TaintAnalysis.Proofs.Flow.Search
import TaintAnalysis.Proofs.Maps

/-!
# Which blocks the searches of a graph find

The searches along successors and along predecessors stay among the entry, the
blocks of the graph and the successors these name, and the budget of a search is
the number of entries in this list. So the order of visits contains exactly the
blocks that the entry reaches, and if the graph has its exits, the search backwards
from them finds exactly the blocks that reach one.
-/

namespace TaintAnalysis.Graph

variable {g : Graph} {x y : BlockId}

theorem mem_predecessors_iff : x ∈ g.predecessors y ↔ y ∈ g.successors x := by
  refine (OrderedMap.mem_selected_iff (p := fun next => decide (y ∈ next))).trans ?_
  rw [successors]
  cases g.edges.get? x with
  | none => simp only [reduceCtorEq, false_and, exists_false, Option.getD_none, List.not_mem_nil]
  | some next =>
      simp only [Option.some.injEq, decide_eq_true_eq, exists_eq_left', Option.getD_some]

theorem mem_blocks_of_successor (h : y ∈ g.successors x) : x ∈ g.blocks := by
  rw [successors] at h
  cases hget : g.edges.get? x with
  | none =>
      rw [hget] at h
      exact absurd h List.not_mem_nil
  | some next => exact OrderedMap.mem_keys_iff_exists.mpr ⟨next, hget⟩

/-- The blocks a search can meet. -/
def nodes (g : Graph) : List BlockId :=
  g.entry :: g.blocks ++ g.edges.values.flatten

theorem length_nodes (g : Graph) : g.nodes.length = g.nodeBound := by
  rw [nodes, nodeBound, List.length_append, List.length_cons, OrderedMap.length_flatten_values,
    blocks, OrderedMap.keys, List.length_map, OrderedMap.size]
  omega

theorem mem_nodes_of_block (h : x ∈ g.blocks) : x ∈ g.nodes :=
  List.mem_append_left _ (List.mem_cons_of_mem _ h)

theorem successors_subset_nodes : ∀ x ∈ g.nodes, ∀ y ∈ g.successors x, y ∈ g.nodes := by
  intro x _ y hy
  refine List.mem_append_right _ (List.mem_flatten.mpr ⟨g.successors x, ?_, hy⟩)
  obtain ⟨next, hnext⟩ := OrderedMap.mem_keys_iff_exists.mp (mem_blocks_of_successor hy)
  rw [successors, hnext, Option.getD_some]
  exact OrderedMap.mem_values_iff.mpr ⟨x, hnext⟩

theorem predecessors_subset_nodes : ∀ x ∈ g.nodes, ∀ y ∈ g.predecessors x, y ∈ g.nodes :=
  fun _ _ _ hy => mem_nodes_of_block (mem_blocks_of_successor (mem_predecessors_iff.mp hy))

/-! ## From the entry -/

/-- Some number of steps leads from one block to another. -/
def Reaches (g : Graph) : BlockId → BlockId → Prop :=
  Relation.ReflTransGen fun x y => y ∈ g.successors x

theorem mem_reversePostorder_iff : x ∈ g.reversePostorder ↔ g.Reaches g.entry x := by
  have hstart : ∀ x ∈ [g.entry], x ∈ g.nodes := by simp [nodes]
  refine (Search.mem_run_iff successors_subset_nodes (Nat.le_of_eq g.length_nodes) hstart).trans ?_
  simp [Reaches]

theorem mem_reversePostorder_of_reaches
    (h : Relation.ReflTransGen (fun x y => y ∈ g.successors x) g.entry x) :
    x ∈ g.reversePostorder :=
  mem_reversePostorder_iff.mpr h

theorem entry_mem_reversePostorder (g : Graph) : g.entry ∈ g.reversePostorder :=
  mem_reversePostorder_of_reaches .refl

theorem successor_mem_reversePostorder (hx : x ∈ g.reversePostorder) (hy : y ∈ g.successors x) :
    y ∈ g.reversePostorder :=
  mem_reversePostorder_of_reaches ((mem_reversePostorder_iff.mp hx).tail hy)

/-! ## To an exit -/

theorem mem_reachingExit_iff (hexits : ∀ b ∈ g.exits, b ∈ g.blocks) :
    x ∈ g.reachingExit ↔ ∃ e ∈ g.exits, g.Reaches x e := by
  have hstart : ∀ b ∈ g.exits, b ∈ g.nodes := fun b hb => mem_nodes_of_block (hexits b hb)
  have hback : (fun x y => y ∈ g.predecessors x) = Function.swap fun x y => y ∈ g.successors x := by
    funext x y
    exact propext mem_predecessors_iff
  refine (Search.mem_run_iff predecessors_subset_nodes (Nat.le_of_eq g.length_nodes) hstart).trans ?_
  rw [hback]
  exact exists_congr fun e => and_congr_right fun _ => Relation.reflTransGen_swap

theorem exit_mem_reachingExit (hexits : ∀ b ∈ g.exits, b ∈ g.blocks) (hx : x ∈ g.exits) :
    x ∈ g.reachingExit :=
  (mem_reachingExit_iff hexits).mpr ⟨x, hx, .refl⟩

theorem Reaches.mem_reachingExit (h : g.Reaches x y) (hexits : ∀ b ∈ g.exits, b ∈ g.blocks)
    (hy : y ∈ g.reachingExit) : x ∈ g.reachingExit := by
  obtain ⟨e, he, hpath⟩ := (mem_reachingExit_iff hexits).mp hy
  exact (mem_reachingExit_iff hexits).mpr ⟨e, he, h.trans hpath⟩

theorem mem_reachingExit_of_successor (hexits : ∀ b ∈ g.exits, b ∈ g.blocks)
    (hy : y ∈ g.reachingExit) (hxy : y ∈ g.successors x) : x ∈ g.reachingExit :=
  Reaches.mem_reachingExit (.single hxy) hexits hy

/-! ## The graph of a function -/

variable {f : Function} {block : Block}

theorem successors_ofFunction (h : f.block? x = some block) :
    (ofFunction f).successors x = block.successors := by
  show ((f.blocks.mapValues _).get? x).getD [] = _
  rw [OrderedMap.get?_mapValues, show f.blocks.get? x = some block from h]
  rfl

theorem mem_exits_ofFunction :
    x ∈ (ofFunction f).exits ↔ ∃ block, f.block? x = some block ∧ block.terminator.isReturn :=
  OrderedMap.mem_selected_iff (p := fun block : Block => block.terminator.isReturn)

theorem exits_subset_blocks_ofFunction : ∀ b ∈ (ofFunction f).exits, b ∈ (ofFunction f).blocks := by
  intro b hb
  obtain ⟨block, hblock, -⟩ := mem_exits_ofFunction.mp hb
  show b ∈ (f.blocks.mapValues _).keys
  rw [OrderedMap.keys_mapValues]
  exact OrderedMap.mem_keys_iff_exists.mpr ⟨block, hblock⟩

end TaintAnalysis.Graph
