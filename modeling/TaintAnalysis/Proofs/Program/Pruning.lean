import Mathlib
import TaintAnalysis.Proofs.Program.Reachable

/-!
# What validation leaves of a program

Validation takes nothing away but blocks: each function keeps its header and its
variables, and of its blocks those that the entry reaches, in their order. The
checks are made partly before and partly after the other blocks are dropped. None
of them can fail on the result any more: what is reached goes on in blocks that are
reached, so these are closed under successors, and the remaining checks were made
on the result itself. Therefore a second validation changes nothing, whatever it is
told to do with blocks that cannot be reached.
-/

namespace TaintAnalysis

namespace Function

variable {f : Function} {b : BlockId}

instance : DecidablePred ((Graph.ofFunction f).Reaches f.entry) := fun _ =>
  decidable_of_iff _ Graph.mem_reversePostorder_iff

/-- The function with only the blocks that its entry reaches, in their order. -/
def reachedPart (f : Function) : Function :=
  { f with blocks := f.blocks.filterKeys fun b => decide ((Graph.ofFunction f).Reaches f.entry b) }

theorem prune_eq_reachedPart (f : Function) : f.prune = f.reachedPart := by
  have hkeep : (fun b => decide (b ∈ f.reachableBlocks)) =
      fun b => decide ((Graph.ofFunction f).Reaches f.entry b) :=
    funext fun _ => decide_eq_decide.mpr Graph.mem_reversePostorder_iff
  rw [prune, reachedPart, hkeep]

/-- A function all of whose blocks are reached loses none. -/
theorem Reached.prune_eq (h : f.Reached) : f.prune = f := by
  have hblocks : f.blocks.filterKeys (fun b => decide (b ∈ f.reachableBlocks)) = f.blocks := by
    refine OrderedMap.eq_of_entries (List.filter_eq_self.mpr fun e he => ?_)
    exact decide_eq_true (Graph.mem_reversePostorder_iff.mpr
      (h e.1 e.2 (OrderedMap.get?_eq_some_iff.mpr he)))
  rw [prune, hblocks]

/-- What is left after unreachable blocks were dropped is reached. -/
theorem reached_prune (f : Function) : f.prune.Reached := fun _ _ hblock =>
  reaches_prune (block?_prune.mp hblock).2

theorem Terminated.prune (h : f.Terminated) : f.prune.Terminated := fun b block hblock =>
  h b block (block?_prune.mp hblock).1

/-- The blocks of the function are what the analyses expect: execution begins in one of them and
goes on in one after each of them, and all are finished and reached. -/
structure Complete (f : Function) : Prop extends f.Closed where
  terminated : f.Terminated
  reached : f.Reached

theorem Complete.checkFlow (h : f.Complete) (config : Config) : f.checkFlow config = .ok () :=
  checkFlow_eq_ok_iff.mpr ⟨⟨h.toClosed, h.terminated⟩, .inr h.reached⟩

end Function

namespace Program

variable {p q : Program} {config : Config}

theorem complete_of_validate (h : p.validate config = .ok q) {f : Function}
    (hf : f ∈ q.functions) : f.Complete := by
  obtain ⟨g, -, hcheck, rfl⟩ := checkFlow_of_validate h hf
  obtain ⟨⟨hclosed, hdone⟩, hreached⟩ := Function.checkFlow_eq_ok_iff.mp hcheck
  by_cases hprune : config.pruneUnreachable = true
  · rw [if_pos hprune]
    exact ⟨hclosed.prune, hdone.prune, g.reached_prune⟩
  · rw [if_neg hprune]
    exact ⟨hclosed, hdone, hreached.resolve_left hprune⟩

/-- Validation drops exactly the blocks that are not reached, from a program that it accepts. -/
theorem functions_of_validate (h : p.validate config = .ok q) :
    q.functions = p.functions.map Function.reachedPart := by
  obtain ⟨hflow, rfl, -, -⟩ := validate_eq_ok_iff.mp h
  split
  · exact List.map_congr_left fun f _ => f.prune_eq_reachedPart
  · next hkeep =>
    refine (List.map_id _).symm.trans (List.map_congr_left fun f hf => ?_)
    have hreached := (Function.checkFlow_eq_ok_iff.mp (hflow f hf)).2.resolve_left hkeep
    rw [← f.prune_eq_reachedPart, hreached.prune_eq]
    rfl

/-- Dropping unreachable blocks leaves a program alone in which there are none. -/
theorem prune_eq_self (h : ∀ f ∈ q.functions, f.Reached) : q.prune = q := by
  have hfunctions : q.functions.map Function.prune = q.functions :=
    (List.map_congr_left fun f hf => (h f hf).prune_eq).trans (List.map_id _)
  obtain ⟨functions, distinct⟩ := q
  simp only [prune, map, hfunctions]

/-- The result of validation is accepted again, and stays as it is. -/
theorem validate_of_validate (h : p.validate config = .ok q) (prune : Bool) :
    q.validate { config with pruneUnreachable := prune } = .ok q := by
  obtain ⟨-, -, hfunctions, hsources⟩ := validate_eq_ok_iff.mp h
  have hcomplete : ∀ f ∈ q.functions, f.Complete := fun f hf => complete_of_validate h hf
  refine validate_eq_ok_iff.mpr
    ⟨fun f hf => (hcomplete f hf).checkFlow _, ?_, hfunctions, hsources⟩
  rw [prune_eq_self fun f hf => (hcomplete f hf).reached, ite_self]

/-- A program that passes validation keeps its functions in their order, each with its header, its
variables, its entry and exactly the blocks that the entry reaches. All of these are finished and
go on in blocks of the function, so the result passes validation again and does not change,
whether unreachable blocks are dropped or not. Where they are not dropped, nothing changes in the
first place. -/
theorem validate_keeps_reached (h : p.validate config = .ok q) :
    q.functions = p.functions.map Function.reachedPart ∧
      (∀ f ∈ q.functions, f.Complete) ∧
      (∀ prune, q.validate { config with pruneUnreachable := prune } = .ok q) ∧
      (config.pruneUnreachable = false → q = p) := by
  refine ⟨functions_of_validate h, fun f hf => complete_of_validate h hf,
    validate_of_validate h, fun hkeep => ?_⟩
  obtain ⟨-, rfl, -, -⟩ := validate_eq_ok_iff.mp h
  rw [hkeep]
  rfl

/-- A caller with a loop that nothing leads to, and its callee. -/
def orphaned : Program where
  functions :=
    [{ name := "caller"
       returns := .int 32
       vars := [⟨"n", .int 32, .param⟩, ⟨"x", .int 32, .local⟩]
       blocks := .ofList
        [(0, ⟨[], .branch (.var 0) 3 4⟩),
          (1, ⟨[.assign 1 (.const 1)], .jump 2⟩),
          (2, ⟨[.call none (.direct "callee") []], .jump 1⟩),
          (4, ⟨[.call (some 1) (.direct "callee") [.var 0]], .jump 3⟩),
          (3, ⟨[], .ret (some (.var 1))⟩)]
       entry := 0
       nextBlock := 5 },
     { name := "callee"
       returns := .int 32
       vars := [⟨"m", .int 32, .param⟩]
       blocks := .ofList [(7, ⟨[], .ret (some (.var 0))⟩)]
       entry := 7
       nextBlock := 8 }]
  distinct := by decide

/-- The call in the loop passes no argument. It is dropped with the loop, so the program is
accepted. -/
theorem validate_keeps_reached_orphaned :
    orphaned.validate .standard = .ok orphaned.prune ∧
      orphaned.prune.functions = orphaned.functions.map Function.reachedPart ∧
      (∀ f ∈ orphaned.prune.functions, f.Complete) ∧
      (∀ prune, orphaned.prune.validate { Config.standard with pruneUnreachable := prune } =
        .ok orphaned.prune) ∧
      (Config.standard.pruneUnreachable = false → orphaned.prune = orphaned) := by
  have hok : orphaned.validate .standard = .ok orphaned.prune := by cbv
  exact ⟨hok, validate_keeps_reached hok⟩

end Program

end TaintAnalysis
