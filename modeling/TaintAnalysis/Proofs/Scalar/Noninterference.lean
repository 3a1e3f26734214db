import TaintAnalysis.Proofs.Program.Validation
import TaintAnalysis.Proofs.Scalar.Detours
import TaintAnalysis.Proofs.Solver.LeastSolution

/-!
# What is not reported does not flow

If the summary of a function does not report a parameter as a source of the
result, the result does not depend on the argument: two executions whose
arguments differ only there return the same, if both of them return.

The two executions are followed block by block, and agree on every variable that
is free of the source. They go the same way until a branch whose condition has
the source. From there each takes a detour, and the detours end in the same
block (`detours_meet`), because the end of each post-dominates the end of the
other. If one of them never ends, neither does the other, and both executions
return from blocks that the source decides about; such a block can only return
nothing, since the value it returned would have been reported.
-/

namespace TaintAnalysis

namespace Problem

variable {V : Type} {m : Meaning V} {p : Problem} {S : Storage} {σ : Assignment} {i : SourceId}
  {n n' : Nat} {b c c' : BlockId} {block : Block} {ρ ρ' ρ₁ ρ₁' : Valuation V} {r r' : Option V}

namespace Covered

variable (hσ : p.Covered S σ)
include hσ

theorem agrees_exit (hb : p.function.block? b = some block)
    (hagree : Agrees i (p.entryIn σ b) ρ ρ') (hrun : m.Runs p.function b block ρ ρ₁)
    (hrun' : m.Runs p.function b block ρ' ρ₁') :
    Agrees i (p.blockEffects σ b S block).exit ρ₁ ρ₁' := by
  have hfree : block.instructions.flatMap Instruction.addressed = [] :=
    (List.append_eq_nil_iff.mp
      (hσ.free.block (OrderedMap.mem_values_iff.mpr ⟨b, hb⟩))).1
  exact hagree.execAll (List.flatMap_eq_nil_iff.mp hfree) (hσ.declared_in_entry hb) hrun.2 hrun'.2

/-- The expression at the end of a block takes no address. -/
theorem free_operand (hb : p.function.block? b = some block) {e : Expr}
    (he : block.terminator.operand? = some e) : e.addressed = [] := by
  have hfree : (block.terminator.operand?.map Expr.addressed).getD [] = [] :=
    (List.append_eq_nil_iff.mp
      (hσ.free.block (OrderedMap.mem_values_iff.mpr ⟨b, hb⟩))).2
  rwa [he, Option.map_some, Option.getD_some] at hfree

/-- Executions that agree go different ways only at a branch whose condition has the source. -/
theorem branch_of_diverge (hb : b ∈ p.order) (hblock : p.function.block? b = some block)
    (hexit : Agrees i (p.blockEffects σ b S block).exit ρ₁ ρ₁')
    (hc : m.target? ρ₁ block.terminator = some c) (hc' : m.target? ρ₁' block.terminator = some c')
    (hne : c ≠ c') : ¬ Value.Clean i (σ.branch b) ∧ 2 ≤ (p.graph.successors b).length := by
  cases hterm : block.terminator with
  | jump target =>
      rw [hterm] at hc hc'
      exact absurd (Option.some.inj (hc.symm.trans hc')) hne
  | ret value =>
      rw [hterm] at hc
      exact absurd hc.symm (Option.some_ne_none _)
  | missing =>
      rw [hterm] at hc
      exact absurd hc.symm (Option.some_ne_none _)
  | branch condition thenBlock elseBlock =>
      rw [hterm] at hc hc'
      constructor
      · intro hclean
        have hle := (hσ.absorbed b hb block hblock).branch
        rw [blockEffects, hterm] at hle
        have heq := hexit.eval (m := m) condition (hσ.free_operand hblock (by rw [hterm]; rfl))
          (hclean.of_le hle)
        rw [Meaning.target?, ← heq] at hc'
        exact hne (Option.some.inj (hc.symm.trans hc'))
      · rw [hσ.flow.graph, Graph.successors_ofFunction hblock, Block.successors, hterm,
          Terminator.successors]
        split
        · next hsame =>
          rw [Meaning.target?, hsame, ite_self] at hc hc'
          exact absurd (Option.some.inj (hc.symm.trans hc')) hne
        · exact Nat.le_refl 2

/-- Executions that part at a branch with the source meet again where the source does not decide
any more, and still agree, or both return nothing. -/
theorem detours_meet (hret : Value.Clean i σ.returned) (hb : b ∈ p.order)
    (hblock : p.function.block? b = some block)
    (hexit : Agrees i (p.blockEffects σ b S block).exit ρ₁ ρ₁')
    (htaint : ¬ Value.Clean i (σ.branch b)) (htwo : 2 ≤ (p.graph.successors b).length)
    (hc : c ∈ p.graph.successors b) (hc' : c' ∈ p.graph.successors b)
    (h : m.ReturnsIn p.function n c ρ₁ r) (h' : m.ReturnsIn p.function n' c' ρ₁' r') :
    (r = none ∧ r' = none) ∨ ∃ d ρ₂ ρ₂' k k', m.ReturnsIn p.function k d ρ₂ r ∧ k ≤ n ∧
      m.ReturnsIn p.function k' d ρ₂' r' ∧ d ∈ p.order ∧
      Agrees i (p.entryIn σ d) ρ₂ ρ₂' := by
  have horder := hσ.flow.mem_order hb hc
  have horder' := hσ.flow.mem_order hb hc'
  -- the end of a detour from one successor post-dominates all of them
  have hacross : ∀ {x y : BlockId}, x ∈ p.graph.successors b → y ∈ p.graph.successors b →
      ∀ d, p.PostDominates d x → p.Undecided σ i d → p.PostDominates d y := by
    intro x y hx hy d hd hlow
    obtain ⟨hne, hdom⟩ := hσ.postDominates_branch hx htwo hd hlow (.inl htaint)
    exact Dominance.postDominates_successor hdom hne hy
  rcases detour_cases hσ h hret horder with ⟨d, ρ₂, k, hdetour, hd, hk⟩ | ⟨hnone, hall⟩
  · have hdc := hdetour.postDominates hσ horder hd
    have hdc' := hacross hc hc' d hdc hdetour.undecided
    rcases detour_cases hσ h' hret horder' with ⟨d', ρ₂', k', hdetour', hd', -⟩ | ⟨-, hall'⟩
    · have hdom := hdetour'.postDominates_end hσ.flow hdc' hdetour.undecided
      have hdom' := hdetour.postDominates_end hσ.flow
        (hacross hc' hc d' (hdetour'.postDominates hσ horder' hd') hdetour'.undecided)
        hdetour'.undecided
      obtain rfl := hσ.flow.postDominates_antisymm hd hdom' hdom
      refine .inr ⟨d', ρ₂, ρ₂', k, k', hd, hk, hd', hdetour.mem_order hσ.flow horder,
        fun v hv => ?_⟩
      obtain ⟨hclean, hsame⟩ := hdetour.untouched hσ horder hv
      obtain ⟨-, hsame'⟩ := hdetour'.untouched hσ horder' hv
      have hfree := hclean.of_le (State.le_iff.mp (hσ.exit_le_entryIn hb hblock hc) v)
      exact hsame.trans ((hexit v hfree).trans hsame'.symm)
    · exact absurd hdetour.undecided (hall' d hdc')
  · refine .inl ⟨hnone, ?_⟩
    rcases detour_cases hσ h' hret horder' with ⟨d', ρ₂', k', hdetour', hd', -⟩ | ⟨hnone', -⟩
    · exact absurd hdetour'.undecided (hall d' (hacross hc' hc d'
        (hdetour'.postDominates hσ horder' hd') hdetour'.undecided))
    · exact hnone'

/-- Executions that agree at the beginning of a block return the same. -/
theorem return_eq (hret : Value.Clean i σ.returned) (hb : b ∈ p.order)
    (hagree : Agrees i (p.entryIn σ b) ρ ρ') (h : m.ReturnsIn p.function n b ρ r)
    (h' : m.ReturnsIn p.function n' b ρ' r') : r = r' := by
  induction n using Nat.strongRecOn generalizing n' b ρ ρ' with
  | ind n ih =>
      cases h with
      | @ret _ block _ ρ₁ value hrun hterm =>
          cases h' with
          | @ret _ block' _ ρ₁' value' hrun' hterm' =>
              obtain rfl := Option.some.inj (hrun.1.symm.trans hrun'.1)
              obtain rfl := Terminator.ret.inj (hterm.symm.trans hterm')
              have hexit := hσ.agrees_exit hrun.1 hagree hrun hrun'
              cases value with
              | none => rfl
              | some e =>
                  have hle := (hσ.absorbed b hb block hrun.1).returned
                  rw [blockEffects, hterm] at hle
                  exact congrArg some (hexit.eval e
                    (hσ.free_operand hrun.1 (by rw [hterm]; rfl))
                    (Value.clean_join.mp (hret.of_le hle)).1)
          | @goes _ _ _ block' _ ρ₁' _ hrun' hc' _ =>
              obtain rfl := Option.some.inj (hrun.1.symm.trans hrun'.1)
              rw [hterm] at hc'
              exact absurd hc'.symm (Option.some_ne_none _)
      | @goes n _ c block _ ρ₁ _ hrun hc hrest =>
          cases h' with
          | @ret _ block' _ ρ₁' value' hrun' hterm' =>
              obtain rfl := Option.some.inj (hrun.1.symm.trans hrun'.1)
              rw [hterm'] at hc
              exact absurd hc.symm (Option.some_ne_none _)
          | @goes n' _ c' block' _ ρ₁' _ hrun' hc' hrest' =>
              obtain rfl := Option.some.inj (hrun.1.symm.trans hrun'.1)
              have hexit := hσ.agrees_exit hrun.1 hagree hrun hrun'
              have hsucc := hσ.flow.mem_successors hrun hc
              by_cases hsame : c = c'
              · subst hsame
                exact ih n (Nat.lt_succ_self n) (hσ.flow.mem_order hb hsucc)
                  (hexit.mono (hσ.exit_le_entryIn hb hrun.1 hsucc)) hrest hrest'
              · obtain ⟨htaint, htwo⟩ := hσ.branch_of_diverge hb hrun.1 hexit hc hc' hsame
                rcases hσ.detours_meet hret hb hrun.1 hexit htaint htwo hsucc
                  (hσ.flow.mem_successors hrun' hc') hrest hrest' with
                  ⟨hnone, hnone'⟩ | ⟨d, ρ₂, ρ₂', k, k', hd, hk, hd', hmem, hmeet⟩
                · rw [hnone, hnone']
                · exact ih k (by omega) hmem hmeet hd hd'

end Covered

/-! ## The entry of a function -/

/-- Executions whose arguments differ only in the source agree on entry. -/
theorem agrees_entered (hflow : p.FollowsFlow) {args args' : Nat → V}
    (hargs : ∀ k, k ≠ i → args k = args' k) (locals : Valuation V) :
    Agrees i (p.entryIn σ p.function.entry) (p.function.entered args locals)
      (p.function.entered args' locals) := by
  intro v hv
  rw [Function.entered, Function.entered]
  cases hparam : p.function.paramIndex? v with
  | none => rfl
  | some k =>
      refine hargs k ?_
      intro hk
      have hle : p.seedState ≤ p.entryIn σ p.function.entry :=
        seedState_le_entryIn σ (by rw [hflow.graph]; rfl)
      have hclean := hv.of_le (State.le_iff.mp hle v)
      rw [get_seedState hparam, hk, Value.Clean, Value.kindOf_single, if_pos rfl] at hclean
      exact absurd hclean (by decide)

theorem followsFlow_ofFunction (f : Function) (config : Config) (table : SummaryTable)
    (peers : List String) : (ofFunction f config table peers).1.FollowsFlow :=
  ⟨rfl, rfl, rfl⟩

end Problem

namespace Run

variable {V : Type} {f : Function} {config : Config} {table : SummaryTable} {peers : List String}
  {result : FunctionResult}

/-- A run that converges leaves nothing of a function without addresses uncovered. -/
theorem covered_of_ok (hf : f.Validated) (hfree : f.AddressFree)
    (hok : (ofFunction f config table peers).result = .ok result) :
    (Problem.ofFunction f config table peers).1.Covered
      (Storage.ofProblem (Problem.ofFunction f config table peers).1
        (Problem.ofFunction f config table peers).2)
      ((ofFunction f config table peers).final.assignment f.vars.length) where
  flow := Problem.followsFlow_ofFunction f config table peers
  sized := fun b => Nat.le_of_eq ((Problem.sound_of_reached
    (Problem.wellPosed_of_addressFree hfree) reached_ofFunction).sized.assignment b)
  absorbed := fun _ hb _ hblock => Problem.settled_of_exhausted
    (Problem.wellPosed_of_addressFree hfree) reached_ofFunction (exhausted_of_ok hok) hb hblock
    (Problem.watched_of_addressFree hfree hblock)
  free := hfree
  declared := fun _ _ hblock _ hv => hf.declared hblock hv

/-- Two executions whose arguments differ only in a parameter that the summary does not report
as a source of the result return the same, whatever the operators mean. Execution is stuck at
anything but assignments and casts. -/
theorem noninterference (m : Meaning V) (hf : f.Validated) (hfree : f.AddressFree)
    (hok : (ofFunction f config table peers).result = .ok result) {i : SourceId}
    (hi : i ∉ result.summary.returned.sources) {args args' : Nat → V}
    (hargs : ∀ k, k ≠ i → args k = args' k) (locals : Valuation V) {r r' : Option V}
    (h : m.Returns f (f.entered args locals) r) (h' : m.Returns f (f.entered args' locals) r') :
    r = r' := by
  obtain ⟨n, h⟩ := h
  obtain ⟨n', h'⟩ := h'
  have hflow := Problem.followsFlow_ofFunction f config table peers
  have hcovered := covered_of_ok hf hfree hok
  have hreturned : Value.Clean i (ofFunction f config table peers).final.returned := by
    rw [Value.clean_iff_not_mem]
    rw [summary_of_ok hok] at hi
    exact hi
  have hentry : f.entry ∈ (Problem.ofFunction f config table peers).1.order :=
    Graph.entry_mem_reversePostorder (Graph.ofFunction f)
  exact hcovered.return_eq hreturned hentry (Problem.agrees_entered hflow hargs locals) h h'

end Run

/-! ## Two ways around a loop -/

/-- Whole numbers, with sums as the only operation that is not trivial. -/
def sums : Meaning Nat where
  const value := value.toInt.toNat
  unary _ x := x
  binary _ x y := x + y
  cast _ x := x
  address _ := 0
  truth x := x ≠ 0

/-- A function that counts in a loop if its first parameter is not zero, and returns its second
one either way. -/
def counting : Function where
  name := "counting"
  returns := .int 32
  vars :=
    [⟨"n", .int 32, .param⟩, ⟨"k", .int 32, .param⟩, ⟨"x", .int 32, .local⟩]
  blocks := .ofList
    [(0, ⟨[.assign 2 (.const 1)], .branch (.var 0) 1 2⟩),
      (1, ⟨[.assign 2 (.binary .add (.var 2) (.var 0))], .branch (.const 0) 1 2⟩),
      (2, ⟨[.cast 1 (.var 1) (.int 32)], .ret (some (.var 1))⟩)]
  entry := 0
  nextBlock := 3

theorem noninterference_counting :
    ∃ r r', sums.Returns counting (counting.entered (fun _ => 5) fun _ => 0) r ∧
      sums.Returns counting (counting.entered (fun k => if k = 0 then 0 else 5) fun _ => 0) r' ∧
      r = r' := by
  have hvalid : counting.Validated :=
    ⟨⟨[counting], by decide⟩, ⟨[counting], by decide⟩, .standard, by cbv, List.mem_cons_self⟩
  have hok := Run.result_of_exhausted (r := Run.ofFunction counting .standard .empty []) (by cbv)
  have hlast (ρ : Valuation Nat) : sums.ReturnsIn counting 0 2 ρ (some (ρ 1)) :=
    @Meaning.ReturnsIn.ret Nat sums counting 2 _ ρ (Function.update ρ 1 (ρ 1)) (some (.var 1))
      ⟨rfl, rfl⟩ rfl
  have h : sums.Returns counting (counting.entered (fun _ => 5) fun _ => 0) (some 5) :=
    ⟨2, .goes ⟨rfl, rfl⟩ rfl (.goes ⟨rfl, rfl⟩ rfl (hlast _))⟩
  have h' : sums.Returns counting
      (counting.entered (fun k => if k = 0 then 0 else 5) fun _ => 0) (some 5) :=
    ⟨1, .goes ⟨rfl, rfl⟩ rfl (hlast _)⟩
  exact ⟨_, _, h, h', Run.noninterference sums hvalid (by decide) hok (i := 0) (by decide_cbv)
    (fun k hk => (if_neg hk).symm) _ h h'⟩

end TaintAnalysis
