import TaintAnalysis.Proofs.Scalar.Agreement
import TaintAnalysis.Proofs.Solver.Fixpoint

/-!
# Executions between two points that no source decides about

A branch that depends on a source may send two executions different ways. What
they do until they meet again is a detour: a stretch through blocks whose
control taint has the source, up to the first block where it does not. That
every such block post-dominates where the detour began is what control
dependence is for (`Detour.postDominates`). Reading the detour backwards, a block
on it that the end does not post-dominate would decide about the end and hand
the source on to it.

The argument needs nothing about post-dominance but its equations, and nothing
about the shape of the graph: loops without a header, several returns and
blocks that never return are all covered by the fact that the execution at hand
does return. Nothing is lost on a detour either: a variable that is free of the
source at its end has not been assigned on it (`Detour.untouched`).
-/

namespace TaintAnalysis

namespace Problem

/-- The blocks of the problem flow as those of its function, and its control dependences are
those of this flow. -/
structure FollowsFlow (p : Problem) : Prop where
  graph : p.graph = Graph.ofFunction p.function
  control : p.control = ControlDependence.ofGraph p.graph (Dominance.postOfGraph p.graph)
  order : p.order = p.graph.reversePostorder

/-- The guess has everything that scalar code of the function does. -/
structure Covered (p : Problem) (S : Storage) (σ : Assignment) : Prop where
  flow : p.FollowsFlow
  sized : σ.Sized p.varCount
  absorbed : ∀ b ∈ p.order, ∀ block, p.function.block? b = some block →
    Absorbed p (p.blockEffects σ b S block) σ b
  free : p.function.AddressFree
  declared : ∀ b block, p.function.block? b = some block →
    ∀ v ∈ block.mentions, v < p.function.vars.length

/-- The branches that decide whether the block runs do not depend on the source. -/
def Undecided (p : Problem) (σ : Assignment) (i : SourceId) (b : BlockId) : Prop :=
  Value.Clean i (p.controlIn σ b)

/-- Every way from `b` to the end of the function passes through `d`. -/
def PostDominates (p : Problem) (d b : BlockId) : Prop :=
  (Dominance.postOfGraph p.graph).dominates d b = true

variable {V : Type} {m : Meaning V} {p : Problem} {S : Storage} {σ : Assignment} {i : SourceId}
  {n k : Nat} {b c d : BlockId} {block : Block} {ρ ρ' : Valuation V} {r : Option V}

/-! ## Executions and the graph -/

namespace FollowsFlow

variable (hflow : p.FollowsFlow)
include hflow

theorem mem_successors (hrun : m.Runs p.function b block ρ ρ')
    (hc : m.target? ρ' block.terminator = some c) : c ∈ p.graph.successors b := by
  rw [hflow.graph, Graph.successors_ofFunction hrun.1]
  exact Meaning.mem_successors_of_target? hc

theorem mem_order (hb : b ∈ p.order) (hc : c ∈ p.graph.successors b) : c ∈ p.order := by
  rw [hflow.order] at hb ⊢
  exact Graph.successor_mem_reversePostorder hb hc

theorem exits_subset : ∀ b ∈ p.graph.exits, b ∈ p.graph.blocks :=
  hflow.graph ▸ Graph.exits_subset_blocks_ofFunction

theorem mem_exits_iff (hblock : p.function.block? b = some block) :
    b ∈ p.graph.exits ↔ block.terminator.isReturn = true := by
  rw [hflow.graph, Graph.mem_exits_ofFunction, hblock]
  simp only [Option.some.injEq, exists_eq_left']

/-- A block from which execution returns reaches an exit. -/
theorem mem_reachingExit (h : m.ReturnsIn p.function n b ρ r) : b ∈ p.graph.reachingExit := by
  induction h with
  | ret hrun hterm =>
      refine Graph.exit_mem_reachingExit hflow.exits_subset ((hflow.mem_exits_iff hrun.1).mpr ?_)
      rw [hterm]
      rfl
  | goes hrun hc _ ih =>
      exact Graph.mem_reachingExit_of_successor hflow.exits_subset ih
        (hflow.mem_successors hrun hc)

/-- Execution that goes on is not in a final block. -/
theorem not_final (hrun : m.Runs p.function b block ρ ρ')
    (hc : m.target? ρ' block.terminator = some c) (h : m.ReturnsIn p.function n c ρ' r) :
    b ∉ Dominance.finalBlocks p.graph := by
  refine Dominance.not_mem_finalBlocks hflow.exits_subset (fun hexit => ?_)
    (hflow.mem_successors hrun hc) (hflow.mem_reachingExit h)
  rw [hflow.mem_exits_iff hrun.1] at hexit
  cases hterm : block.terminator with
  | ret value =>
      rw [hterm] at hc
      exact nomatch hc
  | jump _ | branch _ _ _ | missing =>
      rw [hterm] at hexit
      exact nomatch hexit

/-- Only the block itself post-dominates a block that returns. -/
theorem eq_of_postDominates_ret (hrun : m.Runs p.function b block ρ ρ')
    {value : Option Expr} (hterm : block.terminator = .ret value) (h : p.PostDominates d b) :
    d = b := by
  refine Dominance.eq_of_postDominates_final ?_ h
  have hexit : b ∈ p.graph.exits := by
    rw [hflow.mem_exits_iff hrun.1, hterm]
    rfl
  exact Dominance.mem_finalBlocks_iff.mpr ⟨hflow.exits_subset b hexit, .inl hexit⟩

/-- An execution that returns passes through whatever post-dominates where it begins. -/
theorem reaches (h : m.ReturnsIn p.function n b ρ r) (hd : p.PostDominates d b) :
    ∃ k ρ', m.ReturnsIn p.function k d ρ' r ∧ k ≤ n ∧ (d ≠ b → k < n) := by
  induction h with
  | ret hrun hterm =>
      obtain rfl := hflow.eq_of_postDominates_ret hrun hterm hd
      exact ⟨0, _, .ret hrun hterm, Nat.le_refl _, fun hne => absurd rfl hne⟩
  | @goes n b c block ρ ρ₁ r hrun hc hrest ih =>
      by_cases hdb : d = b
      · subst hdb
        exact ⟨n + 1, ρ, .goes hrun hc hrest, Nat.le_refl _, fun hne => absurd rfl hne⟩
      · obtain ⟨k, ρ', hk, hkn, -⟩ := ih (Dominance.postDominates_successor hd hdb
          (hflow.mem_successors hrun hc))
        exact ⟨k, ρ', hk, by omega, fun _ => by omega⟩

/-- Where execution returns, two blocks that post-dominate each other are the same: each would
have to come after the last time of the other. -/
theorem postDominates_antisymm (h : m.ReturnsIn p.function n b ρ r) (hdb : p.PostDominates d b)
    (hbd : p.PostDominates b d) : d = b := by
  induction n using Nat.strongRecOn generalizing ρ with
  | ind n ih =>
      by_contra hne
      obtain ⟨k, ρ₁, hd, -, hk⟩ := hflow.reaches h hdb
      obtain ⟨k', ρ₂, hb, hk', -⟩ := hflow.reaches hd hbd
      have hless := hk hne
      exact hne (ih k' (by omega) hb)

end FollowsFlow

/-! ## What a guess covers -/

/-- A branch that depends on the source, or runs only if the source says so, hands it on to
everything that it decides about. -/
theorem not_undecided_of_dependence {x : BlockId} (hx : x ∈ p.control.dependences b)
    (htaint : ¬ Value.Clean i (σ.branch x) ∨ ¬ Value.Clean i (σ.control x)) :
    ¬ p.Undecided σ i b := by
  intro hclean
  have hle : ((σ.branch x).join (σ.control x)).toIndirect ≤ p.controlIn σ b :=
    Value.le_joins (List.mem_map_of_mem hx)
  have hboth := Value.clean_join.mp (Value.clean_toIndirect.mp (hclean.of_le hle))
  exact htaint.elim (fun h => h hboth.1) fun h => h hboth.2

namespace Covered

variable (hσ : p.Covered S σ)
include hσ

/-- What a block leaves behind arrives at its successors. -/
theorem exit_le_entryIn (hb : b ∈ p.order) (hblock : p.function.block? b = some block)
    (hc : c ∈ p.graph.successors b) : (p.blockEffects σ b S block).exit ≤ p.entryIn σ c := by
  refine State.le_trans (hσ.absorbed b hb block hblock).exit ?_
  exact (State.foldl_join_le_iff.mp (State.le_refl (p.entryIn σ c))).2 _
    (List.mem_map_of_mem (Graph.mem_predecessors_iff.mpr hc))

theorem declared_in_entry (hblock : p.function.block? b = some block) :
    ∀ instr ∈ block.instructions, ∀ v ∈ instr.mentions, v < (p.entryIn σ b).vars.length := by
  intro instr hinstr v hv
  rw [length_entryIn hσ.sized]
  exact hσ.declared b block hblock v
    (List.mem_append_left _ (List.mem_flatMap.mpr ⟨instr, hinstr, hv⟩))

/-- What post-dominates one of several successors of such a branch, and is not decided by the
source, post-dominates the branch. -/
theorem postDominates_branch (hc : c ∈ p.graph.successors b)
    (htwo : 2 ≤ (p.graph.successors b).length) (hd : p.PostDominates d c)
    (hlow : p.Undecided σ i d)
    (htaint : ¬ Value.Clean i (σ.branch b) ∨ ¬ Value.Clean i (σ.control b)) :
    d ≠ b ∧ p.PostDominates d b := by
  by_contra hno
  refine not_undecided_of_dependence ?_ htaint hlow
  rw [hσ.flow.control]
  refine ControlDependence.mem_dependences_of_postDominates htwo hc hd ?_
  rw [not_and_or, not_not] at hno
  exact hno

theorem control_not_clean (hb : b ∈ p.order) (hblock : p.function.block? b = some block)
    (hhigh : ¬ p.Undecided σ i b) : ¬ Value.Clean i (σ.control b) := fun hclean =>
  hhigh (hclean.of_le (hσ.absorbed b hb block hblock).control)

end Covered

/-! ## Detours -/

/-- Execution goes from one point to another through blocks that the source decides about,
and stops at the first block that it does not. -/
inductive Detour (m : Meaning V) (p : Problem) (σ : Assignment) (i : SourceId) :
    BlockId → Valuation V → BlockId → Valuation V → Prop
  | stop {b : BlockId} {ρ : Valuation V} : p.Undecided σ i b → Detour m p σ i b ρ b ρ
  | pass {b c d : BlockId} {block : Block} {ρ ρ₁ ρ₂ : Valuation V} : ¬ p.Undecided σ i b →
      m.Runs p.function b block ρ ρ₁ → m.target? ρ₁ block.terminator = some c →
      Detour m p σ i c ρ₁ d ρ₂ → Detour m p σ i b ρ d ρ₂

namespace Detour

variable {ρ₂ : Valuation V}

theorem undecided (h : Detour m p σ i b ρ d ρ₂) : p.Undecided σ i d := by
  induction h with
  | stop hlow => exact hlow
  | pass _ _ _ _ ih => exact ih

theorem mem_order (hflow : p.FollowsFlow) (h : Detour m p σ i b ρ d ρ₂) (hb : b ∈ p.order) :
    d ∈ p.order := by
  induction h with
  | stop _ => exact hb
  | pass _ hrun hc _ ih => exact ih (hflow.mem_order hb (hflow.mem_successors hrun hc))

theorem returnsIn (h : Detour m p σ i b ρ d ρ₂) (hd : m.ReturnsIn p.function k d ρ₂ r) :
    ∃ n, m.ReturnsIn p.function n b ρ r := by
  induction h with
  | stop _ => exact ⟨k, hd⟩
  | pass _ hrun hc _ ih =>
      obtain ⟨n, hn⟩ := ih hd
      exact ⟨n + 1, .goes hrun hc hn⟩

/-- The end of a detour post-dominates its beginning. -/
theorem postDominates (hσ : p.Covered S σ) (h : Detour m p σ i b ρ d ρ₂) (hb : b ∈ p.order)
    (hd : m.ReturnsIn p.function k d ρ₂ r) : p.PostDominates d b := by
  induction h with
  | stop _ => exact Dominance.postDominates_self (hσ.flow.order ▸ hb)
  | @pass b c d block ρ ρ₁ ρ₂ hhigh hrun hc hrest ih =>
      have hsucc := hσ.flow.mem_successors hrun hc
      have hdc := ih (hσ.flow.mem_order hb hsucc) hd
      obtain ⟨n, hn⟩ := hrest.returnsIn hd
      by_cases htwo : 2 ≤ (p.graph.successors b).length
      · exact (hσ.postDominates_branch hsucc htwo hdc hrest.undecided
          (.inr (hσ.control_not_clean hb hrun.1 hhigh))).2
      · -- a block with one successor decides nothing
        refine Dominance.postDominates_of_successors (hσ.flow.order ▸ hb)
          (hσ.flow.not_final hrun hc hn) hsucc fun s hs => ?_
        obtain ⟨x, hx⟩ := List.length_eq_one_iff.mp
          (Nat.le_antisymm (by omega) (List.length_pos_of_mem hsucc))
        rw [hx, List.mem_singleton] at hs hsucc
        exact hs ▸ hsucc ▸ hdc

/-- What is not decided by the source and post-dominates the beginning of a detour
post-dominates its end. -/
theorem postDominates_end (hflow : p.FollowsFlow) (h : Detour m p σ i b ρ d ρ₂) {x : BlockId}
    (hx : p.PostDominates x b) (hlow : p.Undecided σ i x) : p.PostDominates x d := by
  induction h with
  | stop _ => exact hx
  | pass hhigh hrun hc _ ih =>
      exact ih (Dominance.postDominates_successor hx (fun heq => hhigh (heq ▸ hlow))
        (hflow.mem_successors hrun hc))

/-- A variable that is free of the source at the end of a detour was so at the beginning, and
has kept its value. -/
theorem untouched (hσ : p.Covered S σ) (h : Detour m p σ i b ρ d ρ₂) (hb : b ∈ p.order) {v : VarId}
    (hv : Value.Clean i ((p.entryIn σ d).get v)) :
    Value.Clean i ((p.entryIn σ b).get v) ∧ ρ₂ v = ρ v := by
  induction h with
  | stop _ => exact ⟨hv, rfl⟩
  | @pass b c d block ρ ρ₁ ρ₂ hhigh hrun hc hrest ih =>
      have hsucc := hσ.flow.mem_successors hrun hc
      obtain ⟨hclean, hsame⟩ := ih (hσ.flow.mem_order hb hsucc) hv
      have hexit := hclean.of_le (State.le_iff.mp (hσ.exit_le_entryIn hb hrun.1 hsucc) v)
      have hcontrol : ¬ Value.Clean i (p.aroundIn σ b).control := hhigh
      obtain ⟨hentry, hsame'⟩ := execAll_untouched hcontrol (hσ.declared_in_entry hrun.1) hrun.2
        hexit
      exact ⟨hentry, hsame.trans hsame'⟩

end Detour

/-- An execution that returns either takes a detour, or returns nothing and never comes to a
block that the source does not decide about. -/
theorem detour_cases (hσ : p.Covered S σ) (h : m.ReturnsIn p.function n b ρ r)
    (hret : Value.Clean i σ.returned) (hb : b ∈ p.order) :
    (∃ d ρ₂ k, Detour m p σ i b ρ d ρ₂ ∧ m.ReturnsIn p.function k d ρ₂ r ∧ k ≤ n) ∨
      (r = none ∧ ∀ d, p.PostDominates d b → ¬ p.Undecided σ i d) := by
  induction h with
  | @ret b block ρ ρ₁ value hrun hterm =>
      by_cases hlow : p.Undecided σ i b
      · exact .inl ⟨b, ρ, 0, .stop hlow, .ret hrun hterm, Nat.le_refl _⟩
      · refine .inr ⟨?_, fun d hd => hσ.flow.eq_of_postDominates_ret hrun hterm hd ▸ hlow⟩
        cases value with
        | none => rfl
        | some e =>
            -- a value that is returned here has the control taint of the block
            have hle := (hσ.absorbed b hb block hrun.1).returned
            rw [blockEffects, hterm] at hle
            exact absurd (Value.clean_join.mp (hret.of_le hle)).2 hlow
  | @goes n b c block ρ ρ₁ r hrun hc hrest ih =>
      by_cases hlow : p.Undecided σ i b
      · exact .inl ⟨b, ρ, n + 1, .stop hlow, .goes hrun hc hrest, Nat.le_refl _⟩
      · have hsucc := hσ.flow.mem_successors hrun hc
        rcases ih (hσ.flow.mem_order hb hsucc) with ⟨d, ρ₂, k, hdetour, hd, hk⟩ | ⟨hnone, hall⟩
        · exact .inl ⟨d, ρ₂, k, .pass hlow hrun hc hdetour, hd, by omega⟩
        · refine .inr ⟨hnone, fun d hd => ?_⟩
          by_cases hdb : d = b
          · exact hdb ▸ hlow
          · exact hall d (Dominance.postDominates_successor hd hdb hsucc)

end Problem

end TaintAnalysis
