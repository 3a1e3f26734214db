import Mathlib.Logic.Function.Iterate
import TaintAnalysis.Proofs.Flow.Trails

/-!
# Solving the equations in place

The solution of a system of equations can also be found in passes over the blocks,
in which the dominators of a block are recomputed from what the pass has already
made of the blocks before it. That gets ahead faster than applying the equations to
all blocks at once, and it ends at the same solution.

A single revision keeps what makes the rounds descend: the equations can only remove
candidates from what it leaves (`Round.revise`), and they remove nothing that is
claimed consistently. A pass therefore leaves no more than one application of the
equations would. If it changes nothing, then the candidates solve the equations, and
no solution has more (`solves_of_pass_eq`); if it changes something, then fewer
candidates remain, which can happen only so often.
-/

namespace TaintAnalysis.Dominance.Equations

variable {e : Equations} {f f' : BlockId → List BlockId} {b d : BlockId}
  {claim : BlockId → BlockId → Prop}

/-- Recomputes the candidates of a block that is not a root from those of the others. -/
def revise (e : Equations) (c : Candidates) (b : BlockId) : Candidates :=
  if b ∈ e.roots then c else c.insert b (e.refined c b)

/-- Revises the blocks one after the other. -/
def pass (e : Equations) (c : Candidates) : Candidates :=
  e.blocks.foldl e.revise c

/-! ## One revision -/

theorem insert_tabulate (hb : b ∈ e.blocks) (set : List BlockId) :
    (e.tabulate f).insert b set = e.tabulate (Function.update f b set) := by
  have hmem : b ∈ (e.tabulate f).keys :=
    OrderedMap.mem_keys_iff_exists.mpr ⟨f b, by rw [get?_tabulate, if_pos hb]⟩
  refine OrderedMap.eq_of_keys_eq ?_ fun x => ?_
  · rw [OrderedMap.keys_insert, if_pos hmem]
    exact OrderedMap.keys_foldl_insert_congr _ _ e.blocks rfl
  · rw [OrderedMap.get?_insert, get?_tabulate, get?_tabulate]
    by_cases hx : x = b
    · subst hx
      rw [if_pos rfl, if_pos hb, Function.update_self]
    · rw [if_neg hx, Function.update_of_ne hx]

/-- The candidates after a block was revised. -/
def revised (e : Equations) (f : BlockId → List BlockId) (b : BlockId) : BlockId → List BlockId :=
  Function.update f b (e.refined (e.tabulate f) b)

theorem revise_tabulate (h : Round e f) (hb : b ∈ e.blocks) :
    e.revise (e.tabulate f) b = e.tabulate (e.revised f b) := by
  rw [revise]
  split
  · next hroot =>
    have hsame : e.refined (e.tabulate f) b = f b := by
      rw [h.listed b, if_pos hroot, refined, if_pos hroot]
    rw [revised, hsame, Function.update_eq_self]
  · exact insert_tabulate hb _

theorem Round.mem_of_revised (h : Round e f) {x : BlockId} (hd : d ∈ e.revised f b x) : d ∈ f x := by
  by_cases hx : x = b
  · subst hx
    rw [revised, Function.update_self] at hd
    exact h.shrinks x d hd
  · rwa [revised, Function.update_of_ne hx] at hd

/-- The equations can only remove candidates from what a revision leaves. -/
theorem Round.revise (h : Round e f) (b : BlockId) : Round e (e.revised f b) where
  listed := fun x => by
    by_cases hx : x = b
    · subst hx
      rw [revised, Function.update_self]
      exact h.next.listed x
    · rw [revised, Function.update_of_ne hx]
      exact h.listed x
  shrinks := fun x d hd => by
    have hold := refined_mono (fun _ _ hd => h.mem_of_revised hd) d hd
    by_cases hx : x = b
    · subst hx
      rwa [revised, Function.update_self]
    · rw [revised, Function.update_of_ne hx]
      exact h.shrinks x d hold

theorem Consistent.grants_revised (hclaim : e.Consistent claim) (hf : e.Grants claim f)
    (b : BlockId) : e.Grants claim (e.revised f b) := by
  intro x hx d hd
  by_cases hxb : x = b
  · subst hxb
    rw [revised, Function.update_self]
    exact hclaim.grants_refined hf x hx d hd
  · rw [revised, Function.update_of_ne hxb]
    exact hf x hx d hd

/-! ## One pass -/

/-- What becomes of candidates when some blocks are revised. -/
structure Descends (e : Equations) (revised : List BlockId) (f f' : BlockId → List BlockId) :
    Prop where
  round : Round e f'
  sub : ∀ b, ∀ d ∈ f' b, d ∈ f b
  /-- The revised blocks have no more than one application of the equations leaves. -/
  within : ∀ b ∈ revised, ∀ d ∈ f' b, d ∈ e.refined (e.tabulate f) b
  /-- What is claimed consistently stays. -/
  grants : ∀ claim, e.Consistent claim → e.Grants claim f → e.Grants claim f'

theorem foldl_revise (h : Round e f) (blocks : List BlockId) (hblocks : ∀ b ∈ blocks, b ∈ e.blocks) :
    ∃ f', blocks.foldl e.revise (e.tabulate f) = e.tabulate f' ∧ Descends e blocks f f' := by
  induction blocks generalizing f with
  | nil => exact ⟨f, rfl, h, fun _ _ hd => hd, fun _ hb => absurd hb List.not_mem_nil,
      fun _ _ hf => hf⟩
  | cons b rest ih =>
      have hb := hblocks b List.mem_cons_self
      obtain ⟨f', hfold, hrest⟩ := ih (h.revise b) fun x hx => hblocks x (List.mem_cons_of_mem b hx)
      refine ⟨f', by rw [List.foldl_cons, revise_tabulate h hb, hfold], hrest.round,
        fun x d hd => h.mem_of_revised (hrest.sub x d hd), fun x hx d hd => ?_,
        fun claim hclaim hf => hrest.grants claim hclaim (hclaim.grants_revised hf b)⟩
      rcases List.mem_cons.mp hx with rfl | hx
      · have hfirst := hrest.sub x d hd
        rwa [revised, Function.update_self] at hfirst
      · exact refined_mono (fun _ _ hd => h.mem_of_revised hd) d (hrest.within x hx d hd)

theorem pass_tabulate (h : Round e f) :
    ∃ f', e.pass (e.tabulate f) = e.tabulate f' ∧ Descends e e.blocks f f' :=
  foldl_revise h e.blocks fun _ hb => hb

/-- A pass that changes something leaves fewer candidates. -/
theorem total_pass_lt (h : Round e f) (hne : e.pass (e.tabulate f) ≠ e.tabulate f) :
    total (e.pass (e.tabulate f)) < total (e.tabulate f) := by
  obtain ⟨f', hpass, hf'⟩ := pass_tabulate h
  rw [hpass] at hne ⊢
  exact total_lt (h.sublist hf'.round hf'.sub) hne

/-! ## All passes -/

/-- What the solution says is consistent. -/
theorem consistent_solve (e : Equations) :
    e.Consistent fun d b => e.solve.dominates d b = true :=
  fun _ hb _ hd => (dominates_iff hb).mp hd

/-- Candidates that the equations leave alone are consistent. -/
theorem consistent_of_stable
    (hstable : ∀ b ∈ e.blocks, ∀ d ∈ f b, d ∈ e.refined (e.tabulate f) b) :
    e.Consistent fun d b => d ∈ f b := by
  intro b hb d hd
  have hrefined := hstable b hb d hd
  rw [refined] at hrefined
  split
  · next hroot =>
    rw [if_pos hroot] at hrefined
    exact List.mem_singleton.mp hrefined
  · next hroot =>
    rw [if_neg hroot, List.mem_filter, decide_eq_true_eq] at hrefined
    refine ⟨hrefined.1, hrefined.2.imp_right fun hcommon => ?_⟩
    obtain ⟨⟨s, hs, set, hset⟩, hall⟩ := mem_common.mp hcommon
    rw [get?_tabulate] at hset
    split at hset
    · next hblock =>
      refine ⟨⟨s, hs, hblock⟩, fun x hx hx' => hall x hx (f x) ?_⟩
      rw [get?_tabulate, if_pos hx']
    · exact absurd hset.symm (Option.some_ne_none set)

/-- If they also have all of the solution, they are the solution. -/
theorem tabulate_eq_solve (h : Round e f)
    (hgrants : e.Grants (fun d b => e.solve.dominates d b = true) f)
    (hstable : ∀ b ∈ e.blocks, ∀ d ∈ f b, d ∈ e.refined (e.tabulate f) b) :
    e.tabulate f = e.solve.sets := by
  have hsame : ∀ b ∈ e.blocks, f b = e.refined e.solve.sets b := by
    intro b hb
    have hmem : ∀ d, d ∈ f b ↔ e.solve.dominates d b = true := fun d =>
      ⟨fun hd => dominates_of_consistent (consistent_of_stable hstable) hb hd, hgrants b hb d⟩
    rw [h.listed b]
    by_cases hroot : b ∈ e.roots
    · rw [if_pos hroot, refined, if_pos hroot]
    · rw [if_neg hroot, refined_solve hb hroot]
      refine List.filter_congr fun d _ => ?_
      rw [← Bool.decide_coe (e.solve.dominates d b)]
      exact decide_eq_decide.mpr (hmem d)
  rw [tabulate_congr hsame]
  exact e.step_settle

/-- The first pass that changes nothing leaves the solution. -/
theorem solves_of_pass_eq (h : Round e f)
    (hgrants : e.Grants (fun d b => e.solve.dominates d b = true) f)
    (hpass : e.pass (e.tabulate f) = e.tabulate f) : e.tabulate f = e.solve.sets := by
  obtain ⟨f', hf', hdescends⟩ := pass_tabulate h
  refine tabulate_eq_solve h hgrants fun b hb d hd => hdescends.within b hb d ?_
  have hget : (e.tabulate f').get? b = (e.tabulate f).get? b := by rw [← hf', hpass]
  rw [get?_tabulate, get?_tabulate, if_pos hb, if_pos hb] at hget
  exact Option.some.inj hget ▸ hd

theorem passes_end_of (h : Round e f)
    (hgrants : e.Grants (fun d b => e.solve.dominates d b = true) f) :
    ∃ n, (∀ m < n, e.pass^[m + 1] (e.tabulate f) ≠ e.pass^[m] (e.tabulate f)) ∧
      e.pass^[n] (e.tabulate f) = e.solve.sets ∧ e.pass e.solve.sets = e.solve.sets := by
  induction hn : total (e.tabulate f) using Nat.strongRecOn generalizing f with
  | ind n ih =>
      by_cases hpass : e.pass (e.tabulate f) = e.tabulate f
      · have hsolved := solves_of_pass_eq h hgrants hpass
        refine ⟨0, fun m hm => absurd hm (Nat.not_lt_zero m), hsolved, ?_⟩
        rw [← hsolved, hpass]
      · have hless := total_pass_lt h hpass
        obtain ⟨f', hf', hdescends⟩ := pass_tabulate h
        rw [hf'] at hless
        obtain ⟨m, hbefore, hend, hstays⟩ := ih _ (hn ▸ hless) hdescends.round
          (hdescends.grants _ e.consistent_solve hgrants) rfl
        refine ⟨m + 1, fun k hk => ?_, ?_, hstays⟩
        · cases k with
          | zero => exact hpass
          | succ k =>
              show e.pass^[k + 1] (e.pass (e.tabulate f)) ≠ e.pass^[k] (e.pass (e.tabulate f))
              rw [hf']
              exact hbefore k (Nat.lt_of_succ_lt_succ hk)
        · rw [Function.iterate_succ_apply, hf', hend]

/-- Each pass over the blocks changes something until the candidates are the solution, which passes
leave alone. -/
theorem passes_end (e : Equations) :
    ∃ n, (∀ m < n, e.pass^[m + 1] e.start ≠ e.pass^[m] e.start) ∧
      e.pass^[n] e.start = e.solve.sets ∧ e.pass e.solve.sets = e.solve.sets :=
  passes_end_of (round_start e) e.consistent_solve.grants_start

end TaintAnalysis.Dominance.Equations
