import TaintAnalysis.Proofs.Memory.FoldedPaths
import TaintAnalysis.Proofs.Memory.Propagation
import TaintAnalysis.Proofs.Program.Addresses

/-!
# Pointer facts under coarser settings

The pointer analysis under coarser settings ends with facts that account for every instruction.
So they cover what the analysis finds under finer settings, at each instruction that it comes to
(`PathFacts.Adds.covered`), and with that what it ends with (`PointsTo.finalFacts_covered`). The
condition is that the paths of the instruction are followed alike (`PathFacts.AlikeBy`).
-/

namespace TaintAnalysis

namespace PathFacts

variable {m n m' : PathFacts} {i : Instruction} {v : VarId} {l t : Location}

/-- The paths that an instruction follows to find what it adds are followed alike. -/
def AlikeBy (m n : PathFacts) : Instruction → Prop
  | .assign dst e | .cast dst e _ => m.IsPointer dst → ∀ p ∈ e.targeted, m.FollowedAlike n p
  | .load dst place => m.IsPointer dst → m.FollowedAlike n place ∧
      n.layout.Matches (n.resolve place).targets (m.resolve place).targets
        fun l' l => l.param?.isSome = true → m.UntoldAlike n l' l
  | .store place src => (∀ p ∈ src.targeted, m.FollowedAlike n p) ∧
      (m.exprTargets src ≠ [] → m.FollowedAlike n place)
  | .call .. | .opaqueCode .. => True

theorem CoveredBy.isPointer_iff (h : m.CoveredBy n) : m.IsPointer v ↔ n.IsPointer v := by
  rw [IsPointer, IsPointer, h.refines.function]

/-- Under coarser settings an instruction gives targets that cover those it gives otherwise. -/
theorem Gives.covered (h : m.CoveredBy n) (halike : m.AlikeBy n i) (hgives : m.Gives v t i) :
    ∃ t', n.Gives v t' i ∧ n.layout.Covers t' t := by
  have hassign {dst : VarId} {e : Expr}
      (halike : m.IsPointer dst → ∀ p ∈ e.targeted, m.FollowedAlike n p)
      (hgives : dst = v ∧ m.IsPointer v ∧ t ∈ m.exprTargets e) :
      ∃ t', (dst = v ∧ n.IsPointer v ∧ t' ∈ n.exprTargets e) ∧ n.layout.Covers t' t := by
    obtain ⟨rfl, hptr, ht⟩ := hgives
    obtain ⟨t', ht', hcovers⟩ := exprTargets_covered h (halike hptr) t ht
    exact ⟨t', ⟨rfl, h.isPointer_iff.mp hptr, ht'⟩, hcovers⟩
  cases i with
  | assign dst e => exact hassign halike hgives
  | cast dst e ty => exact hassign halike hgives
  | load dst place =>
      obtain ⟨rfl, hptr, l, hl, ht⟩ := hgives
      obtain ⟨hpath, hcells⟩ := halike hptr
      obtain ⟨l', hl', hcovers, huntold⟩ := (resolve_covered h hpath).targets.related hcells l hl
      obtain ⟨t', ht', hcovers'⟩ := storedTargets_covered h hcovers
        (fun hparam => huntold (hparam.resolve_left Bool.false_ne_true)) t ht
      exact ⟨t', ⟨rfl, h.isPointer_iff.mp hptr, l', hl', ht'⟩, hcovers'⟩
  | store place src => exact hgives.elim
  | call dst callee args =>
      obtain ⟨hdst, hptr, rfl⟩ := hgives
      exact ⟨_, ⟨hdst, h.isPointer_iff.mp hptr, rfl⟩, .unknown⟩
  | opaqueCode touched reason =>
      obtain ⟨hv, hptr, rfl⟩ := hgives
      exact ⟨_, ⟨hv, h.isPointer_iff.mp hptr, rfl⟩, .unknown⟩

/-- The same for what it puts into memory. -/
theorem Puts.covered (h : m.CoveredBy n) (halike : m.AlikeBy n i) (hputs : m.Puts l t i) :
    ∃ l' t', n.Puts l' t' i ∧ n.layout.Covers l' l ∧ n.layout.Covers t' t := by
  cases i with
  | store place src =>
      obtain ⟨hl, ht⟩ := hputs
      obtain ⟨l', hl', hcovers⟩ :=
        (resolve_covered h (halike.2 (List.ne_nil_of_mem ht))).targets l hl
      obtain ⟨t', ht', hcovers'⟩ := exprTargets_covered h halike.1 t ht
      exact ⟨l', t', ⟨hl', ht'⟩, hcovers, hcovers'⟩
  | _ => exact hputs.elim

/-- Facts that account for an instruction still cover the others after the instruction. -/
theorem Adds.covered (hadds : m.Adds m' i) (h : m.CoveredBy n) (halike : m.AlikeBy n i)
    (haccounts : n.Accounts i) : m'.CoveredBy n where
  refines := hadds.layout ▸ h.refines
  vars := fun v t ht => by
    rcases hadds.vars v t ht with ht | hgives
    · exact h.vars v t ht
    · obtain ⟨t', hgives', hcovers⟩ := hgives.covered h halike
      exact ⟨t', haccounts.gives hgives', hcovers⟩
  held := fun l t ht => by
    rcases hadds.held l t ht with ht | hputs
    · exact h.held l t ht
    · obtain ⟨l', t', hputs', hcovers⟩ := hputs.covered h halike
      exact ⟨l', t', haccounts.puts hputs', hcovers⟩

end PathFacts

/-- The second configuration differs from the first at most in that it tells less apart in memory:
shorter access paths, and fewer elements of arrays of unknown length. -/
structure Config.Coarsens (coarse fine : Config) : Prop where
  same : coarse = { fine with
    maxTrackedIndex := coarse.maxTrackedIndex, maxPathDepth := coarse.maxPathDepth }
  maxTrackedIndex : coarse.maxTrackedIndex ≤ fine.maxTrackedIndex
  maxPathDepth : coarse.maxPathDepth ≤ fine.maxPathDepth

namespace PointsTo

open Arena

variable {f : Function} {fine coarse : Config}

/-- Whenever the analysis comes to an instruction, the paths of the instruction are followed as
they are followed with what is known at the end under the coarser settings. -/
def FollowsAlike (f : Function) (fine coarse : Config) : Prop :=
  ∀ s i rest, Pending f fine s (i :: rest) →
    (s.1.pathFacts fine.maxPathDepth s.2).AlikeBy (finalFacts f coarse) i

/-- What is known at the end under coarser settings covers what is known under the others. -/
theorem finalFacts_covered (h : coarse.Coarsens fine) (halike : FollowsAlike f fine coarse) :
    (finalFacts f fine).CoveredBy (finalFacts f coarse) := by
  have hlayout := layout_finalFacts f coarse
  refine (pending_analyze f fine).invariant (P := fun m => m.CoveredBy (finalFacts f coarse))
    (fun m hm hinitial => ?_) fun s i rest hpending hi hcovered m' hadds =>
      hadds.covered hcovered (halike s i rest hpending) (finalFacts_accounts f coarse hi)
  refine ⟨?_, fun v t ht => ?_, fun l t ht => absurd ht (hinitial.held l t)⟩
  · rw [hm, hlayout]
    exact ⟨rfl, h.maxPathDepth, h.maxTrackedIndex⟩
  · obtain ⟨i, pointee, hparam, hty, rfl⟩ := hinitial.vars v t ht
    rw [hm] at hparam hty
    refine ⟨_, paramTarget_mem coarse hparam hty, .of_root fun j hj => ?_⟩
    obtain rfl := Root.paramTarget.inj hj
    rw [hlayout, Location.rootTy?, hparam, Option.bind_some, hty]
    rfl

end PointsTo

/-! ## Functions that follow no stored pointer -/

/-- The path follows no pointer but a parameter, and an index in it selects an element of a
variable. -/
def Function.isDirect (f : Function) : Place → Bool
  | .var _ => true
  | .deref (.var v) => decide (v ∈ f.params) && ((f.ty? v).bind Ty.pointee?).isSome
  | .index (.var v) _ => !(f.ty? v).any Ty.isPointer
  | .field p _ => f.isDirect p
  | .deref _ | .index .. => false

/-- The instruction reads a pointer from memory. -/
def Instruction.loadsPointer (f : Function) : Instruction → Bool
  | .load dst _ => (f.ty? dst).any Ty.isPointer
  | _ => false

/-- The function reads no pointer from memory, and follows none that is stored there. -/
structure Function.FollowsDirectly (f : Function) : Prop where
  places : ∀ block ∈ f.blocks.values, ∀ place ∈ block.places, f.isDirect place = true
  loads : ∀ i ∈ f.instructions, i.loadsPointer f = false

theorem Expr.targeted_subset : ∀ e : Expr, e.targeted ⊆ e.addressed
  | .var _ => List.nil_subset _
  | .const _ => List.nil_subset _
  | .unary _ _ => List.nil_subset _
  | .binary _ l r => by
      rw [targeted, addressed]
      exact List.append_subset.mpr
        ⟨List.Subset.trans (targeted_subset l) (List.subset_append_left _ _),
          List.Subset.trans (targeted_subset r) (List.subset_append_right _ _)⟩
  | .addrOf p => by
      rw [targeted, addressed]
      exact List.cons_subset_cons _ (List.nil_subset _)

theorem Instruction.targeted_subset_places {i : Instruction} {e : Expr} (he : e ∈ i.operands) :
    e.targeted ⊆ i.places := by
  intro p hp
  refine List.mem_append_right _ (List.mem_append_right _ ?_)
  exact List.mem_flatMap.mpr ⟨e, he, e.targeted_subset hp⟩

namespace PointsTo

variable {f : Function} {fine coarse config : Config} {n : PathFacts} {s : PointsTo × Arena}
  {rest : List Instruction}

/-- Whenever the analysis comes to an instruction, a direct path is followed as it is with any
other facts: a parameter that is a pointer refers to its object from the beginning. -/
theorem Pending.followedAlike (h : Pending f config s rest) : ∀ {p : Place}, f.isDirect p = true →
    (s.1.pathFacts config.maxPathDepth s.2).FollowedAlike n p
  | .var _, _ => trivial
  | .deref (.var v), hp => by
      obtain ⟨hparam, hpointee⟩ := Bool.and_eq_true_iff.mp hp
      obtain ⟨i, hi⟩ := List.mem_iff_getElem?.mp (of_decide_eq_true hparam)
      obtain ⟨pointee, hpointee⟩ := Option.isSome_iff_exists.mp hpointee
      refine ⟨trivial, fun w hw => ?_, fun ls ls' hls => ?_⟩
      · obtain rfl := Place.var.inj hw
        exact h.settledVar hi hpointee
      · exact absurd hls (by simp [PathFacts.follow])
  | .index (.var v) e, hp => by
      refine ⟨trivial, fun w hw hptr => ?_, fun ls ls' hls => ?_⟩
      · obtain rfl := Place.var.inj hw
        have hpointer : (s.1.function.ty? v).any Ty.isPointer = true := hptr
        rw [h.function] at hpointer
        simp [Function.isDirect, hpointer] at hp
      · exact absurd hls (by simp [PathFacts.follow])
  | .field inner _, hp => h.followedAlike (p := inner) hp

/-- The paths of a function that follows no stored pointer are followed alike under any two
configurations while its pointers are analyzed. -/
theorem followsAlike_of_direct (h : f.FollowsDirectly) (fine coarse : Config) :
    FollowsAlike f fine coarse := by
  intro s i rest hpending
  have hi := hpending.mem_instructions i List.mem_cons_self
  obtain ⟨block, hblock, hmem⟩ := List.mem_flatMap.mp hi
  have hplaces {p : Place} (hp : p ∈ i.places) :
      (s.1.pathFacts fine.maxPathDepth s.2).FollowedAlike (finalFacts f coarse) p :=
    hpending.followedAlike (h.places block hblock p
      (List.mem_append_left _ (List.mem_flatMap.mpr ⟨i, hmem, hp⟩)))
  have hoperand {e : Expr} (he : e ∈ i.operands) : ∀ p ∈ e.targeted,
      (s.1.pathFacts fine.maxPathDepth s.2).FollowedAlike (finalFacts f coarse) p :=
    fun p hp => hplaces (Instruction.targeted_subset_places he hp)
  cases i with
  | assign dst e => exact fun _ => hoperand List.mem_cons_self
  | cast dst e ty => exact fun _ => hoperand List.mem_cons_self
  | load dst place =>
      intro hptr
      have hpointer : (s.1.function.ty? dst).any Ty.isPointer = true := hptr
      rw [hpending.function] at hpointer
      exact absurd ((h.loads _ hi).symm.trans hpointer) Bool.false_ne_true
  | store place src =>
      have hplace : place ∈ (Instruction.store place src).places :=
        List.mem_append_left _ (Option.mem_toList.mpr rfl)
      exact ⟨hoperand List.mem_cons_self, fun _ => hplaces hplace⟩
  | call dst callee args => trivial
  | opaqueCode touched reason => trivial

end PointsTo

end TaintAnalysis
