import TaintAnalysis.Proofs.Flow.Dominance

/-!
# Dominance and trails

A trail follows the sources of a system of equations from a block back to a root,
among the blocks of the system. What dominates a block lies on all its trails, by
induction on the trail. The converse needs the solution to be the greatest one:
`Consistent` is what the equations demand of a claim about dominance, and the
solution has every consistent claim, since no round can remove it
(`dominates_of_consistent`). That a block lies on all trails of another one is such
a claim, provided that there are trails at all (`dominates_iff_trails`).

From there dominance is a matter of trails, whatever the equations are. A trail may
be cut off at any block on it, and its beginning may be replaced. So dominance is an
order, and what dominates one block is a chain: of two blocks on all trails, the one
that some trail meets first could otherwise be left by a trail without the other.
-/

namespace TaintAnalysis.Dominance

namespace Equations

variable {e : Equations} {f : BlockId → List BlockId} {a b c d : BlockId}
  {trail : List BlockId}

/-! ## The greatest solution -/

/-- What the equations demand of a claim about which blocks dominate which. -/
def Consistent (e : Equations) (claim : BlockId → BlockId → Prop) : Prop :=
  ∀ b ∈ e.blocks, ∀ d, claim d b →
    if b ∈ e.roots then d = b
    else d ∈ e.blocks ∧ (d = b ∨ (∃ s ∈ e.sources b, s ∈ e.blocks) ∧
      ∀ s ∈ e.sources b, s ∈ e.blocks → claim d s)

/-- The candidates have everything that is claimed. -/
def Grants (e : Equations) (claim : BlockId → BlockId → Prop) (f : BlockId → List BlockId) : Prop :=
  ∀ b ∈ e.blocks, ∀ d, claim d b → d ∈ f b

variable {claim : BlockId → BlockId → Prop}

theorem Consistent.grants_start (h : e.Consistent claim) :
    e.Grants claim fun b => if b ∈ e.roots then [b] else e.blocks := by
  intro b hb d hd
  have hdemand := h b hb d hd
  dsimp only
  split
  · next hroot =>
    rw [if_pos hroot] at hdemand
    exact List.mem_singleton.mpr hdemand
  · next hroot =>
    rw [if_neg hroot] at hdemand
    exact hdemand.1

/-- The equations remove nothing that is claimed consistently. -/
theorem Consistent.grants_refined (h : e.Consistent claim) (hf : e.Grants claim f) :
    e.Grants claim (e.refined (e.tabulate f)) := by
  intro b hb d hd
  have hdemand := h b hb d hd
  rw [refined]
  split
  · next hroot =>
    rw [if_pos hroot] at hdemand
    exact List.mem_singleton.mpr hdemand
  · next hroot =>
    rw [if_neg hroot] at hdemand
    refine List.mem_filter.mpr ⟨hdemand.1, decide_eq_true (hdemand.2.imp_right ?_)⟩
    intro hsources
    obtain ⟨⟨s, hs, hblock⟩, hall⟩ := hsources
    refine mem_common.mpr ⟨⟨s, hs, f s, by rw [get?_tabulate, if_pos hblock]⟩, ?_⟩
    intro x hx set hset
    rw [get?_tabulate] at hset
    split at hset
    · next hblock =>
      obtain rfl := Option.some.inj hset
      exact hf x hblock d (hall x hx hblock)
    · exact absurd hset.symm (Option.some_ne_none set)

theorem Consistent.grants_settle (h : e.Consistent claim) (hf : e.Grants claim f) :
    ∃ f', e.settle (e.tabulate f) = e.tabulate f' ∧ e.Grants claim f' := by
  induction hn : total (e.tabulate f) using Nat.strongRecOn generalizing f with
  | ind n ih =>
      have hnext := h.grants_refined hf
      rw [settle]
      split
      · next hless => exact ih _ (hn ▸ hless) hnext rfl
      · exact ⟨_, rfl, hnext⟩

/-- The solution has every consistent claim. -/
theorem dominates_of_consistent (h : e.Consistent claim) (hb : b ∈ e.blocks) (hd : claim d b) :
    e.solve.dominates d b = true := by
  obtain ⟨f, hsettle, hf⟩ := h.grants_settle h.grants_start
  refine dominates_eq_true_iff.mpr ⟨f b, ?_, hf b hb d hd⟩
  show (e.settle e.start).get? b = some (f b)
  rw [start, hsettle, get?_tabulate, if_pos hb]

/-! ## Trails -/

/-- The blocks along a way from a block against the flow, up to a root. -/
inductive Trail (e : Equations) : BlockId → List BlockId → Prop where
  | root {b : BlockId} (hb : b ∈ e.blocks) (hroot : b ∈ e.roots) : Trail e b [b]
  | step {b s : BlockId} {trail : List BlockId} (hb : b ∈ e.blocks) (hs : s ∈ e.sources b)
      (hrest : Trail e s trail) : Trail e b (b :: trail)

/-- Every block is led back to a root. -/
def Rooted (e : Equations) : Prop :=
  ∀ b ∈ e.blocks, ∃ trail, e.Trail b trail

namespace Trail

theorem mem_blocks (h : e.Trail b trail) : b ∈ e.blocks := by
  cases h with
  | root hb => exact hb
  | step hb => exact hb

theorem head? (h : e.Trail b trail) : trail.head? = some b := by
  cases h with
  | root => rfl
  | step => rfl

theorem subset_blocks (h : e.Trail b trail) : trail ⊆ e.blocks := by
  induction h with
  | root hb => exact List.cons_subset.mpr ⟨hb, List.nil_subset _⟩
  | step hb _ _ ih => exact List.cons_subset.mpr ⟨hb, ih⟩

/-- A trail can be cut off at any block on it. -/
theorem cut (h : e.Trail b trail) (hd : d ∈ trail) : ∃ rest, e.Trail d rest ∧ rest <:+ trail := by
  induction h with
  | root hb hroot =>
      obtain rfl := List.mem_singleton.mp hd
      exact ⟨_, .root hb hroot, List.suffix_refl _⟩
  | @step b s trail hb hs hrest ih =>
      rcases List.mem_cons.mp hd with rfl | hd
      · exact ⟨_, .step hb hs hrest, List.suffix_refl _⟩
      · obtain ⟨rest, htrail, hsuffix⟩ := ih hd
        exact ⟨rest, htrail, hsuffix.trans (List.suffix_cons b trail)⟩

/-- What is cut off at another block is shorter. -/
theorem length_lt {rest : List BlockId} (h : e.Trail b trail) (hd : e.Trail d rest)
    (hsuffix : rest <:+ trail) (hne : d ≠ b) : rest.length < trail.length := by
  refine Nat.lt_of_le_of_ne hsuffix.length_le fun heq => hne ?_
  obtain rfl := hsuffix.eq_of_length heq
  exact Option.some.inj (hd.head?.symm.trans h.head?)

end Trail

/-- What dominates a block lies on all its trails. -/
theorem mem_of_dominates (h : e.solve.dominates d b = true) (htrail : e.Trail b trail) :
    d ∈ trail := by
  induction htrail with
  | root hb hroot =>
      have hiff := (dominates_iff hb).mp h
      rw [if_pos hroot] at hiff
      exact List.mem_singleton.mpr hiff
  | @step b s trail hb hs hrest ih =>
      have hiff := (dominates_iff hb).mp h
      split at hiff
      · exact hiff ▸ List.mem_cons_self
      · rcases hiff.2 with rfl | hsources
        · exact List.mem_cons_self
        · exact List.mem_cons_of_mem b (ih (hsources.2 s hs hrest.mem_blocks))

/-- To lie on all trails is a consistent claim if there are trails. -/
theorem consistent_trails (he : e.Rooted) :
    e.Consistent fun d b => ∀ trail, e.Trail b trail → d ∈ trail := by
  intro b hb d hd
  split
  · next hroot => exact List.mem_singleton.mp (hd _ (.root hb hroot))
  · next hroot =>
    obtain ⟨trail, htrail⟩ := he b hb
    refine ⟨htrail.subset_blocks (hd _ htrail), ?_⟩
    by_cases hdb : d = b
    · exact .inl hdb
    refine .inr ⟨?_, fun s hs _ rest hrest => ?_⟩
    · cases htrail with
      | root _ h => exact absurd h hroot
      | step _ hs hrest => exact ⟨_, hs, hrest.mem_blocks⟩
    · exact (List.mem_cons.mp (hd _ (.step hb hs hrest))).resolve_left hdb

/-- One block dominates another if it lies on all trails of the other. -/
theorem dominates_iff_trails (he : e.Rooted) (hb : b ∈ e.blocks) :
    e.solve.dominates d b = true ↔ ∀ trail, e.Trail b trail → d ∈ trail :=
  ⟨fun h _ htrail => mem_of_dominates h htrail,
    fun h => dominates_of_consistent (consistent_trails he) hb h⟩

/-! ## The order -/

theorem dominates_self (hb : b ∈ e.blocks) : e.solve.dominates b b = true := by
  refine (dominates_iff hb).mpr ?_
  split
  · rfl
  · exact ⟨hb, .inl rfl⟩

/-- Only blocks of the system dominate. -/
theorem mem_blocks_of_dominates_left (h : e.solve.dominates d b = true) : d ∈ e.blocks := by
  have hb := mem_blocks_of_dominates h
  have hiff := (dominates_iff hb).mp h
  split at hiff
  · exact hiff ▸ hb
  · exact hiff.1

theorem dominates_trans (he : e.Rooted) (hab : e.solve.dominates a b = true)
    (hbc : e.solve.dominates b c = true) : e.solve.dominates a c = true := by
  refine (dominates_iff_trails he (mem_blocks_of_dominates hbc)).mpr fun trail htrail => ?_
  obtain ⟨rest, hrest, hsuffix⟩ := htrail.cut (mem_of_dominates hbc htrail)
  exact hsuffix.subset (mem_of_dominates hab hrest)

theorem dominates_antisymm (he : e.Rooted) (hab : e.solve.dominates a b = true)
    (hba : e.solve.dominates b a = true) : a = b := by
  by_contra hne
  -- cut at `a` and then at `b`, any trail of `b` becomes a shorter one
  have hnone : ∀ n trail, e.Trail b trail → trail.length = n → False := by
    intro n
    induction n using Nat.strongRecOn with
    | ind n ih =>
        intro trail htrail hn
        obtain ⟨mid, hmid, hsuffix⟩ := htrail.cut (mem_of_dominates hab htrail)
        obtain ⟨rest, hrest, hsuffix'⟩ := hmid.cut (mem_of_dominates hba hmid)
        have hless := htrail.length_lt hmid hsuffix hne
        have hle := hsuffix'.length_le
        exact ih rest.length (by omega) rest hrest rfl
  obtain ⟨trail, htrail⟩ := he b (mem_blocks_of_dominates hab)
  exact hnone _ trail htrail rfl

/-- If two blocks have trails without each other, then every block has a trail without one of them:
it goes on from the first of them that it meets. -/
theorem exists_avoiding {left right : List BlockId} (ha : e.Trail a left) (hca : c ∉ left)
    (hc : e.Trail c right) (hac : a ∉ right) (h : e.Trail b trail) :
    ∃ rest, e.Trail b rest ∧ (a ∉ rest ∨ c ∉ rest) := by
  induction h with
  | @root b hb hroot =>
      by_cases hba : b = a
      · exact ⟨left, hba ▸ ha, .inr hca⟩
      · exact ⟨_, .root hb hroot, .inl fun h => hba (List.mem_singleton.mp h).symm⟩
  | @step b s trail hb hs hrest ih =>
      by_cases hba : b = a
      · exact ⟨left, hba ▸ ha, .inr hca⟩
      by_cases hbc : b = c
      · exact ⟨right, hbc ▸ hc, .inl hac⟩
      obtain ⟨rest, htrail, havoids⟩ := ih
      have hextend (x : BlockId) (hbx : b ≠ x) (hx : x ∉ rest) : x ∉ b :: rest := fun h =>
        (List.mem_cons.mp h).elim (fun h => hbx h.symm) hx
      exact ⟨b :: rest, .step hb hs htrail, havoids.imp (hextend a hba) (hextend c hbc)⟩

/-- Of two blocks that dominate a third one, one dominates the other. -/
theorem dominates_total (he : e.Rooted) (ha : e.solve.dominates a b = true)
    (hc : e.solve.dominates c b = true) :
    e.solve.dominates a c = true ∨ e.solve.dominates c a = true := by
  by_contra hneither
  obtain ⟨hac, hca⟩ := not_or.mp hneither
  rw [dominates_iff_trails he (mem_blocks_of_dominates_left hc)] at hac
  rw [dominates_iff_trails he (mem_blocks_of_dominates_left ha)] at hca
  push Not at hac hca
  obtain ⟨right, hright, hac⟩ := hac
  obtain ⟨left, hleft, hca⟩ := hca
  obtain ⟨trail, htrail⟩ := he b (mem_blocks_of_dominates ha)
  obtain ⟨rest, hrest, havoids⟩ := exists_avoiding hleft hca hright hac htrail
  rcases havoids with h | h
  · exact h (mem_of_dominates ha hrest)
  · exact h (mem_of_dominates hc hrest)

/-! ## How many dominators there are -/

theorem mem_refined_solve (hb : b ∈ e.blocks) :
    d ∈ e.refined e.solve.sets b ↔ e.solve.dominates d b = true := by
  rw [dominates_eq_true_iff, get?_solve hb]
  simp only [Option.some.injEq, exists_eq_left']

/-- The dominators of a block are listed in the order of the blocks. -/
theorem refined_solve (hb : b ∈ e.blocks) (hroot : b ∉ e.roots) :
    e.refined e.solve.sets b = e.blocks.filter fun d => e.solve.dominates d b := by
  have hmem (d : BlockId) := mem_refined_solve (d := d) hb
  rw [refined, if_neg hroot] at hmem ⊢
  refine List.filter_congr fun d hd => ?_
  rw [← Bool.decide_coe (e.solve.dominates d b)]
  refine decide_eq_decide.mpr ((hmem d).symm.trans ?_).symm
  rw [List.mem_filter, decide_eq_true_eq, and_iff_right hd]

theorem height_solve (hb : b ∈ e.blocks) :
    e.solve.height b = (e.refined e.solve.sets b).length := by
  rw [height, dominators?, get?_solve hb]
  rfl

/-- A block has fewer dominators than any other block that it dominates. -/
theorem height_lt (he : e.Rooted) (h : e.solve.dominates a b = true) (hne : a ≠ b) :
    e.solve.height a < e.solve.height b := by
  have hb := mem_blocks_of_dominates h
  have ha := mem_blocks_of_dominates_left h
  have hbroot : b ∉ e.roots := fun hroot => hne ((if_pos hroot).mp ((dominates_iff hb).mp h))
  have hsub : (e.refined e.solve.sets a).Sublist (e.refined e.solve.sets b) := by
    by_cases haroot : a ∈ e.roots
    · rw [refined, if_pos haroot]
      exact List.singleton_sublist.mpr ((mem_refined_solve hb).mpr h)
    · rw [refined_solve ha haroot, refined_solve hb hbroot]
      exact List.monotone_filter_right _ fun d hd => dominates_trans he hd h
  rw [height_solve ha, height_solve hb]
  refine Nat.lt_of_le_of_ne hsub.length_le fun hlen => ?_
  -- `b` is among its own dominators, but not among those of `a`
  have hself := (mem_refined_solve hb).mpr (dominates_self hb)
  rw [← hsub.eq_of_length hlen, mem_refined_solve ha] at hself
  exact hne (dominates_antisymm he h hself)

end Equations

end TaintAnalysis.Dominance
