import TaintAnalysis.Proofs.Flow.Paths
import TaintAnalysis.Proofs.Program.Validation

/-!
# The blocks of a validated function

The blocks of a validated function are those that its entry reaches. Either
validation has found no other block, or it has dropped the others; dropping them
cuts no way from the entry, since a successor of a block that is reached is
reached too.
-/

namespace TaintAnalysis

/-- A loop that only checks something of each element succeeds exactly where all checks do. -/
theorem forIn_eq_ok_iff {α ε : Type} {P : α → Prop} {l : List α}
    {body : α → PUnit → Except ε (ForInStep PUnit)}
    (hpass : ∀ x, P x → body x PUnit.unit = .ok (.yield PUnit.unit))
    (hfail : ∀ x, ¬ P x → ∃ e, body x PUnit.unit = .error e) :
    (do forIn l PUnit.unit body; pure ()) = .ok () ↔ ∀ x ∈ l, P x := by
  induction l with
  | nil => exact ⟨fun _ x hx => absurd hx List.not_mem_nil, fun _ => rfl⟩
  | cons a rest ih =>
      rw [List.forIn_cons, List.forall_mem_cons]
      by_cases ha : P a
      · rw [hpass a ha]
        exact ih.trans ⟨fun h => ⟨ha, h⟩, fun h => h.2⟩
      · obtain ⟨e, he⟩ := hfail a ha
        rw [he]
        exact iff_of_false (fun h => nomatch h) fun h => ha h.1

namespace Function

variable {f : Function} {b s : BlockId} {block : Block}

/-- Execution begins in a block of the function, and goes on in one after every block. -/
structure Closed (f : Function) : Prop where
  entry : ∃ block, f.block? f.entry = some block
  successors : ∀ b block, f.block? b = some block → ∀ s ∈ block.successors,
    ∃ next, f.block? s = some next

/-- Every block of the function is finished. -/
def Terminated (f : Function) : Prop :=
  ∀ b block, f.block? b = some block → block.isTerminated = true

/-- The entry reaches every block of the function. -/
def Reached (f : Function) : Prop :=
  ∀ b block, f.block? b = some block → (Graph.ofFunction f).Reaches f.entry b

theorem contains_iff_exists_block : f.blocks.contains b = true ↔
    ∃ block, f.block? b = some block := by
  rw [← OrderedMap.mem_keys_iff]
  exact OrderedMap.mem_keys_iff_exists

theorem exists_block_of_mem_blocks (h : b ∈ (Graph.ofFunction f).blocks) :
    ∃ block, f.block? b = some block := by
  replace h : b ∈ (f.blocks.mapValues fun _ block => block.successors).keys := h
  rw [OrderedMap.keys_mapValues] at h
  exact OrderedMap.mem_keys_iff_exists.mp h

theorem checkBlock_eq_ok_iff : f.checkBlock b block = .ok () ↔
    block.isTerminated = true ∧ ∀ s ∈ block.successors, ∃ next, f.block? s = some next := by
  rw [checkBlock]
  by_cases hdone : block.isTerminated = true
  · rw [if_neg (not_not_intro hdone)]
    refine (forIn_eq_ok_iff (fun s hs => ?_) fun s hs => ?_).trans
      ⟨fun h => ⟨hdone, h⟩, fun h => h.2⟩
    · rw [if_neg (not_not_intro (contains_iff_exists_block.mpr hs))]
      rfl
    · rw [if_pos fun h => hs (contains_iff_exists_block.mp h)]
      exact ⟨_, rfl⟩
  · rw [if_pos hdone]
    exact iff_of_false (fun h => nomatch h) fun h => hdone h.1

theorem checkBlocks_eq_ok_iff : f.checkBlocks = .ok () ↔ f.Closed ∧ f.Terminated := by
  rw [checkBlocks]
  by_cases hentry : f.blocks.contains f.entry = true
  · rw [if_neg (not_not_intro hentry)]
    refine (forIn_eq_ok_iff (P := fun e => f.checkBlock e.1 e.2 = .ok ())
      (fun e he => ?_) fun e he => ?_).trans ⟨fun h => ?_, fun ⟨hclosed, hdone⟩ e he => ?_⟩
    · simp only [he]
      rfl
    · cases hcheck : f.checkBlock e.1 e.2 with
      | error err => exact ⟨err, by simp only [hcheck]; rfl⟩
      | ok u => exact absurd hcheck he
    · have hblock : ∀ b block, f.block? b = some block → f.checkBlock b block = .ok () :=
        fun b block hblock => h (b, block) (OrderedMap.get?_eq_some_iff.mp hblock)
      exact ⟨⟨contains_iff_exists_block.mp hentry,
        fun b block hb => (checkBlock_eq_ok_iff.mp (hblock b block hb)).2⟩,
        fun b block hb => (checkBlock_eq_ok_iff.mp (hblock b block hb)).1⟩
    · have hblock : f.block? e.1 = some e.2 := OrderedMap.get?_eq_some_iff.mpr he
      exact checkBlock_eq_ok_iff.mpr ⟨hdone _ _ hblock, hclosed.successors _ _ hblock⟩
  · rw [if_pos hentry]
    exact iff_of_false (fun h => nomatch h) fun h =>
      hentry (contains_iff_exists_block.mpr h.1.entry)

theorem Closed.exists_block_of_reaches (hf : f.Closed)
    (h : (Graph.ofFunction f).Reaches f.entry b) : ∃ block, f.block? b = some block := by
  induction h with
  | refl => exact hf.entry
  | tail _ hstep ih =>
      obtain ⟨block, hblock⟩ := ih
      rw [Graph.successors_ofFunction hblock] at hstep
      exact hf.successors _ block hblock _ hstep

/-! ## Dropping blocks -/

theorem block?_prune : f.prune.block? b = some block ↔
    f.block? b = some block ∧ (Graph.ofFunction f).Reaches f.entry b := by
  rw [block?, prune, OrderedMap.get?_filterKeys, Option.ite_none_right_eq_some, and_comm]
  refine and_congr_right fun _ => ?_
  rw [decide_eq_true_eq]
  exact Graph.mem_reversePostorder_iff

/-- The ways from the entry stay when the blocks off them are dropped. -/
theorem reaches_prune (h : (Graph.ofFunction f).Reaches f.entry b) :
    (Graph.ofFunction f.prune).Reaches f.entry b := by
  induction h with
  | refl => exact .refl
  | @tail x y hx hstep ih =>
      refine ih.tail ?_
      obtain ⟨block, hblock⟩ := exists_block_of_mem_blocks (Graph.mem_blocks_of_successor hstep)
      rw [Graph.successors_ofFunction (block?_prune.mpr ⟨hblock, hx⟩)]
      rwa [Graph.successors_ofFunction hblock] at hstep

theorem Closed.prune (hf : f.Closed) : f.prune.Closed where
  entry := by
    obtain ⟨block, hblock⟩ := hf.entry
    exact ⟨block, block?_prune.mpr ⟨hblock, .refl⟩⟩
  successors := fun b block hblock s hs => by
    obtain ⟨hb, hreach⟩ := block?_prune.mp hblock
    obtain ⟨next, hnext⟩ := hf.successors b block hb s hs
    refine ⟨next, block?_prune.mpr ⟨hnext, hreach.tail ?_⟩⟩
    rwa [Graph.successors_ofFunction hb]

/-! ## Validation -/

theorem unreachableBlocks_eq_nil_iff : f.unreachableBlocks = [] ↔ f.Reached := by
  simp only [unreachableBlocks, List.filter_eq_nil_iff, decide_eq_true_eq, not_not]
  constructor
  · intro h b block hblock
    exact Graph.mem_reversePostorder_iff.mp (h b (OrderedMap.mem_keys_iff_exists.mpr ⟨block, hblock⟩))
  · intro h b hb
    obtain ⟨block, hblock⟩ := OrderedMap.mem_keys_iff_exists.mp hb
    exact Graph.mem_reversePostorder_iff.mpr (h b block hblock)

/-- The flow of a function passes where its blocks do, and where all of them are reached unless the
others are going to be dropped. -/
theorem checkFlow_eq_ok_iff {config : Config} : f.checkFlow config = .ok () ↔
    (f.Closed ∧ f.Terminated) ∧ (config.pruneUnreachable = true ∨ f.Reached) := by
  rw [checkFlow, bind_eq_ok_iff, ← checkBlocks_eq_ok_iff, ← unreachableBlocks_eq_nil_iff]
  constructor
  · rintro ⟨_, hblocks, h⟩
    refine ⟨hblocks, ?_⟩
    split at h
    · split at h
      · next hnil => exact .inr hnil
      · exact nomatch h
    · next hprune => exact .inl (not_not.mp hprune)
  · rintro ⟨hblocks, h⟩
    refine ⟨(), hblocks, ?_⟩
    by_cases hprune : config.pruneUnreachable = true
    · rw [if_neg (not_not_intro hprune)]
      rfl
    · rw [if_pos hprune, h.resolve_left hprune]
      rfl

end Function

/-- The functions of a validated program have passed the check of their flow, before or after
their unreachable blocks were dropped. -/
theorem Program.checkFlow_of_validate {p q : Program} {config : Config} {f : Function}
    (h : p.validate config = .ok q) (hf : f ∈ q.functions) :
    ∃ g ∈ p.functions, g.checkFlow config = .ok () ∧
      f = if config.pruneUnreachable then g.prune else g := by
  obtain ⟨hflow, rfl, -, -⟩ := validate_eq_ok_iff.mp h
  split at hf
  · next hprune =>
    obtain ⟨g, hg, rfl⟩ := List.mem_map.mp hf
    exact ⟨g, hg, hflow g hg, (if_pos hprune).symm⟩
  · next hkeep => exact ⟨f, hf, hflow f hf, (if_neg hkeep).symm⟩

namespace Function.Validated

variable {f : Function} {b : BlockId} {block : Block}

theorem closed (hf : f.Validated) : f.Closed := by
  obtain ⟨p, q, config, hvalid, hmem⟩ := hf
  obtain ⟨g, hg, hcheck, rfl⟩ := p.checkFlow_of_validate hvalid hmem
  have hclosed := (checkFlow_eq_ok_iff.mp hcheck).1.1
  split
  · exact hclosed.prune
  · exact hclosed

/-- The solver visits every block of a validated function. -/
theorem mem_reversePostorder (hf : f.Validated) (hblock : f.block? b = some block) :
    b ∈ (Graph.ofFunction f).reversePostorder := by
  obtain ⟨p, q, config, hvalid, hmem⟩ := hf
  obtain ⟨g, hg, hcheck, rfl⟩ := p.checkFlow_of_validate hvalid hmem
  rw [Graph.mem_reversePostorder_iff]
  split at hblock
  · next hprune =>
    rw [if_pos hprune]
    exact reaches_prune (block?_prune.mp hblock).2
  · next hkeep =>
    rw [if_neg hkeep]
    exact (checkFlow_eq_ok_iff.mp hcheck).2.resolve_left hkeep b block hblock

/-- Every block that the solver visits is a block of the function. -/
theorem exists_block (hf : f.Validated) (hb : b ∈ (Graph.ofFunction f).reversePostorder) :
    ∃ block, f.block? b = some block :=
  hf.closed.exists_block_of_reaches (Graph.mem_reversePostorder_iff.mp hb)

end Function.Validated

end TaintAnalysis
