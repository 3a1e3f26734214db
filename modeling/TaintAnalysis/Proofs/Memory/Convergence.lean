import Mathlib.Logic.Function.Iterate
import TaintAnalysis.Proofs.Memory.Universe

/-!
# The pointer analysis ends where nothing is added

The rounds of the pointer analysis are repeated until one of them adds no fact, and
there is a bound on how many facts are counted. The bound is never what ends the
loop. The locations that can be named are roots followed by paths, so there are at
most as many as `factBits` allows for, and a fact is a variable or a location together
with a location.

So the last round adds nothing, and since the facts only grow during a round, none of
its steps does: at the end of the analysis every instruction finds its effect among
the facts already (`analyze_fixed`).
-/

namespace TaintAnalysis

variable {f : Function} {D : Nat}

/-! ## Counting locations -/

/-- The steps that the function can mention; indices are below `bound`. -/
def Function.steps (f : Function) (bound : Nat) : List Step :=
  .index none :: (List.range bound).map (fun i => .index (some i)) ++ f.fieldNames.map .field

/-- The roots that the function can mention. -/
def Function.roots (f : Function) : List Root :=
  .unknown :: f.occurrences.map .variable ++ (List.range f.params.length).map .paramTarget

/-- The paths of at most the given length. -/
def pathsOf (steps : List Step) : Nat → List (List Step)
  | 0 => [[]]
  | length + 1 => [] :: steps.flatMap fun step => (pathsOf steps length).map (step :: ·)

theorem mem_steps {step : Step} (h : step.Nameable f) : step ∈ f.steps (2 ^ 63) := by
  rw [Function.steps]
  cases step with
  | index i =>
      refine List.mem_append_left _ ?_
      cases i with
      | none => exact List.mem_cons_self
      | some i => exact List.mem_cons_of_mem _ (List.mem_map.mpr ⟨i, List.mem_range.mpr h, rfl⟩)
  | field name => exact List.mem_append_right _ (List.mem_map.mpr ⟨name, h, rfl⟩)

theorem mem_roots {r : Root} (h : r.Nameable f) : r ∈ f.roots :=
  match r, h with
  | .unknown, _ => List.mem_append_left _ List.mem_cons_self
  | .variable v, h =>
      List.mem_append_left _ (List.mem_cons_of_mem _ (List.mem_map.mpr ⟨v, h, rfl⟩))
  | .paramTarget i, h =>
      List.mem_append_right _ (List.mem_map.mpr ⟨i, List.mem_range.mpr h.lt_params, rfl⟩)

theorem mem_pathsOf {steps path : List Step} {n : Nat} (hsteps : ∀ step ∈ path, step ∈ steps)
    (hlen : path.length ≤ n) : path ∈ pathsOf steps n := by
  induction n generalizing path with
  | zero =>
      rw [List.length_eq_zero_iff.mp (Nat.le_zero.mp hlen)]
      exact List.mem_singleton.mpr rfl
  | succ n ih =>
      cases path with
      | nil => exact List.mem_cons_self
      | cons step rest =>
          refine List.mem_cons_of_mem _ (List.mem_flatMap.mpr
            ⟨step, hsteps step List.mem_cons_self, List.mem_map.mpr ⟨rest, ih ?_ ?_, rfl⟩⟩)
          · exact fun s hs => hsteps s (List.mem_cons_of_mem _ hs)
          · exact Nat.le_of_succ_le_succ hlen

theorem length_flatMap_map {α β γ : Type} (g : α → β → γ) (xs : List α) (ys : List β) :
    (xs.flatMap fun x => ys.map (g x)).length = xs.length * ys.length := by
  rw [List.length_flatMap]
  simp only [List.length_map, List.map_const', List.sum_replicate_nat]

theorem length_pathsOf (steps : List Step) (n : Nat) :
    (pathsOf steps n).length ≤ (steps.length + 1) ^ n := by
  induction n with
  | zero => exact Nat.le_refl 1
  | succ n ih =>
      have hpos : 1 ≤ (steps.length + 1) ^ n := Nat.one_le_pow _ _ (Nat.succ_pos _)
      calc (pathsOf steps (n + 1)).length
          = steps.length * (pathsOf steps n).length + 1 := by
            rw [pathsOf, List.length_cons, length_flatMap_map]
        _ ≤ steps.length * (steps.length + 1) ^ n + (steps.length + 1) ^ n :=
            Nat.add_le_add (Nat.mul_le_mul_left _ ih) hpos
        _ = (steps.length + 1) ^ (n + 1) := by
            rw [Nat.pow_succ, Nat.mul_add_one, Nat.mul_comm steps.length]

theorem length_steps : (f.steps (2 ^ 63)).length + 1 ≤ 2 ^ (65 + f.fieldNames.length) := by
  have hfields : f.fieldNames.length < 2 ^ f.fieldNames.length := Nat.lt_two_pow_self
  rw [Function.steps, List.length_append, List.length_cons, List.length_map, List.length_map,
    List.length_range, Nat.pow_add]
  omega

theorem length_roots :
    f.roots.length ≤ 2 ^ (f.vars.length + f.occurrences.length) := by
  have hparams : f.params.length ≤ f.vars.length :=
    Nat.le_trans (List.length_filter_le _ _) (Nat.le_of_eq List.length_range)
  refine Nat.le_trans ?_ (Nat.lt_two_pow_self (n := f.vars.length + f.occurrences.length))
  rw [Function.roots, List.length_append, List.length_cons, List.length_map, List.length_map,
    List.length_range]
  omega

/-- A number of bits that is enough to count the locations. -/
def locationBits (f : Function) (D : Nat) : Nat :=
  f.vars.length + f.occurrences.length + (65 + f.fieldNames.length) * D

theorem length_le_of_nameable {ls : List Location} (hnodup : ls.Nodup)
    (h : ∀ l ∈ ls, l.Nameable f D) : ls.length ≤ 2 ^ locationBits f D := by
  have hsub : ∀ l ∈ ls, l ∈ f.roots.flatMap fun r =>
      (pathsOf (f.steps (2 ^ 63)) D).map (Location.mk r) := by
    intro l hl
    obtain ⟨hroot, hpath, hdepth⟩ := h l hl
    exact List.mem_flatMap.mpr ⟨l.root, mem_roots hroot, List.mem_map.mpr
      ⟨l.path, mem_pathsOf (fun step hstep => mem_steps (hpath step hstep)) hdepth, rfl⟩⟩
  calc ls.length
      ≤ f.roots.length * (pathsOf (f.steps (2 ^ 63)) D).length :=
        length_flatMap_map Location.mk _ _ ▸ (List.subperm_of_subset hnodup hsub).length_le
    _ ≤ 2 ^ (f.vars.length + f.occurrences.length) * (2 ^ (65 + f.fieldNames.length)) ^ D :=
        Nat.mul_le_mul length_roots
          (Nat.le_trans (length_pathsOf _ D) (Nat.pow_le_pow_left length_steps D))
    _ = 2 ^ locationBits f D := by rw [locationBits, ← Nat.pow_mul, ← Nat.pow_add]

/-! ## Counting facts -/

namespace PointsTo

open Arena

variable {m : PointsTo} {a : Arena} {config : Config}

theorem size_le_of_inside (hw : a.WellFormed (m.layout D)) (h : Inside f D a) :
    a.size ≤ 2 ^ locationBits f D := by
  have hlen := length_le_of_nameable hw.distinct fun l hl => by
    obtain ⟨n, hn, rfl⟩ := List.mem_map.mp hl
    exact h.nameable n hn
  rwa [List.length_map] at hlen

/-- The facts refer to variables that are declared. -/
def Declared (m : PointsTo) : Prop :=
  ∀ v ∈ m.vars.keys, v < m.function.vars.length

/-- The number of facts is bounded by the number of locations. -/
theorem size_le (h : m.Ready D a) (hvars : m.Declared) :
    m.size ≤ m.function.vars.length * a.size + a.size * a.size := by
  refine Nat.add_le_add (OrderedMap.weight_le ?_ fun set hset => ?_)
    (OrderedMap.weight_le ?_ fun set hset => ?_)
  · exact IdSet.length_le_of_lt m.vars.nodup hvars
  · obtain ⟨v, hv⟩ := OrderedMap.mem_values_iff.mp hset
    refine IdSet.size_le fun id hid => h.inRange.vars v id ?_
    rw [targetsOf, hv]
    exact hid
  · refine IdSet.length_le_of_lt m.cells.nodup fun id hid => ?_
    obtain ⟨e, he, rfl⟩ := List.mem_map.mp hid
    exact (h.inRange.cells e he).1
  · obtain ⟨e, he, rfl⟩ := List.mem_map.mp hset
    exact IdSet.size_le (h.inRange.cells e he).2

/-- The bound on the number of facts is never reached. -/
theorem size_lt (h : m.Ready config.maxPathDepth a) (hvars : m.Declared)
    (hinside : Inside m.function config.maxPathDepth a) :
    m.size < 2 ^ factBits m.function config := by
  have hbits : factBits m.function config = 2 * locationBits m.function config.maxPathDepth + 2 :=
    rfl
  have hlocations := size_le_of_inside h.wellFormed hinside
  have hdeclared : m.function.vars.length ≤ 2 ^ locationBits m.function config.maxPathDepth := by
    refine Nat.le_trans ?_ (Nat.le_of_lt Nat.lt_two_pow_self)
    rw [locationBits]
    omega
  rw [hbits]
  generalize locationBits m.function config.maxPathDepth = bits at hlocations hdeclared
  have hpos : 0 < 2 ^ bits * 2 ^ bits := Nat.mul_pos (Nat.two_pow_pos _) (Nat.two_pow_pos _)
  calc m.size
      ≤ m.function.vars.length * a.size + a.size * a.size := size_le h hvars
    _ ≤ 2 ^ bits * 2 ^ bits + 2 ^ bits * 2 ^ bits :=
        Nat.add_le_add (Nat.mul_le_mul hdeclared hlocations) (Nat.mul_le_mul hlocations hlocations)
    _ < 4 * (2 ^ bits * 2 ^ bits) := by omega
    _ = 2 ^ (2 * bits + 2) := by rw [Nat.pow_add, Nat.two_mul, Nat.pow_add, Nat.mul_comm]

/-! ## The last round -/

theorem Gains.declared {m' : PointsTo} (h : m.Gains m') (hvars : m.Declared) : m'.Declared := by
  intro v hv
  rw [h.function]
  exact (h.keys v hv).elim (hvars v) id

theorem round_advances (h : m.Ready D a) : Advances D (m, a) (m.round.run a) :=
  foldlM_advances h fun _ _ _ hb i _ => propagate_advances hb i

/-- The facts and the arena after one more round. -/
def afterRound (s : PointsTo × Arena) : PointsTo × Arena :=
  s.1.round.run s.2

/-- What every round keeps: the facts can be read in the arena, and both mention only what the
function mentions, so that there is a bound on their number. -/
structure Bounded (config : Config) (s : PointsTo × Arena) : Prop where
  ready : s.1.Ready config.maxPathDepth s.2
  declared : s.1.Declared
  inside : Inside s.1.function config.maxPathDepth s.2

namespace Bounded

variable {s : PointsTo × Arena}

theorem size_lt (h : Bounded config s) : s.1.size < 2 ^ factBits s.1.function config :=
  PointsTo.size_lt h.ready h.declared h.inside

theorem function_afterRound (s : PointsTo × Arena) :
    (afterRound s).1.function = s.1.function :=
  (round_gains s.1 s.2).function

theorem afterRound (h : Bounded config s) : Bounded config (afterRound s) where
  ready := (round_advances h.ready).ready
  declared := (round_gains s.1 s.2).declared h.declared
  inside := function_afterRound s ▸ round_stays rfl _ h.inside

/-- The round that ends the loop adds nothing: had it added a fact, then only the bound could have
ended the loop. -/
theorem afterRound_eq (h : Bounded config s)
    (hdone : ¬ (s.1.size < (PointsTo.afterRound s).1.size ∧
      (PointsTo.afterRound s).1.size.log2 < factBits s.1.function config)) :
    (PointsTo.afterRound s).1 = s.1 := by
  have hgains := round_gains s.1 s.2
  refine hgains.eq_of_size (Nat.le_antisymm (Nat.le_of_not_lt fun hlt => hdone ⟨hlt, ?_⟩)
    hgains.size_le)
  have hsize := h.afterRound.size_lt
  rw [function_afterRound] at hsize
  exact (Nat.log2_lt (Nat.ne_of_gt (Nat.zero_lt_of_lt hlt))).mpr hsize

/-- The loop ends with the first round that adds nothing. Each round before it adds a fact. -/
theorem saturate_eq (h : Bounded config s) :
    ∃ n, saturate (factBits s.1.function config) s = PointsTo.afterRound^[n + 1] s ∧
      (PointsTo.afterRound^[n + 1] s).1 = (PointsTo.afterRound^[n] s).1 ∧
      (∀ k < n, (PointsTo.afterRound^[k + 1] s).1 ≠ (PointsTo.afterRound^[k] s).1) ∧
      s.1.size + n ≤ (PointsTo.afterRound^[n] s).1.size ∧
      Bounded config (PointsTo.afterRound^[n] s) := by
  generalize hbits : factBits s.1.function config = bits
  induction s using saturate.induct bits with
  | case1 s next hgrow ih =>
      obtain ⟨n, hlast, hsame, hadds, hsize, hn⟩ :=
        ih h.afterRound (function_afterRound s ▸ hbits)
      rw [saturate, if_pos hgrow]
      refine ⟨n + 1, hlast, hsame, fun k hk => ?_, ?_, hn⟩
      · cases k with
        | zero => exact fun heq => absurd hgrow.1 (heq ▸ Nat.lt_irrefl _)
        | succ k => exact hadds k (Nat.lt_of_succ_lt_succ hk)
      · have hone : s.1.size + 1 ≤ next.1.size := hgrow.1
        exact Nat.le_trans (by omega) hsize
  | case2 s next hdone =>
      rw [saturate, if_neg hdone]
      exact ⟨0, rfl, h.afterRound_eq (hbits ▸ hdone), fun k hk => absurd hk (Nat.not_lt_zero k),
        Nat.le_refl _, h⟩

end Bounded

theorem bounded_setup (f : Function) (config : Config) : Bounded config (setup f config) where
  ready := (setup_advances f config).ready
  declared := (setup_gains f config).declared fun _ hv => absurd hv List.not_mem_nil
  inside := (setup_gains f config).function ▸ setup_inside f config

/-- The analysis is the loop that repeats the rounds until one adds nothing. It has added a fact in
every round before, so there are fewer rounds than facts that can be counted. -/
theorem analyze_eq (f : Function) (config : Config) :
    ∃ n < 2 ^ factBits f config, analyze f config = afterRound^[n + 1] (setup f config) ∧
      (afterRound^[n + 1] (setup f config)).1 = (afterRound^[n] (setup f config)).1 ∧
      (∀ k < n, (afterRound^[k + 1] (setup f config)).1 ≠ (afterRound^[k] (setup f config)).1) ∧
      Bounded config (afterRound^[n] (setup f config)) := by
  have hfun : (setup f config).1.function = f := (setup_gains f config).function
  obtain ⟨n, hlast, hsame, hadds, hsize, hbounded⟩ := (bounded_setup f config).saturate_eq
  rw [hfun] at hlast
  refine ⟨n, ?_, hlast, hsame, hadds, hbounded⟩
  have hkept : (afterRound^[n] (setup f config)).1.function = f := by
    rw [← hsame, ← hlast]
    exact (analyze_gains f config).function
  have hlt := hbounded.size_lt
  rw [hkept] at hlt
  omega

/-- If a sequence of steps adds nothing, then none of them does. -/
theorem foldlM_fixed {α : Type} {g : PointsTo → α → Naming PointsTo} {xs : List α}
    (h : m.Ready D a)
    (hadvance : ∀ (m' : PointsTo) (b : Arena), m'.function = m.function → m'.Ready D b →
      ∀ x ∈ xs, Advances D (m', b) ((g m' x).run b))
    (hgains : ∀ (m' : PointsTo) (b : Arena), m'.function = m.function → ∀ x ∈ xs,
      m'.Gains ((g m' x).run b).1)
    (hsame : ((xs.foldlM g m).run a).1 = m) :
    ∀ x ∈ xs, ∃ b, m.Ready D b ∧ b.Extends ((xs.foldlM g m).run a).2 ∧
      ((g m x).run b).1 = m := by
  induction xs generalizing a with
  | nil => exact fun x hx => absurd hx List.not_mem_nil
  | cons x rest ih =>
      have hx := hadvance m a rfl h x List.mem_cons_self
      have hgain := hgains m a rfl x List.mem_cons_self
      have hrun : ((x :: rest).foldlM g m).run a =
          (rest.foldlM g ((g m x).run a).1).run ((g m x).run a).2 := by
        rw [List.foldlM_cons]
        rfl
      have hrest : ((g m x).run a).1.Gains
          ((rest.foldlM g ((g m x).run a).1).run ((g m x).run a).2).1 :=
        foldlM_gains (fun m' b hm' y hy =>
          hgains m' b (hm'.trans hgain.function) y (List.mem_cons_of_mem x hy)) _
      -- the facts after the first step lie between the facts before and after all of them
      rw [hrun] at hsame ⊢
      have hfirst : ((g m x).run a).1 = m := by
        have hle := hrest.size_le
        rw [hsame] at hle
        exact hgain.eq_of_size (Nat.le_antisymm hle hgain.size_le)
      have hready := hx.ready
      simp only [hfirst] at hsame hready ⊢
      have htail := ih hready
        (fun m' b hm' hb y hy => hadvance m' b hm' hb y (List.mem_cons_of_mem x hy))
        (fun m' b hm' y hy => hgains m' b hm' y (List.mem_cons_of_mem x hy)) hsame
      intro y hy
      rcases List.mem_cons.mp hy with rfl | hy
      · have hextend : Advances D (m, ((g m y).run a).2)
            ((rest.foldlM g m).run ((g m y).run a).2) :=
          foldlM_advances hready fun m' b hm' hb z hz =>
            hadvance m' b hm' hb z (List.mem_cons_of_mem y hz)
        exact ⟨a, h, hx.extend.trans hextend.extend, hfirst⟩
      · exact htail y hy

/-- At the end of the analysis every instruction finds its effect among the facts already. -/
theorem analyze_fixed (f : Function) (config : Config) {i : Instruction}
    (hi : i ∈ f.instructions) :
    let last := analyze f config
    ∃ b, last.1.Ready config.maxPathDepth b ∧ b.Extends last.2 ∧
      ((last.1.propagate i).run b).1 = last.1 := by
  intro last
  obtain ⟨n, -, hlast, hsame, -, hbounded⟩ := analyze_eq f config
  have hround : afterRound (afterRound^[n] (setup f config)) = last := by
    rw [← Function.iterate_succ_apply' afterRound n]
    exact hlast.symm
  have hfacts : (afterRound^[n] (setup f config)).1 = last.1 := by
    rw [← hsame, ← hlast]
  have hready := hbounded.ready
  rw [afterRound, hfacts] at hround
  rw [hfacts] at hready
  have hfun : last.1.function = f := (analyze_gains f config).function
  obtain ⟨b, hb, hextend, hsame⟩ := foldlM_fixed (g := propagate) hready
    (fun _ _ _ hb i _ => propagate_advances hb i) (fun m' b _ i _ => propagate_gains m' b i)
    (congrArg Prod.fst hround) i (hfun.symm ▸ hi)
  refine ⟨b, hb, ?_, hsame⟩
  have hlast : (last.1.round.run (afterRound^[n] (setup f config)).2).2 = last.2 :=
    congrArg Prod.snd hround
  exact hlast ▸ hextend

end PointsTo

end TaintAnalysis
