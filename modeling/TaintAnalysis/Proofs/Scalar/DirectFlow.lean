import TaintAnalysis.Proofs.Program.Reachable
import TaintAnalysis.Proofs.Scalar.Noninterference
import TaintAnalysis.Proofs.Solver.FoldedRuns

/-!
# Direct dependence is what copying carries along some path

Where a function only assigns and casts, and takes no address, direct dependence can be
followed by hand: mark one parameter, walk along some path of edges, and let every
instruction give its destination a mark if and only if one of its operands has one. A
variable depends directly on the parameter at the end of a block just if some such walk
leaves it marked there (`Run.direct_iff_copied`).

The solver does something else. It joins the states of all predecessors, visits blocks
until nothing grows, and puts the taint of branches and of loop tests into the same values.
None of this shows in the direct part. What surroundings add is indirect or full. A join
adds no mark that neither side has, and what an instruction marks it owes to one variable
that was marked before (`exists_source_of_direct`), so that every mark in a joined state
came along one path.
-/

namespace TaintAnalysis

/-! ## Direct dependence -/

/-- The value depends directly on the source. -/
def Value.Direct (i : SourceId) (v : Value) : Prop :=
  (v.kindOf i).direct = true

namespace Value

variable {i : SourceId} {u v : Value}

theorem Direct.mono (h : Direct i u) (huv : u ≤ v) : Direct i v :=
  (Kind.le_def.mp (le_iff.mp huv i)).1 h

theorem direct_join : Direct i (u.join v) ↔ Direct i u ∨ Direct i v := by
  rw [Direct, kindOf_join]
  exact Bool.or_eq_true_iff

theorem not_direct_bottom : ¬ Direct i bottom :=
  Bool.false_ne_true

theorem not_direct_toIndirect : ¬ Direct i u.toIndirect := by
  rw [Direct, kindOf_toIndirect]
  exact Bool.false_ne_true

theorem not_direct_toFull : ¬ Direct i u.toFull := by
  rw [Direct, kindOf_toFull]
  exact Bool.false_ne_true

theorem direct_joins {vs : List Value} : Direct i (joins vs) ↔ ∃ v ∈ vs, Direct i v := by
  induction vs with
  | nil => exact iff_of_false not_direct_bottom fun ⟨v, hv, _⟩ => List.not_mem_nil hv
  | cons v rest ih =>
      rw [List.exists_mem_cons_iff, ← ih]
      exact direct_join

theorem direct_single {k : SourceId} : Direct i (single k Kind.directOnly) ↔ i = k := by
  rw [Direct, kindOf_single]
  split
  · next h => exact iff_of_true rfl h
  · next h => exact iff_of_false Bool.false_ne_true h

end Value

open Value (Direct)

theorem State.direct_foldl_join {i : SourceId} {x : VarId} {ts : List State} {s : State} :
    Direct i ((ts.foldl State.join s).get x) ↔
      Direct i (s.get x) ∨ ∃ t ∈ ts, Direct i (t.get x) := by
  induction ts generalizing s with
  | nil => simp
  | cons t rest ih => rw [List.foldl_cons, ih, get_join, Value.direct_join, or_assoc,
      List.exists_mem_cons_iff]

/-! ## Copying marks -/

/-- Marks as values: what is computed from a marked operand is marked. A mark never decides about
a branch, since the paths below may take any edge. -/
def marks : Meaning Bool where
  const _ := false
  unary _ x := x
  binary _ x y := x || y
  cast _ x := x
  address _ := false
  truth x := x

/-- The instruction gives a variable the value of an expression, and does nothing else. -/
def Instruction.isCopy : Instruction → Bool
  | .assign .. | .cast .. => true
  | .load .. | .store .. | .call .. | .opaqueCode .. => false

namespace Function

/-- The function only assigns and casts, and takes no address. -/
structure CopiesOnly (f : Function) : Prop where
  free : f.AddressFree
  copies : ∀ i ∈ f.instructions, i.isCopy = true

theorem CopiesOnly.isCopy {f : Function} (hf : f.CopiesOnly) {b : BlockId} {block : Block}
    (hblock : f.block? b = some block) : ∀ instr ∈ block.instructions, instr.isCopy = true :=
  fun instr hinstr => hf.copies instr (List.mem_flatMap.mpr
    ⟨block, OrderedMap.mem_values_iff.mpr ⟨b, hblock⟩, hinstr⟩)

/-- Along some path of edges from the entry, where parameter `i` alone is marked, the marks are
copied to the given ones at the beginning of the block. -/
inductive Carries (f : Function) (i : SourceId) : BlockId → Valuation Bool → Prop
  | entry : Carries f i f.entry (f.entered (fun k => decide (k = i)) fun _ => false)
  | edge {b c : BlockId} {block : Block} {ρ ρ' : Valuation Bool} :
      Carries f i b ρ → marks.Runs f b block ρ ρ' → c ∈ (Graph.ofFunction f).successors b →
      Carries f i c ρ'

/-- Some path to the block leaves the variable marked at its end. -/
def CopiedTo (f : Function) (i : SourceId) (b : BlockId) (x : VarId) : Prop :=
  ∃ block ρ ρ', f.Carries i b ρ ∧ marks.Runs f b block ρ ρ' ∧ ρ' x = true

theorem paramIndex?_of_mem {f : Function} {x : VarId} {k : Nat} (h : (x, k) ∈ f.params.zipIdx) :
    f.paramIndex? x = some k := by
  obtain ⟨hk, hx⟩ := List.getElem?_eq_some_iff.mp (List.mem_zipIdx_iff_getElem?.mp h)
  have hnodup : f.params.Nodup := List.Pairwise.sublist List.filter_sublist List.nodup_range
  refine List.idxOf?_eq_some_iff.mpr ⟨hk, hx, fun j hj heq => ?_⟩
  have hjk : j = k := hnodup.getElem_inj_iff.mp (heq.trans hx.symm)
  omega

end Function

namespace Problem

variable {p : Problem} {S : Storage} {c : Cells} {around : Surroundings} {s : State}
  {i : SourceId} {x : VarId} {ρ ρ' : Valuation Bool} {instr : Instruction} {is : List Instruction}

/-! ## One instruction -/

theorem direct_value_of_marked (h : ∀ y, ρ y = true → Direct i (s.get y)) :
    ∀ e : Expr, marks.eval ρ e = true → Direct i (S.value c s e)
  | .var y, he => by
      rw [Storage.value, Storage.valueOfVar]
      split
      · exact Value.direct_join.mpr (.inl (h y he))
      · exact h y he
  | .const _, he => nomatch he
  | .unary _ e, he => by
      rw [Storage.value]
      exact direct_value_of_marked h e he
  | .binary _ l r, he => by
      rw [Storage.value, Value.direct_join]
      exact (Bool.or_eq_true_iff.mp he).imp (direct_value_of_marked h l)
        (direct_value_of_marked h r)
  | .addrOf _, he => nomatch he

/-- What is computed outside memory depends directly on a source only through one variable. -/
theorem exists_source_of_direct_value (hS : ∀ y, S.resident y = false) :
    ∀ e : Expr, Direct i (S.value c s e) →
      ∃ y, Direct i (s.get y) ∧ ∀ ρ : Valuation Bool, ρ y = true → marks.eval ρ e = true
  | .var y, he => by
      rw [Storage.value, Storage.valueOfVar, if_neg (Bool.not_eq_true _ ▸ hS y)] at he
      exact ⟨y, he, fun _ hy => hy⟩
  | .const _, he => absurd he Value.not_direct_bottom
  | .unary _ e, he => by
      rw [Storage.value] at he
      exact exists_source_of_direct_value hS e he
  | .binary _ l r, he => by
      rw [Storage.value, Value.direct_join] at he
      rcases he with he | he
      · obtain ⟨y, hy, hmark⟩ := exists_source_of_direct_value hS l he
        exact ⟨y, hy, fun ρ hρ => Bool.or_eq_true_iff.mpr (.inl (hmark ρ hρ))⟩
      · obtain ⟨y, hy, hmark⟩ := exists_source_of_direct_value hS r he
        exact ⟨y, hy, fun ρ hρ => Bool.or_eq_true_iff.mpr (.inr (hmark ρ hρ))⟩
  | .addrOf _, he => by
      rw [Storage.value] at he
      exact absurd he Value.not_direct_toIndirect

/-- Copying marks is stuck nowhere, and the equations assign along with it. -/
theorem copy_cases (h : instr.isCopy = true) : ∃ dst e, dst ∈ instr.mentions ∧
    (∀ ρ, marks.exec ρ instr = some (Function.update ρ dst (marks.eval ρ e))) ∧
      ∀ p S c around s, (Problem.outcome p S c around s instr).1 =
        s.set dst (((S.value c s e).join around.control).join around.widening) := by
  have hexec : ∃ ρ, marks.exec (fun _ => false) instr = some ρ := by
    cases instr with
    | assign dst e => exact ⟨_, rfl⟩
    | cast dst e ty => exact ⟨_, rfl⟩
    | load dst place | store place src | call dst callee args | opaqueCode vars reason =>
        exact nomatch h
  obtain ⟨ρ, hρ⟩ := hexec
  obtain ⟨dst, e, g, hg, hexec, hdst, -, houtcome⟩ := exec_cases hρ
  have hid : g = id := hg.elim (fun hid => hid) fun ⟨ty, hcast⟩ => hcast
  subst hid
  exact ⟨dst, e, hdst, hexec, houtcome⟩

/-- Nothing is written outside memory. -/
theorem writes_copy (hS : ∀ y, S.resident y = false) (h : instr.isCopy = true) :
    (p.outcome S c around s instr).2 = [] := by
  have hdefines (v : VarId) (value : Value) : S.defines v value = [] :=
    if_neg (Bool.not_eq_true _ ▸ hS v)
  cases instr with
  | assign dst e => exact hdefines dst _
  | cast dst e ty => exact hdefines dst _
  | load dst place | store place src | call dst callee args | opaqueCode vars reason =>
      exact nomatch h

theorem direct_outcome_of_marked (hcopy : instr.isCopy = true)
    (hdeclared : ∀ v ∈ instr.mentions, v < s.vars.length)
    (h : ∀ y, ρ y = true → Direct i (s.get y)) (hρ : marks.exec ρ instr = some ρ')
    (hx : ρ' x = true) : Direct i ((p.outcome S c around s instr).1.get x) := by
  obtain ⟨dst, e, hdst, hexec, houtcome⟩ := copy_cases hcopy
  obtain rfl := Option.some.inj ((hexec ρ).symm.trans hρ)
  rw [houtcome, State.get_set]
  by_cases hxd : x = dst
  · subst hxd
    rw [Function.update_self] at hx
    rw [if_pos ⟨rfl, hdeclared x hdst⟩, Value.direct_join, Value.direct_join]
    exact .inl (.inl (direct_value_of_marked h e hx))
  · rw [Function.update_of_ne hxd] at hx
    rw [if_neg fun hset => hxd hset.1]
    exact h x hx

/-- What the branches and loops around a block add is nowhere direct. -/
structure AddsNone (i : SourceId) (around : Surroundings) : Prop where
  control : ¬ Direct i around.control
  widening : ¬ Direct i around.widening

theorem addsNone_aroundIn (σ : Assignment) (b : BlockId) : AddsNone i (p.aroundIn σ b) where
  control := fun h => by
    obtain ⟨v, hv, hdirect⟩ := Value.direct_joins.mp h
    obtain ⟨y, -, rfl⟩ := List.mem_map.mp hv
    exact Value.not_direct_toIndirect hdirect
  widening := fun h => by
    obtain ⟨v, hv, hdirect⟩ := Value.direct_joins.mp h
    obtain ⟨l, -, hv⟩ := List.mem_flatMap.mp hv
    obtain ⟨y, -, rfl⟩ := List.mem_map.mp hv
    exact Value.not_direct_toFull hdirect

/-- After an instruction a variable depends directly on a source because of one variable before
it, and copying hands on the mark of that variable. -/
theorem exists_source_of_direct_outcome (hS : ∀ y, S.resident y = false)
    (haround : AddsNone i around) (hcopy : instr.isCopy = true)
    (hx : Direct i ((p.outcome S c around s instr).1.get x)) :
    ∃ y, Direct i (s.get y) ∧
      ∀ ρ ρ', ρ y = true → marks.exec ρ instr = some ρ' → ρ' x = true := by
  obtain ⟨dst, e, -, hexec, houtcome⟩ := copy_cases hcopy
  rw [houtcome, State.get_set] at hx
  by_cases hset : x = dst ∧ dst < s.vars.length
  · rw [if_pos hset, Value.direct_join, Value.direct_join] at hx
    obtain ⟨y, hy, hmark⟩ := exists_source_of_direct_value hS e
      ((hx.resolve_right haround.widening).resolve_right haround.control)
    refine ⟨y, hy, fun ρ ρ' hρ hstep => ?_⟩
    obtain rfl := Option.some.inj ((hexec ρ).symm.trans hstep)
    rw [hset.1, Function.update_self]
    exact hmark ρ hρ
  · rw [if_neg hset] at hx
    by_cases hxd : x = dst
    · -- a variable that is not declared has no taint
      have hpast : s.vars.length ≤ x := Nat.le_of_not_lt fun hlt => hset ⟨hxd, hxd ▸ hlt⟩
      rw [State.get_of_length_le hpast] at hx
      exact absurd hx Value.not_direct_bottom
    · refine ⟨x, hx, fun ρ ρ' hρ hstep => ?_⟩
      obtain rfl := Option.some.inj ((hexec ρ).symm.trans hstep)
      rwa [Function.update_of_ne hxd]

/-! ## The instructions of a block -/

theorem exec_copies (his : ∀ instr ∈ is, instr.isCopy = true) (ρ : Valuation Bool) :
    ∃ ρ', is.foldlM marks.exec ρ = some ρ' := by
  induction is generalizing ρ with
  | nil => exact ⟨ρ, rfl⟩
  | cons instr rest ih =>
      obtain ⟨dst, e, -, hexec, -⟩ := copy_cases (his instr List.mem_cons_self)
      obtain ⟨ρ', hρ'⟩ := ih (fun j hj => his j (List.mem_cons_of_mem instr hj))
        (Function.update ρ dst (marks.eval ρ e))
      exact ⟨ρ', by rw [List.foldlM_cons, hexec, Option.bind_eq_bind, Option.bind_some, hρ']⟩

theorem direct_outcomes_of_marked (his : ∀ instr ∈ is, instr.isCopy = true)
    (hdeclared : ∀ instr ∈ is, ∀ v ∈ instr.mentions, v < s.vars.length)
    (h : ∀ y, ρ y = true → Direct i (s.get y)) (hρ : is.foldlM marks.exec ρ = some ρ')
    (hx : ρ' x = true) : Direct i ((p.outcomes S c around s is).1.get x) := by
  induction is generalizing s ρ with
  | nil =>
      obtain rfl := Option.some.inj hρ
      exact h x hx
  | cons instr rest ih =>
      obtain ⟨ρ₁, hfirst, hrest⟩ := Option.bind_eq_some_iff.mp hρ
      have hlater : ∀ j ∈ rest, ∀ v ∈ j.mentions,
          v < (p.outcome S c around s instr).1.vars.length := by
        intro j hj v hv
        rw [length_outcome]
        exact hdeclared j (List.mem_cons_of_mem instr hj) v hv
      exact ih (fun j hj => his j (List.mem_cons_of_mem instr hj)) hlater
        (fun y hy => direct_outcome_of_marked (his instr List.mem_cons_self)
          (hdeclared instr List.mem_cons_self) h hfirst hy) hrest

/-- The same for the instructions of a block: every mark at the end comes from one mark at the
beginning, so that marks from different predecessors need not be considered together. -/
theorem exists_source_of_direct (hS : ∀ y, S.resident y = false) (haround : AddsNone i around)
    (his : ∀ instr ∈ is, instr.isCopy = true)
    (hx : Direct i ((p.outcomes S c around s is).1.get x)) :
    ∃ y, Direct i (s.get y) ∧
      ∀ ρ ρ', ρ y = true → is.foldlM marks.exec ρ = some ρ' → ρ' x = true := by
  induction is generalizing s with
  | nil => exact ⟨x, hx, fun ρ ρ' hρ hrun => Option.some.inj hrun ▸ hρ⟩
  | cons instr rest ih =>
      obtain ⟨y, hy, hrest⟩ := ih (fun j hj => his j (List.mem_cons_of_mem instr hj)) hx
      obtain ⟨z, hz, hfirst⟩ := exists_source_of_direct_outcome hS haround
        (his instr List.mem_cons_self) hy
      refine ⟨z, hz, fun ρ ρ' hρ hrun => ?_⟩
      obtain ⟨ρ₁, hstep, hlater⟩ := Option.bind_eq_some_iff.mp hrun
      exact hrest ρ₁ ρ' (hfirst ρ ρ₁ hρ hstep) hlater

theorem writes_copies (hS : ∀ y, S.resident y = false)
    (his : ∀ instr ∈ is, instr.isCopy = true) : (p.outcomes S c around s is).2 = [] := by
  induction is generalizing s with
  | nil => rfl
  | cons instr rest ih =>
      rw [outcomes]
      exact List.append_eq_nil_iff.mpr ⟨writes_copy hS (his instr List.mem_cons_self),
        ih fun j hj => his j (List.mem_cons_of_mem instr hj)⟩

/-! ## Every mark comes along a path -/

/-- The problem of a function that only copies, none of whose scalars is kept in memory. -/
structure OnlyCopies (p : Problem) (a₀ : Arena) : Prop where
  flow : p.FollowsFlow
  posed : p.WellPosed a₀
  copies : p.function.CopiesOnly
  resident : ∀ y, (Storage.ofProblem p a₀).resident y = false

variable {a₀ : Arena} {σ : Assignment} {k : Knowledge} {b : BlockId} {block : Block}

theorem direct_seedState (h : Direct i (p.seedState.get x)) :
    p.function.paramIndex? x = some i := by
  have hall : ∀ y, Direct i (p.seedState.get y) → p.function.paramIndex? y = some i := by
    refine List.foldlRecOn
      (motive := fun s : State => ∀ y, Direct i (s.get y) → p.function.paramIndex? y = some i)
      _ _ (fun y hy => ?_) fun s hs e he y hy => ?_
    · rw [State.get_untainted] at hy
      exact absurd hy Value.not_direct_bottom
    · rw [State.get_set] at hy
      split at hy
      · next hset =>
        rw [hset.1, Value.direct_single.mp hy]
        exact Function.paramIndex?_of_mem he
      · exact hs y hy
  exact hall x h

/-- If the marks at the ends of the blocks came along paths, so did those at the beginnings. -/
theorem carries_of_direct_entryIn (hflow : p.FollowsFlow)
    (hσ : ∀ b x, Direct i ((σ.exit b).get x) → p.function.CopiedTo i b x)
    (hx : Direct i ((p.entryIn σ b).get x)) :
    ∃ ρ, p.function.Carries i b ρ ∧ ρ x = true := by
  rcases State.direct_foldl_join.mp hx with hbase | ⟨t, ht, hdirect⟩
  · split at hbase
    · next hentry =>
      refine ⟨_, by rw [hentry, hflow.graph]; exact .entry, ?_⟩
      rw [Function.entered, direct_seedState hbase]
      exact decide_eq_true rfl
    · rw [State.get_untainted] at hbase
      exact absurd hbase Value.not_direct_bottom
  · obtain ⟨c, hc, rfl⟩ := List.mem_map.mp ht
    obtain ⟨block, ρ, ρ', hcarries, hrun, hmark⟩ := hσ c x hdirect
    have hedge := Graph.mem_predecessors_iff.mp hc
    rw [hflow.graph] at hedge
    exact ⟨ρ', .edge hcarries hrun hedge, hmark⟩

/-- What is known is due to copying along paths, and memory is as it was in the beginning. -/
structure Explained (p : Problem) (a₀ : Arena) (i : SourceId) (k : Knowledge) : Prop where
  exit : ∀ b x, Direct i (((k.assignment p.varCount).exit b).get x) → p.function.CopiedTo i b x
  memory : k.memory.view.Within (p.seeds a₀)

theorem explained_start (p : Problem) (a₀ : Arena) (i : SourceId) :
    p.Explained a₀ i (p.start a₀) where
  exit := fun b x h => by
    have hnone : ((p.start a₀).assignment p.varCount).exit b = .untainted p.varCount := rfl
    rw [hnone, State.get_untainted] at h
    exact absurd h Value.not_direct_bottom
  memory := .refl _

theorem explained_visit (hp : p.OnlyCopies a₀) (hk : p.Sound a₀ k) (h : p.Explained a₀ i k)
    {k' : Knowledge} (hvisit : p.Visits k b k') : p.Explained a₀ i k' := by
  obtain ⟨hi, hrest, hb⟩ := hvisit
  rename_i n rest
  rw [visit]
  cases hblock : p.function.block? b with
  | none => exact ⟨h.exit, h.memory⟩
  | some block =>
      obtain ⟨ws, hsteps, hexit, -, hupper⟩ := execute_bounds (k := { k with worklist := rest })
        hp.posed.ready hk.fits hk.sized (hp.posed.kept b (List.mem_of_getElem? hb) block hblock) b
      have hcopies := hp.copies.isCopy hblock
      have hnone : (p.blockEffects (k.assignment p.varCount) b (Storage.ofProblem p a₀)
          block).writes = [] := writes_copies hp.resident hcopies
      -- the execution does no more than the equation says, and the equation says nothing of memory
      have hbelow := hupper (k.assignment p.varCount) (.refl _) (hnone ▸ .nil _)
      have hquiet : ws.Within [] := hnone ▸ hbelow.writes
      refine ⟨fun c x hx => ?_, hsteps.within_of h.memory (hquiet.trans (.nil _))⟩
      rw [assignment_absorb_exit hexit] at hx
      split at hx
      · next hcb =>
        subst hcb
        rw [State.get_join, Value.direct_join] at hx
        rcases hx with hold | hnew
        · exact h.exit c x hold
        · obtain ⟨y, hy, hmark⟩ := exists_source_of_direct hp.resident (addsNone_aroundIn _ c)
            hcopies (hnew.mono (State.le_iff.mp hbelow.exit x))
          obtain ⟨ρ, hcarries, hρ⟩ := carries_of_direct_entryIn hp.flow h.exit hy
          obtain ⟨ρ', hrun⟩ := exec_copies hcopies ρ
          exact ⟨block, ρ, ρ', hcarries, ⟨hblock, hrun⟩, hmark ρ ρ' hρ hrun⟩
      · exact h.exit c x hx

theorem explained_of_reached (hp : p.OnlyCopies a₀) (h : p.Reached a₀ k) :
    p.Explained a₀ i k := by
  induction h with
  | start => exact explained_start p a₀ i
  | visit hk hvisit ih => exact explained_visit hp (sound_of_reached hp.posed hk) ih hvisit

/-! ## Every path leaves its marks -/

theorem direct_of_carries (hσ : p.Covered S σ) (hcopies : p.function.CopiesOnly)
    (h : p.function.Carries i b ρ) :
    b ∈ p.order ∧ ∀ x, ρ x = true → Direct i ((p.entryIn σ b).get x) := by
  induction h with
  | entry =>
      refine ⟨?_, fun x hx => ?_⟩
      · rw [hσ.flow.order, hσ.flow.graph]
        exact Graph.entry_mem_reversePostorder _
      · rw [Function.entered] at hx
        split at hx
        · next n hn =>
          have hseed : p.seedState ≤ p.entryIn σ p.function.entry :=
            seedState_le_entryIn σ (by rw [hσ.flow.graph]; rfl)
          refine Direct.mono ?_ (State.le_iff.mp hseed x)
          rw [get_seedState hn]
          exact Value.direct_single.mpr (of_decide_eq_true hx).symm
        · exact absurd hx Bool.false_ne_true
  | @edge b c block ρ ρ' _ hrun hc ih =>
      obtain ⟨hb, hmarks⟩ := ih
      rw [← hσ.flow.graph] at hc
      refine ⟨hσ.flow.mem_order hb hc, fun x hx => ?_⟩
      exact (direct_outcomes_of_marked (hcopies.isCopy hrun.1)
        (hσ.declared_in_entry hrun.1) hmarks hrun.2 hx).mono
        (State.le_iff.mp (hσ.exit_le_entryIn hb hrun.1 hc) x)

theorem direct_of_copiedTo (hσ : p.Covered S σ) (hcopies : p.function.CopiesOnly)
    (h : p.function.CopiedTo i b x) : Direct i ((σ.exit b).get x) := by
  obtain ⟨block, ρ, ρ', hcarries, hrun, hx⟩ := h
  obtain ⟨hb, hmarks⟩ := direct_of_carries hσ hcopies hcarries
  exact (direct_outcomes_of_marked (hcopies.isCopy hrun.1)
    (hσ.declared_in_entry hrun.1) hmarks hrun.2 hx).mono
    (State.le_iff.mp (hσ.absorbed b hb block hrun.1).exit x)

/-! ## Storage -/

theorem mem_seedList {a : Arena} {e : Location × Value} (h : e ∈ p.seeds a) : e ∈ p.seedList := by
  obtain ⟨e, he, rfl⟩ := List.mem_map.mp h
  obtain ⟨l, hseeded, hfound⟩ := exists_mem_seedList he
  exact (Arena.find?_some hfound).2 ▸ hseeded

/-- What the storage of a variable begins with depends directly on the variable alone. -/
theorem direct_read_seeds {a : Arena}
    (h : Direct i (Cells.read (p.seeds a) [⟨.variable x, []⟩])) :
    p.function.paramIndex? x = some i := by
  obtain ⟨v, hv, hdirect⟩ := Value.direct_joins.mp h
  obtain ⟨e, he, rfl⟩ := List.mem_map.mp hv
  obtain ⟨he, hover⟩ := List.mem_filter.mp he
  obtain ⟨⟨y, n⟩, hparam, he⟩ := List.mem_flatMap.mp (mem_seedList he)
  rcases List.mem_cons.mp he with rfl | he
  · simp [Location.overlaps, Location.isUnknown] at hover
  · obtain rfl := List.mem_singleton.mp he
    have hxy : y = x := by simpa [Location.overlaps, Location.isUnknown] using hover
    rw [← hxy, Value.direct_single.mp hdirect]
    exact Function.paramIndex?_of_mem hparam

end Problem

namespace Function

variable {f : Function} {v : VarId}

theorem isArray_of_mem_referred : ∀ e : Expr, e.addressed = [] → v ∈ f.referred e →
    (f.ty? v).any Ty.isArray = true
  | .var w, _, hv => by
      rw [referred, arrays] at hv
      split at hv
      · next harray => exact List.mem_singleton.mp hv ▸ harray
      · exact absurd hv List.not_mem_nil
  | .const _, _, hv => absurd hv List.not_mem_nil
  | .unary _ _, _, hv => absurd hv List.not_mem_nil
  | .binary op l r, he, hv => by
      obtain ⟨hl, hr⟩ := List.append_eq_nil_iff.mp he
      rw [referred] at hv
      split at hv
      · rcases List.mem_append.mp hv with hv | hv
        · exact isArray_of_mem_referred l hl hv
        · exact isArray_of_mem_referred r hr hv
      · exact absurd hv List.not_mem_nil
  | .addrOf _, he, _ => nomatch he

theorem taken_eq_nil : ∀ e : Expr, e.addressed = [] → f.taken e = []
  | .var _, _ => rfl
  | .const _, _ => rfl
  | .unary _ e, he => taken_eq_nil e he
  | .binary _ l r, he =>
      List.append_eq_nil_iff.mpr ((List.append_eq_nil_iff.mp he).imp
        (taken_eq_nil l) (taken_eq_nil r))
  | .addrOf _, he => nomatch he

/-- Only the storage of arrays has a name where nothing but values is copied. -/
theorem CopiesOnly.isArray_of_named (hf : f.CopiesOnly) (hv : v ∈ f.namedStorage) :
    (f.ty? v).any Ty.isArray = true := by
  rcases List.mem_append.mp hv with hv | hv
  · obtain ⟨block, hblock, hv⟩ := List.mem_flatMap.mp hv
    have hfree := List.append_eq_nil_iff.mp (hf.free.block hblock)
    rcases List.mem_append.mp hv with hv | hv
    · obtain ⟨instr, hinstr, hv⟩ := List.mem_flatMap.mp hv
      have hcopy := hf.copies instr (List.mem_flatMap.mpr ⟨block, hblock, hinstr⟩)
      have hoperand := List.flatMap_eq_nil_iff.mp hfree.1 instr hinstr
      rcases List.mem_append.mp hv with hv | hv
      · obtain ⟨place, hplace, -⟩ := List.mem_flatMap.mp hv
        cases instr with
        | assign dst e | cast dst e ty | call dst callee args | opaqueCode vars reason =>
            exact absurd hplace List.not_mem_nil
        | load dst place | store place src => exact absurd hcopy Bool.false_ne_true
      · obtain ⟨e, he, hv⟩ := List.mem_flatMap.mp hv
        rw [taken_eq_nil e (Instruction.addressed_of_operand hoperand he)] at hv
        exact absurd hv List.not_mem_nil
    · obtain ⟨e, he, hv⟩ := List.mem_flatMap.mp hv
      have hlast := hfree.2
      rw [Terminator.addressed, Option.mem_toList.mp he] at hlast
      rw [taken_eq_nil e hlast] at hv
      exact absurd hv List.not_mem_nil
  · obtain ⟨instr, hinstr, hv⟩ := List.mem_flatMap.mp hv
    obtain ⟨block, hblock, hmem⟩ := List.mem_flatMap.mp hinstr
    have hfree := List.append_eq_nil_iff.mp (hf.free.block hblock)
    have hoperand := List.flatMap_eq_nil_iff.mp hfree.1 instr hmem
    have hcopy := hf.copies instr hinstr
    cases instr with
    | assign dst e | cast dst e ty =>
        rw [pointed] at hv
        split at hv
        · exact isArray_of_mem_referred e
            (Instruction.addressed_of_operand hoperand List.mem_cons_self) hv
        · exact absurd hv List.not_mem_nil
    | load dst place | store place src | call dst callee args | opaqueCode vars reason =>
        exact absurd hcopy Bool.false_ne_true

end Function

theorem Problem.onlyCopies_ofFunction {f : Function} (hf : f.CopiesOnly) (config : Config)
    (table : SummaryTable) (peers : List String) :
    (ofFunction f config table peers).1.OnlyCopies (ofFunction f config table peers).2 where
  flow := followsFlow_ofFunction f config table peers
  posed := wellPosed_of_addressFree hf.free
  copies := hf
  resident := fun y => by
    refine Bool.eq_false_iff.mpr fun hlives => ?_
    obtain ⟨hnamed, hscalar⟩ := (Bool.and_eq_true _ _).mp hlives
    have harray := hf.isArray_of_named
      ((PointsTo.analyze_has_iff f config y).mp (Arena.isMemoryResident_iff.mp hnamed))
    rw [show (Problem.ofFunction f config table peers).1.pointsTo.function = f from
      Problem.function_pointsTo f config] at hscalar
    -- an array is an aggregate
    obtain ⟨ty, hty, harr⟩ := (Option.any_eq_true _ _).mp harray
    obtain ⟨ty', hty', hno⟩ := (Option.any_eq_true _ _).mp hscalar
    obtain rfl := Option.some.inj (hty.symm.trans hty')
    cases ty with
    | array elem size => simp [Ty.isAggregate] at hno
    | _ => exact absurd harr Bool.false_ne_true

namespace Run

variable {f : Function} {config : Config} {table : SummaryTable} {peers : List String}
  {result : FunctionResult} {r : Run} {i : SourceId} {x : VarId}

theorem direct_taintOf : Direct i (r.taintOf x) ↔
    (Direct i (r.problem.seedState.get x) ∨ ∃ s ∈ r.final.exits.values, Direct i (s.get x)) ∨
      r.final.memory.arena.Has ⟨.variable x, []⟩ ∧
        Direct i (Cells.read r.final.memory.view [⟨.variable x, []⟩]) := by
  have hscalar : Direct i (Value.joins
      (r.problem.seedState.get x :: r.final.exits.values.map (·.get x))) ↔
      Direct i (r.problem.seedState.get x) ∨
        ∃ s ∈ r.final.exits.values, Direct i (s.get x) := by
    simp [Value.direct_joins]
  rw [taintOf]
  split
  · next id hid =>
    rw [Value.direct_join, hscalar, Memory.read_eq (.singleton (Arena.find?_some hid)),
      and_iff_right (Arena.has_iff_find?.mpr (by rw [hid]; rfl))]
  · next hnone =>
    have hno : ¬ r.final.memory.arena.Has ⟨.variable x, []⟩ := fun hnamed => by
      simpa [hnone] using Arena.has_iff_find?.mp hnamed
    exact hscalar.trans (or_iff_left fun hstored => hno hstored.1).symm

/-- Where a function only assigns and casts and takes no address, a variable depends directly on a
source at the end of a block exactly if copying along some path of edges leaves it marked there.
What is reported of the variable depends directly on the source exactly if this holds for some
block, or the variable is the source itself. -/
theorem direct_iff_copied (hf : f.Validated) (hcopies : f.CopiesOnly)
    (hok : (ofFunction f config table peers).result = .ok result) (i : SourceId) (x : VarId) :
    (∀ b block, f.block? b = some block →
        ∃ s, (ofFunction f config table peers).final.exits.get? b = some s ∧
          (Direct i (s.get x) ↔ f.CopiedTo i b x)) ∧
      (x < f.vars.length → ∃ value, result.vars[x]? = some value ∧
        (Direct i value ↔ f.paramIndex? x = some i ∨ ∃ b, f.CopiedTo i b x)) := by
  have hp := Problem.onlyCopies_ofFunction hcopies config table peers
  have hexplained := Problem.explained_of_reached (i := i) hp reached_ofFunction
  have hcovered := covered_of_ok hf hcopies.free hok
  have hdone := exhausted_of_ok hok
  constructor
  · intro b block hblock
    obtain ⟨s, hs⟩ := (Problem.sound_of_reached hp.posed reached_ofFunction).visited b
      (hf.mem_reversePostorder hblock) block hblock fun j hj =>
        absurd (IdSet.mem_def.mp hj) (List.isEmpty_iff.mp hdone ▸ List.not_mem_nil)
    have hexit : ((ofFunction f config table peers).final.assignment f.vars.length).exit b = s := by
      show ((ofFunction f config table peers).final.exits.get? b).getD _ = s
      rw [hs, Option.getD_some]
    refine ⟨s, hs, fun h => hexplained.exit b x ?_, fun h => ?_⟩
    · exact hexit.symm ▸ h
    · exact hexit ▸ Problem.direct_of_copiedTo hcovered hcopies h
  · intro hx
    refine ⟨_, vars_of_ok hok hx, ?_⟩
    constructor
    · intro h
      rcases direct_taintOf.mp h with (hseed | ⟨s, hs, hdirect⟩) | ⟨-, hstored⟩
      · exact .inl (Problem.direct_seedState hseed)
      · obtain ⟨b, hb⟩ := OrderedMap.mem_values_iff.mp hs
        refine .inr ⟨b, hexplained.exit b x ?_⟩
        show Direct i (((ofFunction f config table peers).final.exits.get? b).getD _ |>.get x)
        rw [hb, Option.getD_some]
        exact hdirect
      · exact .inl (Problem.direct_read_seeds
          (hstored.mono (hexplained.memory.gather_mono _)))
    · rintro (hparam | ⟨b, hcopied⟩)
      · refine Direct.mono ?_ (seed_le_taintOf _ x)
        exact Problem.get_seedState (p := (ofFunction f config table peers).problem) hparam ▸
          Value.direct_single.mpr rfl
      · exact (Problem.direct_of_copiedTo hcovered hcopies hcopied).mono (exit_le_taintOf _ b x)

end Run

/-! ## A mark that a branch does not make -/

/-- A function that copies its second parameter around in a loop whose test is the first one, and
overwrites the copy before it returns. -/
def shuffling : Function where
  name := "shuffling"
  returns := .int 32
  vars :=
    [⟨"n", .int 32, .param⟩, ⟨"k", .int 64, .param⟩, ⟨"x", .int 32, .local⟩,
      ⟨"y", .int 32, .local⟩]
  blocks := .ofList
    [(0, ⟨[.assign 2 (.const 0), .cast 3 (.var 1) (.int 32)], .jump 1⟩),
      (1, ⟨[], .branch (.var 0) 2 3⟩),
      (2, ⟨[.assign 2 (.binary .add (.var 2) (.var 3)), .assign 0 (.binary .sub (.var 0) (.const 1))],
        .jump 1⟩),
      (3, ⟨[.assign 3 (.const 7)], .ret (some (.var 2))⟩)]
  entry := 0
  nextBlock := 4

/-- The sum that is returned depends on the second parameter directly, and not on the first one,
which decides about the rounds. -/
theorem direct_iff_copied_shuffling : shuffling.CopiedTo 1 3 2 ∧ ¬ shuffling.CopiedTo 0 3 2 := by
  have hvalid : shuffling.Validated :=
    ⟨⟨[shuffling], by decide⟩, ⟨[shuffling], by decide⟩, .standard, by cbv, List.mem_cons_self⟩
  have hok := Run.result_of_exhausted (r := Run.ofFunction shuffling .standard .empty []) (by cbv)
  have hexit (i : SourceId) := (Run.direct_iff_copied hvalid ⟨by decide, by decide⟩ hok i 2).1 3 _
    rfl
  -- what the states of the run say of the two parameters
  have hstates : (((Run.ofFunction shuffling .standard .empty []).final.exits.get? 3).map fun s =>
      (((s.get 2).kindOf 0), ((s.get 2).kindOf 1))) =
        some (⟨false, true, true⟩, ⟨true, false, false⟩) := by cbv
  obtain ⟨s, hs, hsecond⟩ := hexit 1
  obtain ⟨t, ht, hfirst⟩ := hexit 0
  obtain rfl := Option.some.inj (hs.symm.trans ht)
  rw [hs, Option.map_some, Option.some.injEq, Prod.mk.injEq] at hstates
  rw [← hsecond, ← hfirst, Value.Direct, Value.Direct, hstates.1, hstates.2]
  decide

end TaintAnalysis
