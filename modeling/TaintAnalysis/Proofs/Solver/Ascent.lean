import TaintAnalysis.Proofs.Solver.Repetition
import TaintAnalysis.Proofs.Solver.Surroundings

/-!
# What the visits of a block compute only grows

What is known after a visit is joined from what was known before and what the visit has computed,
so it would grow even if later visits computed less. They do not: what a visit of a block computes
from scratch is at least what any earlier visit of the block computed. The joins therefore
hide nothing, and what is known of a block after a visit is just what the visit computed.

Between two visits of a block the knowledge only grows, and so does memory (`Sequel`); the rest
is what `execute_mono` says of two executions. That the joins hide nothing is an invariant of the
run: what is known of a block is part of whatever an execution of the block would compute from
then on (`Outdone`).
-/

namespace TaintAnalysis

namespace Problem

section

variable (p : Problem) (D : Nat)

/-- The second knowledge can be read, and has everything that the first one has. -/
structure Sequel (k k' : Knowledge) : Prop where
  readable : Readable p D k'.memory
  sized : k'.Sized p.varCount
  memory : k.memory.Precedes k'.memory
  exit : ∀ b, (k.assignment p.varCount).exit b ≤ (k'.assignment p.varCount).exit b
  branch : ∀ b, k.branch b ≤ k'.branch b
  control : ∀ b, k.control b ≤ k'.control b

/-- What is known of a block is part of what any later execution of it computes. -/
def Outdone (k : Knowledge) : Prop :=
  ∀ k', p.Sequel D k k' → ∀ b block, p.function.block? b = some block →
    (k.assignment p.varCount).exit b ≤ (p.execute k' b block).exit ∧
      k.branch b ≤ (p.execute k' b block).branch ∧
      k.control b ≤ (p.execute k' b block).control

/-- After a visit, what is known of the visited block is what executing it has computed. -/
structure Replaces (k : Knowledge) (b : BlockId) (block : Block) (k' : Knowledge) : Prop where
  exit : k'.exits.get? b = some (p.execute k b block).exit
  branch : k'.branch b = (p.execute k b block).branch
  control : k'.control b = (p.execute k b block).control

end

variable {p : Problem} {D : Nat} {k k' k'' : Knowledge} {b : BlockId} {block : Block}

namespace Sequel

theorem refl (hm : Readable p D k.memory) (hk : k.Sized p.varCount) : p.Sequel D k k :=
  ⟨hm, hk, .refl _, fun _ => State.le_refl _, fun _ => Value.le_refl _, fun _ => Value.le_refl _⟩

theorem trans (h : p.Sequel D k k') (h' : p.Sequel D k' k'') : p.Sequel D k k'' where
  readable := h'.readable
  sized := h'.sized
  memory := h.memory.trans h'.memory
  exit := fun b => State.le_trans (h.exit b) (h'.exit b)
  branch := fun b => Value.le_trans (h.branch b) (h'.branch b)
  control := fun b => Value.le_trans (h.control b) (h'.control b)

end Sequel

/-! ## One visit -/

theorem execute_sustains (hm : Readable p D k.memory) (b : BlockId) (block : Block) :
    Readable p D (p.execute k b block).memory ∧
      k.memory.Precedes (p.execute k b block).memory := by
  have hlater := execute_later hm b block
  refine ⟨hlater.readable, hlater.extend, fun id => ?_⟩
  rw [execute_gains hm b block id]
  exact Value.le_join_left _ _

theorem sequel_visit (hm : Readable p D k.memory) (hk : k.Sized p.varCount)
    (hvisit : p.Visits k b k') : p.Sequel D k k' := by
  obtain @⟨i, _, rest, -, -, -⟩ := hvisit
  rw [visit]
  cases p.function.block? b with
  | none =>
      exact ⟨hm, hk, .refl _, fun _ => State.le_refl _, fun _ => Value.le_refl _,
        fun _ => Value.le_refl _⟩
  | some block =>
      have hlen := (execute_imbues (k := { k with worklist := rest }) hk b block).1
      obtain ⟨hreadable, hprec⟩ := execute_sustains (k := { k with worklist := rest }) hm b block
      exact ⟨hreadable, sized_absorb (k := { k with worklist := rest }) hk hlen, hprec,
        exit_le_absorb (k := { k with worklist := rest }) hlen,
        branch_le_absorb (p := p), control_le_absorb (p := p)⟩

/-- A block is executed on the sequel of what an execution of it has left. -/
theorem ascends_of_sequel (hm : Readable p D k.memory) (hk : k.Sized p.varCount)
    (h : p.Sequel D k k') (hafter : (p.execute k b block).memory.Precedes k'.memory) :
    p.Ascends b block k k' := by
  have hsize {k : Knowledge} (hk : k.Sized p.varCount) :
      (k.assignment p.varCount).Sized p.varCount := fun b => Nat.le_of_eq (hk.assignment b)
  have haround : (p.aroundIn (k.assignment p.varCount) b).Below
      (p.aroundIn (k'.assignment p.varCount) b) := aroundIn_le h.branch h.control b
  refine execute_mono hm h.readable hafter ?_ ?_ haround
  · rw [entryState_eq hk, entryState_eq h.sized]
    exact entryIn_le h.exit b
  · rw [entryState_eq hk, entryState_eq h.sized, length_entryIn (hsize hk),
      length_entryIn (hsize h.sized)]

theorem memory_visits (hblock : p.function.block? b = some block) (hvisit : p.Visits k b k') :
    k'.memory = (p.execute k b block).memory := by
  obtain @⟨i, _, rest, -, -, -⟩ := hvisit
  rw [visit_worklist, memory_visit hblock]

theorem outdone_start (p : Problem) (a : Arena) : p.Outdone D (p.start a) :=
  fun _ _ _ _ _ => ⟨State.untainted_le _ _, Value.bottom_le _, Value.bottom_le _⟩

/-- What a visit computes takes the place of what was known of the block. -/
theorem replaces_visit (hm : Readable p D k.memory) (hk : k.Sized p.varCount)
    (h : p.Outdone D k) (hvisit : p.Visits k b k') (hblock : p.function.block? b = some block) :
    p.Replaces k b block k' := by
  obtain ⟨hexit, hbranch, hcontrol⟩ := h k (.refl hm hk) b block hblock
  have hlen := (execute_imbues hk b block).1
  have hreplaced {u v : Value} (huv : u ≤ v) : u.join v = v :=
    Value.le_antisymm (Value.join_le huv (Value.le_refl v)) (Value.le_join_right u v)
  obtain @⟨i, _, rest, -, -, -⟩ := hvisit
  rw [visit, hblock]
  refine ⟨?_, ?_, ?_⟩
  · show (Knowledge.joinExit k.exits b (p.execute k b block).exit).get? b = _
    rw [Knowledge.joinExit, OrderedMap.get?_insert, if_pos rfl, hlen]
    refine congrArg some (State.le_antisymm ?_ (State.join_le hexit (State.le_refl _))
      (State.le_join_right _ _))
    rw [State.length_join, hlen]
    exact Nat.max_eq_right (Nat.le_of_eq (hk.assignment b))
  · show ((k.branchTaint.joinAt b (p.execute k b block).branch).get? b).getD Value.bottom = _
    rw [OrderedMap.getD_joinAt, if_pos rfl]
    exact hreplaced hbranch
  · show ((k.controlTaint.joinAt b (p.execute k b block).control).get? b).getD Value.bottom = _
    rw [OrderedMap.getD_joinAt, if_pos rfl]
    exact hreplaced hcontrol

theorem outdone_visit (hm : Readable p D k.memory) (hk : k.Sized p.varCount)
    (h : p.Outdone D k) (hvisit : p.Visits k b k') : p.Outdone D k' := by
  have hsequel := sequel_visit hm hk hvisit
  intro k'' hk'' x block' hblock'
  obtain ⟨hexit, hbranch, hcontrol⟩ := h k'' (hsequel.trans hk'') x block' hblock'
  by_cases hx : x = b
  · -- the visited block: what it has computed is what is known of it now
    subst hx
    obtain ⟨hexit', hbranch', hcontrol'⟩ := replaces_visit hm hk h hvisit hblock'
    have hascends := ascends_of_sequel hm hk (hsequel.trans hk'')
      (memory_visits hblock' hvisit ▸ hk''.memory)
    refine ⟨?_, ?_, ?_⟩
    · show (k'.exits.get? x).getD (.untainted p.varCount) ≤ _
      rw [hexit', Option.getD_some]
      exact hascends.exit
    · rw [hbranch']
      exact hascends.branch
    · rw [hcontrol']
      exact hascends.control
  · obtain @⟨i, _, rest, -, -, -⟩ := hvisit
    rw [visit]
    cases p.function.block? b with
    | none => exact ⟨hexit, hbranch, hcontrol⟩
    | some block =>
        have hlen := (execute_imbues (k := { k with worklist := rest }) hk b block).1
        refine ⟨?_, ?_, ?_⟩
        · rw [assignment_absorb_exit hlen, if_neg hx]
          exact hexit
        · show Assignment.branch (Knowledge.assignment (absorb _ _ _ _) p.varCount) x ≤ _
          rw [assignment_absorb_branch, if_neg hx]
          exact hbranch
        · show Assignment.control (Knowledge.assignment (absorb _ _ _ _) p.varCount) x ≤ _
          rw [assignment_absorb_control, if_neg hx]
          exact hcontrol

/-! ## All visits of a run -/

/-- The visits of a run come one after the other: each begins with a sequel of what the earlier ones
have left, and leaves what it has computed. -/
theorem changes_ascend (budget : Nat) (hm : Readable p D k.memory) (hk : k.Sized p.varCount)
    (h : p.Outdone D k) :
    (∀ e ∈ p.changes budget k, p.Sequel D k e.1 ∧
      ∀ block, p.function.block? e.2.1 = some block → p.Replaces e.1 e.2.1 block e.2.2) ∧
    (p.changes budget k).Pairwise fun x y => x.2.1 = y.2.1 →
      ∀ block, p.function.block? x.2.1 = some block →
        (p.execute x.1 x.2.1 block).memory.arena.Extends y.1.memory.arena ∧
          p.Ascends x.2.1 block x.1 y.1 := by
  induction budget generalizing k with
  | zero => exact ⟨fun e he => absurd he List.not_mem_nil, .nil⟩
  | succ budget ih =>
      cases hnext : p.next? k with
      | none =>
          rw [changes, visits_of_none hnext]
          exact ⟨fun e he => absurd he List.not_mem_nil, .nil⟩
      | some y =>
          obtain ⟨b, k'⟩ := y
          have hvisit := visits_of_next? hnext
          have hsequel := sequel_visit hm hk hvisit
          obtain ⟨hrest, hpairs⟩ := ih hsequel.readable hsequel.sized (outdone_visit hm hk h hvisit)
          rw [changes_of_some hnext]
          refine ⟨fun e he => ?_, .cons (fun e he _ block hblock => ?_) hpairs⟩
          · rcases List.mem_cons.mp he with rfl | he
            · exact ⟨.refl hm hk, fun block hblock => replaces_visit hm hk h hvisit hblock⟩
            · exact ⟨hsequel.trans (hrest e he).1, (hrest e he).2⟩
          · have hmemory := memory_visits hblock hvisit
            have hafter := (hrest e he).1.memory
            rw [hmemory] at hafter
            exact ⟨hafter.extend, ascends_of_sequel hm hk (hsequel.trans (hrest e he).1) hafter⟩

end Problem

namespace Run

/-- The visits of a run, with what was known before and after each. -/
def changes (r : Run) : List (Knowledge × BlockId × Knowledge) :=
  (r.start :: r.visits.map Prod.snd).zip r.visits

/-- What the visits of a block compute from scratch only grows in the course of a run: the state at
its end, the taint of its surroundings, of its branch and of what it returns, and what it writes to
each cell. So the tier of a variable goes down at no point of the block, and what is known of
the block after a visit is what the visit computed. -/
theorem visits_ascend (f : Function) (config : Config) (table : SummaryTable)
    (peers : List String) :
    let r := ofFunction f config table peers
    (r.changes.Pairwise fun x y => x.2.1 = y.2.1 → ∀ block, f.block? x.2.1 = some block →
      (r.problem.execute x.1 x.2.1 block).memory.arena.Extends y.1.memory.arena ∧
        r.problem.Ascends x.2.1 block x.1 y.1 ∧
        ∀ before after, block.instructions = before ++ after → ∀ v,
          ((r.problem.stateAfter x.1 x.2.1 before).get v).tier.rank ≤
              ((r.problem.stateAfter y.1 x.2.1 before).get v).tier.rank ∧
            (r.problem.taintAfter x.1 x.2.1 before v).tier.rank ≤
              (r.problem.taintAfter y.1 x.2.1 before v).tier.rank) ∧
    ∀ e ∈ r.changes, ∀ block, f.block? e.2.1 = some block →
      r.problem.Replaces e.1 e.2.1 block e.2.2 := by
  intro r
  obtain ⟨heach, hpairs⟩ := Problem.changes_ascend config.maxBlockVisits
    (readable_start f config table peers) (k := r.start)
    (fun _ _ h => absurd h.symm (Option.some_ne_none _)) (Problem.outdone_start r.problem _)
  refine ⟨hpairs.imp fun hxy heq block hblock => ?_, fun e he => (heach e he).2⟩
  obtain ⟨hextend, hascends⟩ := hxy heq block hblock
  exact ⟨hextend, hascends, fun before after hsplit v =>
    ⟨Value.rank_tier_mono (State.le_iff.mp (hascends.state before after hsplit) v),
      Value.rank_tier_mono (hascends.taint before after hsplit v)⟩⟩

end Run

/-! ## A loop through memory -/

/-- A loop that adds to what a pointer refers to, until it is no longer zero. -/
def accumulating : Function where
  name := "accumulating"
  returns := .int 32
  vars :=
    [⟨"step", .int 32, .param⟩, ⟨"sum", .pointer (.int 32), .param⟩, ⟨"x", .int 32, .local⟩]
  blocks := .ofList
    [(0, ⟨[], .jump 1⟩),
      (1, ⟨[.load 2 (.deref (.var 1))], .branch (.var 2) 3 2⟩),
      (2, ⟨[.store (.deref (.var 1)) (.binary .add (.var 2) (.var 0))], .jump 1⟩),
      (3, ⟨[], .ret (some (.var 2))⟩)]
  entry := 0
  nextBlock := 4

/-- What is loaded before the test depends on the pointer at first, and then on the loop. -/
example :
    let r := Run.ofFunction accumulating .standard .empty []
    ((r.changes.filter fun e => e.2.1 = 1).map fun e =>
      (r.problem.taintAfter e.1 1 [.load 2 (.deref (.var 1))] 2).tier).take 2 =
        [.indirect, .full] := by
  decide_cbv

end TaintAnalysis
