import TaintAnalysis.Proofs.Flow.ExplicitStack

/-!
# Searches that keep a queue

Not every search goes into depth. The blocks that a function reaches from its entry and the blocks
that come to a return are collected with a queue: the node at the front is taken out, and if it is
new, what comes next is put at the end. A `Sweep` does that from any number of starts. Whether one
block comes to another is asked in the same way, but the search stops as soon as it is next to its
target, and it does not begin if it is already there (`Chase`).

What a search meets depends only on where it starts and which nodes come next, and that is what all
searches of a graph have in common, whichever way they are written. A block that is named as a
successor and does not exist has no successors; it is met like any other one, but nothing leads from
it to a return.
-/

namespace TaintAnalysis

variable {α : Type} [DecidableEq α] {nodes : List α} {next : α → List α}

/-- The state of a search that marks nodes when it takes them from its queue. -/
structure Sweep (α : Type) where
  /-- The nodes to look at, the next one first. -/
  queue : List α
  /-- The nodes looked at so far. -/
  visited : List α

namespace Sweep

variable {starts : List α} {w w' : Sweep α}

def begin (starts : List α) : Sweep α :=
  ⟨starts, []⟩

/-- Takes the next node from the queue. If it is new, the nodes that come next join at the end. -/
def step (next : α → List α) (w : Sweep α) : Option (Sweep α) :=
  match w.queue with
  | [] => none
  | x :: rest =>
      if x ∈ w.visited then some { w with queue := rest }
      else some ⟨rest ++ next x, x :: w.visited⟩

/-- A step of a sweep keeps what holds throughout a search. -/
theorem step_covers (h : Covers next starts w.visited w.queue) (hstep : w.step next = some w') :
    Covers next starts w'.visited w'.queue := by
  obtain ⟨queue, visited⟩ := w
  cases queue with
  | nil => exact nomatch hstep
  | cons x rest =>
      rw [step] at hstep
      dsimp only at hstep
      split at hstep
      · next hvisited =>
        obtain rfl := Option.some.inj hstep
        exact h.skip hvisited
      · obtain rfl := Option.some.inj hstep
        exact h.visit fun y => List.mem_append

/-- A step visits a node that was not visited before, or the queue becomes shorter. -/
theorem step_descends (hqueue : w.queue ⊆ nodes) (hstep : w.step next = some w') :
    Prod.Lex (· < ·) (· < ·) (unmarked nodes w'.visited, w'.queue.length)
      (unmarked nodes w.visited, w.queue.length) := by
  obtain ⟨queue, visited⟩ := w
  cases queue with
  | nil => exact nomatch hstep
  | cons x rest =>
      rw [step] at hstep
      dsimp only at hstep
      split at hstep
      · obtain rfl := Option.some.inj hstep
        exact .right _ (Nat.lt_succ_self rest.length)
      · next hvisited =>
        obtain rfl := Option.some.inj hstep
        exact .left _ _ (unmarked_cons_lt (hqueue List.mem_cons_self) hvisited)

theorem step_eq_none_iff : w.step next = none ↔ w.queue = [] := by
  obtain ⟨queue, visited⟩ := w
  cases queue with
  | nil => exact iff_of_true rfl rfl
  | cons x rest =>
      refine iff_of_false ?_ (List.cons_ne_nil x rest)
      rw [step]
      dsimp only
      split <;> exact Option.some_ne_none _

/-- A sweep among finitely many nodes ends, and by then it has visited what is reached from where it
started. -/
theorem exists_end (hnodes : ∀ x ∈ nodes, ∀ y ∈ next x, y ∈ nodes)
    (hstarts : ∀ x ∈ starts, x ∈ nodes) :
    ∃ w, EndsIn (step next) (begin starts) w ∧ ∀ x, x ∈ w.visited ↔
      ∃ a ∈ starts, Relation.ReflTransGen (fun x y => y ∈ next x) a x := by
  obtain ⟨w, hend, hw⟩ := exists_endsIn (s := begin starts)
    (fun w => Covers next starts w.visited w.queue)
    (fun w => (unmarked nodes w.visited, w.queue.length))
    (fun w w' hw hstep =>
      ⟨step_covers hw hstep, step_descends (hw.pending_subset hnodes hstarts) hstep⟩)
    (Covers.begin next starts)
  rw [step_eq_none_iff.mp hend.2] at hw
  exact ⟨w, hend, fun x => hw.mem_visited_iff⟩

end Sweep

/-! ## Stopping at a target -/

/-- The state of a search for one node. -/
structure Chase (α : Type) where
  sweep : Sweep α
  /-- Whether the target has been met. -/
  arrived : Bool

namespace Chase

variable {start target : α} {p p' : Chase α}

def begin (start target : α) : Chase α :=
  ⟨.begin [start], decide (start = target)⟩

/-- Deals with the next node of the queue. The search has arrived if the node is new and the target
comes next. -/
def step (next : α → List α) (target : α) (p : Chase α) : Option (Chase α) :=
  if p.arrived then none
  else
    match p.sweep.queue with
    | [] => none
    | x :: _ => (p.sweep.step next).map fun w => ⟨w, decide (x ∉ p.sweep.visited ∧ target ∈ next x)⟩

/-- What holds throughout: the search is a sweep, it has arrived only if the target is reached, and
as long as it has not, the target does not come next to a node that was visited. -/
structure Sound (next : α → List α) (start target : α) (p : Chase α) : Prop where
  sweep : Covers next [start] p.sweep.visited p.sweep.queue
  arrived : p.arrived = true → Relation.ReflTransGen (fun x y => y ∈ next x) start target
  missed : p.arrived = false → start ≠ target ∧ ∀ x ∈ p.sweep.visited, target ∉ next x

theorem sound_begin (next : α → List α) (start target : α) :
    Sound next start target (begin start target) where
  sweep := .begin next [start]
  arrived := fun h => of_decide_eq_true h ▸ .refl
  missed := fun h => ⟨of_decide_eq_false h, nofun⟩

/-- A step is one of the sweep, and it arrives if it visits a node that the target comes next to. -/
theorem step_eq_some (hstep : p.step next target = some p') :
    p.arrived = false ∧ p.sweep.step next = some p'.sweep ∧
      (p'.arrived = true ↔ ∃ x ∈ p'.sweep.visited, x ∉ p.sweep.visited ∧ target ∈ next x) := by
  obtain ⟨⟨queue, visited⟩, arrived⟩ := p
  rw [step] at hstep
  dsimp only at hstep
  split at hstep
  · exact nomatch hstep
  · next hno =>
    refine ⟨Bool.eq_false_iff.mpr hno, ?_⟩
    cases queue with
    | nil => exact nomatch hstep
    | cons x rest =>
        obtain ⟨w, hw, rfl⟩ := Option.map_eq_some_iff.mp hstep
        refine ⟨hw, decide_eq_true_iff.trans ?_⟩
        rw [Sweep.step] at hw
        dsimp only at hw
        split at hw
        · next hvisited =>
          obtain rfl := Option.some.inj hw
          exact iff_of_false (fun h => h.1 hvisited) fun ⟨y, hy, hnew, _⟩ => hnew hy
        · next hnew =>
          obtain rfl := Option.some.inj hw
          refine ⟨fun h => ⟨x, List.mem_cons_self, h⟩, fun ⟨y, hy, hno, htarget⟩ => ?_⟩
          rcases List.mem_cons.mp hy with rfl | hy
          · exact ⟨hno, htarget⟩
          · exact absurd hy hno

theorem Sound.step (h : Sound next start target p) (hstep : p.step next target = some p') :
    Sound next start target p' := by
  obtain ⟨hno, hsweep, harrived⟩ := step_eq_some hstep
  have hsound := Sweep.step_covers h.sweep hsweep
  refine ⟨hsound, fun hyes => ?_, fun hno' => ⟨(h.missed hno).1, fun x hx hnext => ?_⟩⟩
  · obtain ⟨x, hx, -, hnext⟩ := harrived.mp hyes
    obtain ⟨a, ha, hpath⟩ := hsound.reached x (.inl hx)
    exact (List.mem_singleton.mp ha ▸ hpath).tail hnext
  · by_cases hold : x ∈ p.sweep.visited
    · exact (h.missed hno).2 x hold hnext
    · exact Bool.false_ne_true (hno'.symm.trans (harrived.mpr ⟨x, hx, hold, hnext⟩))

theorem queue_eq_nil_of_stuck (hstuck : p.step next target = none) (hno : p.arrived = false) :
    p.sweep.queue = [] := by
  obtain ⟨⟨queue, visited⟩, arrived⟩ := p
  cases queue with
  | nil => rfl
  | cons x rest =>
      rw [step, hno] at hstuck
      have hsweep := Option.map_eq_none_iff.mp hstuck
      exact Sweep.step_eq_none_iff.mp hsweep

/-- The search for a target ends, and by then it has arrived if and only if the target is
reached. -/
theorem exists_end (hnodes : ∀ x ∈ nodes, ∀ y ∈ next x, y ∈ nodes) (hstart : start ∈ nodes)
    (target : α) :
    ∃ p, EndsIn (step next target) (begin start target) p ∧
      (p.arrived = true ↔ Relation.ReflTransGen (fun x y => y ∈ next x) start target) := by
  obtain ⟨p, hend, hp⟩ := exists_endsIn (Sound next start target)
    (fun p => (unmarked nodes p.sweep.visited, p.sweep.queue.length))
    (fun p p' hp hstep => ⟨hp.step hstep, Sweep.step_descends
      (hp.sweep.pending_subset hnodes (List.forall_mem_singleton.mpr hstart))
      (step_eq_some hstep).2.1⟩)
    (sound_begin next start target)
  refine ⟨p, hend, hp.arrived, fun hpath => ?_⟩
  by_contra hyes
  have hno := Bool.eq_false_iff.mpr hyes
  obtain ⟨hne, hmissed⟩ := hp.missed hno
  have hsweep := hp.sweep
  rw [queue_eq_nil_of_stuck hend.2 hno] at hsweep
  -- the last node before the target has been visited, and the target comes next to it
  rcases hpath.cases_tail with heq | ⟨x, hx, hnext⟩
  · exact hne heq.symm
  · have hvisited := hsweep.mem_visited_iff.mpr ⟨start, List.mem_singleton_self _, hx⟩
    exact hmissed x hvisited hnext

end Chase

/-! ## The searches of a graph -/

namespace Graph

variable {g : Graph} {a b : BlockId}

theorem mem_nodes_of_successor (h : b ∈ g.successors a) : a ∈ g.nodes :=
  mem_nodes_of_block (mem_blocks_of_successor h)

/-- A path leads from one block to another if and only if the search for one finds it, also from
blocks that the graph does not have. -/
theorem hasPath_iff (g : Graph) (a b : BlockId) : g.hasPath a b = true ↔ g.Reaches a b := by
  rw [hasPath, decide_eq_true_iff, reachableFrom]
  by_cases ha : a ∈ g.nodes
  · refine (Search.mem_run_iff successors_subset_nodes (Nat.le_of_eq g.length_nodes)
      (List.forall_mem_singleton.mpr ha)).trans ?_
    simp [Reaches]
  · have hstuck : ∀ x ∈ [a], ∀ y ∈ g.successors x, y ∈ [a] := by
      intro x hx y hy
      exact absurd (mem_nodes_of_successor hy) (List.mem_singleton.mp hx ▸ ha)
    have hbudget : [a].length ≤ g.nodeBound := by
      rw [nodeBound, List.length_singleton]
      omega
    refine (Search.mem_run_iff hstuck hbudget fun x hx => hx).trans ?_
    simp [Reaches]

/-- The search for loops enters the blocks that the entry reaches. -/
theorem exists_loopSearch_visited (g : Graph) :
    ∃ m, EndsIn (LoopSearch.step g) (LoopSearch.begin g.entry) m ∧
      ∀ b, b ∈ m.visited ↔ b ∈ g.reversePostorder := by
  have hentry : ∀ x ∈ [g.entry], x ∈ g.nodes := List.forall_mem_singleton.mpr List.mem_cons_self
  obtain ⟨m, hend, hm⟩ := (LoopSearch.imitates g).exists_end successors_subset_nodes
    (Nat.le_of_eq g.length_nodes) List.mem_cons_self (LoopSearch.tracks_begin g g.entry)
  obtain ⟨hexplores, -⟩ := Search.visitUnseen_explores (s := Search.begin) successors_subset_nodes
    (Nat.le_of_eq g.length_nodes) hentry
  refine ⟨m, hend, fun b => ⟨fun hb => ?_, fun hb => ?_⟩⟩
  · rw [hm.visited] at hb
    exact (hexplores.entered b hb List.not_mem_nil).1
  · rw [hm.visited]
    exact (hexplores.left b hb).resolve_left List.not_mem_nil

/-- The search for a path ends and finds one if there is one, also from blocks that the graph does
not have. -/
theorem exists_chase (g : Graph) (a b : BlockId) :
    ∃ p, EndsIn (Chase.step g.successors b) (Chase.begin a b) p ∧ p.arrived = g.hasPath a b := by
  have hclosed : ∀ x ∈ a :: g.nodes, ∀ y ∈ g.successors x, y ∈ a :: g.nodes := fun x _ y hy =>
    List.mem_cons_of_mem a (successors_subset_nodes x (mem_nodes_of_successor hy) y hy)
  obtain ⟨p, hend, hp⟩ := Chase.exists_end hclosed List.mem_cons_self b
  exact ⟨p, hend, Bool.eq_iff_iff.mpr (hp.trans (g.hasPath_iff a b).symm)⟩

/-- The sweep backwards from the exits visits the blocks that come to one of them. -/
theorem exists_sweep_reachingExit (hexits : ∀ b ∈ g.exits, b ∈ g.blocks) :
    ∃ w, EndsIn (Sweep.step g.predecessors) (Sweep.begin g.exits) w ∧
      ∀ b, b ∈ w.visited ↔ b ∈ g.reachingExit := by
  have hstarts : ∀ e ∈ g.exits, e ∈ g.nodes := fun e he => mem_nodes_of_block (hexits e he)
  obtain ⟨w, hend, hw⟩ := Sweep.exists_end predecessors_subset_nodes hstarts
  refine ⟨w, hend, fun b => (hw b).trans ?_⟩
  exact (Search.mem_run_iff predecessors_subset_nodes (Nat.le_of_eq g.length_nodes) hstarts).symm

end Graph

/-- The blocks that the terminator of a block names, if the function has the block. -/
def Function.blocksAfter (f : Function) (b : BlockId) : List BlockId :=
  match f.block? b with
  | some block => block.successors
  | none => []

namespace Graph

theorem successors_ofFunction_eq (f : Function) (b : BlockId) :
    (ofFunction f).successors b = f.blocksAfter b := by
  rw [Function.blocksAfter]
  cases hblock : f.block? b with
  | some block => exact successors_ofFunction hblock
  | none =>
      show ((f.blocks.mapValues _).get? b).getD [] = []
      rw [OrderedMap.get?_mapValues, show f.blocks.get? b = none from hblock]
      rfl

/-- The sweep from the entry along the terminators visits the blocks that the entry reaches. -/
theorem exists_sweep_reachable (f : Function) :
    ∃ w, EndsIn (Sweep.step f.blocksAfter) (Sweep.begin [f.entry]) w ∧
      ∀ b, b ∈ w.visited ↔ b ∈ f.reachableBlocks := by
  have hentry : ∀ x ∈ [f.entry], x ∈ (ofFunction f).nodes :=
    List.forall_mem_singleton.mpr List.mem_cons_self
  rw [← funext (successors_ofFunction_eq f)]
  obtain ⟨w, hend, hw⟩ := Sweep.exists_end successors_subset_nodes hentry
  refine ⟨w, hend, fun b => (hw b).trans ?_⟩
  exact (Search.mem_run_iff successors_subset_nodes (Nat.le_of_eq (length_nodes _)) hentry).symm

/-- All searches end, and they agree: the sweep over the terminators, the order of visits, the
search for loops and the searches for a path from the entry meet the same blocks, a path is found
exactly where edges lead from one block to the other, and the sweep backwards from the exits visits
exactly the blocks from which a path is found to a block that returns. -/
theorem reachability_agrees (f : Function) :
    let g := ofFunction f
    (∃ w, EndsIn (Sweep.step f.blocksAfter) (Sweep.begin [f.entry]) w ∧
      ∀ b, b ∈ w.visited ↔ b ∈ f.reachableBlocks) ∧
    (∃ m, EndsIn (OrderSearch.step g.successors) (OrderSearch.begin g.entry) m ∧
      m.postorder.reverse = g.reversePostorder) ∧
    (∃ m, EndsIn (LoopSearch.step g) (LoopSearch.begin g.entry) m ∧
      ∀ b, b ∈ m.visited ↔ b ∈ g.reversePostorder) ∧
    (∀ a b, ∃ p, EndsIn (Chase.step g.successors b) (Chase.begin a b) p ∧
      p.arrived = g.hasPath a b) ∧
    (∃ w, EndsIn (Sweep.step g.predecessors) (Sweep.begin g.exits) w ∧
      ∀ b, b ∈ w.visited ↔ b ∈ g.reachingExit) ∧
    (∀ b, b ∈ f.reachableBlocks ↔ b ∈ g.reversePostorder) ∧
    (∀ b, b ∈ g.reversePostorder ↔ g.hasPath g.entry b = true) ∧
    (∀ a b, g.hasPath a b = true ↔
      Relation.ReflTransGen (fun x y => y ∈ f.blocksAfter x) a b) ∧
    ∀ b, b ∈ g.reachingExit ↔ ∃ e, (∃ block, f.block? e = some block ∧
      block.terminator.isReturn = true) ∧ g.hasPath b e = true := by
  intro g
  refine ⟨exists_sweep_reachable f, g.exists_orderSearch, g.exists_loopSearch_visited,
    g.exists_chase, exists_sweep_reachingExit exits_subset_blocks_ofFunction, fun b => Iff.rfl,
    fun b => ?_, fun a b => ?_, fun b => ?_⟩
  · rw [hasPath_iff, mem_reversePostorder_iff]
  · rw [hasPath_iff, Reaches, funext (successors_ofFunction_eq f)]
  · simp only [mem_reachingExit_iff exits_subset_blocks_ofFunction, mem_exits_ofFunction,
      hasPath_iff, g]

end Graph

end TaintAnalysis
