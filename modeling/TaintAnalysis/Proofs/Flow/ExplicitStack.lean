import Mathlib
import TaintAnalysis.Proofs.Flow.DepthFirst
import TaintAnalysis.Proofs.Flow.Worklist

/-!
# Searches that keep their path on a stack

A search need not recurse. It can keep the nodes on its path on a stack, each with the position of
the successor to deal with next, and look in each step at the top of the stack only. `Imitates`
says what a step has to do in order to follow a search, and a machine that does it goes through the
whole course of the search (`Course.imitated`).

Two machines follow the search from the entry of a graph. One lists the blocks in the order
in which they are left, and all it knows is which blocks it has entered. The other one looks for
back edges; it knows in addition which blocks are on the stack, and it puts together the loop of a
header while the search is still going on. Neither knows what the other one finds, but they follow
the same search, and so the back edges of the one are the edges that do not lead forward in the
order of the other.
-/

namespace TaintAnalysis

namespace Search

variable {α : Type} [DecidableEq α] {successors : α → List α} {M : Type} {step : M → Option M}
  {R : List (α × Nat) → Search α → M → Prop}

/-- A machine follows a search: `R` relates the stack and the state of the search to the state of
the machine, and each step of the machine deals with one successor or leaves a node. -/
structure Imitates (successors : α → List α) (step : M → Option M)
    (R : List (α × Nat) → Search α → M → Prop) : Prop where
  leave : ∀ node i path s m, R ((node, i) :: path) s m → (successors node)[i]? = none →
    ∃ m', step m = some m' ∧ R path { s with finished := node :: s.finished } m'
  enter : ∀ node i path s m y, R ((node, i) :: path) s m → (successors node)[i]? = some y →
    y ∉ s.seen →
    ∃ m', step m = some m' ∧ R ((y, 0) :: (node, i + 1) :: path) { s with seen := y :: s.seen } m'
  close : ∀ node i path s m y, R ((node, i) :: path) s m → (successors node)[i]? = some y →
    y ∈ s.seen → y ∉ s.finished →
    ∃ m', step m = some m' ∧
      R ((node, i + 1) :: path) { s with backEdges := s.backEdges ++ [(node, y)] } m'
  pass : ∀ node i path s m y, R ((node, i) :: path) s m → (successors node)[i]? = some y →
    y ∈ s.seen → y ∈ s.finished → ∃ m', step m = some m' ∧ R ((node, i + 1) :: path) s m'
  stop : ∀ s m, R [] s m → step m = none

omit [DecidableEq α] in
theorem getElem?_of_drop {l rest : List α} {y : α} {i : Nat} (h : l.drop i = y :: rest) :
    l[i]? = some y ∧ l.drop (i + 1) = rest := by
  constructor
  · rw [← Nat.add_zero i, ← List.getElem?_drop, h]
    rfl
  · rw [← List.tail_drop, h]
    rfl

omit [DecidableEq α] in
/-- A machine that follows a search goes through its course. -/
theorem Course.imitated (hi : Imitates successors step R) {node : α} {next : List α}
    {s t : Search α} (h : Course successors node next s t) {i : Nat} {path : List (α × Nat)} {m : M}
    (hnext : (successors node).drop i = next) (hm : R ((node, i) :: path) s m) :
    ∃ m', Relation.ReflTransGen (fun m m' => step m = some m') m m' ∧
      R ((node, i + next.length) :: path) t m' := by
  induction h generalizing i path m with
  | done => exact ⟨m, .refl, hm⟩
  | @enter node y rest s t u hno hinner _ ihinner ihrest =>
      obtain ⟨hget, hdrop⟩ := getElem?_of_drop hnext
      obtain ⟨m₁, hstep₁, hm₁⟩ := hi.enter node i path s m y hm hget hno
      obtain ⟨m₂, hsteps₂, hm₂⟩ := ihinner (List.drop_zero) hm₁
      obtain ⟨m₃, hstep₃, hm₃⟩ := hi.leave y _ _ t m₂ hm₂ (by simp)
      obtain ⟨m₄, hsteps₄, hm₄⟩ := ihrest hdrop hm₃
      refine ⟨m₄, ?_, by rwa [List.length_cons, Nat.add_comm rest.length, ← Nat.add_assoc]⟩
      exact Relation.ReflTransGen.trans (hsteps₂.head hstep₁) (hsteps₄.head hstep₃)
  | @close node y rest s u hseen hno _ ih =>
      obtain ⟨hget, hdrop⟩ := getElem?_of_drop hnext
      obtain ⟨m₁, hstep₁, hm₁⟩ := hi.close node i path s m y hm hget hseen hno
      obtain ⟨m₂, hsteps₂, hm₂⟩ := ih hdrop hm₁
      refine ⟨m₂, hsteps₂.head hstep₁, ?_⟩
      rwa [List.length_cons, Nat.add_comm rest.length, ← Nat.add_assoc]
  | @pass node y rest s u hseen hdone _ ih =>
      obtain ⟨hget, hdrop⟩ := getElem?_of_drop hnext
      obtain ⟨m₁, hstep₁, hm₁⟩ := hi.pass node i path s m y hm hget hseen hdone
      obtain ⟨m₂, hsteps₂, hm₂⟩ := ih hdrop hm₁
      refine ⟨m₂, hsteps₂.head hstep₁, ?_⟩
      rwa [List.length_cons, Nat.add_comm rest.length, ← Nat.add_assoc]

/-- A machine that starts with one node on its stack ends when the run from that node is over. -/
theorem Imitates.exists_end (hi : Imitates successors step R) {nodes : List α} {budget : Nat}
    {start : α} (hclosed : ∀ x ∈ nodes, ∀ y ∈ successors x, y ∈ nodes)
    (hbudget : nodes.length ≤ budget) (hstart : start ∈ nodes) {m : M}
    (hm : R [(start, 0)] { begin with seen := [start] } m) :
    ∃ m', EndsIn step m m' ∧ R [] (run successors budget [start]) m' := by
  obtain ⟨t, hcourse, hrun⟩ := run_course hclosed hbudget hstart
  obtain ⟨m₁, hsteps, hm₁⟩ := hcourse.imitated hi (List.drop_zero) hm
  obtain ⟨m₂, hstep, hm₂⟩ := hi.leave start _ [] t m₁ hm₁ (by simp)
  rw [hrun]
  exact ⟨m₂, ⟨hsteps.tail hstep, hi.stop _ m₂ hm₂⟩, hm₂⟩

end Search

/-! ## Listing the blocks -/

/-- The state of the search that lists the nodes in the order in which they are left. -/
structure OrderSearch (α : Type) where
  /-- The path, from its end, with the position of the successor to deal with next. -/
  stack : List (α × Nat)
  /-- The nodes entered so far. -/
  visited : List α
  /-- The nodes left so far, in that order. -/
  postorder : List α

namespace OrderSearch

variable {α : Type} [DecidableEq α] {successors : α → List α}

def begin (start : α) : OrderSearch α :=
  ⟨[(start, 0)], [start], []⟩

/-- Deals with the next successor of the node at the end of the path, or leaves the node. -/
def step (successors : α → List α) (m : OrderSearch α) : Option (OrderSearch α) :=
  match m.stack with
  | [] => none
  | (node, i) :: path =>
      match (successors node)[i]? with
      | none => some { m with stack := path, postorder := m.postorder ++ [node] }
      | some y =>
          if y ∈ m.visited then some { m with stack := (node, i + 1) :: path }
          else
            some { m with stack := (y, 0) :: (node, i + 1) :: path, visited := y :: m.visited }

/-- The machine has the stack, and knows what the search knows about order. -/
structure Tracks (path : List (α × Nat)) (s : Search α) (m : OrderSearch α) : Prop where
  stack : m.stack = path
  visited : m.visited = s.seen
  postorder : m.postorder.reverse = s.finished

theorem imitates (successors : α → List α) :
    Search.Imitates successors (step successors) Tracks where
  leave := by
    intro node i path s m hm hnone
    refine ⟨{ m with stack := path, postorder := m.postorder ++ [node] }, ?_, rfl, hm.visited, ?_⟩
    · simp [step, hm.stack, hnone]
    · simp [hm.postorder]
  enter := by
    intro node i path s m y hm hget hno
    refine ⟨{ m with stack := (y, 0) :: (node, i + 1) :: path, visited := y :: m.visited }, ?_, rfl,
      ?_, hm.postorder⟩
    · simp [step, hm.stack, hget, hm.visited, hno]
    · simp [hm.visited]
  close := by
    intro node i path s m y hm hget hseen _
    refine ⟨{ m with stack := (node, i + 1) :: path }, ?_, rfl, hm.visited, hm.postorder⟩
    simp [step, hm.stack, hget, hm.visited, hseen]
  pass := by
    intro node i path s m y hm hget hseen _
    refine ⟨{ m with stack := (node, i + 1) :: path }, ?_, rfl, hm.visited, hm.postorder⟩
    simp [step, hm.stack, hget, hm.visited, hseen]
  stop := by
    intro s m hm
    simp [step, hm.stack]

end OrderSearch

/-! ## Looking for loops -/

/-- Adds a back edge to the loop of its target, among the loops found so far. -/
def Graph.addBackEdge (g : Graph) (tail header : BlockId) : List Loop → List Loop
  | [] =>
      [{ header := header
         body := BlockId.ascending (g.loopBody header tail)
         tails := [tail]
         exiting := []
         depth := 0 }]
  | l :: rest =>
      if l.header = header then
        { l with
          body := BlockId.ascending (l.body ++ g.loopBody header tail)
          tails := l.tails ++ [tail] } :: rest
      else l :: g.addBackEdge tail header rest

/-- The state of the search for back edges and loops. -/
structure LoopSearch where
  /-- The path, from its end, with the position of the successor to deal with next. -/
  stack : List (BlockId × Nat)
  /-- The blocks entered so far. -/
  visited : List BlockId
  /-- The blocks on the path. -/
  onStack : List BlockId
  /-- The edges to blocks on the path, in order of discovery. -/
  backEdges : List (BlockId × BlockId)
  /-- The loops of these edges. -/
  loops : List Loop

namespace LoopSearch

variable {g : Graph}

def begin (start : BlockId) : LoopSearch :=
  ⟨[(start, 0)], [start], [start], [], []⟩

/-- Deals with the next successor of the block at the end of the path, or leaves the block. -/
def step (g : Graph) (m : LoopSearch) : Option LoopSearch :=
  match m.stack with
  | [] => none
  | (block, i) :: path =>
      match (g.successors block)[i]? with
      | none => some { m with stack := path, onStack := m.onStack.filter (· ≠ block) }
      | some y =>
          if y ∈ m.onStack then
            some
              { m with
                stack := (block, i + 1) :: path
                backEdges := m.backEdges ++ [(block, y)]
                loops := g.addBackEdge block y m.loops }
          else if y ∈ m.visited then some { m with stack := (block, i + 1) :: path }
          else
            some
              { m with
                stack := (y, 0) :: (block, i + 1) :: path
                visited := y :: m.visited
                onStack := y :: m.onStack }

/-- The machine has the stack, and knows what the search knows about back edges. The loops are those
of the back edges, put together one edge after the other. -/
structure Tracks (g : Graph) (path : List (BlockId × Nat)) (s : Search BlockId) (m : LoopSearch) :
    Prop where
  stack : m.stack = path
  visited : m.visited = s.seen
  onStack : ∀ x, x ∈ m.onStack ↔ x ∈ s.seen ∧ x ∉ s.finished
  backEdges : m.backEdges = s.backEdges
  loops : m.loops = s.backEdges.foldl (fun loops e => g.addBackEdge e.1 e.2 loops) []
  entered : ∀ p ∈ path, p.1 ∈ s.seen
  finished : ∀ x ∈ s.finished, x ∈ s.seen

theorem tracks_begin (g : Graph) (start : BlockId) :
    Tracks g [(start, 0)] { Search.begin with seen := [start] } (begin start) where
  stack := rfl
  visited := rfl
  onStack := by simp [begin, Search.begin]
  backEdges := rfl
  loops := rfl
  entered := by simp
  finished := by simp [Search.begin]

theorem imitates (g : Graph) : Search.Imitates g.successors (step g) (Tracks g) where
  leave := by
    intro node i path s m hm hnone
    refine ⟨{ m with stack := path, onStack := m.onStack.filter (· ≠ node) }, ?_, ?_⟩
    · simp [step, hm.stack, hnone]
    · exact
        { hm with
          stack := rfl
          onStack := fun x => by
            simp only [List.mem_filter, hm.onStack, decide_eq_true_eq, List.mem_cons, not_or]
            tauto
          entered := fun p hp => hm.entered p (List.mem_cons_of_mem _ hp)
          finished := List.forall_mem_cons.mpr
            ⟨hm.entered (node, i) List.mem_cons_self, hm.finished⟩ }
  enter := by
    intro node i path s m y hm hget hno
    have hstack : y ∉ m.onStack := fun hy => hno ((hm.onStack y).mp hy).1
    have hvisited : y ∉ m.visited := hm.visited ▸ hno
    have hopen : y ∉ s.finished := fun hy => hno (hm.finished y hy)
    refine ⟨{ m with
        stack := (y, 0) :: (node, i + 1) :: path
        visited := y :: m.visited
        onStack := y :: m.onStack }, ?_, ?_⟩
    · simp [step, hm.stack, hget, hstack, hvisited]
    · have hseen : ∀ x ∈ s.seen, x ∈ y :: s.seen := fun x hx => List.mem_cons_of_mem y hx
      exact
        { hm with
          stack := rfl
          visited := by rw [hm.visited]
          onStack := fun x => by
            simp only [List.mem_cons, hm.onStack]
            constructor
            · rintro (rfl | ⟨hx, hxf⟩)
              · exact ⟨.inl rfl, hopen⟩
              · exact ⟨.inr hx, hxf⟩
            · rintro ⟨rfl | hx, hxf⟩
              · exact .inl rfl
              · exact .inr ⟨hx, hxf⟩
          entered := by
            intro p hp
            rcases List.mem_cons.mp hp with rfl | hp
            · exact List.mem_cons_self
            rcases List.mem_cons.mp hp with rfl | hp
            · exact hseen node (hm.entered (node, i) List.mem_cons_self)
            · exact hseen p.1 (hm.entered p (List.mem_cons_of_mem _ hp))
          finished := fun x hx => hseen x (hm.finished x hx) }
  close := by
    intro node i path s m y hm hget hseen hno
    have hstack : y ∈ m.onStack := (hm.onStack y).mpr ⟨hseen, hno⟩
    refine ⟨{ m with
        stack := (node, i + 1) :: path
        backEdges := m.backEdges ++ [(node, y)]
        loops := g.addBackEdge node y m.loops }, ?_, ?_⟩
    · simp [step, hm.stack, hget, hstack]
    · exact
        { hm with
          stack := rfl
          backEdges := by rw [hm.backEdges]
          loops := by simp [hm.loops]
          entered := by simpa using hm.entered }
  pass := by
    intro node i path s m y hm hget hseen hdone
    have hstack : y ∉ m.onStack := fun hy => ((hm.onStack y).mp hy).2 hdone
    have hvisited : y ∈ m.visited := hm.visited ▸ hseen
    refine ⟨{ m with stack := (node, i + 1) :: path }, ?_, ?_⟩
    · simp [step, hm.stack, hget, hstack, hvisited]
    · exact { hm with stack := rfl, entered := by simpa using hm.entered }
  stop := by
    intro s m hm
    simp [step, hm.stack]

end LoopSearch

/-! ## Both searches of a graph -/

namespace Graph

variable {g : Graph}

theorem exists_orderSearch (g : Graph) :
    ∃ m, EndsIn (OrderSearch.step g.successors) (OrderSearch.begin g.entry) m ∧
      m.postorder.reverse = g.reversePostorder := by
  have hbegin : OrderSearch.Tracks [(g.entry, 0)] { Search.begin with seen := [g.entry] }
      (OrderSearch.begin g.entry) := ⟨rfl, rfl, rfl⟩
  obtain ⟨m, hend, hm⟩ := (OrderSearch.imitates g.successors).exists_end successors_subset_nodes
    (Nat.le_of_eq g.length_nodes) List.mem_cons_self hbegin
  exact ⟨m, hend, hm.postorder⟩

theorem exists_loopSearch (g : Graph) :
    ∃ m, EndsIn (LoopSearch.step g) (LoopSearch.begin g.entry) m ∧ m.backEdges = g.backEdges ∧
      m.loops = g.backEdges.foldl (fun loops e => g.addBackEdge e.1 e.2 loops) [] := by
  obtain ⟨m, hend, hm⟩ := (LoopSearch.imitates g).exists_end successors_subset_nodes
    (Nat.le_of_eq g.length_nodes) List.mem_cons_self (LoopSearch.tracks_begin g g.entry)
  exact ⟨m, hend, hm.backEdges, hm.loops⟩

/-- The edges between the blocks that the entry reaches, without the back edges. -/
def Forward (g : Graph) (u v : BlockId) : Prop :=
  g.Reaches g.entry u ∧ v ∈ g.successors u ∧ g.isBackEdge u v = false

theorem Forward.idxOf_lt {u v : BlockId} (h : g.Forward u v) :
    g.reversePostorder.idxOf u < g.reversePostorder.idxOf v := by
  obtain ⟨hu, hv, hno⟩ := h
  by_contra hback
  exact Bool.false_ne_true (hno.symm.trans ((isBackEdge_iff hu hv).mpr hback))

theorem idxOf_lt_of_forward {u v : BlockId} (h : Relation.TransGen g.Forward u v) :
    g.reversePostorder.idxOf u < g.reversePostorder.idxOf v := by
  induction h with
  | single h => exact h.idxOf_lt
  | tail _ h ih => exact ih.trans h.idxOf_lt

/-- The two searches of a graph. Both end, one with the blocks in reverse postorder and the other
with the back edges. The order has every block that the entry reaches, once, and the entry comes
first. The back edges are those edges that do not lead strictly forward in the order, so without
them there are no cycles, and the order is a topological one. -/
theorem searches_agree (g : Graph) :
    (∃ m, EndsIn (OrderSearch.step g.successors) (OrderSearch.begin g.entry) m ∧
      m.postorder.reverse = g.reversePostorder) ∧
    (∃ m, EndsIn (LoopSearch.step g) (LoopSearch.begin g.entry) m ∧ m.backEdges = g.backEdges) ∧
    g.reversePostorder.Nodup ∧ (∀ b, b ∈ g.reversePostorder ↔ g.Reaches g.entry b) ∧
    g.reversePostorder.head? = some g.entry ∧
    (∀ u v, g.Reaches g.entry u → v ∈ g.successors u →
      (g.isBackEdge u v = true ↔ ¬ g.reversePostorder.idxOf u < g.reversePostorder.idxOf v)) ∧
    (∀ b, ¬ Relation.TransGen g.Forward b b) ∧
    ∀ u v, g.Forward u v → g.reversePostorder.idxOf u < g.reversePostorder.idxOf v := by
  obtain ⟨m, hend, hbackEdges, -⟩ := g.exists_loopSearch
  refine ⟨g.exists_orderSearch, ⟨m, hend, hbackEdges⟩, g.nodup_reversePostorder,
    fun b => mem_reversePostorder_iff, g.head?_reversePostorder,
    fun u v hu hv => isBackEdge_iff hu hv, fun b hcycle => ?_, fun u v h => h.idxOf_lt⟩
  exact Nat.lt_irrefl _ (idxOf_lt_of_forward hcycle)

/-- Two blocks that lead to each other and are both entered from outside, and a block that leads to
itself. -/
def eddying : Function where
  name := "eddying"
  returns := .void
  vars := [⟨"c", .int 32, .param⟩]
  blocks := .ofList
    [(0, ⟨[], .branch (.var 0) 1 2⟩),
      (1, ⟨[], .jump 2⟩),
      (2, ⟨[], .branch (.var 0) 1 3⟩),
      (3, ⟨[], .branch (.var 0) 3 4⟩),
      (4, ⟨[], .ret none⟩)]
  entry := 0
  nextBlock := 5

theorem searches_agree_eddying :
    let g := ofFunction eddying
    g.reversePostorder = [0, 1, 2, 3, 4] ∧
      (∃ m, EndsIn (LoopSearch.step g) (LoopSearch.begin 0) m ∧ m.backEdges = [(2, 1), (3, 3)]) ∧
      g.isBackEdge 2 1 = true ∧ g.isBackEdge 3 3 = true ∧ g.isBackEdge 1 2 = false ∧
      ¬ Relation.TransGen g.Forward 2 2 := by
  intro g
  obtain ⟨-, ⟨m, hend, hfound⟩, -, hreached, -, hiff, hacyclic, -⟩ := searches_agree g
  have horder : g.reversePostorder = [0, 1, 2, 3, 4] := by decide_cbv
  have hedges : g.backEdges = [(2, 1), (3, 3)] := by decide_cbv
  have hblock : ∀ b ∈ [0, 1, 2, 3, 4], g.Reaches g.entry b := by
    intro b hb
    exact (hreached b).mp (horder ▸ hb)
  refine ⟨horder, ⟨m, hend, hfound.trans hedges⟩, ?_, ?_, ?_, hacyclic 2⟩
  · rw [hiff 2 1 (hblock 2 (by decide)) (by decide), horder]
    decide
  · rw [hiff 3 3 (hblock 3 (by decide)) (by decide), horder]
    decide
  · rw [Bool.eq_false_iff, ne_eq, hiff 1 2 (hblock 1 (by decide)) (by decide), horder]
    decide

end Graph

end TaintAnalysis
