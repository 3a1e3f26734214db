import TaintAnalysis.Flow.Loop
import TaintAnalysis.Proofs.Flow.Paths

/-!
# Back edges and the order in which nodes are finished

A search records an edge as a back edge when it leads to a node on the path, and it finishes a node
when all its successors have been dealt with. When a node is finished, each of its successors is
therefore either finished already or still on the path, and the edges to the latter are those
recorded. Nodes are put in front as they are finished, so what stands behind a node never
changes later on: `Settled` says of every finished node that its edges to what does not stand
behind it are the recorded ones.

The search preserves that as long as the node it is at is on the path. While it deals with the
successors of a node it does not touch the recorded edges of the other nodes on the path
(`mem_backEdges_of_path`), and of the node itself it records the edges to the nodes that are
not finished by then (`mem_backEdges_iff`).
-/

namespace TaintAnalysis

namespace Search

variable {α : Type} [DecidableEq α] {successors : α → List α} {s t : Search α} {node x z : α}
  {next : List α}

/-! ## What is added -/

/-- Only nodes that were not seen before are finished. -/
theorem Course.finished_eq (h : Course successors node next s t) :
    ∃ added, t.finished = added ++ s.finished ∧ ∀ x ∈ added, x ∉ s.seen := by
  induction h with
  | done => exact ⟨[], rfl, by simp⟩
  | @enter node y rest s t u hno hinner _ ihinner ihrest =>
      obtain ⟨first, hfirst, hfresh⟩ := ihinner
      obtain ⟨second, hsecond, hfresh'⟩ := ihrest
      refine ⟨second ++ y :: first, by simp [hsecond, hfirst], fun x hx hseen => ?_⟩
      have hseen' : x ∈ y :: s.seen := List.mem_cons_of_mem y hseen
      simp only [List.mem_append, List.mem_cons] at hx
      rcases hx with hx | rfl | hx
      · exact hfresh' x hx (hinner.explores.1.seen x hseen')
      · exact hno hseen
      · exact hfresh x hx hseen'
  | close _ _ _ ih => exact ih
  | pass _ _ _ ih => exact ih

/-- What is on the path stays there. -/
theorem Course.not_mem_finished (h : Course successors node next s t) (hseen : x ∈ s.seen)
    (hno : x ∉ s.finished) : x ∉ t.finished := by
  obtain ⟨added, hadded, hfresh⟩ := h.finished_eq
  rw [hadded, List.mem_append]
  rintro (hx | hx)
  · exact hfresh x hx hseen
  · exact hno hx

/-- Dealing with the successors of a node leaves the edges of the other nodes on the path alone. -/
theorem Course.mem_backEdges_of_path (h : Course successors node next s t) (hx : x ∈ s.seen)
    (hne : x ≠ node) : (x, z) ∈ t.backEdges ↔ (x, z) ∈ s.backEdges := by
  induction h with
  | done => exact Iff.rfl
  | @enter node y rest s t u hno hinner _ ihinner ihrest =>
      have hxy : x ≠ y := by
        rintro rfl
        exact hno hx
      have hseen : x ∈ t.seen := hinner.explores.1.seen x (List.mem_cons_of_mem y hx)
      exact (ihrest hseen hne).trans (ihinner (List.mem_cons_of_mem y hx) hxy)
  | close _ _ _ ih =>
      rw [ih hx hne]
      simp [hne]
  | pass _ _ _ ih => exact ih hx hne

/-- Of the edges to the successors, those to nodes that are not finished afterwards are recorded. -/
theorem Course.mem_backEdges_iff (h : Course successors node next s t) (hnode : node ∈ s.seen) :
    (node, z) ∈ t.backEdges ↔ (node, z) ∈ s.backEdges ∨ z ∈ next ∧ z ∉ t.finished := by
  induction h with
  | done => simp
  | @enter node y rest s t u hno hinner hrest _ ihrest =>
      have hny : node ≠ y := by
        rintro rfl
        exact hno hnode
      have hseen : node ∈ t.seen := hinner.explores.1.seen node (List.mem_cons_of_mem y hnode)
      have hkept := hinner.mem_backEdges_of_path (z := z) (List.mem_cons_of_mem y hnode) hny
      have hdone : y ∈ u.finished := hrest.explores.1.finished y List.mem_cons_self
      rw [ihrest hseen, hkept, List.mem_cons]
      refine or_congr_right ⟨fun hz => ⟨.inr hz.1, hz.2⟩, ?_⟩
      rintro ⟨rfl | hz, hopen⟩
      · exact absurd hdone hopen
      · exact ⟨hz, hopen⟩
  | @close node y rest s u hseen hno hrest ih =>
      have hopen : y ∉ u.finished := hrest.not_mem_finished hseen hno
      rw [ih hnode, List.mem_append, List.mem_singleton, Prod.mk.injEq, List.mem_cons, or_assoc]
      refine or_congr_right ⟨?_, ?_⟩
      · rintro (⟨-, rfl⟩ | ⟨hz, hzu⟩)
        · exact ⟨.inl rfl, hopen⟩
        · exact ⟨.inr hz, hzu⟩
      · rintro ⟨rfl | hz, hzu⟩
        · exact .inl ⟨rfl, rfl⟩
        · exact .inr ⟨hz, hzu⟩
  | @pass node y rest s u _ hdone hrest ih =>
      have hdone : y ∈ u.finished := hrest.explores.1.finished y hdone
      rw [ih hnode, List.mem_cons]
      refine or_congr_right ⟨fun hz => ⟨.inr hz.1, hz.2⟩, ?_⟩
      rintro ⟨rfl | hz, hopen⟩
      · exact absurd hdone hopen
      · exact ⟨hz, hopen⟩

/-! ## What is settled -/

/-- What the search has made of the nodes that it has finished. -/
structure Settled (successors : α → List α) (s : Search α) : Prop where
  nodup : s.finished.Nodup
  seen : ∀ x ∈ s.finished, x ∈ s.seen
  recorded : ∀ e ∈ s.backEdges, e.1 ∈ s.seen ∧ e.2 ∈ successors e.1
  /-- The back edges of a finished node are those to the nodes that do not stand behind it. -/
  edges : ∀ x behind, x :: behind <:+ s.finished →
    ∀ y ∈ successors x, (x, y) ∈ s.backEdges ↔ y ∉ behind

theorem settled_begin : Settled successors (begin : Search α) where
  nodup := List.nodup_nil
  seen := by simp [begin]
  recorded := by simp [begin]
  edges := by simp [begin]

omit [DecidableEq α] in
theorem Settled.enter (h : Settled successors s) (y : α) :
    Settled successors { s with seen := y :: s.seen } where
  nodup := h.nodup
  seen := fun x hx => List.mem_cons_of_mem y (h.seen x hx)
  recorded := fun e he => ⟨List.mem_cons_of_mem y (h.recorded e he).1, (h.recorded e he).2⟩
  edges := h.edges

omit [DecidableEq α] in
theorem Settled.close (h : Settled successors s) (hseen : node ∈ s.seen) (hno : node ∉ s.finished)
    {y : α} (hy : y ∈ successors node) :
    Settled successors { s with backEdges := s.backEdges ++ [(node, y)] } where
  nodup := h.nodup
  seen := h.seen
  recorded := by
    intro e he
    rcases List.mem_append.mp he with he | he
    · exact h.recorded e he
    · obtain rfl := List.mem_singleton.mp he
      exact ⟨hseen, hy⟩
  edges := by
    intro x behind hsuffix z hz
    have hx : x ≠ node := by
      rintro rfl
      exact hno (hsuffix.subset List.mem_cons_self)
    rw [← h.edges x behind hsuffix z hz]
    simp [hx]

/-- A node is settled when it is finished. -/
theorem Settled.leave (h : Settled successors s) (ht : Settled successors t) {y : α}
    (hno : y ∉ s.seen)
    (hcourse : Course successors y (successors y) { s with seen := y :: s.seen } t) :
    Settled successors { t with finished := y :: t.finished } where
  nodup := by
    refine List.nodup_cons.mpr ⟨?_, ht.nodup⟩
    exact hcourse.not_mem_finished List.mem_cons_self fun hy => hno (h.seen y hy)
  seen := by
    intro x hx
    rcases List.mem_cons.mp hx with rfl | hx
    · exact hcourse.explores.1.seen x List.mem_cons_self
    · exact ht.seen x hx
  recorded := ht.recorded
  edges := by
    intro x behind hsuffix z hz
    rcases List.suffix_cons_iff.mp hsuffix with heq | hsuffix
    · obtain ⟨rfl, rfl⟩ := List.cons.inj heq
      have hnone : (x, z) ∉ s.backEdges := fun he => hno (h.recorded _ he).1
      rw [hcourse.mem_backEdges_iff List.mem_cons_self]
      simp [hnone, hz]
    · exact ht.edges x behind hsuffix z hz

/-- As long as the node it is at is on the path, the search leaves everything settled. -/
theorem Course.settled (h : Course successors node next s t) (hs : Settled successors s)
    (hseen : node ∈ s.seen) (hno : node ∉ s.finished) (hnext : ∀ y ∈ next, y ∈ successors node) :
    Settled successors t := by
  induction h with
  | done => exact hs
  | @enter node y rest s t u hfresh hinner _ ihinner ihrest =>
      have hy : y ∉ s.finished := fun hy => hfresh (hs.seen y hy)
      have ht := ihinner (hs.enter y) List.mem_cons_self hy fun _ hz => hz
      have hseen' := List.mem_cons_of_mem y hseen
      refine ihrest (hs.leave ht hfresh hinner) (hinner.explores.1.seen node hseen') ?_
        fun z hz => hnext z (List.mem_cons_of_mem y hz)
      intro hdone
      rcases List.mem_cons.mp hdone with rfl | hdone
      · exact hfresh hseen
      · exact hinner.not_mem_finished hseen' hno hdone
  | @close node y rest s u _ _ _ ih =>
      exact ih (hs.close hseen hno (hnext y List.mem_cons_self)) hseen hno
        fun z hz => hnext z (List.mem_cons_of_mem y hz)
  | @pass node y rest s u _ _ _ ih =>
      exact ih hs hseen hno fun z hz => hnext z (List.mem_cons_of_mem y hz)

/-- A run from one start finishes the start last. -/
theorem run_course {nodes : List α} {budget : Nat} {start : α}
    (hclosed : ∀ x ∈ nodes, ∀ y ∈ successors x, y ∈ nodes) (hbudget : nodes.length ≤ budget)
    (hstart : start ∈ nodes) :
    ∃ t, Course successors start (successors start) { begin with seen := [start] } t ∧
      run successors budget [start] = { t with finished := start :: t.finished } := by
  have hcount : unseen nodes begin ≤ budget := by
    refine (Finset.card_le_card Finset.sdiff_subset).trans ?_
    exact (List.toFinset_card_le nodes).trans hbudget
  exact visit_course hclosed hstart List.not_mem_nil hcount

end Search

namespace Graph

variable {g : Graph} {u v : BlockId}

/-- The course of the search from the entry. -/
theorem searchFromEntry_course (g : Graph) :
    ∃ t, Search.Course g.successors g.entry (g.successors g.entry)
        { Search.begin with seen := [g.entry] } t ∧
      g.searchFromEntry = { t with finished := g.entry :: t.finished } :=
  Search.run_course successors_subset_nodes (Nat.le_of_eq g.length_nodes) List.mem_cons_self

theorem searchFromEntry_settled (g : Graph) : Search.Settled g.successors g.searchFromEntry := by
  obtain ⟨t, hcourse, hrun⟩ := g.searchFromEntry_course
  rw [hrun]
  refine Search.settled_begin.leave ?_ List.not_mem_nil hcourse
  exact hcourse.settled (Search.settled_begin.enter g.entry) List.mem_cons_self List.not_mem_nil
    fun _ hy => hy

theorem nodup_reversePostorder (g : Graph) : g.reversePostorder.Nodup :=
  g.searchFromEntry_settled.nodup

theorem head?_reversePostorder (g : Graph) : g.reversePostorder.head? = some g.entry := by
  obtain ⟨t, -, hrun⟩ := g.searchFromEntry_course
  rw [reversePostorder, hrun]
  rfl

theorem isBackEdge_eq_true_iff : g.isBackEdge u v = true ↔ (u, v) ∈ g.searchFromEntry.backEdges :=
  decide_eq_true_iff

/-- A back edge is an edge, and it leaves a block that the entry reaches. -/
theorem edge_of_isBackEdge (h : g.isBackEdge u v = true) :
    v ∈ g.successors u ∧ g.Reaches g.entry u := by
  have hstart : ∀ x ∈ [g.entry], x ∈ g.nodes := by simp [nodes]
  obtain ⟨hseen, hedge⟩ :=
    g.searchFromEntry_settled.recorded _ (isBackEdge_eq_true_iff.mp h)
  obtain ⟨hexplores, -⟩ := Search.visitUnseen_explores (s := Search.begin) successors_subset_nodes
    (Nat.le_of_eq g.length_nodes) hstart
  have hfinished : u ∈ g.reversePostorder := (hexplores.entered u hseen List.not_mem_nil).1
  exact ⟨hedge, mem_reversePostorder_iff.mp hfinished⟩

/-- In a list without repetitions, to stand behind is to come later. -/
theorem mem_behind_iff {l front behind : List BlockId} (hl : l = front ++ u :: behind)
    (hnodup : l.Nodup) (hv : v ∈ l) : v ∈ behind ↔ l.idxOf u < l.idxOf v := by
  subst hl
  obtain ⟨-, hu, hdisjoint⟩ := List.nodup_append.mp hnodup
  have hfront : ∀ x ∈ u :: behind, x ∉ front := fun x hx hxf => hdisjoint x hxf x hx rfl
  have hindex : (front ++ u :: behind).idxOf u = front.length := by
    simp [List.idxOf_append_of_notMem (hfront u List.mem_cons_self)]
  rw [hindex]
  rcases List.mem_append.mp hv with hv | hv
  · rw [List.idxOf_append_of_mem hv]
    have := List.idxOf_lt_length_of_mem hv
    refine iff_of_false (fun hb => hfront v (List.mem_cons_of_mem u hb) hv) (by omega)
  · rw [List.idxOf_append_of_notMem (hfront v hv)]
    rcases List.mem_cons.mp hv with rfl | hv
    · simp [(List.nodup_cons.mp hu).1]
    · have hne : u ≠ v := by
        rintro rfl
        exact (List.nodup_cons.mp hu).1 hv
      rw [List.idxOf_cons_ne _ hne]
      exact iff_of_true hv (by omega)

/-- An edge is a back edge if its target does not come strictly after its source. -/
theorem isBackEdge_iff (hu : g.Reaches g.entry u) (hv : v ∈ g.successors u) :
    g.isBackEdge u v = true ↔ ¬ g.reversePostorder.idxOf u < g.reversePostorder.idxOf v := by
  have hmem : v ∈ g.reversePostorder := mem_reversePostorder_iff.mpr (hu.tail hv)
  obtain ⟨front, behind, hsplit⟩ := List.append_of_mem (mem_reversePostorder_iff.mpr hu)
  rw [← mem_behind_iff hsplit g.nodup_reversePostorder hmem, isBackEdge_eq_true_iff]
  exact g.searchFromEntry_settled.edges u behind ⟨front, hsplit.symm⟩ v hv

end Graph

end TaintAnalysis
