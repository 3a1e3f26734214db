import Mathlib.Data.Finset.Card
import Mathlib.Data.Finset.SDiff
import Mathlib.Logic.Relation
import TaintAnalysis.Flow.Search

/-!
# Depth-first search finds everything

The depth of a search is bounded by a budget, and a search that ran out of it
would leave nodes out without any notice. The budget is only bookkeeping: every
step down enters a node that was not seen before, so the number of nodes that
are not seen yet always covers the depth that is left to go.

What a search then does is laid down step by step in its `Course`, which knows of
no budget, and what is to be said of searches is proved by induction on it.

What a search adds is said relative to where it starts (`Explores`), because the
nodes on the path to it are seen but not finished: whatever it enters itself, it
leaves with all successors seen. The relation composes, so the successors of a
node, and the starts of a run, are dealt with one after the other. Read from the
beginning, where nothing is on the path, it says that the finished nodes contain
the starts and the successors of all their members.

They contain nothing else: what holds of the starts and passes from a node to its
successors holds of every finished node, whatever the budget.
-/

namespace TaintAnalysis.Search

variable {α : Type} {successors : α → List α} {nodes : List α} {s t u : Search α} {budget : Nat}

/-- The second search goes on from the first one and has left again whatever it entered. -/
structure Explores (successors : α → List α) (s t : Search α) : Prop where
  seen : ∀ x ∈ s.seen, x ∈ t.seen
  finished : ∀ x ∈ s.finished, x ∈ t.finished
  entered : ∀ x ∈ t.seen, x ∉ s.seen → x ∈ t.finished ∧ ∀ y ∈ successors x, y ∈ t.seen
  left : ∀ x ∈ t.finished, x ∈ s.finished ∨ x ∈ t.seen

theorem Explores.refl (s : Search α) : Explores successors s s :=
  ⟨fun _ hx => hx, fun _ hx => hx, fun _ hx hno => absurd hx hno, fun _ hx => .inl hx⟩

theorem Explores.trans (hst : Explores successors s t) (htu : Explores successors t u) :
    Explores successors s u where
  seen := fun x hx => htu.seen x (hst.seen x hx)
  finished := fun x hx => htu.finished x (hst.finished x hx)
  entered := by
    intro x hx hno
    by_cases ht : x ∈ t.seen
    · obtain ⟨hfinished, hnext⟩ := hst.entered x ht hno
      exact ⟨htu.finished x hfinished, fun y hy => htu.seen y (hnext y hy)⟩
    · exact htu.entered x hx ht
  left := by
    intro x hx
    rcases htu.left x hx with ht | hu
    · exact (hst.left x ht).imp_right (htu.seen x)
    · exact .inr hu

/-! ## The budget -/

variable [DecidableEq α]

/-- How many of the nodes have not been entered yet. -/
def unseen (nodes : List α) (s : Search α) : Nat :=
  (nodes.toFinset \ s.seen.toFinset).card

theorem unseen_mono (h : ∀ x ∈ s.seen, x ∈ t.seen) : unseen nodes t ≤ unseen nodes s :=
  Finset.card_le_card (Finset.sdiff_subset_sdiff (Finset.Subset.refl _)
    fun x hx => List.mem_toFinset.mpr (h x (List.mem_toFinset.mp hx)))

/-- Entering a node uses it up. -/
theorem unseen_enter {node : α} (hnode : node ∈ nodes) (hno : node ∉ s.seen) :
    unseen nodes { s with seen := node :: s.seen } < unseen nodes s := by
  have hmem : node ∈ nodes.toFinset \ s.seen.toFinset :=
    Finset.mem_sdiff.mpr ⟨List.mem_toFinset.mpr hnode, fun h => hno (List.mem_toFinset.mp h)⟩
  refine Finset.card_lt_card ⟨?_, fun hsub => ?_⟩
  · refine Finset.sdiff_subset_sdiff (Finset.Subset.refl _) ?_
    intro x hx
    exact List.mem_toFinset.mpr (List.mem_cons_of_mem node (List.mem_toFinset.mp hx))
  · exact (Finset.mem_sdiff.mp (hsub hmem)).2 (List.mem_toFinset.mpr List.mem_cons_self)

/-! ## The course of a search -/

/-- What a search does about one successor of the node it is at. -/
def deal (successors : α → List α) (budget : Nat) (node : α) (s : Search α) (y : α) : Search α :=
  if y ∉ s.seen then visit successors budget y s
  else if y ∉ s.finished then { s with backEdges := s.backEdges ++ [(node, y)] }
  else s

theorem visit_succ (successors : α → List α) (budget : Nat) (node : α) (s : Search α) :
    visit successors (budget + 1) node s =
      let t := (successors node).foldl (deal successors budget node)
        { s with seen := node :: s.seen }
      { t with finished := node :: t.finished } :=
  rfl

/-- A search that is at a node and has some of its successors still to deal with goes from one
state to another. There is no budget here. -/
inductive Course (successors : α → List α) : α → List α → Search α → Search α → Prop where
  | done (node : α) (s : Search α) : Course successors node [] s s
  /-- The next successor is searched from, and then it is finished. -/
  | enter {node y : α} {rest : List α} {s t u : Search α} (hno : y ∉ s.seen)
      (hinner : Course successors y (successors y) { s with seen := y :: s.seen } t)
      (hrest : Course successors node rest { t with finished := y :: t.finished } u) :
      Course successors node (y :: rest) s u
  /-- The next successor is on the path to the node. -/
  | close {node y : α} {rest : List α} {s u : Search α} (hseen : y ∈ s.seen) (hno : y ∉ s.finished)
      (hrest : Course successors node rest { s with backEdges := s.backEdges ++ [(node, y)] } u) :
      Course successors node (y :: rest) s u
  | pass {node y : α} {rest : List α} {s u : Search α} (hseen : y ∈ s.seen) (hdone : y ∈ s.finished)
      (hrest : Course successors node rest s u) : Course successors node (y :: rest) s u

/-- Leaving a node that was entered and whose successors were all dealt with. -/
theorem Explores.leave {node : α} (h : Explores successors { s with seen := node :: s.seen } t)
    (hnext : ∀ y ∈ successors node, y ∈ t.seen) :
    Explores successors s { t with finished := node :: t.finished } where
  seen := fun x hx => h.seen x (List.mem_cons_of_mem node hx)
  finished := fun x hx => List.mem_cons_of_mem node (h.finished x hx)
  entered := by
    intro x hx hno
    by_cases hxn : x = node
    · subst hxn
      exact ⟨List.mem_cons_self, hnext⟩
    · obtain ⟨hfinished, hsucc⟩ := h.entered x hx
        fun h => (List.mem_cons.mp h).elim hxn hno
      exact ⟨List.mem_cons_of_mem node hfinished, hsucc⟩
  left := by
    intro x hx
    rcases List.mem_cons.mp hx with rfl | hx
    · exact .inr (h.seen x List.mem_cons_self)
    · exact h.left x hx

/-- A search leaves nothing half done. -/
theorem Course.explores {node : α} {next : List α} (h : Course successors node next s t) :
    Explores successors s t ∧ ∀ y ∈ next, y ∈ t.seen := by
  induction h with
  | done node s => exact ⟨.refl s, fun y hy => absurd hy List.not_mem_nil⟩
  | @enter node y rest s t u hno _ _ ihinner ihrest =>
      obtain ⟨hinner, hnext⟩ := ihinner
      obtain ⟨hrest, hseen⟩ := ihrest
      have hy : y ∈ u.seen := hrest.seen y (hinner.seen y List.mem_cons_self)
      exact ⟨(hinner.leave hnext).trans hrest, List.forall_mem_cons.mpr ⟨hy, hseen⟩⟩
  | @close node y rest s u hseen _ _ ih =>
      obtain ⟨hrest, hnext⟩ := ih
      have hclose : Explores successors s u :=
        ⟨hrest.seen, hrest.finished, hrest.entered, hrest.left⟩
      exact ⟨hclose, List.forall_mem_cons.mpr ⟨hrest.seen y hseen, hnext⟩⟩
  | pass hseen _ _ ih => exact ⟨ih.1, List.forall_mem_cons.mpr ⟨ih.1.seen _ hseen, ih.2⟩⟩

/-- Dealing with a list of successors, given that searching from one of them takes its course. -/
theorem course_foldl
    (hvisit : ∀ y ∈ nodes, ∀ s, y ∉ s.seen → unseen nodes s ≤ budget →
      ∃ t, Course successors y (successors y) { s with seen := y :: s.seen } t ∧
        visit successors budget y s = { t with finished := y :: t.finished })
    (node : α) (next : List α) (hnext : ∀ y ∈ next, y ∈ nodes) (s : Search α)
    (hbudget : unseen nodes s ≤ budget) :
    Course successors node next s (next.foldl (deal successors budget node) s) := by
  induction next generalizing s with
  | nil => exact .done node s
  | cons y rest ih =>
      have hrest := fun x hx => hnext x (List.mem_cons_of_mem y hx)
      rw [List.foldl_cons, deal]
      by_cases hseen : y ∈ s.seen
      · rw [if_neg (not_not.mpr hseen)]
        by_cases hdone : y ∈ s.finished
        · rw [if_neg (not_not.mpr hdone)]
          exact .pass hseen hdone (ih hrest s hbudget)
        · rw [if_pos hdone]
          exact .close hseen hdone (ih hrest _ hbudget)
      · obtain ⟨t, hcourse, hvisited⟩ := hvisit y (hnext y List.mem_cons_self) s hseen hbudget
        have hless : unseen nodes { t with finished := y :: t.finished } ≤ budget :=
          (unseen_mono fun x hx => hcourse.explores.1.seen x (List.mem_cons_of_mem y hx)).trans
            hbudget
        rw [if_pos hseen, hvisited]
        exact .enter hseen hcourse (ih hrest _ hless)

/-- With enough budget a search takes its course. -/
theorem visit_course (hclosed : ∀ x ∈ nodes, ∀ y ∈ successors x, y ∈ nodes) {node : α}
    (hnode : node ∈ nodes) (hno : node ∉ s.seen) (hbudget : unseen nodes s ≤ budget) :
    ∃ t, Course successors node (successors node) { s with seen := node :: s.seen } t ∧
      visit successors budget node s = { t with finished := node :: t.finished } := by
  have hless := unseen_enter hnode hno
  induction budget generalizing node s with
  | zero => omega
  | succ budget ih =>
      refine ⟨_, ?_, visit_succ successors budget node s⟩
      refine course_foldl (fun y hy s hno hbudget => ?_) node _ (hclosed node hnode) _ (by omega)
      exact ih hy hno hbudget (unseen_enter hy hno)

/-! ## What a run finds -/

theorem visitUnseen_explores (hclosed : ∀ x ∈ nodes, ∀ y ∈ successors x, y ∈ nodes)
    (hbudget : nodes.length ≤ budget) {starts : List α} (hstarts : ∀ x ∈ starts, x ∈ nodes) :
    Explores successors s (starts.foldl (visitUnseen successors budget) s) ∧
      ∀ x ∈ starts, x ∈ (starts.foldl (visitUnseen successors budget) s).seen := by
  induction starts generalizing s with
  | nil => exact ⟨.refl s, fun x hx => absurd hx List.not_mem_nil⟩
  | cons node rest ih =>
      have hcount : unseen nodes s ≤ budget := by
        refine Nat.le_trans (Finset.card_le_card Finset.sdiff_subset) ?_
        exact Nat.le_trans (List.toFinset_card_le nodes) hbudget
      have hnode : Explores successors s (visitUnseen successors budget s node) ∧
          node ∈ (visitUnseen successors budget s node).seen := by
        rw [visitUnseen]
        split
        · next hseen => exact ⟨.refl s, hseen⟩
        · next hno =>
          obtain ⟨t, hcourse, hvisited⟩ :=
            visit_course hclosed (hstarts node List.mem_cons_self) hno hcount
          obtain ⟨hexplores, hnext⟩ := hcourse.explores
          rw [hvisited]
          exact ⟨hexplores.leave hnext, hexplores.seen node List.mem_cons_self⟩
      obtain ⟨hexplores, hseen⟩ := ih (s := visitUnseen successors budget s node)
        fun x hx => hstarts x (List.mem_cons_of_mem node hx)
      rw [List.foldl_cons]
      refine ⟨hnode.1.trans hexplores, fun x hx => ?_⟩
      rcases List.mem_cons.mp hx with rfl | hx
      · exact hexplores.seen x hnode.2
      · exact hseen x hx

/-- The nodes that a run finds contain the starts. -/
theorem mem_run_of_start (hclosed : ∀ x ∈ nodes, ∀ y ∈ successors x, y ∈ nodes)
    (hbudget : nodes.length ≤ budget) {starts : List α} (hstarts : ∀ x ∈ starts, x ∈ nodes)
    {x : α} (hx : x ∈ starts) : x ∈ (run successors budget starts).finished := by
  obtain ⟨hexplores, hseen⟩ := visitUnseen_explores (s := begin) hclosed hbudget hstarts
  exact (hexplores.entered x (hseen x hx) List.not_mem_nil).1

/-- The nodes that a run finds contain their successors. -/
theorem mem_run_of_successor (hclosed : ∀ x ∈ nodes, ∀ y ∈ successors x, y ∈ nodes)
    (hbudget : nodes.length ≤ budget) {starts : List α} (hstarts : ∀ x ∈ starts, x ∈ nodes)
    {x y : α} (hx : x ∈ (run successors budget starts).finished) (hy : y ∈ successors x) :
    y ∈ (run successors budget starts).finished := by
  obtain ⟨hexplores, -⟩ := visitUnseen_explores (s := begin) hclosed hbudget hstarts
  have hseen := (hexplores.left x hx).resolve_left List.not_mem_nil
  have hnext := (hexplores.entered x hseen List.not_mem_nil).2 y hy
  exact (hexplores.entered y hnext List.not_mem_nil).1

/-! ## Nothing else is found -/

variable {P : α → Prop}

theorem finished_of_visit (hstep : ∀ x, P x → ∀ y ∈ successors x, P y) {node : α}
    (hnode : P node) (hs : ∀ x ∈ s.finished, P x) :
    ∀ x ∈ (visit successors budget node s).finished, P x := by
  induction budget generalizing node s with
  | zero => exact hs
  | succ budget ih =>
      have hnext : ∀ next : List α, (∀ y ∈ next, P y) → ∀ s : Search α,
          (∀ x ∈ s.finished, P x) →
          ∀ x ∈ (next.foldl (deal successors budget node) s).finished, P x := by
        intro next hP
        induction next with
        | nil => exact fun s hs => hs
        | cons y rest ihrest =>
            intro s hs
            refine ihrest (fun x hx => hP x (List.mem_cons_of_mem y hx)) _ ?_
            rw [deal]
            split
            · exact ih (hP y List.mem_cons_self) hs
            · split
              · exact hs
              · exact hs
      rw [visit_succ]
      intro x hx
      rcases List.mem_cons.mp hx with rfl | hx
      · exact hnode
      · exact hnext (successors node) (hstep node hnode) { s with seen := node :: s.seen } hs x hx

/-- What a run finds has every property of the starts that passes to successors. -/
theorem finished_of_run (hstep : ∀ x, P x → ∀ y ∈ successors x, P y) {starts : List α}
    (hstarts : ∀ x ∈ starts, P x) : ∀ x ∈ (run successors budget starts).finished, P x := by
  have hfold : ∀ s : Search α, (∀ x ∈ s.finished, P x) →
      ∀ x ∈ (starts.foldl (visitUnseen successors budget) s).finished, P x := by
    induction starts with
    | nil => exact fun s hs => hs
    | cons node rest ih =>
        intro s hs
        refine ih (fun x hx => hstarts x (List.mem_cons_of_mem node hx)) _ ?_
        rw [visitUnseen]
        split
        · exact hs
        · exact finished_of_visit hstep (hstarts node List.mem_cons_self) hs
  exact hfold begin fun x hx => absurd hx List.not_mem_nil

/-- A run finds exactly the nodes that are reached from its starts. -/
theorem mem_run_iff (hclosed : ∀ x ∈ nodes, ∀ y ∈ successors x, y ∈ nodes)
    (hbudget : nodes.length ≤ budget) {starts : List α} (hstarts : ∀ x ∈ starts, x ∈ nodes)
    {x : α} : x ∈ (run successors budget starts).finished ↔
      ∃ a ∈ starts, Relation.ReflTransGen (fun x y => y ∈ successors x) a x := by
  constructor
  · refine finished_of_run
      (P := fun x => ∃ a ∈ starts, Relation.ReflTransGen (fun x y => y ∈ successors x) a x)
      (fun y hy z hz => ?_) (fun a ha => ⟨a, ha, .refl⟩) x
    obtain ⟨a, ha, hpath⟩ := hy
    exact ⟨a, ha, hpath.tail hz⟩
  · rintro ⟨a, ha, hpath⟩
    induction hpath with
    | refl => exact mem_run_of_start hclosed hbudget hstarts ha
    | tail _ hy ih => exact mem_run_of_successor hclosed hbudget hstarts ih hy

end TaintAnalysis.Search
