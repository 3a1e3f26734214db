import Mathlib.Data.Prod.Lex
import Mathlib.Logic.Relation
import TaintAnalysis.Proofs.Flow.Search

/-!
# Worklists

A loop takes steps until its state allows for none, and `EndsIn` says where it ends. That it ends
follows from an invariant and a measure that descends with every step.

Two kinds of worklist collect what is reached from a start. They differ in when a node is marked. A
`Walk` marks a node when it is taken from the list, so a node may be listed several times and is
passed over when it comes up again. What it covers does not depend on the end of the list at which
nodes are put (`Covers`). A `Flood` marks a node when it is put on the list, and lists it once. In
both of them a step either marks a node that was not marked before, or it makes the list shorter.
-/

namespace TaintAnalysis

/-- A loop that starts in one state takes steps as long as it can, and ends in the other. -/
def EndsIn {σ : Type} (step : σ → Option σ) (s t : σ) : Prop :=
  Relation.ReflTransGen (fun s t => step s = some t) s t ∧ step t = none

theorem exists_endsIn {σ : Type} {step : σ → Option σ} (Inv : σ → Prop)
    (measure : σ → Nat × Nat)
    (hstep : ∀ s t, Inv s → step s = some t →
      Inv t ∧ Prod.Lex (· < ·) (· < ·) (measure t) (measure s)) {s : σ} (hs : Inv s) :
    ∃ t, EndsIn step s t ∧ Inv t := by
  have hwf : WellFounded fun a b => Prod.Lex (· < ·) (· < ·) (measure a) (measure b) :=
    InvImage.wf measure (Prod.lex Nat.lt_wfRel Nat.lt_wfRel).wf
  induction s using hwf.induction with
  | _ s ih =>
      cases hnext : step s with
      | none => exact ⟨s, ⟨.refl, hnext⟩, hs⟩
      | some t =>
          obtain ⟨ht, hless⟩ := hstep s t hs hnext
          obtain ⟨u, ⟨hsteps, hend⟩, hu⟩ := ih t hless ht
          exact ⟨u, ⟨hsteps.head hnext, hend⟩, hu⟩

variable {α β : Type} {nodes : List α} {next : α → List α}

theorem mem_of_reached (hnodes : ∀ x ∈ nodes, ∀ y ∈ next x, y ∈ nodes) {start : α}
    (hstart : start ∈ nodes) :
    ∀ x, Relation.ReflTransGen (fun x y => y ∈ next x) start x → x ∈ nodes := by
  intro x hx
  induction hx with
  | refl => exact hstart
  | tail _ hy ih => exact hnodes _ ih _ hy

theorem mem_of_reached_from (hnodes : ∀ x ∈ nodes, ∀ y ∈ next x, y ∈ nodes) {starts : List α}
    (hstarts : ∀ x ∈ starts, x ∈ nodes) {x : α}
    (h : ∃ a ∈ starts, Relation.ReflTransGen (fun x y => y ∈ next x) a x) : x ∈ nodes := by
  obtain ⟨a, ha, hpath⟩ := h
  exact mem_of_reached hnodes (hstarts a ha) x hpath

/-- What holds throughout a search from the starts that marks a node when it takes it from its list,
however the list is kept. -/
structure Covers (next : α → List α) (starts visited pending : List α) : Prop where
  listed : ∀ x ∈ starts, x ∈ visited ∨ x ∈ pending
  reached : ∀ x, x ∈ visited ∨ x ∈ pending →
    ∃ a ∈ starts, Relation.ReflTransGen (fun x y => y ∈ next x) a x
  next : ∀ x ∈ visited, ∀ y ∈ next x, y ∈ visited ∨ y ∈ pending

namespace Covers

variable {starts visited pending rest : List α} {x : α}

theorem begin (next : α → List α) (starts : List α) : Covers next starts [] starts where
  listed := fun _ hx => .inr hx
  reached := fun x hx => ⟨x, hx.resolve_left List.not_mem_nil, .refl⟩
  next := nofun

/-- A node that has been visited need not be listed. -/
theorem skip (h : Covers next starts visited (x :: rest)) (hx : x ∈ visited) :
    Covers next starts visited rest := by
  have hkept : ∀ y, y ∈ visited ∨ y ∈ x :: rest → y ∈ visited ∨ y ∈ rest := by
    intro y hy
    rcases hy with hy | hy
    · exact .inl hy
    · rcases List.mem_cons.mp hy with rfl | hy
      · exact .inl hx
      · exact .inr hy
  exact
    { listed := fun y hy => hkept y (h.listed y hy)
      reached := fun y hy => h.reached y (hy.imp_right (List.mem_cons_of_mem x))
      next := fun y hy z hz => hkept z (h.next y hy z hz) }

/-- A node is visited, and those that come next join the list, wherever they are put. -/
theorem visit (h : Covers next starts visited (x :: rest))
    (hpending : ∀ y, y ∈ pending ↔ y ∈ rest ∨ y ∈ next x) :
    Covers next starts (x :: visited) pending := by
  have hx := h.reached x (.inr List.mem_cons_self)
  have hkept : ∀ y, y ∈ visited ∨ y ∈ x :: rest → y ∈ x :: visited ∨ y ∈ pending := by
    intro y hy
    rcases hy with hy | hy
    · exact .inl (List.mem_cons_of_mem x hy)
    · rcases List.mem_cons.mp hy with rfl | hy
      · exact .inl List.mem_cons_self
      · exact .inr ((hpending y).mpr (.inl hy))
  refine ⟨fun y hy => hkept y (h.listed y hy), fun y hy => ?_, fun y hy z hz => ?_⟩
  · rw [List.mem_cons, hpending] at hy
    rcases hy with (rfl | hy) | hy | hy
    · exact hx
    · exact h.reached y (.inl hy)
    · exact h.reached y (.inr (List.mem_cons_of_mem x hy))
    · obtain ⟨a, ha, hpath⟩ := hx
      exact ⟨a, ha, hpath.tail hy⟩
  · rcases List.mem_cons.mp hy with rfl | hy
    · exact .inr ((hpending z).mpr (.inr hz))
    · exact hkept z (h.next y hy z hz)

theorem pending_subset (h : Covers next starts visited pending)
    (hnodes : ∀ x ∈ nodes, ∀ y ∈ next x, y ∈ nodes) (hstarts : ∀ x ∈ starts, x ∈ nodes) :
    pending ⊆ nodes :=
  fun x hx => mem_of_reached_from hnodes hstarts (h.reached x (.inr hx))

/-- Once the list is empty, exactly the nodes that are reached from a start have been visited. -/
theorem mem_visited_iff (h : Covers next starts visited []) :
    x ∈ visited ↔ ∃ a ∈ starts, Relation.ReflTransGen (fun x y => y ∈ next x) a x := by
  have hvisited : ∀ x, x ∈ visited ∨ x ∈ ([] : List α) → x ∈ visited := fun _ hx =>
    hx.resolve_right List.not_mem_nil
  refine ⟨fun hx => h.reached x (.inl hx), fun hx => ?_⟩
  obtain ⟨a, ha, hpath⟩ := hx
  induction hpath with
  | refl => exact hvisited a (h.listed a ha)
  | tail _ hy ih => exact hvisited _ (h.next _ ih _ hy)

end Covers

variable [DecidableEq α]

/-- How many of the nodes are not marked. -/
def unmarked (nodes marked : List α) : Nat :=
  (nodes.toFinset \ marked.toFinset).card

theorem unmarked_cons_lt {marked : List α} {x : α} (hx : x ∈ nodes) (hno : x ∉ marked) :
    unmarked nodes (x :: marked) < unmarked nodes marked :=
  Search.unseen_enter (s := ⟨marked, [], []⟩) hx hno

/-! ## Marking what is taken from the list -/

/-- The state of a loop that marks nodes when it takes them from its list. -/
structure Walk (α β : Type) where
  /-- The nodes to look at, the next one first. -/
  pending : List α
  /-- The nodes looked at so far. -/
  visited : List α
  /-- What has been picked up at them. -/
  found : List β

namespace Walk

variable {pick : α → List β} {start : α} {w w' : Walk α β}

def begin (start : α) : Walk α β :=
  ⟨[start], [], []⟩

/-- Takes the next node from the list. If it is new, what is there is picked up, and the nodes that
come next are put on the list, the last of them in front. -/
def step (next : α → List α) (pick : α → List β) (w : Walk α β) : Option (Walk α β) :=
  match w.pending with
  | [] => none
  | x :: rest =>
      if x ∈ w.visited then some { w with pending := rest }
      else
        some
          { pending := (next x).reverse ++ rest
            visited := x :: w.visited
            found := w.found ++ pick x }

/-- What holds throughout a walk from a node. -/
structure Sound (next : α → List α) (pick : α → List β) (start : α) (w : Walk α β) : Prop where
  covers : Covers next [start] w.visited w.pending
  found : ∀ y, y ∈ w.found ↔ ∃ x ∈ w.visited, y ∈ pick x

omit [DecidableEq α] in
theorem sound_begin (next : α → List α) (pick : α → List β) (start : α) :
    Sound next pick start (begin start) where
  covers := .begin next [start]
  found := by simp [begin]

theorem Sound.step (h : Sound next pick start w) (hstep : w.step next pick = some w') :
    Sound next pick start w' := by
  obtain ⟨pending, visited, found⟩ := w
  cases pending with
  | nil => exact nomatch hstep
  | cons x rest =>
      rw [Walk.step] at hstep
      dsimp only at hstep
      split at hstep
      · next hvisited =>
        obtain rfl := Option.some.inj hstep
        exact ⟨h.covers.skip hvisited, h.found⟩
      · obtain rfl := Option.some.inj hstep
        refine ⟨h.covers.visit fun y => ?_, fun y => ?_⟩
        · rw [List.mem_append, List.mem_reverse, or_comm]
        · have hfound := h.found y
          simp only at hfound
          rw [List.mem_append, hfound, List.exists_mem_cons_iff, or_comm]

/-- A step visits a node that was not visited before, or the list becomes shorter. -/
theorem step_descends (hpending : w.pending ⊆ nodes) (hstep : w.step next pick = some w') :
    Prod.Lex (· < ·) (· < ·) (unmarked nodes w'.visited, w'.pending.length)
      (unmarked nodes w.visited, w.pending.length) := by
  obtain ⟨pending, visited, found⟩ := w
  cases pending with
  | nil => exact nomatch hstep
  | cons x rest =>
      rw [Walk.step] at hstep
      dsimp only at hstep
      split at hstep
      · obtain rfl := Option.some.inj hstep
        exact .right _ (Nat.lt_succ_self rest.length)
      · next hvisited =>
        obtain rfl := Option.some.inj hstep
        exact .left _ _ (unmarked_cons_lt (hpending List.mem_cons_self) hvisited)

theorem step_eq_none_iff : w.step next pick = none ↔ w.pending = [] := by
  obtain ⟨pending, visited, found⟩ := w
  cases pending with
  | nil => exact iff_of_true rfl rfl
  | cons x rest =>
      refine iff_of_false ?_ (List.cons_ne_nil x rest)
      rw [step]
      dsimp only
      split <;> exact Option.some_ne_none _

/-- A walk among finitely many nodes ends, and by then it has picked up what is to be found at the
nodes that are reached from where it started. -/
theorem exists_end (pick : α → List β) (hnodes : ∀ x ∈ nodes, ∀ y ∈ next x, y ∈ nodes)
    (hstart : start ∈ nodes) :
    ∃ w, EndsIn (step next pick) (begin start) w ∧ ∀ y, y ∈ w.found ↔
      ∃ x, Relation.ReflTransGen (fun x y => y ∈ next x) start x ∧ y ∈ pick x := by
  obtain ⟨w, hend, hw⟩ := exists_endsIn (Sound next pick start)
    (fun w => (unmarked nodes w.visited, w.pending.length))
    (fun w w' hw hstep => ⟨hw.step hstep, step_descends
      (hw.covers.pending_subset hnodes (List.forall_mem_singleton.mpr hstart)) hstep⟩)
    (sound_begin next pick start)
  have hcovers := hw.covers
  rw [step_eq_none_iff.mp hend.2] at hcovers
  refine ⟨w, hend, fun y => (hw.found y).trans ?_⟩
  simp only [hcovers.mem_visited_iff, List.mem_singleton, exists_eq_left]

end Walk

/-! ## Marking what is put on the list -/

/-- The state of a loop that marks nodes when it puts them on its list. -/
structure Flood (α : Type) where
  /-- The nodes to look at, the next one first. -/
  pending : List α
  /-- The nodes that have been listed, and a barrier that never is. -/
  marked : List α

namespace Flood

variable {start barrier : α} {w w' : Flood α}

/-- The barrier is marked from the beginning, so the flood does not pass it. -/
def begin (start barrier : α) : Flood α :=
  ⟨[start], [start, barrier]⟩

/-- Lists a node that has not been marked. -/
def mark (w : Flood α) (y : α) : Flood α :=
  if y ∈ w.marked then w else ⟨y :: w.pending, y :: w.marked⟩

/-- Takes the next node from the list and marks those that come after it. -/
def step (next : α → List α) (w : Flood α) : Option (Flood α) :=
  match w.pending with
  | [] => none
  | x :: rest => some ((next x).foldl mark ⟨rest, w.marked⟩)

theorem mem_marked_foldl {l : List α} {x : α} :
    x ∈ (l.foldl mark w).marked ↔ x ∈ w.marked ∨ x ∈ l := by
  induction l generalizing w with
  | nil => simp
  | cons y rest ih =>
      rw [List.foldl_cons, ih, mark]
      split
      · next hy =>
        simp only [List.mem_cons]
        refine ⟨fun h => h.imp_right .inr, ?_⟩
        rintro (h | rfl | h)
        · exact .inl h
        · exact .inl hy
        · exact .inr h
      · simp only [List.mem_cons]
        tauto

theorem mem_pending_foldl {l : List α} {x : α} :
    x ∈ (l.foldl mark w).pending ↔ x ∈ w.pending ∨ x ∈ l ∧ x ∉ w.marked := by
  induction l generalizing w with
  | nil => simp
  | cons y rest ih =>
      rw [List.foldl_cons, ih, mark]
      split
      · next hy =>
        simp only [List.mem_cons]
        refine or_congr_right ⟨fun h => ⟨.inr h.1, h.2⟩, ?_⟩
        rintro ⟨rfl | h, hno⟩
        · exact absurd hy hno
        · exact ⟨h, hno⟩
      · next hy =>
        simp only [List.mem_cons]
        by_cases hxy : x = y
        · subst hxy
          simp [hy]
        · simp [hxy]

/-- What is put on the list was not marked before. -/
theorem foldl_mark_descends {l : List α} (hl : l ⊆ nodes) :
    (l.foldl mark w).pending = w.pending ∧ (l.foldl mark w).marked = w.marked ∨
      unmarked nodes (l.foldl mark w).marked < unmarked nodes w.marked := by
  induction l generalizing w with
  | nil => exact .inl ⟨rfl, rfl⟩
  | cons y rest ih =>
      obtain ⟨hy, hrest⟩ := List.cons_subset.mp hl
      rw [List.foldl_cons, mark]
      split
      · exact ih hrest
      · next hno =>
        right
        have hless := unmarked_cons_lt hy hno
        rcases ih (w := ⟨y :: w.pending, y :: w.marked⟩) hrest with ⟨-, hsame⟩ | hmore
        · rwa [hsame]
        · exact hmore.trans hless

/-- What holds throughout a flood from a node. -/
structure Sound (next : α → List α) (start barrier : α) (w : Flood α) : Prop where
  entered : start ∈ w.marked
  barred : barrier ∈ w.marked
  listed : ∀ x ∈ w.pending, x ∈ w.marked ∧ x ≠ barrier
  reached : ∀ x ∈ w.marked, x = barrier ∨ Relation.ReflTransGen (fun x y => y ∈ next x) start x
  next : ∀ x ∈ w.marked, x = barrier ∨ x ∈ w.pending ∨ ∀ y ∈ next x, y ∈ w.marked

omit [DecidableEq α] in
theorem sound_begin (next : α → List α) (hne : start ≠ barrier) :
    Sound next start barrier (begin start barrier) where
  entered := by simp [begin]
  barred := by simp [begin]
  listed := by simp [begin, hne]
  reached := by
    intro x hx
    have hx : x = start ∨ x = barrier := by simpa [begin] using hx
    rcases hx with rfl | rfl
    · exact .inr .refl
    · exact .inl rfl
  next := by
    intro x hx
    have hx : x = start ∨ x = barrier := by simpa [begin] using hx
    rcases hx with rfl | rfl
    · exact .inr (.inl List.mem_cons_self)
    · exact .inl rfl

theorem Sound.step (h : Sound next start barrier w) (hstep : w.step next = some w') :
    Sound next start barrier w' := by
  obtain ⟨pending, marked⟩ := w
  cases pending with
  | nil => exact nomatch hstep
  | cons x rest =>
      obtain rfl := Option.some.inj hstep
      obtain ⟨hx, hxb⟩ := h.listed x List.mem_cons_self
      have hreached := (h.reached x hx).resolve_left hxb
      have hmarked : ∀ y ∈ marked, y ∈ ((next x).foldl mark ⟨rest, marked⟩).marked :=
        fun y hy => mem_marked_foldl.mpr (.inl hy)
      refine ⟨hmarked _ h.entered, hmarked _ h.barred, fun y hy => ?_, fun y hy => ?_,
        fun y hy => ?_⟩
      · rcases mem_pending_foldl.mp hy with hy | ⟨hy, hno⟩
        · obtain ⟨hmem, hne⟩ := h.listed y (List.mem_cons_of_mem x hy)
          exact ⟨hmarked y hmem, hne⟩
        · refine ⟨mem_marked_foldl.mpr (.inr hy), ?_⟩
          rintro rfl
          exact hno h.barred
      · rcases mem_marked_foldl.mp hy with hy | hy
        · exact h.reached y hy
        · exact .inr (hreached.tail hy)
      · by_cases hold : y ∈ marked
        · rcases h.next y hold with hyb | hlisted | hnext
          · exact .inl hyb
          · rcases List.mem_cons.mp hlisted with rfl | hlisted
            · exact .inr (.inr fun z hz => mem_marked_foldl.mpr (.inr hz))
            · exact .inr (.inl (mem_pending_foldl.mpr (.inl hlisted)))
          · exact .inr (.inr fun z hz => hmarked z (hnext z hz))
        · have hy := (mem_marked_foldl.mp hy).resolve_left hold
          exact .inr (.inl (mem_pending_foldl.mpr (.inr ⟨hy, hold⟩)))

/-- A step marks a node that was not marked before, or the list becomes shorter. -/
theorem step_descends (hnodes : ∀ x ∈ w.pending, next x ⊆ nodes) (hstep : w.step next = some w') :
    Prod.Lex (· < ·) (· < ·) (unmarked nodes w'.marked, w'.pending.length)
      (unmarked nodes w.marked, w.pending.length) := by
  obtain ⟨pending, marked⟩ := w
  cases pending with
  | nil => exact nomatch hstep
  | cons x rest =>
      obtain rfl := Option.some.inj hstep
      rcases foldl_mark_descends (w := ⟨rest, marked⟩) (hnodes x List.mem_cons_self) with
        ⟨hpending, hmarked⟩ | hless
      · rw [hpending, hmarked]
        exact .right _ (Nat.lt_succ_self rest.length)
      · exact .left _ _ hless

theorem step_eq_none_iff : w.step next = none ↔ w.pending = [] := by
  obtain ⟨pending, marked⟩ := w
  cases pending with
  | nil => exact iff_of_true rfl rfl
  | cons x rest => exact iff_of_false (Option.some_ne_none _) (List.cons_ne_nil x rest)

/-- A flood among finitely many nodes ends, and by then it has marked the barrier and what is
reached from where it started. -/
theorem exists_end (hnodes : ∀ x ∈ nodes, ∀ y ∈ next x, y ∈ nodes) (hstart : start ∈ nodes)
    (hbarrier : ∀ x, barrier ∉ next x) (hne : start ≠ barrier) :
    ∃ w, EndsIn (step next) (begin start barrier) w ∧ ∀ x, x ∈ w.marked ↔
      x = barrier ∨ Relation.ReflTransGen (fun x y => y ∈ next x) start x := by
  have hmem := mem_of_reached hnodes hstart
  obtain ⟨w, hend, hw⟩ := exists_endsIn (Sound next start barrier)
    (fun w => (unmarked nodes w.marked, w.pending.length))
    (fun w w' hw hstep => by
      refine ⟨hw.step hstep, step_descends (fun x hx y hy => ?_) hstep⟩
      obtain ⟨hmarked, hxb⟩ := hw.listed x hx
      exact hnodes x (hmem x ((hw.reached x hmarked).resolve_left hxb)) y hy)
    (sound_begin next hne)
  have hdone : w.pending = [] := step_eq_none_iff.mp hend.2
  refine ⟨w, hend, fun x => ⟨hw.reached x, ?_⟩⟩
  rintro (rfl | hx)
  · exact hw.barred
  · -- the nodes that are reached are none of them the barrier
    suffices h : x ∈ w.marked ∧ x ≠ barrier from h.1
    induction hx with
    | refl => exact ⟨hw.entered, hne⟩
    | @tail y z _ hz ih =>
        have hnext : ∀ z ∈ next y, z ∈ w.marked := by
          rcases hw.next y ih.1 with hyb | hlisted | hnext
          · exact absurd hyb ih.2
          · rw [hdone] at hlisted
            exact absurd hlisted List.not_mem_nil
          · exact hnext
        refine ⟨hnext z hz, ?_⟩
        rintro rfl
        exact hbarrier y hz

end Flood

end TaintAnalysis
