/-!
# Finite sets of numbers in ascending order

Variables, taint sources, parameters, memory locations and worklist positions
are all numbered, and every loop over a set of them runs in ascending order. A
set is its strictly ascending list of elements, so two sets with the same
members are equal (`IdSet.ext`), and reasoning about a set is reasoning about
membership.
-/

namespace TaintAnalysis

/-- A finite set of natural numbers. -/
structure IdSet where
  /-- The members, in ascending order. -/
  elems : List Nat
  /-- The order is strict, so no member is listed twice. -/
  ascending : elems.Pairwise (· < ·)
  deriving DecidableEq

namespace IdSet

/-- The set without members. -/
def empty : IdSet where
  elems := []
  ascending := List.Pairwise.nil

instance : Inhabited IdSet := ⟨empty⟩

instance : Membership Nat IdSet := ⟨fun s n => n ∈ s.elems⟩

instance (n : Nat) (s : IdSet) : Decidable (n ∈ s) :=
  inferInstanceAs (Decidable (n ∈ s.elems))

def contains (s : IdSet) (n : Nat) : Bool :=
  decide (n ∈ s)

def size (s : IdSet) : Nat :=
  s.elems.length

def isEmpty (s : IdSet) : Bool :=
  s.elems.isEmpty

/-- Puts a number into its place in an ascending list. -/
def place (n : Nat) : List Nat → List Nat
  | [] => [n]
  | m :: rest => if n < m then n :: m :: rest else if n = m then m :: rest else m :: place n rest

theorem mem_place {n k : Nat} {l : List Nat} : k ∈ place n l ↔ k = n ∨ k ∈ l := by
  induction l with
  | nil => simp [place]
  | cons m rest ih =>
      unfold place
      split
      · simp
      · split
        · next h => simp [h]
        · simp only [List.mem_cons, ih]
          exact or_left_comm

theorem ascending_place {n : Nat} {l : List Nat} (h : l.Pairwise (· < ·)) :
    (place n l).Pairwise (· < ·) := by
  induction l with
  | nil => simp [place]
  | cons m rest ih =>
      rw [List.pairwise_cons] at h
      unfold place
      split
      · next hlt =>
        refine List.pairwise_cons.2 ⟨?_, List.pairwise_cons.2 h⟩
        intro k hk
        rcases List.mem_cons.1 hk with rfl | hk
        · exact hlt
        · exact Nat.lt_trans hlt (h.1 k hk)
      · split
        · exact List.pairwise_cons.2 h
        · refine List.pairwise_cons.2 ⟨?_, ih h.2⟩
          intro k hk
          rcases mem_place.1 hk with rfl | hk
          · omega
          · exact h.1 k hk

def insert (n : Nat) (s : IdSet) : IdSet where
  elems := place n s.elems
  ascending := ascending_place s.ascending

def ofList (l : List Nat) : IdSet :=
  l.foldr insert empty

def singleton (n : Nat) : IdSet where
  elems := [n]
  ascending := List.pairwise_singleton _ n

def union (s t : IdSet) : IdSet :=
  s.elems.foldr insert t

instance : Union IdSet := ⟨union⟩

def unions (l : List IdSet) : IdSet :=
  l.foldr union empty

/-- The least member and the set without it. -/
def popMin? (s : IdSet) : Option (Nat × IdSet) :=
  match s with
  | ⟨[], _⟩ => none
  | ⟨n :: rest, h⟩ => some (n, ⟨rest, (List.pairwise_cons.1 h).2⟩)

/-! ## Membership -/

theorem mem_def {n : Nat} {s : IdSet} : n ∈ s ↔ n ∈ s.elems := Iff.rfl

@[simp] theorem not_mem_empty (n : Nat) : ¬ n ∈ empty := by
  simp [mem_def, empty]

@[simp] theorem mem_insert {n k : Nat} {s : IdSet} : k ∈ insert n s ↔ k = n ∨ k ∈ s :=
  mem_place

@[simp] theorem mem_singleton {n k : Nat} : k ∈ singleton n ↔ k = n := by
  simp [mem_def, singleton]

@[simp] theorem mem_ofList {k : Nat} {l : List Nat} : k ∈ ofList l ↔ k ∈ l := by
  induction l with
  | nil => simp [ofList]
  | cons m rest ih =>
      rw [ofList, List.foldr_cons, mem_insert, List.mem_cons]
      exact or_congr_right ih

@[simp] theorem mem_union {k : Nat} {s t : IdSet} : k ∈ s ∪ t ↔ k ∈ s ∨ k ∈ t := by
  obtain ⟨l, hl⟩ := s
  show k ∈ l.foldr insert t ↔ k ∈ l ∨ k ∈ t
  clear hl
  induction l with
  | nil => simp
  | cons m rest ih => rw [List.foldr_cons, mem_insert, ih, List.mem_cons, or_assoc]

@[simp] theorem mem_unions {k : Nat} {l : List IdSet} : k ∈ unions l ↔ ∃ s ∈ l, k ∈ s := by
  induction l with
  | nil => simp [unions]
  | cons s rest ih =>
      rw [unions, List.foldr_cons]
      rw [show union s (rest.foldr union empty) = s ∪ unions rest from rfl, mem_union, ih]
      simp

/-- Two sets with the same members are equal. -/
theorem ext {s t : IdSet} (h : ∀ n, n ∈ s ↔ n ∈ t) : s = t := by
  obtain ⟨l, hl⟩ := s
  obtain ⟨r, hr⟩ := t
  have hmem : ∀ n, n ∈ l ↔ n ∈ r := h
  clear h
  suffices l = r by subst this; rfl
  induction l generalizing r with
  | nil =>
      cases r with
      | nil => rfl
      | cons b bs => exact absurd ((hmem b).2 (List.mem_cons_self ..)) (by simp)
  | cons a as ih =>
      cases r with
      | nil => exact absurd ((hmem a).1 (List.mem_cons_self ..)) (by simp)
      | cons b bs =>
          rw [List.pairwise_cons] at hl hr
          have hab : a = b := by
            rcases List.mem_cons.1 ((hmem a).1 (List.mem_cons_self ..)) with h | h
            · exact h
            · rcases List.mem_cons.1 ((hmem b).2 (List.mem_cons_self ..)) with h' | h'
              · exact h'.symm
              · have := hl.1 b h'
                have := hr.1 a h
                omega
          subst hab
          have htail : ∀ n, n ∈ as ↔ n ∈ bs := by
            intro n
            constructor
            · intro hn
              rcases List.mem_cons.1 ((hmem n).1 (List.mem_cons_of_mem _ hn)) with h | h
              · exact absurd (hl.1 n hn) (by omega)
              · exact h
            · intro hn
              rcases List.mem_cons.1 ((hmem n).2 (List.mem_cons_of_mem _ hn)) with h | h
              · exact absurd (hr.1 n hn) (by omega)
              · exact h
          rw [ih hl.2 bs hr.2 htail]

end IdSet

end TaintAnalysis
