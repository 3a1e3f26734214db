/-!
# Finite maps that remember insertion order

The blocks of a function, the functions of a program and the entries of a
report are shown in the order in which they were first added, and a second
insertion under a known key replaces the value where it stands. The map is its
list of entries together with the fact that no key occurs twice, so two maps
are equal exactly when they list the same entries in the same order.

The lemmas say what each operation does to the two views of a map: its keys in
order, and the value it holds for a key.
-/

namespace TaintAnalysis

/-- A map from `κ` to `ν` that lists its entries in order of first insertion. -/
structure OrderedMap (κ ν : Type) where
  /-- The entries, oldest key first. -/
  entries : List (κ × ν)
  /-- No key is listed twice. -/
  nodup : (entries.map Prod.fst).Nodup
  deriving DecidableEq

namespace OrderedMap

variable {κ ν : Type}

/-- The map without entries. -/
def empty : OrderedMap κ ν where
  entries := []
  nodup := List.nodup_nil

instance : Inhabited (OrderedMap κ ν) := ⟨empty⟩

/-- The keys, oldest first. -/
def keys (m : OrderedMap κ ν) : List κ :=
  m.entries.map Prod.fst

/-- The values, in the order of their keys. -/
def values (m : OrderedMap κ ν) : List ν :=
  m.entries.map Prod.snd

def size (m : OrderedMap κ ν) : Nat :=
  m.entries.length

/-- The sum of a measure over all values. -/
def weight (measure : ν → Nat) (m : OrderedMap κ ν) : Nat :=
  m.values.foldr (fun v total => measure v + total) 0

/-- Applies `f` to every value and leaves the keys alone. -/
def mapValues {ω : Type} (f : κ → ν → ω) (m : OrderedMap κ ν) : OrderedMap κ ω where
  entries := m.entries.map fun e => (e.1, f e.1 e.2)
  nodup := by simpa [Function.comp_def] using m.nodup

/-- Keeps the entries whose key satisfies `p`, in their order. -/
def filterKeys (p : κ → Bool) (m : OrderedMap κ ν) : OrderedMap κ ν where
  entries := m.entries.filter fun e => p e.1
  nodup := m.nodup.sublist (List.filter_sublist.map _)

@[simp] theorem keys_empty : (empty : OrderedMap κ ν).keys = [] := rfl

@[simp] theorem keys_mapValues {ω : Type} (f : κ → ν → ω) (m : OrderedMap κ ν) :
    (m.mapValues f).keys = m.keys := by
  simp [keys, mapValues, Function.comp_def]

@[simp] theorem keys_filterKeys (p : κ → Bool) (m : OrderedMap κ ν) :
    (m.filterKeys p).keys = m.keys.filter p := by
  simp [keys, filterKeys, List.filter_map, Function.comp_def]

variable [DecidableEq κ]

def get? (m : OrderedMap κ ν) (k : κ) : Option ν :=
  m.entries.lookup k

def contains (m : OrderedMap κ ν) (k : κ) : Bool :=
  (m.get? k).isSome

/-- Puts `v` under `k`: in place where `k` stands already, at the end otherwise. -/
def insertEntry (k : κ) (v : ν) : List (κ × ν) → List (κ × ν)
  | [] => [(k, v)]
  | e :: rest => if e.1 = k then (k, v) :: rest else e :: insertEntry k v rest

theorem keys_insertEntry (k : κ) (v : ν) (es : List (κ × ν)) :
    (insertEntry k v es).map Prod.fst =
      if k ∈ es.map Prod.fst then es.map Prod.fst else es.map Prod.fst ++ [k] := by
  induction es with
  | nil => simp [insertEntry]
  | cons e rest ih =>
      by_cases h : e.1 = k
      · simp [insertEntry, h]
      · have h' : ¬ k = e.1 := fun hk => h hk.symm
        by_cases hr : k ∈ rest.map Prod.fst
        · simp only [insertEntry, if_neg h, List.map_cons, ih, List.mem_cons, hr, or_true,
            if_true]
        · simp only [insertEntry, if_neg h, List.map_cons, ih, List.mem_cons, h', hr, or_self,
            if_false, List.cons_append]

/-- The map with `v` under `k`. A known key keeps its place. -/
def insert (m : OrderedMap κ ν) (k : κ) (v : ν) : OrderedMap κ ν where
  entries := insertEntry k v m.entries
  nodup := by
    rw [keys_insertEntry]
    split
    · exact m.nodup
    · next h =>
      refine List.nodup_append.2 ⟨m.nodup, by simp, ?_⟩
      intro a ha b hb hab
      rw [List.mem_singleton] at hb
      exact h (hb ▸ hab ▸ ha)

/-- Changes the value under `k` by `f` and leaves a map without `k` alone. -/
def modify (m : OrderedMap κ ν) (k : κ) (f : ν → ν) : OrderedMap κ ν :=
  m.mapValues fun k' v => if k' = k then f v else v

/-- The map that inserts the pairs of a list one after the other. -/
def ofList (pairs : List (κ × ν)) : OrderedMap κ ν :=
  pairs.foldl (fun m p => m.insert p.1 p.2) empty

/-! ## The views of each operation -/

@[simp] theorem get?_empty (k : κ) : (empty : OrderedMap κ ν).get? k = none := rfl

theorem keys_insert (m : OrderedMap κ ν) (k : κ) (v : ν) :
    (m.insert k v).keys = if k ∈ m.keys then m.keys else m.keys ++ [k] :=
  keys_insertEntry k v m.entries

theorem lookup_insertEntry (k k' : κ) (v : ν) (es : List (κ × ν)) :
    (insertEntry k v es).lookup k' = if k' = k then some v else es.lookup k' := by
  induction es with
  | nil =>
      by_cases h : k' = k
      · simp [insertEntry, h]
      · simp [insertEntry, List.lookup_cons, h, beq_false_of_ne h]
  | cons e rest ih =>
      obtain ⟨a, b⟩ := e
      by_cases ha : a = k
      · subst ha
        by_cases h : k' = a
        · simp [insertEntry, h]
        · simp [insertEntry, List.lookup_cons, h, beq_false_of_ne h]
      · simp only [insertEntry, if_neg ha, List.lookup_cons, ih]
        by_cases hka : k' = a
        · subst hka
          simp [ha]
        · simp [beq_false_of_ne hka]

theorem get?_insert (m : OrderedMap κ ν) (k k' : κ) (v : ν) :
    (m.insert k v).get? k' = if k' = k then some v else m.get? k' :=
  lookup_insertEntry k k' v m.entries

@[simp] theorem get?_insert_self (m : OrderedMap κ ν) (k : κ) (v : ν) :
    (m.insert k v).get? k = some v := by
  simp [get?_insert]

theorem mem_keys_iff (m : OrderedMap κ ν) (k : κ) : k ∈ m.keys ↔ m.contains k = true := by
  unfold keys contains get?
  induction m.entries with
  | nil => simp
  | cons e rest ih =>
      obtain ⟨a, b⟩ := e
      by_cases h : k = a
      · subst h
        simp
      · rw [List.map_cons, List.mem_cons, ih, List.lookup_cons, beq_false_of_ne h]
        simp [h]

end OrderedMap

end TaintAnalysis
