import TaintAnalysis.IdSet
import TaintAnalysis.OrderedMap

/-!
# Entries of ordered maps, the least member of a set, and lists without repetitions

An ordered map is its list of entries, and reading it is a lookup in that list.
Because no key occurs twice the two views agree: an entry is listed exactly if
the lookup finds it. From that follow the three facts the analyses use, about
inserting what is there already, about maps that tabulate a function over a
list of keys, and about selecting keys by their values.

Where no values are kept, what a list holds is collected in order, each member
once.
-/

namespace TaintAnalysis.OrderedMap

variable {κ ν : Type} [DecidableEq κ]

private theorem lookup_eq_some_iff {es : List (κ × ν)} (h : (es.map Prod.fst).Nodup) {k : κ}
    {v : ν} : es.lookup k = some v ↔ (k, v) ∈ es := by
  induction es with
  | nil => simp only [List.lookup_nil, reduceCtorEq, List.not_mem_nil]
  | cons e rest ih =>
      obtain ⟨a, b⟩ := e
      rw [List.map_cons, List.nodup_cons] at h
      rw [List.lookup_cons, List.mem_cons]
      by_cases hk : k = a
      · subst hk
        simp only [BEq.rfl, Option.some.injEq, Prod.mk.injEq, true_and]
        refine ⟨fun hb => .inl hb.symm, ?_⟩
        rintro (hb | hmem)
        · exact hb.symm
        · exact absurd (List.mem_map.mpr ⟨(k, v), hmem, rfl⟩) h.1
      · rw [beq_false_of_ne hk]
        simp only [ih h.2, Prod.mk.injEq, hk, false_and, false_or]

theorem get?_eq_some_iff {m : OrderedMap κ ν} {k : κ} {v : ν} :
    m.get? k = some v ↔ (k, v) ∈ m.entries :=
  lookup_eq_some_iff m.nodup

theorem mem_values_iff {m : OrderedMap κ ν} {v : ν} :
    v ∈ m.values ↔ ∃ k, m.get? k = some v := by
  rw [values, List.mem_map]
  constructor
  · intro hex
    obtain ⟨⟨k, w⟩, he, rfl⟩ := hex
    exact ⟨k, get?_eq_some_iff.mpr he⟩
  · intro hex
    obtain ⟨k, hk⟩ := hex
    exact ⟨(k, v), get?_eq_some_iff.mp hk, rfl⟩

theorem mem_keys_iff_exists {m : OrderedMap κ ν} {k : κ} :
    k ∈ m.keys ↔ ∃ v, m.get? k = some v := by
  rw [mem_keys_iff, contains, Option.isSome_iff_exists]

omit [DecidableEq κ] in
theorem length_flatten_values {α : Type} (m : OrderedMap κ (List α)) :
    m.values.flatten.length = m.weight List.length := by
  rw [weight]
  induction m.values with
  | nil => rfl
  | cons v rest ih => rw [List.flatten_cons, List.length_append, ih, List.foldr_cons]

private theorem insertEntry_of_mem {es : List (κ × ν)} (h : (es.map Prod.fst).Nodup) {k : κ}
    {v : ν} (hmem : (k, v) ∈ es) : insertEntry k v es = es := by
  induction es with
  | nil => exact absurd hmem List.not_mem_nil
  | cons e rest ih =>
      rw [List.map_cons, List.nodup_cons] at h
      rcases List.mem_cons.mp hmem with rfl | hr
      · rw [insertEntry, if_pos rfl]
      · have hne : e.1 ≠ k := fun hek =>
          h.1 (hek ▸ List.mem_map.mpr ⟨(k, v), hr, rfl⟩)
        rw [insertEntry, if_neg hne, ih h.2 hr]

/-- Inserting what a map holds already changes nothing. -/
theorem insert_eq_self {m : OrderedMap κ ν} {k : κ} {v : ν} (h : m.get? k = some v) :
    m.insert k v = m := by
  obtain ⟨es, hnd⟩ := m
  have he := insertEntry_of_mem hnd (get?_eq_some_iff.mp h)
  simp only [insert]
  congr 1

theorem get?_mapValues {ω : Type} (f : κ → ν → ω) (m : OrderedMap κ ν) (k : κ) :
    (m.mapValues f).get? k = (m.get? k).map (f k) := by
  obtain ⟨es, hnd⟩ := m
  show (es.map fun e => (e.1, f e.1 e.2)).lookup k = (es.lookup k).map (f k)
  clear hnd
  induction es with
  | nil => rfl
  | cons e rest ih =>
      rw [List.map_cons, List.lookup_cons, List.lookup_cons]
      by_cases hk : k = e.1
      · subst hk
        simp only [BEq.rfl, Option.map_some]
      · rw [beq_false_of_ne hk]
        exact ih

theorem get?_foldl_insert (f : κ → ν) (l : List κ) (m : OrderedMap κ ν) (k : κ) :
    ((l.map fun x => (x, f x)).foldl (fun m p => m.insert p.1 p.2) m).get? k =
      if k ∈ l then some (f k) else m.get? k := by
  induction l generalizing m with
  | nil => simp only [List.map_nil, List.foldl_nil, List.not_mem_nil, if_false]
  | cons a rest ih =>
      rw [List.map_cons, List.foldl_cons, ih, get?_insert]
      by_cases hr : k ∈ rest
      · rw [if_pos hr, if_pos (List.mem_cons_of_mem a hr)]
      · rw [if_neg hr]
        by_cases ha : k = a
        · subst ha
          rw [if_pos rfl, if_pos List.mem_cons_self]
        · rw [if_neg ha, if_neg fun h => (List.mem_cons.mp h).elim ha hr]

/-- Which keys a map has, and in which order, does not depend on the values. -/
theorem keys_foldl_insert_congr (f g : κ → ν) (l : List κ) {m m' : OrderedMap κ ν}
    (h : m.keys = m'.keys) :
    ((l.map fun x => (x, f x)).foldl (fun m p => m.insert p.1 p.2) m).keys =
      ((l.map fun x => (x, g x)).foldl (fun m p => m.insert p.1 p.2) m').keys := by
  induction l generalizing m m' with
  | nil => exact h
  | cons a rest ih =>
      refine ih ?_
      rw [keys_insert, keys_insert, h]

/-- A map that lists the values of a function holds them for the listed keys and nothing else. -/
theorem get?_ofList_map (f : κ → ν) (l : List κ) (k : κ) :
    (ofList (l.map fun x => (x, f x))).get? k = if k ∈ l then some (f k) else none :=
  get?_foldl_insert f l empty k

theorem mem_keys_insert {m : OrderedMap κ ν} {k a : κ} {v : ν} :
    k ∈ (m.insert a v).keys ↔ k ∈ m.keys ∨ k = a := by
  rw [keys_insert]
  split
  · next ha => exact ⟨.inl, fun h => h.elim id fun hk => hk ▸ ha⟩
  · rw [List.mem_append, List.mem_singleton]

private theorem insertEntry_of_not_mem {es : List (κ × ν)} {k : κ} {v : ν}
    (h : k ∉ es.map Prod.fst) : insertEntry k v es = es ++ [(k, v)] := by
  induction es with
  | nil => rfl
  | cons e rest ih =>
      rw [List.map_cons, List.mem_cons, not_or] at h
      rw [insertEntry, if_neg fun he => h.1 he.symm, ih h.2, List.cons_append]

theorem entries_insert_of_not_mem {m : OrderedMap κ ν} {k : κ} {v : ν} (h : k ∉ m.keys) :
    (m.insert k v).entries = m.entries ++ [(k, v)] :=
  insertEntry_of_not_mem h

theorem values_insert_of_not_mem {m : OrderedMap κ ν} {k : κ} {v : ν} (h : k ∉ m.keys) :
    (m.insert k v).values = m.values ++ [v] := by
  rw [values, entries_insert_of_not_mem h, List.map_append]
  rfl

/-- A map that was built from a list of pairs with different keys lists these pairs. -/
theorem entries_ofList {pairs : List (κ × ν)} (h : (pairs.map Prod.fst).Nodup) :
    (ofList pairs).entries = pairs := by
  have hfold : ∀ m : OrderedMap κ ν, ((m.entries ++ pairs).map Prod.fst).Nodup →
      (pairs.foldl (fun m e => m.insert e.1 e.2) m).entries = m.entries ++ pairs := by
    clear h
    induction pairs with
    | nil => exact fun m _ => (List.append_nil _).symm
    | cons e rest ih =>
        intro m hm
        have hnew : e.1 ∉ m.entries.map Prod.fst := by
          rw [List.map_append, List.map_cons] at hm
          exact fun hmem => (List.nodup_append.mp hm).2.2 e.1 hmem e.1 List.mem_cons_self rfl
        have hinsert : (m.insert e.1 e.2).entries = m.entries ++ [e] := insertEntry_of_not_mem hnew
        rw [List.foldl_cons, ih, hinsert, List.append_assoc, List.singleton_append]
        rwa [hinsert, List.append_assoc, List.singleton_append]
  exact hfold empty h

omit [DecidableEq κ] in
theorem eq_of_entries {m m' : OrderedMap κ ν} (h : m.entries = m'.entries) : m = m' := by
  cases m
  cases m'
  congr 1

/-- Two maps are equal if they have the same keys in the same order, and the same values. -/
theorem eq_of_keys_eq {m m' : OrderedMap κ ν} (hkeys : m.keys = m'.keys)
    (h : ∀ k, m.get? k = m'.get? k) : m = m' := by
  have hlen : m.entries.length = m'.entries.length := by
    have := congrArg List.length hkeys
    rwa [keys, keys, List.length_map, List.length_map] at this
  refine eq_of_entries (List.ext_getElem hlen ?_)
  intro i hi hi'
  have hfst : m.entries[i].1 = m'.entries[i].1 := by
    have := List.getElem_of_eq hkeys (by rwa [keys, List.length_map])
    simpa only [keys, List.getElem_map] using this
  have hget : m.get? m.entries[i].1 = some m.entries[i].2 :=
    get?_eq_some_iff.mpr (List.getElem_mem hi)
  have hget' : m'.get? m'.entries[i].1 = some m'.entries[i].2 :=
    get?_eq_some_iff.mpr (List.getElem_mem hi')
  rw [h, hfst, hget', Option.some.injEq] at hget
  exact Prod.ext hfst hget.symm

theorem get?_filterKeys (p : κ → Bool) (m : OrderedMap κ ν) (k : κ) :
    (m.filterKeys p).get? k = if p k then m.get? k else none := by
  refine Option.ext fun v => ?_
  rw [get?_eq_some_iff, filterKeys, List.mem_filter, ← get?_eq_some_iff]
  split <;> simp [*]

/-- A key is among those selected by their values if the map holds a selected value for it. -/
theorem mem_selected_iff {m : OrderedMap κ ν} {p : ν → Bool} {k : κ} :
    k ∈ (m.entries.filter fun e => p e.2).map Prod.fst ↔ ∃ v, m.get? k = some v ∧ p v := by
  rw [List.mem_map]
  constructor
  · intro hex
    obtain ⟨⟨a, v⟩, he, rfl⟩ := hex
    obtain ⟨hmem, hp⟩ := List.mem_filter.mp he
    exact ⟨v, get?_eq_some_iff.mpr hmem, hp⟩
  · intro hex
    obtain ⟨v, hk, hp⟩ := hex
    exact ⟨(k, v), List.mem_filter.mpr ⟨get?_eq_some_iff.mp hk, hp⟩, rfl⟩

end TaintAnalysis.OrderedMap

namespace TaintAnalysis.IdSet

/-- Taking the least member away leaves the others. -/
theorem mem_of_popMin? {s rest : IdSet} {i : Nat} (h : s.popMin? = some (i, rest)) :
    i ∈ s ∧ ∀ n, n ∈ rest ↔ n ∈ s ∧ n ≠ i := by
  obtain ⟨elems, hasc⟩ := s
  cases elems with
  | nil => exact absurd h (by simp only [popMin?, reduceCtorEq, not_false_eq_true])
  | cons m ms =>
      simp only [popMin?, Option.some.injEq, Prod.mk.injEq] at h
      obtain ⟨rfl, rfl⟩ := h
      refine ⟨List.mem_cons_self, fun n => ⟨fun hn => ⟨List.mem_cons_of_mem m hn, ?_⟩, ?_⟩⟩
      · exact Nat.ne_of_gt ((List.pairwise_cons.mp hasc).1 n hn)
      · intro hboth
        obtain ⟨hn, hne⟩ := hboth
        exact (List.mem_cons.mp hn).resolve_left hne

end TaintAnalysis.IdSet

namespace TaintAnalysis

/-! ## Collecting what a list holds, each member once -/

section

variable {α : Type} [DecidableEq α] {xs acc : List α}

theorem mem_foldl_collect_iff {x : α} :
    x ∈ xs.foldl (fun acc x => if x ∈ acc then acc else acc ++ [x]) acc ↔ x ∈ acc ∨ x ∈ xs := by
  induction xs generalizing acc with
  | nil => exact ⟨.inl, fun h => h.resolve_right List.not_mem_nil⟩
  | cons y rest ih =>
      rw [List.foldl_cons, ih, List.mem_cons, ← or_assoc]
      refine or_congr_left ?_
      split
      · next hy => exact ⟨.inl, fun h => h.elim id fun hx => hx ▸ hy⟩
      · rw [List.mem_append, List.mem_singleton]

theorem nodup_foldl_collect (h : acc.Nodup) :
    (xs.foldl (fun acc x => if x ∈ acc then acc else acc ++ [x]) acc).Nodup := by
  induction xs generalizing acc with
  | nil => exact h
  | cons y rest ih =>
      refine ih ?_
      dsimp only
      split
      · exact h
      · next hy =>
        refine List.nodup_append.mpr ⟨h, List.pairwise_singleton _ y, fun a ha b hb hab => hy ?_⟩
        rwa [← List.mem_singleton.mp hb, ← hab]

end

end TaintAnalysis
