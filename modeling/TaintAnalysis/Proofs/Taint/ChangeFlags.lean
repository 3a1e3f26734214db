import TaintAnalysis.Proofs.Taint.Summary

/-!
# Joins that report growth

The loops of the analysis stop when a round of joins reports that nothing has grown. Each
join goes through what it joins piece by piece: the entries of a value one source after the
other, the variables of a state one after the other, the listed parameters of a summary one
after the other. It changes what it joins into as it goes, and the report is put together from
those of the pieces. Whether it can be relied on is decided in the corners: entries that are
there without any kinds, states of different lengths, parameters that are listed without taint.

The pieces are put together to the join, and the reports to the statement that it was not
there before (`Value.joinEntries_eq`, `State.joinInPlace_eq`, `Summary.joinInPlace_eq`). For
values that relies on entries being in ascending order and not empty, and no operation leaves
others behind (`Value.exists_of_built`).

What a report shows of a value, its gravest tier and its sources, is joined when the values are.
-/

namespace TaintAnalysis

/-- The update replaces its first argument by the least upper bound of both, and reports whether the
second one was not below the first. -/
structure LeastUpdate {α : Type} (le : α → α → Prop) (update : α → α → α × Bool) : Prop where
  refl : ∀ a, le a a
  trans : ∀ a b c, le a b → le b c → le a c
  left : ∀ a b, le a (update a b).1
  right : ∀ a b, le b (update a b).1
  least : ∀ a b c, le a c → le b c → le (update a b).1 c
  reported : ∀ a b, (update a b).2 = true ↔ ¬ le b a

theorem Tier.eq_of_rank_eq {a b : Tier} (h : a.rank = b.rank) : a = b := by
  cases a <;> cases b <;> first | rfl | exact absurd h (by decide)

theorem Kind.tier_union (a b : Kind) : (a ∪ b).tier = a.tier.max b.tier := by
  obtain ⟨a₁, a₂, a₃⟩ := a
  obtain ⟨b₁, b₂, b₃⟩ := b
  cases a₁ <;> cases a₂ <;> cases a₃ <;> cases b₁ <;> cases b₂ <;> cases b₃ <;> decide

namespace Value

variable {u v w : Value} {s t : SourceId} {k : Kind} {es fs : List (SourceId × Kind)}

/-! ## Adding to the entries of a value -/

/-- Adds kinds from a source to entries, where the source has its place among them, and reports
whether they are new. -/
def addEntry (s : SourceId) (k : Kind) : List (SourceId × Kind) → List (SourceId × Kind) × Bool
  | [] => ([(s, k)], true)
  | e :: rest =>
      if s < e.1 then ((s, k) :: e :: rest, true)
      else if s = e.1 then ((s, e.2 ∪ k) :: rest, decide (e.2 ∪ k ≠ e.2))
      else (e :: (addEntry s k rest).1, (addEntry s k rest).2)

/-- Adds kinds to entries, if there are any kinds to add. -/
def addKinds (es : List (SourceId × Kind)) (s : SourceId) (k : Kind) :
    List (SourceId × Kind) × Bool :=
  if k = Kind.none then (es, false) else addEntry s k es

/-- Adds the entries of a second list one after the other. -/
def joinEntries (es fs : List (SourceId × Kind)) : List (SourceId × Kind) × Bool :=
  fs.foldl (fun r f => ((addKinds r.1 f.1 f.2).1, r.2 || (addKinds r.1 f.1 f.2).2)) (es, false)

/-- Changes the kinds of every entry and drops the entries that are left without any. -/
def mapEntries (f : Kind → Kind) (es : List (SourceId × Kind)) : List (SourceId × Kind) :=
  (es.map fun e => (e.1, f e.2)).filter fun e => e.2 ≠ Kind.none

theorem keys_addEntry (s : SourceId) (k : Kind) (es : List (SourceId × Kind)) :
    (addEntry s k es).1.map Prod.fst = IdSet.place s (es.map Prod.fst) := by
  induction es with
  | nil => rfl
  | cons e rest ih =>
      rw [addEntry, List.map_cons, IdSet.place]
      split
      · rfl
      · split
        · next h => rw [List.map_cons, h]
        · rw [List.map_cons, ih]

theorem inhabited_addEntry (hk : k ≠ Kind.none) (hes : ∀ e ∈ es, e.2 ≠ Kind.none) :
    ∀ e ∈ (addEntry s k es).1, e.2 ≠ Kind.none := by
  induction es with
  | nil => exact List.forall_mem_singleton.mpr hk
  | cons e rest ih =>
      obtain ⟨he, hrest⟩ := List.forall_mem_cons.mp hes
      rw [addEntry]
      split
      · exact List.forall_mem_cons.mpr ⟨hk, hes⟩
      · split
        · refine List.forall_mem_cons.mpr ⟨fun hnone => ?_, hrest⟩
          exact he (Kind.union_eq_none_iff.mp hnone).1
        · exact List.forall_mem_cons.mpr ⟨he, ih hrest⟩

/-- The kinds that entries list for a source. -/
def listed (es : List (SourceId × Kind)) (s : SourceId) : Kind :=
  (es.lookup s).getD Kind.none

theorem listed_cons (e : SourceId × Kind) (es : List (SourceId × Kind)) (s : SourceId) :
    listed (e :: es) s = if s = e.1 then e.2 else listed es s := by
  rw [listed, List.lookup_cons]
  split
  · next h => rw [if_pos (by simpa using h), Option.getD_some]
  · next h => rw [if_neg (by simpa using h), listed]

theorem listed_of_lt (hes : ∀ e ∈ es, s < e.1) : listed es s = Kind.none := by
  induction es with
  | nil => rfl
  | cons e rest ih =>
      obtain ⟨he, hrest⟩ := List.forall_mem_cons.mp hes
      rw [listed_cons, if_neg (Nat.ne_of_lt he), ih hrest]

/-- In ascending entries the kinds are added to those of the source and to no others, and it is
reported whether they were there. -/
theorem listed_addEntry (hasc : (es.map Prod.fst).Pairwise (· < ·)) (hk : k ≠ Kind.none) :
    (∀ t, listed (addEntry s k es).1 t = if t = s then listed es s ∪ k else listed es t) ∧
      (addEntry s k es).2 = decide (listed es s ∪ k ≠ listed es s) := by
  induction es with
  | nil =>
      have hnone : listed [] s = Kind.none := rfl
      rw [hnone, Kind.none_union]
      exact ⟨listed_cons (s, k) [], (decide_eq_true hk).symm⟩
  | cons e rest ih =>
      obtain ⟨hfirst, hrest⟩ := List.pairwise_cons.mp hasc
      obtain ⟨ihlisted, ihflag⟩ := ih hrest
      rw [addEntry]
      split
      · next hlt =>
        -- the source comes before all entries, so none of them is its own
        have hnone : listed (e :: rest) s = Kind.none :=
          listed_of_lt (List.forall_mem_cons.mpr ⟨hlt, fun d hd =>
            Nat.lt_trans hlt (hfirst d.1 (List.mem_map_of_mem hd))⟩)
        rw [hnone, Kind.none_union]
        exact ⟨listed_cons (s, k) (e :: rest), (decide_eq_true hk).symm⟩
      · split
        · next hse =>
          rw [show listed (e :: rest) s = e.2 from (listed_cons e rest s).trans (if_pos hse)]
          refine ⟨fun t => ?_, rfl⟩
          rw [listed_cons, listed_cons, ← hse]
          split <;> rfl
        · next hse =>
          rw [show listed (e :: rest) s = listed rest s from
            (listed_cons e rest s).trans (if_neg hse)]
          refine ⟨fun t => ?_, ihflag⟩
          rw [listed_cons, listed_cons, ihlisted]
          split
          · next hte => rw [if_neg (hte ▸ Ne.symm hse)]
          · rfl

theorem addKinds_eq (v : Value) (s : SourceId) (k : Kind) :
    addKinds v.entries s k = ((v.add s k).entries, v.grows (single s k)) := by
  have hle : single s k ≤ v ↔ v.kindOf s ∪ k = v.kindOf s := by
    rw [Kind.union_comm, Kind.union_eq_right_iff, le_iff]
    constructor
    · intro h
      have hs := h s
      rwa [kindOf_single, if_pos rfl] at hs
    · intro h t
      rw [kindOf_single]
      split
      · next hts => exact hts ▸ h
      · exact Kind.none_le _
  have hgrows : v.grows (single s k) = decide (v.kindOf s ∪ k ≠ v.kindOf s) := by
    rw [Bool.eq_iff_iff, grows_iff, hle, decide_eq_true_iff]
  rw [hgrows, addKinds]
  split
  · next hk =>
    subst hk
    rw [add, join_eq_left_iff.mpr (hle.mpr (Kind.union_none _))]
    simp
  · next hk =>
    obtain ⟨hlisted, hflag⟩ := listed_addEntry (s := s) v.ascending hk
    have hadd : (⟨(addEntry s k v.entries).1,
        keys_addEntry s k v.entries ▸ IdSet.ascending_place v.ascending,
        inhabited_addEntry hk v.inhabited⟩ : Value) = v.add s k := by
      refine ext fun t => (hlisted t).trans ?_
      rw [kindOf_add]
      split
      · next hts => rw [hts]; rfl
      · rfl
    exact Prod.ext (congrArg entries hadd) hflag

/-! ## Joining entry by entry -/

/-- A value is the join of its entries. -/
theorem joins_entries (v : Value) : joins (v.entries.map fun e => single e.1 e.2) = v := by
  refine le_antisymm (joins_le_iff.mpr fun w hw => le_iff.mpr fun t => ?_) (le_iff.mpr fun t => ?_)
  · obtain ⟨⟨s, k⟩, he, rfl⟩ := List.mem_map.mp hw
    rw [kindOf_single]
    split
    · next hts => exact hts ▸ (mem_entries_iff.mp he).1 ▸ Kind.le_refl _
    · exact Kind.none_le _
  · by_cases hnone : v.kindOf t = Kind.none
    · exact hnone ▸ Kind.none_le _
    · have hle := le_iff.mp (le_joins (List.mem_map_of_mem (f := fun e => single e.1 e.2)
        (mem_entries_iff.mpr ⟨rfl, hnone⟩))) t
      rwa [kindOf_single, if_pos rfl] at hle

theorem bottom_join (u : Value) : bottom.join u = u :=
  le_antisymm (join_le (bottom_le u) (le_refl u)) (le_join_right bottom u)

/-- What two joins report one after the other is what the join of both reports. -/
theorem grows_join (u v w : Value) : (u.grows v || (u.join v).grows w) = u.grows (v.join w) := by
  rw [Bool.eq_iff_iff, Bool.or_eq_true, grows_iff, grows_iff, grows_iff, join_le_iff, not_and_or]
  by_cases hv : v ≤ u
  · rw [join_eq_left_iff.mpr hv]
  · simp only [hv, not_false_eq_true, true_or]

/-- Adding entries one after the other is joining, and what is reported is whether the value
grows. -/
theorem joinEntries_eq (u v : Value) :
    joinEntries u.entries v.entries = ((u.join v).entries, u.grows v) := by
  have hfold (fs : List (SourceId × Kind)) (u : Value) (b : Bool) :
      fs.foldl (fun r f => ((addKinds r.1 f.1 f.2).1, r.2 || (addKinds r.1 f.1 f.2).2))
          (u.entries, b) =
        ((u.join (joins (fs.map fun f => single f.1 f.2))).entries,
          b || u.grows (joins (fs.map fun f => single f.1 f.2))) := by
    induction fs generalizing u b with
    | nil =>
        have hstays : u.grows (joins []) = false :=
          Bool.eq_false_iff.mpr fun h => grows_iff.mp h (bottom_le u)
        rw [List.foldl_nil, List.map_nil, hstays, Bool.or_false,
          show joins [] = bottom from rfl, join_bottom]
    | cons f rest ih =>
        rw [List.foldl_cons, addKinds_eq, ih, List.map_cons,
          show joins (single f.1 f.2 :: rest.map fun f => single f.1 f.2) =
            (single f.1 f.2).join (joins (rest.map fun f => single f.1 f.2)) from rfl,
          ← grows_join, ← join_assoc, Bool.or_assoc]
        rfl
  rw [joinEntries, hfold, joins_entries, Bool.false_or]

/-! ## What the operations leave behind -/

theorem mapEntries_eq {f : Kind → Kind} (v : Value) : mapEntries f v.entries =
    (v.mapKinds f).entries := by
  rw [entries_eq v, mapEntries, mapKinds, tabulate, List.map_map, List.filter_map]
  rfl

theorem filter_eq (v : Value) (keep : SourceId → Bool) :
    v.entries.filter (fun e => keep e.1) = (v.retain keep).entries := by
  have hkept : ∀ s ∈ v.sources.elems, keep s = decide
      ((if keep s = true then v.kindOf s else Kind.none) ≠ Kind.none) := by
    intro s hs
    cases hkeep : keep s with
    | true => simpa using mem_sources.mp hs
    | false => simp
  rw [entries_eq v, retain, tabulate, List.filter_map]
  rw [show ((fun e : SourceId × Kind => keep e.1) ∘ fun s => (s, v.kindOf s)) = keep from rfl,
    List.filter_congr hkept]
  refine List.map_congr_left fun s hs => ?_
  have hs := (List.mem_filter.mp hs).2
  cases hkeep : keep s with
  | true => rw [if_pos rfl]
  | false =>
      rw [hkeep] at hs
      exact absurd hs (by simp)

/-- The entries that the operations on values leave behind when they work on lists of entries that
nothing keeps in order. -/
inductive Built : List (SourceId × Kind) → Prop where
  | bottom : Built []
  | single (s : SourceId) (k : Kind) : Built (if k = Kind.none then [] else [(s, k)])
  | top (sources : List SourceId) :
      Built (sources.foldl (fun es s => (addEntry s Kind.fullOnly es).1) [])
  | add {es : List (SourceId × Kind)} (h : Built es) (s : SourceId) (k : Kind) :
      Built (addKinds es s k).1
  | join {es fs : List (SourceId × Kind)} (h : Built es) (h' : Built fs) :
      Built (joinEntries es fs).1
  | toIndirect {es : List (SourceId × Kind)} (h : Built es) : Built (mapEntries Kind.toIndirect es)
  | toFull {es : List (SourceId × Kind)} (h : Built es) :
      Built (mapEntries (fun _ => Kind.fullOnly) es)
  | retain {es : List (SourceId × Kind)} (h : Built es) (keep : SourceId → Bool) :
      Built (es.filter fun e => keep e.1)

/-- They are the entries of a value: in ascending order, and none of them without kinds. -/
theorem exists_of_built (h : Built es) : ∃ v : Value, v.entries = es := by
  induction h with
  | bottom => exact ⟨.bottom, rfl⟩
  | single s k =>
      refine ⟨Value.bottom.add s k, ?_⟩
      rw [show (Value.bottom.add s k).entries = (addKinds Value.bottom.entries s k).1 from
        congrArg Prod.fst (addKinds_eq .bottom s k).symm, addKinds]
      split <;> rfl
  | top sources =>
      suffices hfold : ∀ v : Value, ∃ w : Value, w.entries =
          sources.foldl (fun es s => (addEntry s Kind.fullOnly es).1) v.entries from
        hfold .bottom
      induction sources with
      | nil => exact fun v => ⟨v, rfl⟩
      | cons s rest ih =>
          intro v
          have hadd : (addEntry s Kind.fullOnly v.entries).1 = (v.add s Kind.fullOnly).entries :=
            congrArg Prod.fst (addKinds_eq v s Kind.fullOnly)
          rw [List.foldl_cons, hadd]
          exact ih _
  | add _ s k ih =>
      obtain ⟨v, rfl⟩ := ih
      exact ⟨v.add s k, congrArg Prod.fst (addKinds_eq v s k).symm⟩
  | join _ _ ih ih' =>
      obtain ⟨u, rfl⟩ := ih
      obtain ⟨v, rfl⟩ := ih'
      exact ⟨u.join v, congrArg Prod.fst (joinEntries_eq u v).symm⟩
  | toIndirect _ ih =>
      obtain ⟨v, rfl⟩ := ih
      exact ⟨v.mapKinds Kind.toIndirect, (mapEntries_eq v).symm⟩
  | toFull _ ih =>
      obtain ⟨v, rfl⟩ := ih
      exact ⟨v.mapKinds fun _ => Kind.fullOnly, (mapEntries_eq v).symm⟩
  | retain _ keep ih =>
      obtain ⟨v, rfl⟩ := ih
      exact ⟨v.retain keep, (filter_eq v keep).symm⟩

theorem leastUpdate : LeastUpdate (fun u v : Value => u ≤ v) fun u v => (u.join v, u.grows v) where
  refl := le_refl
  trans := fun _ _ _ => le_trans
  left := le_join_left
  right := le_join_right
  least := fun _ _ _ => join_le
  reported := fun _ _ => grows_iff

/-! ## What a report shows -/

theorem rank_tier_le_iff {n : Nat} :
    v.tier.rank ≤ n ↔ ∀ s, (v.kindOf s).tier.rank ≤ n := by
  rw [tier, rank_foldl_max_le_iff]
  constructor
  · intro h s
    by_cases hnone : v.kindOf s = Kind.none
    · rw [hnone]
      exact Nat.zero_le n
    · exact h.2 _ (mem_entries_iff.mpr ⟨rfl, hnone⟩)
  · intro h
    refine ⟨Nat.zero_le n, fun e he => ?_⟩
    exact (mem_entries_iff.mp he).1 ▸ h e.1

/-- The gravest tier of a join is the graver one of the two, and its sources are those of both. -/
theorem tier_join (u v : Value) : (u.join v).tier = u.tier.max v.tier := by
  refine Tier.eq_of_rank_eq (Nat.le_antisymm ?_ ?_)
  · rw [rank_tier_le_iff]
    intro s
    rw [kindOf_join, Kind.tier_union, Tier.rank_join, Tier.rank_join]
    have hu := rank_tier_le_iff.mp (Nat.le_refl u.tier.rank) s
    have hv := rank_tier_le_iff.mp (Nat.le_refl v.tier.rank) s
    exact Nat.max_le.mpr
      ⟨Nat.le_trans hu (Nat.le_max_left _ _), Nat.le_trans hv (Nat.le_max_right _ _)⟩
  · rw [Tier.rank_join]
    exact Nat.max_le.mpr ⟨rank_tier_mono (le_join_left u v), rank_tier_mono (le_join_right u v)⟩

theorem sources_join (u v : Value) : (u.join v).sources = u.sources ∪ v.sources := by
  refine IdSet.ext fun s => ?_
  rw [IdSet.mem_union, mem_sources, mem_sources, mem_sources, kindOf_join, Ne,
    Kind.union_eq_none_iff, not_and_or]

end Value

/-! ## States -/

namespace State

/-- Joins the values of a second list into those of a first one, place by place, and reports whether
one of them grows. Values that have no partner stay as they are. -/
def joinSlots : List Value → List Value → List Value × Bool
  | u :: us, v :: vs => (u.join v :: (joinSlots us vs).1, u.grows v || (joinSlots us vs).2)
  | us, _ => (us, false)

/-- Joins a second state into a first one that is padded to its length. -/
def joinInPlace (s t : State) : State × Bool :=
  let joined := joinSlots (s.pad t.vars.length).vars t.vars
  (⟨joined.1⟩, joined.2)

theorem joinSlots_eq (us vs : List Value) : joinSlots us vs =
    (us.mapIdx fun i u => u.join (vs.getD i Value.bottom),
      decide ((us.mapIdx fun i u => u.join (vs.getD i Value.bottom)) ≠ us)) := by
  induction us generalizing vs with
  | nil => cases vs <;> rfl
  | cons u us ih =>
      cases vs with
      | nil =>
          have hstays : ((u :: us).mapIdx fun i w => w.join (([] : List Value).getD i Value.bottom)) =
              u :: us := by
            refine List.ext_getElem List.length_mapIdx fun i _ _ => ?_
            rw [List.getElem_mapIdx, List.getD_nil, Value.join_bottom]
          rw [hstays]
          simp [joinSlots]
      | cons v vs =>
          rw [joinSlots, ih, List.mapIdx_cons]
          simp only [List.getD_cons_zero, List.getD_cons_succ, Value.grows, ne_eq, List.cons.injEq,
            not_and_or, Bool.decide_or]

theorem joinInPlace_eq (s t : State) : s.joinInPlace t = (s.join t, s.grows t) := by
  have hjoin : ((s.pad t.vars.length).vars.mapIdx fun i u => u.join (t.vars.getD i Value.bottom)) =
      (s.join t).vars := rfl
  rw [joinInPlace, joinSlots_eq, hjoin, grows]
  refine Prod.ext rfl (decide_eq_decide.mpr (not_congr ?_))
  exact ⟨fun h => congrArg State.mk h, fun h => congrArg State.vars h⟩

theorem leastUpdate : LeastUpdate (fun s t : State => s ≤ t) joinInPlace where
  refl := le_refl
  trans := fun _ _ _ => le_trans
  left := fun s t => joinInPlace_eq s t ▸ le_join_left s t
  right := fun s t => joinInPlace_eq s t ▸ le_join_right s t
  least := fun s t _ hs ht => joinInPlace_eq s t ▸ join_le hs ht
  reported := fun s t => joinInPlace_eq s t ▸ grows_iff

end State

/-! ## Summaries -/

namespace Summary

variable {s t u : Summary} {es : List (Nat × Value)} {e : Nat × Value} {r : Summary × Bool}

/-- The summary that lists `v` for the parameter `i`. -/
def setOut (s : Summary) (i : Nat) (v : Value) : Summary :=
  tabulate s.returned (s.outParams.insert i) fun j => if j = i then v else s.out j

/-- Joins a value into what is listed for its parameter. A value without taint is passed over. -/
def joinOut (r : Summary × Bool) (e : Nat × Value) : Summary × Bool :=
  if e.2.isBottom then r
  else (r.1.setOut e.1 ((r.1.out e.1).join e.2), r.2 || (r.1.out e.1).grows e.2)

/-- Joins the result and then what is listed, one parameter after the other. -/
def joinInPlace (s t : Summary) : Summary × Bool :=
  t.outs.foldl joinOut ({ s with returned := s.returned.join t.returned },
    s.returned.grows t.returned)

/-! ### The order -/

theorem covers_iff :
    s.covers t = true ↔ t.returned ≤ s.returned ∧ ∀ i, t.out i ≤ s.out i := by
  rw [covers, Bool.and_eq_true, List.all_eq_true]
  refine and_congr_right fun _ => ⟨fun h i => ?_, fun h e he => out_eq he ▸ h e.1⟩
  by_cases hi : i ∈ t.outParams
  · exact h _ (mem_outParams_iff.mp hi)
  · exact out_of_not_mem hi ▸ Value.bottom_le _

theorem covers_refl (s : Summary) : s.covers s = true :=
  covers_iff.mpr ⟨Value.le_refl _, fun _ => Value.le_refl _⟩

theorem covers_trans (hst : t.covers s = true) (htu : u.covers t = true) : u.covers s = true := by
  rw [covers_iff] at hst htu ⊢
  exact ⟨Value.le_trans hst.1 htu.1, fun i => Value.le_trans (hst.2 i) (htu.2 i)⟩

theorem out_join_eq (s t : Summary) (i : Nat) : (s.join t).out i = (s.out i).join (t.out i) := by
  by_cases hi : i ∈ (s.join t).outParams
  · exact out_join s t hi
  · -- neither of the two has taint for a parameter that the join does not list
    rw [out_of_not_mem hi]
    rw [mem_outParams_join, not_or] at hi
    have ht : t.out i = Value.bottom := by
      by_contra hne
      have hmem : i ∈ t.outParams := by
        by_contra hno
        exact hne (out_of_not_mem hno)
      exact hi.2 ⟨_, mem_outParams_iff.mp hmem, hne⟩
    rw [out_of_not_mem hi.1, ht, Value.join_bottom]

theorem covers_join_iff : u.covers (s.join t) = true ↔ u.covers s = true ∧ u.covers t = true := by
  simp only [covers_iff, out_join_eq, Value.join_le_iff, forall_and,
    show (s.join t).returned = s.returned.join t.returned from rfl]
  exact and_and_and_comm

/-- Summaries with the same result that list the same parameters with the same taint are equal. -/
theorem ext_out (hreturned : s.returned = t.returned)
    (hparams : ∀ i, i ∈ s.outParams ↔ i ∈ t.outParams) (hout : ∀ i, s.out i = t.out i) : s = t := by
  rw [← tabulate_self s, ← tabulate_self t, hreturned, IdSet.ext hparams, funext hout]

theorem grows_iff : s.grows t = true ↔ ¬ s.covers t = true := by
  rw [grows, decide_eq_true_iff, not_iff_not]
  constructor
  · intro h
    have hself : s.covers (s.join t) = true := by
      rw [h]
      exact covers_refl s
    exact (covers_join_iff.mp hself).2
  · intro h
    obtain ⟨hreturned, hout⟩ := covers_iff.mp h
    refine ext_out (Value.join_eq_left_iff.mpr hreturned) (fun i => ?_) fun i => ?_
    · rw [mem_outParams_join]
      refine or_iff_left_of_imp fun hlisted => ?_
      obtain ⟨v, hv, hne⟩ := hlisted
      by_contra hno
      have hle := hout i
      rw [out_of_not_mem hno, Value.le_bottom_iff, out_eq hv] at hle
      exact hne hle
    · rw [out_join_eq, Value.join_eq_left_iff]
      exact hout i

/-! ### Parameter by parameter -/

theorem out_setOut (s : Summary) (i j : Nat) (v : Value) :
    (s.setOut i v).out j = if j = i then v else s.out j := by
  rw [setOut, out_tabulate]
  split
  · rfl
  · next hj =>
    rw [IdSet.mem_insert, not_or] at hj
    rw [if_neg hj.1, out_of_not_mem hj.2]

theorem mem_outParams_setOut {i j : Nat} {v : Value} :
    j ∈ (s.setOut i v).outParams ↔ j = i ∨ j ∈ s.outParams := by
  rw [mem_outParams_iff, setOut, mem_outs_tabulate, ← IdSet.mem_insert]
  refine and_iff_left_of_imp fun hj => ?_
  rw [out_tabulate, if_pos hj]

/-- The summary of a function that writes what is listed and returns nothing. -/
def ofOuts (es : List (Nat × Value)) (h : (es.map Prod.fst).Pairwise (· < ·)) : Summary :=
  ⟨Value.bottom, es, h⟩

theorem out_ofOuts_cons (e : Nat × Value) (h : ((e :: es).map Prod.fst).Pairwise (· < ·)) (i : Nat) :
    (ofOuts (e :: es) h).out i = if i = e.1 then e.2 else (ofOuts es h.of_cons).out i := by
  rw [out, out?, ofOuts, List.lookup_cons]
  split
  · next hi => rw [if_pos (by simpa using hi), Option.getD_some]
  · next hi => rw [if_neg (by simpa using hi)]; rfl

theorem covers_ofOuts {h : (es.map Prod.fst).Pairwise (· < ·)} :
    s.covers (ofOuts es h) = true ↔ ∀ e ∈ es, e.2 ≤ s.out e.1 := by
  rw [covers, Bool.and_eq_true, List.all_eq_true]
  exact and_iff_right (Value.bottom_le s.returned)

theorem join_ofOuts_cons (s : Summary) (e : Nat × Value)
    (h : ((e :: es).map Prod.fst).Pairwise (· < ·)) : s.join (ofOuts (e :: es) h) =
      (s.join (ofOuts [e] (List.pairwise_singleton _ _))).join (ofOuts es h.of_cons) := by
  refine ext_out (Value.join_bottom _).symm (fun i => ?_) fun i => ?_
  · simp only [mem_outParams_join, ofOuts, List.mem_cons, List.not_mem_nil, or_false, or_and_right,
      exists_or, or_assoc]
  · rw [out_join_eq, out_join_eq, out_join_eq, Value.join_assoc, out_ofOuts_cons, out_ofOuts_cons]
    split
    · next hi =>
      -- the parameters that come later are other ones
      have hlater : i ∉ (ofOuts es h.of_cons).outParams := by
        intro hmem
        have hlt := (List.pairwise_cons.mp h).1 i hmem
        exact Nat.lt_irrefl _ (hi ▸ hlt)
      rw [out_of_not_mem hlater, Value.join_bottom]
    · rw [show (ofOuts [] (List.pairwise_singleton _ e.1).of_cons).out i = Value.bottom from rfl,
        Value.bottom_join]

theorem grows_ofOuts_cons (s : Summary) (e : Nat × Value)
    (h : ((e :: es).map Prod.fst).Pairwise (· < ·)) :
    s.grows (ofOuts (e :: es) h) = (s.grows (ofOuts [e] (List.pairwise_singleton _ _)) ||
      (s.join (ofOuts [e] (List.pairwise_singleton _ _))).grows (ofOuts es h.of_cons)) := by
  have hcovers : s.covers (ofOuts (e :: es) h) = true ↔
      s.covers (ofOuts [e] (List.pairwise_singleton _ _)) = true ∧
        s.covers (ofOuts es h.of_cons) = true := by
    rw [covers_ofOuts, covers_ofOuts, covers_ofOuts, List.forall_mem_singleton,
      List.forall_mem_cons]
  rw [Bool.eq_iff_iff, Bool.or_eq_true, grows_iff, hcovers, not_and_or, ← grows_iff, ← grows_iff]
  cases hfirst : s.grows (ofOuts [e] (List.pairwise_singleton _ _)) with
  | true => simp
  | false => rw [join_eq_of_not_grows (by simp [hfirst])]

/-- Joining what is listed for one parameter is joining the summary that lists only that. -/
theorem joinOut_eq (s : Summary) (b : Bool) (e : Nat × Value) : joinOut (s, b) e =
    (s.join (ofOuts [e] (List.pairwise_singleton _ _)),
      b || s.grows (ofOuts [e] (List.pairwise_singleton _ _))) := by
  have hgrows : s.grows (ofOuts [e] (List.pairwise_singleton _ _)) = (s.out e.1).grows e.2 := by
    rw [Bool.eq_iff_iff, grows_iff, Value.grows_iff, covers_ofOuts, List.forall_mem_singleton]
  rw [joinOut, hgrows]
  split
  · next hbot =>
    have hstays : (s.out e.1).grows e.2 = false := Bool.eq_false_iff.mpr fun h =>
      Value.grows_iff.mp h (Value.isBottom_iff.mp hbot ▸ Value.bottom_le _)
    rw [join_eq_of_not_grows (by simp [hgrows, hstays]), hstays, Bool.or_false]
  · next hbot =>
    rw [Value.isBottom_iff] at hbot
    refine Prod.ext (ext_out (Value.join_bottom _).symm (fun i => ?_) fun i => ?_) rfl
    · rw [mem_outParams_setOut, mem_outParams_join, or_comm]
      refine or_congr_right ⟨fun hi => ⟨e.2, ?_, hbot⟩, fun hlisted => ?_⟩
      · exact List.mem_singleton.mpr (Prod.ext hi rfl)
      · obtain ⟨v, hv, -⟩ := hlisted
        exact congrArg Prod.fst (List.mem_singleton.mp hv)
    · rw [out_setOut, out_join_eq, out_ofOuts_cons]
      split
      · next hi => rw [hi]
      · exact (Value.join_bottom _).symm

/-- Joining parameter by parameter is joining, and what is reported is whether the summary
grows. -/
theorem joinInPlace_eq (s t : Summary) : s.joinInPlace t = (s.join t, s.grows t) := by
  have hfold (es : List (Nat × Value)) (h : (es.map Prod.fst).Pairwise (· < ·)) (s : Summary)
      (b : Bool) : es.foldl joinOut (s, b) = (s.join (ofOuts es h), b || s.grows (ofOuts es h)) := by
    induction es generalizing s b with
    | nil =>
        have hstays : ¬ s.grows (ofOuts [] h) = true := by
          rw [grows_iff, not_not, covers_ofOuts]
          exact fun e he => absurd he List.not_mem_nil
        rw [List.foldl_nil, join_eq_of_not_grows hstays, Bool.eq_false_iff.mpr hstays,
          Bool.or_false]
    | cons e es ih =>
        rw [List.foldl_cons, joinOut_eq, ih h.of_cons, join_ofOuts_cons s e h, Bool.or_assoc,
          grows_ofOuts_cons s e h]
  rw [joinInPlace, hfold t.outs t.ascending]
  refine Prod.ext (ext_out (Value.join_bottom _) (fun i => Iff.rfl) fun i => ?_) ?_
  · rw [out_join_eq, out_join_eq]
    rfl
  · rw [Bool.eq_iff_iff, Bool.or_eq_true, Value.grows_iff, grows_iff, grows_iff, covers_ofOuts,
      covers, Bool.and_eq_true, List.all_eq_true, not_and_or]
    rfl

theorem leastUpdate : LeastUpdate (fun s t : Summary => t.covers s = true) joinInPlace where
  refl := covers_refl
  trans := fun _ _ _ hst htu => covers_trans hst htu
  left := fun s t => joinInPlace_eq s t ▸ (covers_join_iff.mp (covers_refl _)).1
  right := fun s t => joinInPlace_eq s t ▸ (covers_join_iff.mp (covers_refl _)).2
  least := fun s t _ hs ht => joinInPlace_eq s t ▸ covers_join_iff.mpr ⟨hs, ht⟩
  reported := fun s t => joinInPlace_eq s t ▸ grows_iff

end Summary

/-! ## All three levels -/

/-- At every level the join in place is the join, it is the least upper bound of what was there and
what is joined, and it reports growth exactly if what is joined was not below what was there. The
entries it relies on are those of a value after any operations. The order of values is
antisymmetric, and a join of values joins what a report shows of them. -/
theorem joins_report_growth :
    (∀ es, Value.Built es → (∃ v : Value, v.entries = es) ∧ ∀ e ∈ es, e.2 ≠ Kind.none) ∧
      (∀ u v : Value, Value.joinEntries u.entries v.entries = ((u.join v).entries, u.grows v)) ∧
      LeastUpdate (fun u v : Value => u ≤ v) (fun u v => (u.join v, u.grows v)) ∧
      (∀ u v : Value, u ≤ v → v ≤ u → u = v) ∧
      (∀ u v : Value, (u.join v).tier = u.tier.max v.tier ∧
        (u.join v).sources = u.sources ∪ v.sources) ∧
      (∀ s t : State, s.joinInPlace t = (s.join t, s.grows t)) ∧
      LeastUpdate (fun s t : State => s ≤ t) State.joinInPlace ∧
      (∀ s t : Summary, s.joinInPlace t = (s.join t, s.grows t)) ∧
      LeastUpdate (fun s t : Summary => t.covers s = true) Summary.joinInPlace := by
  refine ⟨fun es hes => ?_, Value.joinEntries_eq, Value.leastUpdate, fun _ _ => Value.le_antisymm,
    fun u v => ⟨Value.tier_join u v, Value.sources_join u v⟩, State.joinInPlace_eq,
    State.leastUpdate, Summary.joinInPlace_eq, Summary.leastUpdate⟩
  obtain ⟨v, rfl⟩ := Value.exists_of_built hes
  exact ⟨⟨v, rfl⟩, v.inhabited⟩

theorem joins_report_growth_listed :
    Value.Built (Value.joinEntries [(2, Kind.indirectOnly)] [(1, Kind.directOnly)]).1 ∧
      ∃ v : Value, v.entries = [(1, Kind.directOnly), (2, Kind.indirectOnly)] :=
  have hbuilt : Value.Built (Value.joinEntries [(2, Kind.indirectOnly)] [(1, Kind.directOnly)]).1 :=
    .join (.single 2 Kind.indirectOnly) (.single 1 Kind.directOnly)
  ⟨hbuilt, (joins_report_growth.1 _ hbuilt).1⟩

end TaintAnalysis
