import TaintAnalysis.Proofs.Solver.Computations
import TaintAnalysis.Proofs.Solver.LeastSolution

/-!
# Only parameters are sources

The solver starts with one source for each parameter, and unknown code is tainted
by all of them. Nothing makes up another source: joins and the maps of kinds have
the sources of what they are given, and a summary is rewritten into the sources of
the arguments, whatever it mentions itself.

`Keeps` says this of a computation, for one source at a time: if memory is clean
of the source at the beginning, then it is at the end, and so is what is computed.
It holds of whatever is put together from lookups, reads and writes, since these keep
memory clean (`clean_keptByWrites`). At the end stands what is used of it: a source
that the solver knows of is a parameter, and unknown code is fully tainted by it.
-/

namespace TaintAnalysis

/-! ## Values and states -/

namespace Kind

theorem toFull_eq_none_iff {k : Kind} : k.toFull = none ↔ k = none := by
  obtain ⟨d, i, f⟩ := k
  cases d <;> cases i <;> cases f <;> decide

theorem fullOnly_le_toFull {k : Kind} (h : k ≠ none) : fullOnly ≤ k.toFull := by
  obtain ⟨d, i, f⟩ := k
  cases d <;> cases i <;> cases f <;> first | decide | exact absurd rfl h

end Kind

namespace Value

variable {s : SourceId} {v : Value}

@[simp] theorem clean_toFull : Clean s v.toFull ↔ Clean s v := by
  rw [Clean, kindOf_toFull, Kind.toFull_eq_none_iff]
  exact Iff.rfl

theorem clean_joins {vs : List Value} (h : ∀ v ∈ vs, Clean s v) : Clean s (joins vs) := by
  induction vs with
  | nil => exact clean_bottom s
  | cons v rest ih =>
      exact clean_join.mpr ⟨h v List.mem_cons_self, ih fun w hw => h w (List.mem_cons_of_mem v hw)⟩

theorem clean_single {t : SourceId} (k : Kind) (h : s ≠ t) : Clean s (single t k) := by
  rw [Clean, kindOf_single, if_neg h]

theorem kindOf_top (sources : List SourceId) (s : SourceId) :
    (top sources).kindOf s = if s ∈ sources then Kind.fullOnly else Kind.none := by
  rw [top, kindOf_tabulate]
  simp only [IdSet.mem_ofList]

theorem clean_throughFormal {k : Kind} (h : Clean s v) : Clean s (throughFormal k v) := by
  refine clean_joins fun x hx => ?_
  obtain ⟨d, i, f⟩ := k
  cases d <;> cases i <;> cases f <;> simp at hx <;> rcases hx with rfl | rfl | rfl <;> simpa

/-- A summary value has no sources of its own for the caller. -/
theorem clean_substitute {actuals : List Value} (h : ∀ a ∈ actuals, Clean s a) :
    Clean s (v.substitute actuals) := by
  refine clean_joins fun x hx => ?_
  obtain ⟨e, -, rfl⟩ := List.mem_map.mp hx
  cases ha : actuals[e.1]? with
  | none => exact clean_bottom s
  | some a => exact clean_throughFormal (h a (List.mem_of_getElem? ha))

end Value

theorem Value.closed_clean (s : SourceId) : Value.Closed (Value.Clean s) where
  bottom := Value.clean_bottom s
  join := fun hx hy => Value.clean_join.mpr ⟨hx, hy⟩
  toIndirect := Value.clean_toIndirect.mpr
  substitute := Value.clean_substitute

/-- No variable has the source. -/
def State.Clean (s : SourceId) (t : State) : Prop :=
  ∀ v, Value.Clean s (t.get v)

/-- No cell has the source, and nothing is written through a parameter that has it. -/
structure Memory.Clean (s : SourceId) (m : Memory) : Prop where
  cells : ∀ e ∈ m.cells.entries, Value.Clean s e.2
  writes : ∀ e ∈ m.paramWrites.entries, Value.Clean s e.2

variable {s : SourceId} {p : Problem} {around : Surroundings} {t : State}

theorem State.Clean.set (ht : t.Clean s) {x : Value} (hx : Value.Clean s x) (v : VarId) :
    (t.set v x).Clean s :=
  State.get_set_of_all ht v hx

theorem State.clean_untainted (n : Nat) : (State.untainted n).Clean s := fun v => by
  rw [State.get_untainted]
  exact Value.clean_bottom s

theorem State.Clean.join {u : State} (ht : t.Clean s) (hu : u.Clean s) : (t.join u).Clean s :=
  fun v => by
    rw [State.get_join]
    exact Value.clean_join.mpr ⟨ht v, hu v⟩

theorem OrderedMap.clean_joinAt {κ : Type} [DecidableEq κ] {m : OrderedMap κ Value} {k : κ}
    {x : Value} (hm : ∀ e ∈ m.entries, Value.Clean s e.2) (hx : Value.Clean s x) :
    ∀ e ∈ (m.joinAt k x).entries, Value.Clean s e.2 := by
  intro e he
  have hget := OrderedMap.get?_eq_some_iff.mpr he
  rw [OrderedMap.joinAt] at hget
  split at hget
  · rw [OrderedMap.get?_insert] at hget
    split at hget
    · rw [← Option.some.inj hget]
      refine Value.clean_join.mpr ⟨?_, hx⟩
      cases hold : m.get? k with
      | none => exact Value.clean_bottom s
      | some old => exact hm _ (OrderedMap.get?_eq_some_iff.mp hold)
    · exact hm e (OrderedMap.get?_eq_some_iff.mp hget)
  · exact hm e (OrderedMap.get?_eq_some_iff.mp hget)

theorem Memory.Clean.write {m : Memory} (hm : m.Clean s) {x : Value} (hx : Value.Clean s x)
    (p : Problem) (id : LocId) : (m.write p id x).Clean s := by
  rw [Memory.write]
  split
  · exact hm
  · refine ⟨OrderedMap.clean_joinAt hm.cells hx, ?_⟩
    exact List.foldlRecOn
      (motive := fun writes : OrderedMap Nat Value => ∀ e ∈ writes.entries, Value.Clean s e.2)
      _ _ hm.writes fun writes hwrites i _ => OrderedMap.clean_joinAt hwrites hx

/-! ## Computations -/

/-- On memory without the source the computation returns something with a property, and it
leaves memory without the source. -/
def Keeps (s : SourceId) {α : Type} (c : Effect α) (P : α → Prop) : Prop :=
  ∀ m : Memory, m.Clean s → P (c.run m).1 ∧ (c.run m).2.Clean s

/-- Neither looking up nor reading nor writing brings in a source. -/
theorem clean_keptByWrites {T : Fragment} :
    KeptByWrites p T (Value.Clean s) (Memory.Clean s) fun _ m' => m'.Clean s where
  refl := id
  trans := fun _ h => h
  after := id
  lookup := fun _ hm => ⟨hm.cells, hm.writes⟩
  read := fun ids hm => Value.clean_joins fun x hx => by
    obtain ⟨e, he, rfl⟩ := List.mem_map.mp hx
    exact hm.cells e (List.mem_filter.mp he).1
  write := fun _ _ hm hx => List.foldlRecOn (motive := Memory.Clean s) _ _ hm
    fun _ hm id _ => hm.write hx p id

theorem Composed.keeps {T : Fragment} {α : Type} {c : Effect α} {P : α → Prop}
    (h : Composed p T (Value.Clean s) P c) : Keeps s c P :=
  fun _ hm => h.run clean_keptByWrites hm

/-! ## Visits -/

namespace Problem

variable {k k' : Knowledge} {b : BlockId} {block : Block} {a₀ : Arena}

/-- The source occurs nowhere in what is known. -/
structure CleanOf (s : SourceId) (k : Knowledge) : Prop where
  exits : ∀ b t, k.exits.get? b = some t → t.Clean s
  branch : ∀ b, Value.Clean s (k.branch b)
  control : ∀ b, Value.Clean s (k.control b)
  returned : Value.Clean s k.returned
  memory : k.memory.Clean s

/-- Nothing that a block adds has the source. -/
theorem cleanOf_surroundings (h : CleanOf s k) (b : BlockId) :
    (p.surroundings k b).All (Value.Clean s) where
  control := Value.clean_joins fun x hx => by
    obtain ⟨y, -, rfl⟩ := List.mem_map.mp hx
    exact Value.clean_toIndirect.mpr (Value.clean_join.mpr ⟨h.branch y, h.control y⟩)
  widening := Value.clean_joins fun x hx => by
    obtain ⟨l, -, hx⟩ := List.mem_flatMap.mp hx
    obtain ⟨y, -, rfl⟩ := List.mem_map.mp hx
    exact Value.clean_toFull.mpr (h.branch y)
  depth := by
    rw [surroundings, depthOf]
    dsimp only
    split
    · exact Value.clean_bottom s
    · refine Value.clean_joins fun x hx => ?_
      obtain ⟨y, -, rfl⟩ := List.mem_map.mp hx
      exact Value.clean_join.mpr
        ⟨Value.clean_toFull.mpr (h.branch y), Value.clean_toFull.mpr (h.control y)⟩

theorem ne_of_mem_params (hs : p.function.paramCount ≤ s) {e : VarId × Nat}
    (he : e ∈ p.function.params.zipIdx) : s ≠ e.2 := by
  have hlt : e.2 < p.function.params.length := by
    simpa using List.snd_lt_of_mem_zipIdx he
  rintro rfl
  exact absurd hlt (Nat.not_lt.mpr hs)

theorem clean_seedState (hs : p.function.paramCount ≤ s) : p.seedState.Clean s :=
  List.foldlRecOn (motive := State.Clean s) _ _ (State.clean_untainted _) fun _ ht _ he =>
    ht.set (Value.clean_single _ (ne_of_mem_params hs he)) _

theorem clean_seedCells (hs : p.function.paramCount ≤ s) (a : Arena) :
    ∀ e ∈ (p.seedCells a).entries, Value.Clean s e.2 := by
  rintro ⟨id, value⟩ he
  obtain ⟨l, hseeded, -⟩ := exists_mem_seedList he
  obtain ⟨param, hparam, hseeded⟩ := List.mem_flatMap.mp hseeded
  have hvalue : value = .single param.2 Kind.directOnly := by
    rcases List.mem_cons.mp hseeded with h | h
    · exact congrArg Prod.snd h
    · exact congrArg Prod.snd (List.mem_singleton.mp h)
  exact hvalue ▸ Value.clean_single _ (ne_of_mem_params hs hparam)

theorem clean_allSources (hs : p.function.paramCount ≤ s) : Value.Clean s p.allSources := by
  rw [Value.Clean, allSources, Value.kindOf_top, if_neg fun h => absurd (List.mem_range.mp h)
    (Nat.not_lt.mpr hs)]

theorem cleanOf_start (hs : p.function.paramCount ≤ s) (a : Arena) : CleanOf s (p.start a) where
  exits := fun _ _ h => absurd h.symm (Option.some_ne_none _)
  branch := fun _ => Value.clean_bottom s
  control := fun _ => Value.clean_bottom s
  returned := Value.clean_bottom s
  memory := ⟨clean_seedCells hs a, fun _ he => absurd he List.not_mem_nil⟩

theorem clean_entryState (hs : p.function.paramCount ≤ s) (h : CleanOf s k) (b : BlockId) :
    (p.entryState k b).Clean s := by
  have hbase : (if b = p.graph.entry then p.seedState else .untainted p.varCount).Clean s := by
    split
    · exact clean_seedState hs
    · exact State.clean_untainted _
  refine List.foldlRecOn (motive := State.Clean s) _ _ hbase fun t ht u hu => ?_
  obtain ⟨x, -, hx⟩ := List.mem_filterMap.mp hu
  exact ht.join (h.exits x u hx)

/-- The instructions of a visit make up no source that is not a parameter. -/
theorem transferAll_keeps (hs : p.function.paramCount ≤ s) (h : CleanOf s k) (b : BlockId)
    (is : List Instruction) :
    Keeps s (p.transferAll (p.surroundings k b) (p.entryState k b) is) (State.Clean s) :=
  (transferAll_composed (Value.closed_clean s) (clean_entryState hs h b) (cleanOf_surroundings h b)
    (clean_allSources hs) fun i _ => Fragment.all_covers i).keeps

/-- Neither does the rest of the visit. -/
theorem finishBlock_keeps (hs : p.function.paramCount ≤ s) (h : CleanOf s k) (b : BlockId)
    (is : List Instruction) (t : Terminator) :
    Keeps s (p.finishBlock (p.surroundings k b) (p.entryState k b) is t) fun x =>
      State.Clean s x.1 ∧ Value.Clean s x.2.1 ∧ Value.Clean s x.2.2 :=
  (finishBlock_composed (T := .all) (Value.closed_clean s) (clean_entryState hs h b)
    (cleanOf_surroundings h b) (clean_allSources hs) (fun i _ => Fragment.all_covers i)
    fun _ _ => trivial).keeps

theorem cleanOf_visit (hs : p.function.paramCount ≤ s) (h : CleanOf s k)
    (hvisit : p.Visits k b k') : CleanOf s k' := by
  obtain @⟨i, _, rest, _, _, _⟩ := hvisit
  have h' : CleanOf s { k with worklist := rest } :=
    ⟨h.exits, h.branch, h.control, h.returned, h.memory⟩
  rw [visit]
  cases hblock : p.function.block? b with
  | none => exact h'
  | some block =>
      have haround := cleanOf_surroundings (p := p) h' b
      obtain ⟨⟨hexit, hbranch, hreturned⟩, hmemory⟩ := finishBlock_keeps hs h' b block.instructions
        block.terminator k.memory h.memory
      have hjoin (m : OrderedMap BlockId Value) (x : Value) (hx : Value.Clean s x)
          (hm : ∀ y, Value.Clean s ((m.get? y).getD Value.bottom)) (y : BlockId) :
          Value.Clean s (((m.joinAt b x).get? y).getD Value.bottom) := by
        rw [OrderedMap.getD_joinAt]
        split
        · exact Value.clean_join.mpr ⟨hm b, hx⟩
        · exact hm y
      refine ⟨fun x t hx => ?_, hjoin _ _ hbranch h.branch, hjoin _ _ haround.control h.control,
        Value.clean_join.mpr ⟨h.returned, hreturned⟩, hmemory⟩
      replace hx : (Knowledge.joinExit k.exits b _).get? x = some t := hx
      rw [Knowledge.joinExit, OrderedMap.get?_insert] at hx
      split at hx
      · rw [← Option.some.inj hx]
        refine State.Clean.join ?_ hexit
        cases hold : k.exits.get? b with
        | none => exact State.clean_untainted _
        | some t => exact h.exits b t hold
      · exact h.exits x t hx

theorem cleanOf_of_reached (hs : p.function.paramCount ≤ s) (h : p.Reached a₀ k) : CleanOf s k := by
  induction h with
  | start => exact cleanOf_start hs a₀
  | visit _ hvisit ih => exact cleanOf_visit hs ih hvisit

/-- Unknown code is fully tainted by every source of the condition of a branch. -/
theorem allSources_has (h : p.Reached a₀ k) {b : BlockId} (hs : s ∈ (k.branch b).sources) :
    p.allSources.has s Kind.fullOnly = true := by
  have hlt : s < p.function.paramCount := by
    by_contra hge
    exact Value.clean_iff_not_mem.mp
      ((cleanOf_of_reached (Nat.le_of_not_lt hge) h).branch b) hs
  rw [Value.has, allSources, Value.kindOf_top, if_pos (List.mem_range.mpr hlt)]
  rfl

end Problem

end TaintAnalysis
