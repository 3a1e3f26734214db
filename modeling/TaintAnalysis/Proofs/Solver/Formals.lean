import TaintAnalysis.Proofs.Solver.Halting

/-!
# What the solver stores is about the parameters

The sources that the solver knows of are positions of parameters, and what it records
as written through a parameter is recorded under such a position. `Within` says both of
everything that is stored: the states at the ends of the blocks, the taint of branches
and of surroundings, that of memory and that of the result. In the middle of a block it
says so of the state and the memory that an instruction is executed on.

The sources are settled one at a time, by `Keeps`: a source that is not a parameter occurs
nowhere at the start, and no computation makes it up. The positions come with the
locations that are written, which are those of the function (`transferAll_inside`).
-/

namespace TaintAnalysis

variable {n : Nat}

/-- Every source of the value is one of the first `n` parameters. -/
def Value.Within (n : Nat) (v : Value) : Prop :=
  ∀ s ∈ v.sources, s < n

theorem Value.within_iff_clean {v : Value} : v.Within n ↔ ∀ s, n ≤ s → Clean s v := by
  constructor
  · exact fun h s hs => clean_iff_not_mem.mpr fun hmem => Nat.not_lt.mpr hs (h s hmem)
  · intro h s hs
    by_contra hge
    exact clean_iff_not_mem.mp (h s (Nat.le_of_not_lt hge)) hs

/-- Every variable has a value with sources among the first `n` parameters. -/
def State.Within (n : Nat) (t : State) : Prop :=
  ∀ v, (t.get v).Within n

/-- Every cell has sources among the first `n` parameters, and so has whatever is written through
a parameter, which is one of them. -/
structure Memory.Within (n : Nat) (m : Memory) : Prop where
  cells : ∀ e ∈ m.cells.entries, e.2.Within n
  writes : ∀ e ∈ m.paramWrites.entries, e.1 < n ∧ e.2.Within n

/-- Everything that is known is about the first `n` parameters. -/
structure Knowledge.Within (n : Nat) (k : Knowledge) : Prop where
  exits : ∀ e ∈ k.exits.entries, e.2.Within n
  branch : ∀ e ∈ k.branchTaint.entries, e.2.Within n
  control : ∀ e ∈ k.controlTaint.entries, e.2.Within n
  returned : k.returned.Within n
  memory : k.memory.Within n

/-- The result and the effects of a function are about its first `n` parameters. -/
structure Summary.Within (n : Nat) (s : Summary) : Prop where
  returned : s.returned.Within n
  outs : ∀ e ∈ s.outs, e.1 < n ∧ e.2.Within n

theorem State.within_of_clean {t : State} (h : ∀ s, n ≤ s → t.Clean s) : t.Within n :=
  fun v => Value.within_iff_clean.mpr fun s hs => h s hs v

theorem Memory.within_of_clean {m : Memory} (h : ∀ s, n ≤ s → m.Clean s)
    (hkeys : ∀ i ∈ m.paramWrites.keys, i < n) : m.Within n where
  cells := fun e he => Value.within_iff_clean.mpr fun s hs => (h s hs).cells e he
  writes := fun e he => ⟨hkeys e.1 (List.mem_map_of_mem he),
    Value.within_iff_clean.mpr fun s hs => (h s hs).writes e he⟩

/-! ## Summaries -/

namespace Summary

variable {s t : Summary}

theorem Within.out (h : s.Within n) (i : Nat) : (s.out i).Within n := by
  by_cases hi : i ∈ s.outParams
  · exact (h.outs _ (mem_outParams_iff.mp hi)).2
  · rw [out_of_not_mem hi]
    exact Value.within_iff_clean.mpr fun source _ => Value.clean_bottom source

theorem within_empty (n : Nat) : empty.Within n where
  returned := Value.within_iff_clean.mpr fun s _ => Value.clean_bottom s
  outs := fun _ he => absurd he List.not_mem_nil

theorem Within.join (hs : s.Within n) (ht : t.Within n) : (s.join t).Within n := by
  have hvalue {u v : Value} (hu : u.Within n) (hv : v.Within n) : (u.join v).Within n := by
    rw [Value.within_iff_clean] at hu hv ⊢
    exact fun source hsource => Value.clean_join.mpr ⟨hu source hsource, hv source hsource⟩
  refine ⟨hvalue hs.returned ht.returned, fun e he => ?_⟩
  have hmem : e.1 ∈ (s.join t).outParams := List.mem_map_of_mem he
  refine ⟨?_, ?_⟩
  · rcases mem_outParams_join.mp hmem with hi | ⟨v, hv, -⟩
    · exact (hs.outs _ (mem_outParams_iff.mp hi)).1
    · exact (ht.outs _ hv).1
  · rw [← out_eq he, out_join s t hmem]
    exact hvalue (hs.out e.1) (ht.out e.1)

end Summary

/-! ## Runs -/

namespace Problem

variable {p : Problem} {D : Nat} {a₀ : Arena} {k : Knowledge}

theorem within_of_reached (hstart : p.Contained D (p.start a₀)) (h : p.Reached a₀ k) :
    k.Within p.function.paramCount := by
  have hclean (s : SourceId) (hs : p.function.paramCount ≤ s) := cleanOf_of_reached hs h
  have hbranch {m : OrderedMap BlockId Value} {e : BlockId × Value} (he : e ∈ m.entries) :
      (m.get? e.1).getD Value.bottom = e.2 := by
    rw [OrderedMap.get?_eq_some_iff.mpr he]
    rfl
  refine ⟨fun e he => ?_, fun e he => ?_, fun e he => ?_, ?_, ?_⟩
  · have hget := OrderedMap.get?_eq_some_iff.mpr he
    exact State.within_of_clean fun s hs => (hclean s hs).exits e.1 e.2 hget
  · exact Value.within_iff_clean.mpr fun s hs => hbranch he ▸ (hclean s hs).branch e.1
  · exact Value.within_iff_clean.mpr fun s hs => hbranch he ▸ (hclean s hs).control e.1
  · exact Value.within_iff_clean.mpr fun s hs => (hclean s hs).returned
  · exact Memory.within_of_clean (fun s hs => (hclean s hs).memory)
      (contained_of_reached hstart h).inside.writes

end Problem

namespace Run

variable {f : Function} {config : Config} {table : SummaryTable} {peers : List String}
  {k : Knowledge} {b : BlockId} {i : Instruction} {around : Surroundings} {s : State} {m : Memory}

/-- What is known at the start and after a visit is about the parameters of the function. -/
theorem within_of_mem (h : k ∈ (ofFunction f config table peers).start ::
      (ofFunction f config table peers).visits.map Prod.snd) : k.Within f.paramCount :=
  Problem.within_of_reached (contained_start f config table peers) (reached_of_mem h)

/-- An instruction is executed on taint that is about the parameters of the function. -/
theorem Executes.within (h : (ofFunction f config table peers).Executes b i around s m) :
    s.Within f.paramCount ∧ m.Within f.paramCount := by
  obtain ⟨k, block, before, after, hk, hblock, his, rfl, hrun⟩ := h
  have hreached := reached_of_mem_visited hk
  have hcontained := Problem.contained_of_reached (contained_start f config table peers) hreached
  have hclean (source : SourceId) (hsource : f.paramCount ≤ source) :
      s.Clean source ∧ m.Clean source := by
    have hknown := Problem.cleanOf_of_reached hsource hreached
    have hkeeps := Problem.transferAll_keeps (p := (ofFunction f config table peers).problem)
      hsource hknown b before k.memory hknown.memory
    rwa [hrun] at hkeeps
  have hmem : block ∈ f.blocks.values := OrderedMap.mem_values_iff.mpr ⟨b, hblock⟩
  have hinside := transferAll_inside (p := (ofFunction f config table peers).problem) hmem
    (fun _ hi => his ▸ List.mem_append_left _ hi)
    ((ofFunction f config table peers).problem.surroundings k b)
    ((ofFunction f config table peers).problem.entryState k b) hcontained.inside
  rw [hrun] at hinside
  exact ⟨State.within_of_clean fun source hsource => (hclean source hsource).1,
    Memory.within_of_clean (fun source hsource => (hclean source hsource).2) hinside.writes⟩

/-- The summary of a run is about the parameters of the function. -/
theorem within_summary (f : Function) (config : Config) (table : SummaryTable)
    (peers : List String) : (ofFunction f config table peers).summary.Within f.paramCount := by
  have hfinal : (ofFunction f config table peers).final.Within f.paramCount :=
    Problem.within_of_reached (contained_start f config table peers) reached_ofFunction
  refine ⟨hfinal.returned, fun e he => ?_⟩
  obtain ⟨hmem, hvalue⟩ := Summary.mem_outs_tabulate.mp he
  obtain ⟨v, hv⟩ := OrderedMap.mem_keys_iff_exists.mp (IdSet.mem_ofList.mp hmem)
  have hentry := hfinal.memory.writes (e.1, v) (OrderedMap.get?_eq_some_iff.mp hv)
  rw [hv, Option.getD_some] at hvalue
  exact ⟨hentry.1, hvalue ▸ hentry.2⟩

end Run

end TaintAnalysis
