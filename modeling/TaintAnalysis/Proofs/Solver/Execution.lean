import TaintAnalysis.Proofs.Solver.Evaluation
import TaintAnalysis.Proofs.Solver.Monotone

/-!
# Executing a block and its equation agree

An instruction first evaluates expressions and then writes values. `Steps` says
what a computation that writes has done to a memory: it added certain writes,
seen by location, and nothing else. It also says that a computation leaves the
maps literally as they are if memory had all the taint of its writes before,
which is how the solver notices that it is done.

A single instruction does exactly what the equations say about the view of the
memory it starts with (`transfer_writes`). A block does not, since its later
instructions read what the earlier ones wrote, whereas the equations read one
fixed list of cells. So there are two bounds for a block: it does at least what
the equation says about the memory before, and at most what the equation says
about any cells that hold the memory before and the writes (`execute_bounds`).
-/

namespace TaintAnalysis

open Arena

namespace OrderedMap

variable {κ : Type} [DecidableEq κ] {m : OrderedMap κ Value} {k : κ} {v : Value}

theorem getD_joinAt (k' : κ) : ((m.joinAt k v).get? k').getD Value.bottom =
    if k' = k then ((m.get? k).getD Value.bottom).join v
    else (m.get? k').getD Value.bottom := by
  rw [joinAt]
  by_cases hgrows : ((m.get? k).getD Value.bottom).grows v = true
  · rw [if_pos hgrows, get?_insert]
    split <;> rfl
  · rw [if_neg hgrows]
    split
    · next h => rw [h, Value.join_eq_left_iff.mpr (Value.le_of_not_grows hgrows)]
    · rfl

theorem joinAt_eq_self (h : v ≤ (m.get? k).getD Value.bottom) : m.joinAt k v = m := by
  rw [joinAt, if_neg fun hgrows => Value.grows_iff.mp hgrows h]

/-- Every value of a map in which a value was joined is an old one or lies above the new one. -/
theorem entries_joinAt {e : κ × Value} (he : e ∈ (m.joinAt k v).entries) :
    e ∈ m.entries ∨ e.1 = k ∧ v ≤ e.2 := by
  rw [joinAt] at he
  split at he
  · have hget := get?_eq_some_iff.mpr he
    rw [get?_insert] at hget
    split at hget
    · next hkey => exact .inr ⟨hkey, Option.some.inj hget ▸ Value.le_join_right _ _⟩
    · exact .inl (get?_eq_some_iff.mp hget)
  · exact .inl he

theorem entries_foldl_joinAt {ks : List κ} {e : κ × Value}
    (he : e ∈ (ks.foldl (fun m k => m.joinAt k v) m).entries) : e ∈ m.entries ∨ v ≤ e.2 := by
  induction ks generalizing m with
  | nil => exact .inl he
  | cons k rest ih =>
      rcases ih he with hold | hnew
      · exact (entries_joinAt hold).imp id And.right
      · exact .inr hnew

/-- Joining the same value under several keys. -/
theorem getD_foldl_joinAt (ks : List κ) (k' : κ) :
    ((ks.foldl (fun m k => m.joinAt k v) m).get? k').getD Value.bottom =
      if k' ∈ ks then ((m.get? k').getD Value.bottom).join v
      else (m.get? k').getD Value.bottom := by
  induction ks generalizing m with
  | nil => rw [List.foldl_nil, if_neg List.not_mem_nil]
  | cons k rest ih =>
      rw [List.foldl_cons, ih, getD_joinAt]
      by_cases hk : k' = k
      · subst hk
        rw [if_pos rfl, if_pos List.mem_cons_self]
        split
        · exact Value.join_eq_left_iff.mpr (Value.le_join_right _ _)
        · rfl
      · rw [if_neg hk]
        simp only [List.mem_cons, hk, false_or]

theorem foldl_joinAt_eq_self {ks : List κ}
    (h : ∀ k ∈ ks, v ≤ (m.get? k).getD Value.bottom) :
    ks.foldl (fun m k => m.joinAt k v) m = m := by
  induction ks with
  | nil => rfl
  | cons k rest ih =>
      rw [List.foldl_cons, joinAt_eq_self (h k List.mem_cons_self)]
      exact ih fun k' hk' => h k' (List.mem_cons_of_mem k hk')

end OrderedMap

section

variable (p : Problem) (a₀ : Arena)

/-- From one memory to the other, certain writes were added. -/
structure Steps (m m' : Memory) (ws : Cells) : Prop where
  fits : Fits p a₀ m'
  extend : m.arena.Extends m'.arena
  view : ∀ l, m'.view.taintAt l = (m.view.taintAt l).join (ws.taintAt l)
  out : ∀ i, m'.out i = (m.out i).join (p.writtenThrough ws i)
  same : ws.Within m.view → (∀ i, p.writtenThrough ws i ≤ m.out i) →
    m'.cells = m.cells ∧ m'.paramWrites = m.paramWrites

/-- The computation has a certain result and adds certain writes, now and after
more locations were named. -/
def Writes {α : Type} (m : Memory) (c : Effect α) (x : α) (ws : Cells) : Prop :=
  ∀ m', Quiet p a₀ m m' → (c.run m').1 = x ∧ Steps p a₀ m' (c.run m').2 ws

end

variable {p : Problem} {a₀ : Arena} {m m' m'' : Memory} {ws ws' : Cells}

theorem writtenThrough_mono (h : ws.Within ws') (i : Nat) :
    p.writtenThrough ws i ≤ p.writtenThrough ws' i :=
  h.gather_mono _

namespace Steps

theorem of_quiet (hm : Fits p a₀ m) (h : Quiet p a₀ m m') : Steps p a₀ m m' [] where
  fits := h.fits
  extend := h.extend
  view := fun l => by
    rw [h.view_eq hm]
    exact (Value.join_bottom _).symm
  out := fun i => by
    rw [Memory.out, Memory.out, h.paramWrites]
    exact (Value.join_bottom _).symm
  same := fun _ _ => ⟨h.cells, h.paramWrites⟩

theorem view_within (h : Steps p a₀ m m' ws) : m.view.Within m'.view :=
  Cells.within_iff.mpr fun l => h.view l ▸ Value.le_join_left _ _

theorem writes_within (h : Steps p a₀ m m' ws) : ws.Within m'.view :=
  Cells.within_iff.mpr fun l => h.view l ▸ Value.le_join_right _ _

theorem out_le (h : Steps p a₀ m m' ws) (i : Nat) : m.out i ≤ m'.out i :=
  h.out i ▸ Value.le_join_left _ _

theorem writtenThrough_le (h : Steps p a₀ m m' ws) (i : Nat) :
    p.writtenThrough ws i ≤ m'.out i :=
  h.out i ▸ Value.le_join_right _ _

/-- What holds the memory before and the writes holds the memory after. -/
theorem within_of (h : Steps p a₀ m m' ws) {c : Cells} (hm : m.view.Within c)
    (hws : ws.Within c) : m'.view.Within c :=
  Cells.within_iff.mpr fun l => h.view l ▸ Value.join_le (Cells.within_iff.mp hm l)
    (Cells.within_iff.mp hws l)

theorem trans (h : Steps p a₀ m m' ws) (h' : Steps p a₀ m' m'' ws') :
    Steps p a₀ m m'' (ws ++ ws') where
  fits := h'.fits
  extend := h.extend.trans h'.extend
  view := fun l => by rw [h'.view, h.view, Cells.taintAt_append, Value.join_assoc]
  out := fun i => by
    rw [h'.out, h.out, Value.join_assoc]
    exact congrArg _ (Cells.gather_append _).symm
  same := fun hcells hout => by
    have hleft := (Cells.Within.left ws ws').trans hcells
    have hright := ((Cells.Within.right ws ws').trans hcells).trans h.view_within
    obtain ⟨hc, hw⟩ := h.same hleft fun i =>
      Value.le_trans (writtenThrough_mono (.left ws ws') i) (hout i)
    obtain ⟨hc', hw'⟩ := h'.same hright fun i => by
      rw [Memory.out, hw]
      exact Value.le_trans (writtenThrough_mono (.right ws ws') i) (hout i)
    exact ⟨hc'.trans hc, hw'.trans hw⟩

/-- Only the taint of the writes counts, not how they are listed. -/
theorem congr (h : Steps p a₀ m m' ws) (hws : ws.Within ws') (hws' : ws'.Within ws) :
    Steps p a₀ m m' ws' where
  fits := h.fits
  extend := h.extend
  view := fun l => by
    rw [h.view, Value.le_antisymm (Cells.within_iff.mp hws l) (Cells.within_iff.mp hws' l)]
  out := fun i => by
    rw [h.out, Value.le_antisymm (writtenThrough_mono hws i) (writtenThrough_mono hws' i)]
  same := fun hcells hout => h.same (hws.trans hcells) fun i =>
    Value.le_trans (writtenThrough_mono hws i) (hout i)

end Steps

/-! ## Writing -/

/-- The value of a named location is that of its cell. -/
theorem taintAt_view (hm : Fits p a₀ m) {id : LocId} {l : Location} (hid : m.arena.Points id l) :
    m.view.taintAt l = m.cell id := by
  refine Value.le_antisymm (Cells.taintAt_le_iff.mpr ?_) ?_
  · intro e he hl
    obtain ⟨e', he', rfl⟩ := List.mem_map.mp he
    have hkey : e'.1 = id := hm.grows.wellFormed.eq_of_location_eq ⟨hm.keys e' he', hl⟩ hid
    rw [Memory.cell, ← hkey, OrderedMap.get?_eq_some_iff.mpr he']
    exact Value.le_refl _
  · rw [Memory.cell]
    cases hget : m.cells.get? id with
    | none => exact Value.bottom_le _
    | some v =>
        have hmem := List.mem_map_of_mem (f := fun e : LocId × Value => (m.arena.location e.1, e.2))
          (OrderedMap.get?_eq_some_iff.mp hget)
        exact hid.2 ▸ Cells.le_taintAt hmem

/-- A location without a number has no taint. -/
theorem taintAt_view_of_not_has (hm : Fits p a₀ m) {l : Location} (hl : ¬ m.arena.Has l) :
    m.view.taintAt l = Value.bottom := by
  refine Value.le_bottom_iff.mp (Cells.taintAt_le_iff.mpr ?_)
  intro e he hel
  obtain ⟨e', he', rfl⟩ := List.mem_map.mp he
  exact absurd (hel ▸ has_location (hm.keys e' he')) hl

theorem taintAt_singleton (l l' : Location) (v : Value) :
    Cells.taintAt [(l, v)] l' = if l' = l then v else Value.bottom := by
  refine Value.le_antisymm (Cells.taintAt_le_iff.mpr ?_) ?_
  · intro e he hl
    obtain rfl := List.mem_singleton.mp he
    rw [if_pos hl.symm]
    exact Value.le_refl _
  · split
    · next h =>
      subst h
      exact Cells.le_taintAt (e := (l', v)) (List.mem_singleton.mpr rfl)
    · exact Value.bottom_le _

theorem writtenThrough_singleton (p : Problem) (l : Location) (v : Value) (i : Nat) :
    p.writtenThrough [(l, v)] i = if i ∈ Memory.writtenParams p l then v else Value.bottom := by
  refine Value.le_antisymm (Cells.gather_le_iff.mpr ?_) ?_
  · intro e he hi
    obtain rfl := List.mem_singleton.mp he
    rw [if_pos (of_decide_eq_true hi)]
    exact Value.le_refl _
  · split
    · next h => exact Cells.le_gather (e := (l, v)) (List.mem_singleton.mpr rfl) (decide_eq_true h)
    · exact Value.bottom_le _

theorem fits_joinAt (hm : Fits p a₀ m) {id : LocId} (hid : id < m.arena.size) (v : Value) :
    Fits p a₀ { m with cells := m.cells.joinAt id v } := by
  refine ⟨hm.grows, fun e he => ?_, hm.tainted⟩
  rcases OrderedMap.entries_joinAt he with hold | ⟨hkey, -⟩
  · exact hm.keys e hold
  · exact hkey ▸ hid

/-- Joining a value in the cell of a location changes the value of this location alone. -/
theorem taintAt_joinAt (hm : Fits p a₀ m) {id : LocId} {l : Location}
    (hid : m.arena.Points id l) (v : Value) (l' : Location) :
    Cells.taintAt (Memory.view { m with cells := m.cells.joinAt id v }) l' =
      (Cells.taintAt m.view l').join (if l' = l then v else Value.bottom) := by
  have hfits := fits_joinAt hm hid.1 v
  by_cases hnamed : m.arena.Has l'
  · obtain ⟨id', hid'⟩ := Option.isSome_iff_exists.mp (has_iff_find?.mp hnamed)
    rw [taintAt_view hfits (find?_some hid'), taintAt_view hm (find?_some hid'), Memory.cell,
      OrderedMap.getD_joinAt]
    by_cases hkey : id' = id
    · have hl : l' = l := by rw [← (find?_some hid').2, hkey, hid.2]
      rw [if_pos hkey, if_pos hl, hkey]
      rfl
    · have hl : ¬ l' = l := fun hl =>
        hkey (hm.grows.wellFormed.eq_of_location_eq (find?_some hid') (hl ▸ hid))
      rw [if_neg hkey, if_neg hl, Value.join_bottom]
      rfl
  · have hl : ¬ l' = l := fun hl => hnamed (hl ▸ hid.2 ▸ has_location hid.1)
    rw [taintAt_view_of_not_has hfits hnamed, taintAt_view_of_not_has hm hnamed, if_neg hl,
      Value.join_bottom]

theorem write_steps (hm : Fits p a₀ m) {id : LocId} {l : Location} (hid : m.arena.Points id l)
    (v : Value) : Steps p a₀ m (m.write p id v) [(l, v)] := by
  rw [Memory.write, hid.2]
  split
  · next hv =>
    obtain rfl := Value.isBottom_iff.mp hv
    refine (Steps.of_quiet hm (.refl hm)).congr (.nil _) ?_
    intro e he
    obtain rfl := List.mem_singleton.mp he
    exact Value.bottom_le _
  · next hv =>
    have hfits := fits_joinAt hm hid.1 v
    have htainted : ∀ e ∈ ((Memory.writtenParams p l).foldl
        (fun writes i => writes.joinAt i v) m.paramWrites).entries, e.2 ≠ Value.bottom := by
      intro e he hbottom
      rcases OrderedMap.entries_foldl_joinAt he with hold | hnew
      · exact hm.tainted e hold hbottom
      · exact hv (Value.isBottom_iff.mpr (Value.le_bottom_iff.mp (hbottom ▸ hnew)))
    refine ⟨⟨hfits.grows, hfits.keys, htainted⟩, .refl _, fun l' => ?_, fun i => ?_,
      fun hcells hout => ?_⟩
    · rw [taintAt_singleton]
      exact taintAt_joinAt hm hid v l'
    · rw [writtenThrough_singleton]
      show (((Memory.writtenParams p l).foldl (fun writes i => writes.joinAt i v)
        m.paramWrites).get? i).getD Value.bottom = _
      rw [OrderedMap.getD_foldl_joinAt]
      split
      · rfl
      · rw [Value.join_bottom]
        rfl
    · have hv := hcells (l, v) (List.mem_singleton.mpr rfl)
      rw [taintAt_view hm hid] at hv
      refine ⟨OrderedMap.joinAt_eq_self hv, OrderedMap.foldl_joinAt_eq_self fun i hi => ?_⟩
      have hle := hout i
      rw [writtenThrough_singleton, if_pos hi] at hle
      exact hle

/-- Writing to a list of numbers writes to the locations they stand for. -/
theorem writeList_steps (hm : Fits p a₀ m) {ids : List LocId} {ls : List Location}
    (hids : m.arena.Denotes ids ls) (v : Value) :
    Steps p a₀ m (ids.foldl (fun m id => m.write p id v) m) (ls.map fun l => (l, v)) := by
  have hsame : Steps p a₀ m (ids.foldl (fun m id => m.write p id v) m)
      (ids.map fun id => (m.arena.location id, v)) := by
    have hlt := hids.1
    clear hids
    induction ids generalizing m with
    | nil => exact .of_quiet hm (.refl hm)
    | cons id rest ih =>
        have hstep := write_steps hm (points_location (hlt id List.mem_cons_self)) v
        have hlt' : ∀ id' ∈ rest, id' < (m.write p id v).arena.size := fun id' hid' =>
          hstep.extend.lt_size (hlt id' (List.mem_cons_of_mem id hid'))
        have hrest := ih hstep.fits hlt'
        have hloc : rest.map (fun id' => ((m.write p id v).arena.location id', v)) =
            rest.map fun id' => (m.arena.location id', v) :=
          List.map_congr_left fun id' hid' => by
            rw [hstep.extend.location (hlt id' (List.mem_cons_of_mem id hid'))]
        rw [hloc] at hrest
        exact hstep.trans hrest
  refine hsame.congr (.of_entries fun e he => ?_) (.of_entries fun e he => ?_)
  · obtain ⟨id, hid, rfl⟩ := List.mem_map.mp he
    exact ⟨_, List.mem_map.mpr ⟨_, hids.location_mem hid, rfl⟩, rfl, Value.le_refl v⟩
  · obtain ⟨l, hl, rfl⟩ := List.mem_map.mp he
    obtain ⟨id, hid, rfl⟩ := (hids.2 l).mp hl
    exact ⟨_, List.mem_map.mpr ⟨id, hid, rfl⟩, rfl, Value.le_refl v⟩

namespace Writes

variable {α β : Type} {c : Effect α} {f : α → Effect β} {x : α} {y : β}

theorem pure (m : Memory) (x : α) : Writes p a₀ m (Pure.pure x) x [] :=
  fun _ h => ⟨rfl, .of_quiet h.fits (.refl h.fits)⟩

/-- First something is evaluated, then it is written. -/
theorem eval_bind (hc : Evaluates p a₀ m c x) (hf : Writes p a₀ m (f x) y ws) :
    Writes p a₀ m (c >>= f) y ws := by
  intro m' hm'
  obtain ⟨hx, hquiet⟩ := hc m' hm'
  obtain ⟨hy, hsteps⟩ := hf _ (hm'.trans hquiet)
  show ((f (c.run m').1).run (c.run m').2).1 = y ∧
    Steps p a₀ m' ((f (c.run m').1).run (c.run m').2).2 ws
  rw [hx]
  exact ⟨hy, (Steps.of_quiet hm'.fits hquiet).trans hsteps⟩

/-- What is written second must not depend on what was written first. -/
theorem bind (hc : Writes p a₀ m c x ws)
    (hf : ∀ m₁, Fits p a₀ m₁ → Writes p a₀ m₁ (f x) y ws') :
    Writes p a₀ m (c >>= f) y (ws ++ ws') := by
  intro m' hm'
  obtain ⟨hx, hsteps⟩ := hc m' hm'
  obtain ⟨hy, hsteps'⟩ := hf _ hsteps.fits _ (.refl hsteps.fits)
  show ((f (c.run m').1).run (c.run m').2).1 = y ∧
    Steps p a₀ m' ((f (c.run m').1).run (c.run m').2).2 (ws ++ ws')
  rw [hx]
  exact ⟨hy, hsteps.trans hsteps'⟩

/-- A computation that first changes the memory quietly. -/
theorem of_run (hm : Fits p a₀ m) {m₁ : Memory} {z : α} (hrun : c.run m = (z, m₁))
    (hquiet : Quiet p a₀ m m₁) (hf : Writes p a₀ m₁ (f z) y ws) :
    ((c >>= f).run m).1 = y ∧ Steps p a₀ m ((c >>= f).run m).2 ws := by
  obtain ⟨hy, hsteps⟩ := hf m₁ (.refl hquiet.fits)
  rw [StateT.run_bind, hrun]
  exact ⟨hy, (Steps.of_quiet hm hquiet).trans hsteps⟩

end Writes

theorem writeAll_writes {s : IdSet} {ls : List Location}
    (h : m.arena.Denotes s.elems ls) (v : Value) :
    Writes p a₀ m (Effect.writeAll p s v) () (ls.map fun l => (l, v)) :=
  fun _ hm' => ⟨rfl, writeList_steps hm'.fits (h.mono hm'.extend) v⟩

/-! ## Instructions -/

section

variable (hp : p.pointsTo.Ready a₀.maxDepth a₀)

include hp

theorem define_writes (s : State) (v : VarId) (value : Value) (m : Memory) :
    Writes p a₀ m (p.define s v value) (s.set v value)
      ((Storage.ofProblem p a₀).defines v value) := by
  intro m' hm'
  simp only [Problem.define, StateT.run_bind, StateT.run_get, pure_bind]
  rw [hm'.fits.livesInMemory_eq v, Storage.defines]
  split
  · next hv =>
    obtain ⟨m₁, id, hrun, hquiet, hpoints⟩ := varLocation_quiet hp hm'.fits hv
    exact Writes.of_run hm'.fits hrun hquiet
      ((writeAll_writes (s := .singleton id) (.singleton hpoints) value).bind
        fun m₂ _ => .pure m₂ _)
  · exact Writes.pure m' _ m' (.refl hm'.fits)

theorem writeThrough_writes (arg : Expr) (harg : ∀ place ∈ arg.addressed, KeptPlace p a₀ place)
    (value : Value) (m : Memory) :
    Writes p a₀ m (p.writeThrough value arg) ()
      ((Storage.ofProblem p a₀).writesThrough value arg) := by
  intro m' hm'
  obtain ⟨m₁, ids, hrun, hquiet, hden⟩ := targets_quiet hp hm'.fits harg
  exact Writes.of_run hm'.fits hrun hquiet (writeAll_writes hden value)

theorem evalArgument_evaluates (hm : Fits p a₀ m) (s : State) {arg : Expr}
    (harg : ∀ place ∈ arg.addressed, KeptPlace p a₀ place) :
    Evaluates p a₀ m (p.evalArgument s arg)
      ((Storage.ofProblem p a₀).argument m.view s arg) := by
  intro m' hm'
  obtain ⟨m₁, ids, hrun, hquiet, hden⟩ := targets_quiet hp hm'.fits harg
  have hrest : Evaluates p a₀ m₁
      (do let value ← p.eval s arg; return value.join (← Effect.read ids))
      ((Storage.ofProblem p a₀).argument m₁.view s arg) :=
    .bind (eval_evaluates hp s arg hquiet.fits harg)
      (.bind (read_evaluates hquiet.fits hden) (.pure m₁ _))
  rw [hquiet.view_eq hm'.fits, hm'.view_eq hm] at hrest
  obtain ⟨hvalue, hquiet'⟩ := hrest m₁ (.refl hquiet.fits)
  rw [Problem.evalArgument, StateT.run_bind, hrun]
  exact ⟨hvalue, hquiet.trans hquiet'⟩

theorem arguments_evaluate (hm : Fits p a₀ m) (s : State) {args : List Expr}
    (hargs : ∀ arg ∈ args, ∀ place ∈ arg.addressed, KeptPlace p a₀ place) :
    Evaluates p a₀ m (args.mapM (p.evalArgument s))
      (args.map ((Storage.ofProblem p a₀).argument m.view s)) := by
  induction args with
  | nil => exact .pure m _
  | cons arg rest ih =>
      rw [List.mapM_cons]
      exact .bind (evalArgument_evaluates hp hm s (hargs arg List.mem_cons_self))
        (.bind (ih fun arg' h => hargs arg' (List.mem_cons_of_mem arg h)) (.pure m _))

theorem writesThrough_all (value : Value) {args : List Expr}
    (hargs : ∀ arg ∈ args, ∀ place ∈ arg.addressed, KeptPlace p a₀ place) (m : Memory) :
    Writes p a₀ m (args.forM (p.writeThrough value)) ()
      (args.flatMap ((Storage.ofProblem p a₀).writesThrough value)) := by
  induction args generalizing m with
  | nil => exact .pure m _
  | cons arg rest ih =>
      exact (writeThrough_writes hp arg (hargs arg List.mem_cons_self) value m).bind fun m₁ _ =>
        ih (fun arg' h => hargs arg' (List.mem_cons_of_mem arg h)) m₁

theorem summaryLoop_writes (control : Value) {args : List Expr} (actuals : List Value)
    (hargs : ∀ arg ∈ args, ∀ place ∈ arg.addressed, KeptPlace p a₀ place)
    (summary : Summary) (s : State) (m : Memory) :
    Writes p a₀ m
      (do
        for (i, written) in summary.outs do
          if let some arg := args[i]? then
            p.writeThrough ((written.substitute actuals).join control) arg
        return s)
      s ((Storage.ofProblem p a₀).summaryWrites control args actuals summary) := by
  rw [Storage.summaryWrites]
  generalize summary.outs = outs
  induction outs generalizing m with
  | nil => exact .pure m _
  | cons out rest ih =>
      obtain ⟨i, written⟩ := out
      rw [List.forIn_cons, List.flatMap_cons]
      cases harg : args[i]? with
      | none =>
          simp only [pure_bind, harg]
          exact ih m
      | some arg =>
          simp only [bind_assoc, pure_bind, harg]
          exact (writeThrough_writes hp arg (hargs arg (List.mem_of_getElem? harg)) _ m).bind
            fun m₁ _ => ih m₁

theorem callKnown_writes (around : Surroundings) (s : State) (dst : Option VarId)
    (callee : Callee) {args : List Expr} (actuals : List Value)
    (hargs : ∀ arg ∈ args, ∀ place ∈ arg.addressed, KeptPlace p a₀ place) (summary : Summary)
    (m : Memory) :
    Writes p a₀ m (p.callKnown around s dst callee args actuals summary)
      (Problem.assigned (Storage.ofProblem p a₀) s dst
        (p.callResult around callee actuals summary)).1
      ((Problem.assigned (Storage.ofProblem p a₀) s dst
        (p.callResult around callee actuals summary)).2 ++
        (Storage.ofProblem p a₀).summaryWrites around.control args actuals summary) := by
  cases dst with
  | none =>
      exact Writes.bind (.pure m s) fun m₁ _ =>
        summaryLoop_writes hp around.control actuals hargs summary s m₁
  | some v =>
      exact Writes.bind (define_writes hp s v (p.callResult around callee actuals summary) m)
        fun m₁ _ => summaryLoop_writes hp around.control actuals hargs summary _ m₁

theorem callUnknown_writes (s : State) (dst : Option VarId) {args : List Expr}
    (hargs : ∀ arg ∈ args, ∀ place ∈ arg.addressed, KeptPlace p a₀ place) (m : Memory) :
    Writes p a₀ m (p.callUnknown s dst args)
      (Problem.assigned (Storage.ofProblem p a₀) s dst p.allSources).1
      ((Problem.assigned (Storage.ofProblem p a₀) s dst p.allSources).2 ++
        args.flatMap ((Storage.ofProblem p a₀).writesThrough p.allSources)) := by
  have hrest (s' : State) (m₁ : Memory) : Writes p a₀ m₁
      (do args.forM (p.writeThrough p.allSources); return s') s'
      (args.flatMap ((Storage.ofProblem p a₀).writesThrough p.allSources)) := by
    have := (writesThrough_all hp p.allSources hargs m₁).bind (f := fun _ => pure s')
      fun m₂ _ => .pure m₂ s'
    rwa [List.append_nil] at this
  cases dst with
  | none => exact Writes.bind (.pure m s) fun m₁ _ => hrest s m₁
  | some v => exact Writes.bind (define_writes hp s v p.allSources m) fun m₁ _ => hrest _ m₁

theorem touched_writes (vars : List VarId) (s : State) (m : Memory) :
    Writes p a₀ m
      (vars.foldlM
        (fun s v => do
          let s ← p.define s v p.allSources
          p.writeThrough p.allSources (.var v)
          return s)
        s)
      (p.touched (Storage.ofProblem p a₀) s vars).1
      (p.touched (Storage.ofProblem p a₀) s vars).2 := by
  induction vars generalizing s m with
  | nil => exact .pure m s
  | cons v rest ih =>
      rw [List.foldlM_cons]
      have hthrough (m₁ : Memory) := writeThrough_writes hp (.var v)
        (fun _ h => absurd h List.not_mem_nil) p.allSources m₁
      have hone : Writes p a₀ m
          (do
            let s ← p.define s v p.allSources
            p.writeThrough p.allSources (.var v)
            return s)
          (s.set v p.allSources)
          ((Storage.ofProblem p a₀).defines v p.allSources ++
            ((Storage.ofProblem p a₀).writesThrough p.allSources (.var v) ++ [])) :=
        (define_writes hp s v p.allSources m).bind fun m₁ _ =>
          (hthrough m₁).bind fun m₂ _ => .pure m₂ _
      rw [List.append_nil] at hone
      exact hone.bind fun m₁ _ => ih _ m₁

/-- The addresses that an instruction takes, and the place it accesses, name no
storage that matters. -/
def KeptInstruction (p : Problem) (a₀ : Arena) (i : Instruction) : Prop :=
  (∀ place ∈ i.addressed, KeptPlace p a₀ place) ∧
    ∀ place, i.place? = some place → KeptPlace p a₀ place

/-- An access to memory resolves its place and computes the taint of the address. -/
theorem access_evaluates (hm : Fits p a₀ m) (s : State) {place : Place}
    (hplace : KeptPlace p a₀ place)
    (hinside : ∀ place' ∈ place.addressedInside, KeptPlace p a₀ place') :
    ∃ m₁ r, (Effect.naming (p.pointsTo.resolve place)).run m = (r, m₁) ∧ Quiet p a₀ m m₁ ∧
      m₁.arena.Denotes r.targets.elems ((Storage.ofProblem p a₀).facts.resolve place).targets ∧
      Evaluates p a₀ m₁ (p.addressTaint s place.base r (p.evalPositions s place))
        ((Storage.ofProblem p a₀).addressOf m.view s place) := by
  obtain ⟨m₁, r, hrun, hquiet, htargets, hcells, hbase⟩ := resolve_quiet hp hm hplace
  have haddress := addressTaint_evaluates hp hquiet.fits (s := s) place.base hcells hbase
    (evalPositions_evaluates hp s place hquiet.fits hinside)
  rw [hquiet.view_eq hm] at haddress
  exact ⟨m₁, r, hrun, hquiet, htargets, haddress⟩

/-- An instruction does what the equations say about the memory before it. -/
theorem transfer_writes (hm : Fits p a₀ m) (around : Surroundings) (s : State) {i : Instruction}
    (hi : KeptInstruction p a₀ i) :
    Writes p a₀ m (p.transfer around s i)
      (p.outcome (Storage.ofProblem p a₀) m.view around s i).1
      (p.outcome (Storage.ofProblem p a₀) m.view around s i).2 := by
  obtain ⟨haddressed, hplace⟩ := hi
  have hoperand {e : Expr} (he : e ∈ i.operands) :
      ∀ place ∈ e.addressed, KeptPlace p a₀ place := fun place h =>
    haddressed place (List.mem_append_right _ (List.mem_flatMap.mpr ⟨e, he, h⟩))
  have hinside {place : Place} (h : i.place? = some place) :
      ∀ place' ∈ place.addressedInside, KeptPlace p a₀ place' := fun place' h' =>
    haddressed place' (List.mem_append_left _ (by rw [h]; exact h'))
  cases i with
  | assign dst e =>
      exact .eval_bind (eval_evaluates hp s e hm (hoperand List.mem_cons_self))
        (define_writes hp s dst _ m)
  | cast dst e ty =>
      exact .eval_bind (eval_evaluates hp s e hm (hoperand List.mem_cons_self))
        (define_writes hp s dst _ m)
  | load dst place =>
      intro m' hm'
      obtain ⟨m₁, r, hrun, hquiet, htargets, haddress⟩ :=
        access_evaluates hp hm'.fits s (hplace place rfl) (hinside rfl)
      have hread := read_evaluates hquiet.fits htargets
      rw [hm'.view_eq hm] at haddress
      rw [hquiet.view_eq hm'.fits, hm'.view_eq hm] at hread
      exact Writes.of_run hm'.fits hrun hquiet
        (.eval_bind haddress (.eval_bind hread (define_writes hp s dst _ m₁)))
  | store place src =>
      intro m' hm'
      obtain ⟨m₁, r, hrun, hquiet, htargets, haddress⟩ :=
        access_evaluates hp hm'.fits s (hplace place rfl) (hinside rfl)
      have hvalue := eval_evaluates hp s src hquiet.fits (hoperand List.mem_cons_self)
      rw [hm'.view_eq hm] at haddress
      rw [hquiet.view_eq hm'.fits, hm'.view_eq hm] at hvalue
      have hall : Writes p a₀ m₁ (Effect.writeAll p r.targets _) () _ := writeAll_writes htargets
        ((((Storage.ofProblem p a₀).value m.view s src).join
          ((Storage.ofProblem p a₀).addressOf m.view s place).toIndirect).join around.control)
      have hwrite := hall.bind (f := fun _ => pure s) fun m₂ _ => .pure m₂ s
      rw [List.append_nil] at hwrite
      exact Writes.of_run hm'.fits hrun hquiet (.eval_bind haddress (.eval_bind hvalue hwrite))
  | call dst callee args =>
      have hargs : ∀ arg ∈ args, ∀ place ∈ arg.addressed, KeptPlace p a₀ place := fun arg h =>
        hoperand (List.mem_append_right _ h)
      refine .eval_bind (arguments_evaluate hp hm s hargs) ?_
      rw [Problem.outcome]
      cases p.summaryOf? callee with
      | some summary => exact callKnown_writes hp around s dst callee _ hargs summary m
      | none => exact callUnknown_writes hp s dst hargs m
  | opaqueCode vars reason => exact touched_writes hp vars s m

/-! ## Blocks -/

/-- The instructions do at least what the equations say about less, and at most
what they say about more. -/
structure Between (p : Problem) (S : Storage) (m : Memory) (around : Surroundings) (s : State)
    (is : List Instruction) (x : State × Cells) : Prop where
  length : x.1.vars.length = s.vars.length
  lower : ∀ c a t, c.Within m.view → a.Below around → t ≤ s → t.vars.length ≤ s.vars.length →
    Ahead (p.outcomes S c a t is) x
  upper : ∀ c a t, m.view.Within c → around.Below a → s ≤ t → s.vars.length ≤ t.vars.length →
    (p.outcomes S c a t is).2.Within c → Ahead x (p.outcomes S c a t is)

theorem transferAll_between (hm : Fits p a₀ m) (around : Surroundings) (s : State)
    {is : List Instruction} (his : ∀ i ∈ is, KeptInstruction p a₀ i) :
    ∃ ws, Steps p a₀ m ((p.transferAll around s is).run m).2 ws ∧
      Between p (Storage.ofProblem p a₀) m around s is
        (((p.transferAll around s is).run m).1, ws) := by
  induction is generalizing m s with
  | nil => exact ⟨[], .of_quiet hm (.refl hm), rfl, fun _ _ _ _ _ hs hlen => ⟨hs, hlen, .refl []⟩,
      fun _ _ _ _ _ hs hlen _ => ⟨hs, hlen, .refl []⟩⟩
  | cons i rest ih =>
      obtain ⟨hstate, hsteps⟩ := transfer_writes hp hm around s (his i List.mem_cons_self) m
        (.refl hm)
      obtain ⟨ws, hsteps', hbetween⟩ := ih hsteps.fits ((p.transfer around s i).run m).1
        fun i' hi' => his i' (List.mem_cons_of_mem i hi')
      have hself (c d : Cells) (a b : Surroundings) (t u : State) (hc : c.Within d)
          (ha : a.Below b) (ht : t ≤ u) (hlen : t.vars.length ≤ u.vars.length) :
          Ahead (p.outcome (Storage.ofProblem p a₀) c a t i)
            (p.outcome (Storage.ofProblem p a₀) d b u i) :=
        Problem.outcome_mono (u := p.summaries) (.refl _) hc ha ht hlen i
      refine ⟨_, hsteps.trans hsteps', ?_, ?_, ?_⟩
      · exact hbetween.length.trans ((congrArg (·.vars.length) hstate).trans
          (Problem.length_outcome i))
      · intro c a t hc ha ht hlen
        obtain ⟨h₁, h₂, h₃⟩ := hself c m.view a around t s hc ha ht hlen
        rw [← hstate] at h₁ h₂
        obtain ⟨g₁, g₂, g₃⟩ := hbetween.lower c a _ (hc.trans hsteps.view_within) ha h₁ h₂
        exact ⟨g₁, g₂, .append_mono h₃ g₃⟩
      · intro c a t hc ha ht hlen hws
        obtain ⟨h₁, h₂, h₃⟩ := hself m.view c around a s t hc ha ht hlen
        rw [← hstate] at h₁ h₂
        have hview := hsteps.within_of hc (h₃.trans ((Cells.Within.left _ _).trans hws))
        obtain ⟨g₁, g₂, g₃⟩ := hbetween.upper c a _ hview ha h₁ h₂
          ((Cells.Within.right _ _).trans hws)
        exact ⟨g₁, g₂, .append_mono h₃ g₃⟩

theorem terminate_evaluates (hm : Fits p a₀ m) (around : Surroundings) (s : State)
    {e : Terminator} (he : ∀ place ∈ e.addressed, KeptPlace p a₀ place) :
    Evaluates p a₀ m (p.terminate around s e)
      (Problem.finish (Storage.ofProblem p a₀) m.view around.control s e) := by
  cases e with
  | jump target => exact .pure m _
  | missing => exact .pure m _
  | branch condition thenBlock elseBlock =>
      exact .bind (eval_evaluates hp s condition hm he) (.pure m _)
  | ret value =>
      cases value with
      | none => exact .pure m _
      | some value => exact .bind (eval_evaluates hp s value hm he) (.pure m _)

end

/-- The addresses that a block takes, and the places it accesses, name no storage
that matters. -/
def KeptBlock (p : Problem) (a₀ : Arena) (block : Block) : Prop :=
  (∀ i ∈ block.instructions, KeptInstruction p a₀ i) ∧
    ∀ place ∈ block.terminator.addressed, KeptPlace p a₀ place

/-- What is known, as a guess. -/
def Knowledge.assignment (k : Knowledge) (varCount : Nat) : Assignment where
  exit := fun b => (k.exits.get? b).getD (.untainted varCount)
  branch := k.branch
  control := k.control
  cells := k.memory.view
  returned := k.returned
  outs := k.memory.out

/-- The outcome of an execution with its writes. -/
def Execution.effects (e : Execution) (ws : Cells) : Effects :=
  ⟨e.control, e.exit, e.branch, e.returned, ws⟩

/-- Every state that is known has as many variables as the function. -/
def Knowledge.Sized (k : Knowledge) (n : Nat) : Prop :=
  ∀ b s, k.exits.get? b = some s → s.vars.length = n

theorem Knowledge.Sized.assignment {k : Knowledge} {n : Nat} (h : k.Sized n) :
    ∀ b, ((k.assignment n).exit b).vars.length = n := by
  intro b
  show ((k.exits.get? b).getD (.untainted n)).vars.length = n
  cases hb : k.exits.get? b with
  | none => exact List.length_replicate
  | some s => exact h b s hb

/-- A predecessor that was not visited yet is as good as one without taint. -/
theorem entryState_eq {k : Knowledge} (hk : k.Sized p.varCount) (b : BlockId) :
    p.entryState k b = p.entryIn (k.assignment p.varCount) b := by
  have hfold (preds : List BlockId) (s : State) (hs : s.vars.length = p.varCount) :
      (preds.filterMap k.exits.get?).foldl State.join s =
        (preds.map (k.assignment p.varCount).exit).foldl State.join s := by
    induction preds generalizing s with
    | nil => rfl
    | cons x rest ih =>
        rw [List.map_cons, List.foldl_cons, List.filterMap_cons]
        show _ = List.foldl State.join
          (s.join ((k.exits.get? x).getD (.untainted p.varCount))) _
        cases hx : k.exits.get? x with
        | none =>
            rw [Option.getD_none, State.join_eq_left _ (State.untainted_le _ _)]
            · exact ih s hs
            · rw [hs]
              exact Nat.le_of_eq List.length_replicate
        | some t =>
            refine ih _ ?_
            rw [State.length_join, hs, hk x t hx]
            exact Nat.max_self _
  exact hfold _ _ (Problem.length_entryBase p b)

/-- Executing a block does at least what its equation says about what is known,
and at most what it says about any guess that has all of this and its own writes. -/
theorem execute_bounds (hp : p.pointsTo.Ready a₀.maxDepth a₀) {k : Knowledge}
    (hk : Fits p a₀ k.memory) (hsized : k.Sized p.varCount) {block : Block}
    (hblock : KeptBlock p a₀ block) (b : BlockId) :
    ∃ ws, Steps p a₀ k.memory (p.execute k b block).memory ws ∧
      (p.execute k b block).exit.vars.length = p.varCount ∧
      (p.blockEffects (k.assignment p.varCount) b (Storage.ofProblem p a₀) block).Below
        ((p.execute k b block).effects ws) ∧
      ∀ τ, (k.assignment p.varCount).Below τ →
        (p.blockEffects τ b (Storage.ofProblem p a₀) block).writes.Within τ.cells →
        ((p.execute k b block).effects ws).Below
          (p.blockEffects τ b (Storage.ofProblem p a₀) block) := by
  obtain ⟨ws, hsteps, hlength, hlower, hupper⟩ := transferAll_between hp hk (p.surroundings k b)
    (p.entryState k b) hblock.1
  obtain ⟨hvalues, hquiet⟩ := terminate_evaluates hp hsteps.fits (p.surroundings k b)
    ((p.transferAll (p.surroundings k b) (p.entryState k b) block.instructions).run k.memory).1
    hblock.2 _ (.refl hsteps.fits)
  have hentry := entryState_eq hsized b
  have hsize : (k.assignment p.varCount).Sized p.varCount := fun b =>
    Nat.le_of_eq (hsized.assignment b)
  have hexit : (p.execute k b block).exit = ((p.transferAll (p.surroundings k b)
    (p.entryState k b) block.instructions).run k.memory).1 := rfl
  have hbranch : (p.execute k b block).branch = _ := congrArg Prod.fst hvalues
  have hreturned : (p.execute k b block).returned = _ := congrArg Prod.snd hvalues
  have hsteps' := hsteps.trans (.of_quiet hsteps.fits hquiet)
  rw [List.append_nil] at hsteps'
  refine ⟨ws, hsteps', ?_, ?_, ?_⟩
  · rw [hexit, hlength, hentry, Problem.length_entryIn hsize]
  · have hrun := hlower k.memory.view (p.aroundIn (k.assignment p.varCount) b)
      (p.entryIn (k.assignment p.varCount) b) (.refl _) (.refl _)
      (hentry ▸ State.le_refl _) (hentry ▸ Nat.le_refl _)
    have hfinish := Problem.finish_mono (S := Storage.ofProblem p a₀) hsteps.view_within
      hrun.state (Value.le_refl (p.controlIn (k.assignment p.varCount) b)) block.terminator
    refine ⟨Value.le_refl _, hrun.state, ?_, ?_, hrun.writes⟩
    · exact Value.le_trans hfinish.1 (hbranch ▸ Value.le_refl _)
    · exact Value.le_trans hfinish.2 (hreturned ▸ Value.le_refl _)
  · intro τ hτ hws
    have hmono : (p.aroundIn (k.assignment p.varCount) b).Below (p.aroundIn τ b) :=
      Problem.aroundIn_mono hτ b
    have hrun := hupper τ.cells (p.aroundIn τ b) (p.entryIn τ b) hτ.cells hmono
      (hentry ▸ Problem.entryIn_mono hτ b)
      (by rw [hentry, Problem.length_entryIn hsize]; exact Problem.varCount_le_length_entryIn τ b)
      hws
    have hview := hsteps.within_of hτ.cells (hrun.writes.trans hws)
    have hfinish := Problem.finish_mono (S := Storage.ofProblem p a₀) hview hrun.state
      hmono.control block.terminator
    refine ⟨hmono.control, hrun.state, ?_, ?_, hrun.writes⟩
    · exact Value.le_trans (hbranch ▸ Value.le_refl _) hfinish.1
    · exact Value.le_trans (hreturned ▸ Value.le_refl _) hfinish.2

end TaintAnalysis
