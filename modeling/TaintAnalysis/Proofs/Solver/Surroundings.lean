import TaintAnalysis.Proofs.Solver.LeastSolution

/-!
# Every definition carries the surroundings of its block

Whatever an instruction assigns to a variable has the taint of the branches that
decide about the block and of the tests that end the loops around it. Unknown
code has no part in this: what it assigns is fully tainted by every source, and
nothing is added to that.

The equations of the solver say so too, but they hold only where a visit reads no
memory behind their back. What a block adds to its definitions is not read from
memory. So this file follows the visits of a run without the equations: whichever
memory a block is executed on, the state at its end has the surroundings that the
visit has seen (`execute_imbues`), and a block is visited again when they grow.
-/

namespace TaintAnalysis

/-! ## What a computation returns -/

/-- The computation returns something with a property, whatever memory it starts on. -/
def Yields {α : Type} (c : Effect α) (P : α → Prop) : Prop :=
  ∀ m, P (c.run m).1

namespace Yields

variable {α β : Type} {c : Effect α} {f : α → Effect β} {P : α → Prop} {Q : β → Prop}

theorem pure {x : α} (h : P x) : Yields (Pure.pure x) P :=
  fun _ => h

theorem bind (hc : Yields c P) (hf : ∀ x, P x → Yields (f x) Q) : Yields (c >>= f) Q :=
  fun m => hf _ (hc m) _

/-- What comes first does not matter if the rest always has the property. -/
theorem after (hf : ∀ x, Yields (f x) Q) : Yields (c >>= f) Q :=
  fun _ => hf _ _

theorem mono {P' : α → Prop} (hc : Yields c P) (h : ∀ x, P x → P' x) : Yields c P' :=
  fun m => h _ (hc m)

end Yields

namespace Problem

variable {p : Problem} {around : Surroundings} {s t u : State}

/-- A value has all that the block adds, or comes from unknown code. -/
def Carries (p : Problem) (around : Surroundings) (value : Value) : Prop :=
  around.control.join around.widening ≤ value ∨ p.allSources ≤ value

theorem Carries.mono {x y : Value} (h : p.Carries around x) (hxy : x ≤ y) : p.Carries around y :=
  h.imp (Value.le_trans · hxy) (Value.le_trans · hxy)

theorem carries_join (x : Value) :
    p.Carries around ((x.join around.control).join around.widening) := by
  rw [Value.join_assoc]
  exact .inl (Value.le_join_right _ _)

theorem carries_callResult (callee : Callee) (actuals : List Value) (summary : Summary) :
    p.Carries around (p.callResult around callee actuals summary) := by
  rw [callResult]
  split
  · exact (carries_join _).mono (Value.le_join_left _ _)
  · exact carries_join _

/-- The second state comes from the first by assigning values that carry the surroundings. -/
structure Imbues (p : Problem) (around : Surroundings) (s t : State) : Prop where
  length : t.vars.length = s.vars.length
  kept : ∀ v, p.Carries around (s.get v) → p.Carries around (t.get v)

theorem Imbues.refl (s : State) : p.Imbues around s s :=
  ⟨rfl, fun _ h => h⟩

theorem Imbues.trans (h : p.Imbues around s t) (h' : p.Imbues around t u) : p.Imbues around s u :=
  ⟨h'.length.trans h.length, fun v hv => h'.kept v (h.kept v hv)⟩

theorem imbues_set {v : VarId} {value : Value} (h : p.Carries around value) :
    p.Imbues around s (s.set v value) := by
  refine ⟨State.length_set s v value, fun w hw => ?_⟩
  rw [State.get_set]
  split
  · exact h
  · exact hw

/-! ## Instructions -/

theorem define_yields (s : State) (v : VarId) (value : Value) :
    Yields (p.define s v value) (· = s.set v value) := by
  refine .after fun m => ?_
  split
  · exact .after fun id => .after fun _ => .pure rfl
  · exact .pure rfl

/-- The state is imbued, and the variable that the instruction defines carries the surroundings. -/
structure Transferred (p : Problem) (around : Surroundings) (i : Instruction) (s t : State) :
    Prop where
  imbues : p.Imbues around s t
  defined : ∀ v, i.defined? = some v → v < s.vars.length → p.Carries around (t.get v)

theorem transferred_set {i : Instruction} {dst : VarId} {value : Value}
    (hi : i.defined? = some dst) (hvalue : p.Carries around value) :
    p.Transferred around i s (s.set dst value) := by
  refine ⟨imbues_set hvalue, fun v hv hlt => ?_⟩
  obtain rfl := Option.some.inj (hi.symm.trans hv)
  rw [State.get_set, if_pos ⟨rfl, hlt⟩]
  exact hvalue

theorem transferred_self {i : Instruction} (hi : i.defined? = none) :
    p.Transferred around i s s :=
  ⟨.refl s, fun _ hv => absurd (hi.symm.trans hv) nofun⟩

theorem define_transferred {i : Instruction} {dst : VarId} {value : Value}
    (hi : i.defined? = some dst) (hvalue : p.Carries around value) :
    Yields (p.define s dst value) (p.Transferred around i s) :=
  (define_yields s dst value).mono fun _ ht => ht ▸ transferred_set hi hvalue

/-- What is written through the arguments of a call does not change the state. -/
theorem summaryLoop_yields (args : List Expr) (actuals : List Value)
    (outs : List (Nat × Value)) (s : State) : Yields
      (do
        for (i, written) in outs do
          if let some arg := args[i]? then
            p.writeThrough ((written.substitute actuals).join around.control) arg
        return s) (· = s) := by
  induction outs with
  | nil => exact .pure rfl
  | cons out rest ih =>
      obtain ⟨i, written⟩ := out
      rw [List.forIn_cons]
      cases harg : args[i]? with
      | none =>
          simp only [pure_bind, harg]
          exact ih
      | some arg =>
          simp only [bind_assoc, pure_bind, harg]
          exact .after fun _ => ih

theorem callKnown_transferred (dst : Option VarId) (callee : Callee) (args : List Expr)
    (actuals : List Value) (summary : Summary) :
    Yields (p.callKnown around s dst callee args actuals summary)
      (p.Transferred around (.call dst callee args) s) := by
  cases dst with
  | none =>
      refine .bind (.pure (P := (· = s)) rfl) fun t ht =>
        (summaryLoop_yields args actuals summary.outs t).mono fun u hu => ?_
      rw [hu, ht]
      exact transferred_self rfl
  | some v =>
      exact .bind (define_transferred rfl (carries_callResult callee actuals summary)) fun t ht =>
        (summaryLoop_yields args actuals summary.outs t).mono fun u hu => hu ▸ ht

theorem callUnknown_transferred (dst : Option VarId) (callee : Callee) (args : List Expr) :
    Yields (p.callUnknown s dst args) (p.Transferred around (.call dst callee args) s) := by
  cases dst with
  | none => exact .bind (.pure rfl) fun t ht => .after fun _ => .pure (ht ▸ transferred_self rfl)
  | some v =>
      exact .bind (define_transferred rfl (.inr (Value.le_refl _))) fun t ht =>
        .after fun _ => .pure ht

theorem touched_imbues (vars : List VarId) (s : State) :
    Yields
      (vars.foldlM
        (fun s v => do
          let s ← p.define s v p.allSources
          p.writeThrough p.allSources (.var v)
          return s)
        s)
      (p.Imbues around s) := by
  induction vars generalizing s with
  | nil => exact .pure (.refl s)
  | cons v rest ih =>
      rw [List.foldlM_cons]
      have hone : p.Imbues around s (s.set v p.allSources) := imbues_set (.inr (Value.le_refl _))
      refine .bind (P := p.Imbues around s) ?_ fun t ht => (ih t).mono fun u hu => ht.trans hu
      exact .bind (define_yields s v p.allSources) fun t ht =>
        .after fun _ => .pure (ht ▸ hone)

/-- An instruction leaves the surroundings of its block in what it defines. -/
theorem transfer_transferred (s : State) (i : Instruction) :
    Yields (p.transfer around s i) (p.Transferred around i s) := by
  cases i with
  | assign dst e | cast dst e _ =>
      exact .after fun x => define_transferred rfl (carries_join x)
  | load dst place =>
      exact .after fun r => .after fun address => .after fun x =>
        define_transferred rfl (carries_join _)
  | store place src =>
      exact .after fun r => .after fun address => .after fun x => .after fun _ =>
        .pure (transferred_self rfl)
  | call dst callee args =>
      refine .after fun actuals => ?_
      cases p.summaryOf? callee with
      | some summary => exact callKnown_transferred dst callee args actuals summary
      | none => exact callUnknown_transferred dst callee args
  | opaqueCode vars reason =>
      exact (touched_imbues vars s).mono fun t ht => ⟨ht, nofun⟩

/-- The last instruction that defines a variable leaves the surroundings in it, and the
instructions after it keep them there. -/
theorem transferAll_imbues (s : State) (is : List Instruction) :
    Yields (p.transferAll around s is) fun t => p.Imbues around s t ∧
      ∀ i ∈ is, ∀ v, i.defined? = some v → v < s.vars.length → p.Carries around (t.get v) := by
  induction is generalizing s with
  | nil => exact .pure ⟨.refl s, nofun⟩
  | cons i rest ih =>
      rw [transferAll, List.foldlM_cons]
      refine .bind (transfer_transferred s i) fun t ht => (ih t).mono fun u hu => ?_
      obtain ⟨himbues, hdefined⟩ := hu
      refine ⟨ht.imbues.trans himbues, fun j hj v hv hlt => ?_⟩
      rcases List.mem_cons.mp hj with rfl | hj
      · exact himbues.kept v (ht.defined v hv hlt)
      · exact hdefined j hj v hv (ht.imbues.length ▸ hlt)

end Problem

/-! ## Visits -/

namespace Problem

variable {p : Problem} {k k' : Knowledge} {b : BlockId} {block : Block} {a₀ : Arena}

/-- The guess has the surroundings of a block, and what the block defines carries them. -/
structure Imbued (p : Problem) (σ : Assignment) (b : BlockId) (block : Block) : Prop where
  control : p.controlIn σ b ≤ σ.control b
  exit : ∀ i ∈ block.instructions, ∀ v, i.defined? = some v → v < p.varCount →
    p.Carries (p.aroundIn σ b) ((σ.exit b).get v)

theorem execute_imbues (hk : k.Sized p.varCount) (b : BlockId) (block : Block) :
    (p.execute k b block).exit.vars.length = p.varCount ∧
      ∀ i ∈ block.instructions, ∀ v, i.defined? = some v → v < p.varCount →
        p.Carries (p.surroundings k b) ((p.execute k b block).exit.get v) := by
  have hrun : Yields (p.transferAll (p.surroundings k b) (p.entryState k b) block.instructions) _ :=
    transferAll_imbues (p.entryState k b) block.instructions
  obtain ⟨himbues, hdefined⟩ := hrun k.memory
  have hlen : (p.entryState k b).vars.length = p.varCount := by
    rw [entryState_eq hk, length_entryIn fun b => Nat.le_of_eq (hk.assignment b)]
  exact ⟨himbues.length.trans hlen, fun i hi v hv hlt => hdefined i hi v hv (hlen ▸ hlt)⟩

/-- The invariant: a block that is not on the worklist has left its surroundings in what it
defines. -/
structure AllImbued (p : Problem) (k : Knowledge) : Prop where
  sized : k.Sized p.varCount
  settled : ∀ b ∈ p.order, ∀ block, p.function.block? b = some block →
    (∀ i ∈ k.worklist, p.position? b ≠ some i) → p.Imbued (k.assignment p.varCount) b block

theorem allImbued_start (p : Problem) (a : Arena) : p.AllImbued (p.start a) where
  sized := fun _ _ h => absurd h.symm (Option.some_ne_none _)
  settled := fun b hb _ _ hout => by
    obtain ⟨i, hi⟩ := exists_position hb
    exact absurd hi (hout i (IdSet.mem_ofList.mpr (List.mem_range.mpr
      (List.getElem?_eq_some_iff.mp (position?_some hi)).1)))

/-- A visit leaves the surroundings of the visited block, and those of any other block are what
they were unless it is put back on the worklist. -/
theorem allImbued_visit (h : p.AllImbued k) (hvisit : p.Visits k b k') : p.AllImbued k' := by
  obtain ⟨hi, hrest, hb⟩ := hvisit
  rename_i i rest
  rw [visit]
  cases hblock : p.function.block? b with
  | none =>
      refine ⟨h.sized, fun x hx block hxb hx' => h.settled x hx block hxb fun j hj hpos => ?_⟩
      refine hx' j ((hrest j).mpr ⟨hj, ?_⟩) hpos
      rintro rfl
      obtain rfl := Option.some.inj ((position?_some hpos).symm.trans hb)
      exact absurd (hblock.symm.trans hxb) (Option.some_ne_none block).symm
  | some block =>
      have hsized : Knowledge.Sized { k with worklist := rest } p.varCount := h.sized
      obtain ⟨hlen, hcarries⟩ := execute_imbues hsized b block
      refine ⟨sized_absorb hsized hlen, fun x hx block' hxb hout => ?_⟩
      obtain ⟨hfree, hold⟩ := not_affected hrest hb hx hout
      have haround := aroundIn_unchanged hfree
      have hcontrol := congrArg Surroundings.control haround
      by_cases hxeq : x = b
      · subst hxeq
        obtain rfl := Option.some.inj (hblock.symm.trans hxb)
        refine ⟨?_, fun i hi v hv hlt => ?_⟩
        · rw [assignment_absorb_control, if_pos rfl]
          rw [show p.controlIn _ x = _ from hcontrol]
          exact Value.le_join_right _ _
        · rw [haround, assignment_absorb_exit hlen, if_pos rfl, State.get_join]
          exact (hcarries i hi v hv hlt).mono (Value.le_join_right _ _)
      · obtain ⟨hkept, hexit⟩ := h.settled x hx block' hxb (hold hxeq)
        refine ⟨?_, fun i hi v hv hlt => ?_⟩
        · rw [assignment_absorb_control, if_neg hxeq, show p.controlIn _ x = _ from hcontrol]
          exact hkept
        · rw [haround, assignment_absorb_exit hlen, if_neg hxeq]
          exact hexit i hi v hv hlt

theorem allImbued_of_reached (h : p.Reached a₀ k) : p.AllImbued k := by
  induction h with
  | start => exact allImbued_start p a₀
  | visit _ hvisit ih => exact allImbued_visit ih hvisit

/-- Where the worklist has run out, every block has left its surroundings in what it defines. -/
theorem imbued_of_exhausted (h : p.Reached a₀ k) (hdone : k.worklist.isEmpty = true)
    (hb : b ∈ p.order) (hblock : p.function.block? b = some block) :
    p.Imbued (k.assignment p.varCount) b block :=
  (allImbued_of_reached h).settled b hb block hblock fun _ hj =>
    absurd (IdSet.mem_def.mp hj) (List.isEmpty_iff.mp hdone ▸ List.not_mem_nil)

end Problem

/-! ## The report -/

namespace Run

variable {r : Run} {b : BlockId} {v : VarId} {result : FunctionResult}

/-- A variable is reported with all the taint that it has at the end of some block. -/
theorem exit_le_taintOf (r : Run) (b : BlockId) (v : VarId) :
    ((r.final.assignment r.problem.varCount).exit b).get v ≤ r.taintOf v := by
  have hscalar : ((r.final.assignment r.problem.varCount).exit b).get v ≤
      Value.joins (r.problem.seedState.get v :: r.final.exits.values.map (·.get v)) := by
    show (((r.final.exits.get? b).getD (.untainted r.problem.varCount))).get v ≤ _
    cases hexit : r.final.exits.get? b with
    | none =>
        rw [Option.getD_none, State.get_untainted]
        exact Value.bottom_le _
    | some s =>
        exact Value.le_joins (List.mem_cons_of_mem _ (List.mem_map.mpr
          ⟨s, OrderedMap.mem_values_iff.mpr ⟨b, hexit⟩, rfl⟩))
  rw [taintOf]
  split
  · exact Value.le_trans hscalar (Value.le_join_left _ _)
  · exact hscalar

/-- The result of a run lists what is reported of each variable. -/
theorem vars_of_ok (h : r.result = .ok result) (hv : v < r.problem.varCount) :
    result.vars[v]? = some (r.taintOf v) := by
  rw [result_of_exhausted (exhausted_of_ok h)] at h
  rw [← Except.ok.inj h, List.getElem?_map, List.getElem?_range hv]
  rfl

end Run

end TaintAnalysis
