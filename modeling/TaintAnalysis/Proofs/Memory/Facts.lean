import Mathlib.Data.List.Perm.Subperm
import TaintAnalysis.Proofs.Memory.Saturation
import TaintAnalysis.Proofs.Maps

/-!
# Facts about pointers are only added

A round of the pointer analysis goes through the instructions, and each of them adds
targets to variables or to cells. Nothing is ever taken back, so the number of facts
tells whether something changed: a step that leaves it as it is leaves the facts
literally as they are (`Gains`). This is what the analysis relies on when it looks
at the number of facts to decide whether it is done.

What is there at the beginning is therefore there at the end. In particular, a
parameter that is a pointer or an array still refers to the object that was set up
for it.
-/

namespace TaintAnalysis

namespace IdSet

variable {s t : IdSet}

theorem nodup (s : IdSet) : s.elems.Nodup :=
  s.ascending.imp fun h => Nat.ne_of_lt h

theorem size_le_of_subset (h : ∀ n, n ∈ s → n ∈ t) : s.size ≤ t.size :=
  (List.subperm_of_subset s.nodup h).length_le

theorem eq_of_subset_of_size (h : ∀ n, n ∈ s → n ∈ t) (hsize : t.size ≤ s.size) : t = s :=
  ext fun _ => ((List.subperm_of_subset s.nodup h).perm_of_length_le hsize).mem_iff.symm

theorem size_eq_zero_iff : s.size = 0 ↔ s.isEmpty = true := by
  rw [size, isEmpty, List.length_eq_zero_iff, List.isEmpty_iff]

theorem length_le_of_lt {l : List Nat} {n : Nat} (hnodup : l.Nodup) (h : ∀ k ∈ l, k < n) :
    l.length ≤ n := by
  have hsub := List.subperm_of_subset hnodup fun k hk => List.mem_range.mpr (h k hk)
  exact List.length_range (n := n) ▸ hsub.length_le

/-- A set of small numbers is small. -/
theorem size_le {n : Nat} (h : ∀ k ∈ s, k < n) : s.size ≤ n :=
  length_le_of_lt s.nodup h

end IdSet

namespace OrderedMap

variable {κ ν : Type} [DecidableEq κ] {m : OrderedMap κ ν} {k : κ} {v : ν}

/-- Inserting exchanges the weight of the old value for that of the new one. -/
theorem weight_insert (f : ν → Nat) (m : OrderedMap κ ν) (k : κ) (v : ν) :
    (m.insert k v).weight f + ((m.get? k).map f).getD 0 = m.weight f + f v := by
  show ((insertEntry k v m.entries).map Prod.snd).foldr (fun v total => f v + total) 0 +
    ((m.entries.lookup k).map f).getD 0 =
      (m.entries.map Prod.snd).foldr (fun v total => f v + total) 0 + f v
  induction m.entries with
  | nil => simp only [insertEntry, List.map_cons, List.map_nil, List.foldr_cons, List.foldr_nil,
      List.lookup_nil, Option.map_none, Option.getD_none, Nat.add_zero, Nat.zero_add]
  | cons e rest ih =>
      obtain ⟨a, b⟩ := e
      rw [List.lookup_cons]
      by_cases hk : a = k
      · subst hk
        simp only [insertEntry, if_pos, List.map_cons, List.foldr_cons, BEq.rfl, Option.map_some,
          Option.getD_some]
        omega
      · rw [beq_false_of_ne fun h : k = a => hk h.symm]
        simp only [insertEntry, if_neg hk, List.map_cons, List.foldr_cons]
        omega

omit [DecidableEq κ] in
/-- A map whose values are light, on few keys, is light. -/
theorem weight_le {f : ν → Nat} {n c : Nat} (hkeys : m.keys.length ≤ n)
    (hvalues : ∀ v ∈ m.values, f v ≤ c) : m.weight f ≤ n * c := by
  have hlen : m.values.length ≤ n := by
    rwa [values, List.length_map, ← List.length_map (f := Prod.fst)]
  refine Nat.le_trans ?_ (Nat.mul_le_mul_right c hlen)
  rw [weight]
  clear hlen hkeys
  revert hvalues
  induction m.values with
  | nil => exact fun _ => Nat.zero_le _
  | cons v rest ih =>
      intro hvalues
      have hv := hvalues v List.mem_cons_self
      have hrest := ih fun w hw => hvalues w (List.mem_cons_of_mem v hw)
      rw [List.foldr_cons, List.length_cons, Nat.succ_mul]
      omega

end OrderedMap

namespace PointsTo

open Arena

/-- The targets of the pointers stored in one cell. -/
def held (m : PointsTo) (id : LocId) : IdSet :=
  (m.cells.get? id).getD .empty

/-- The second facts are the first ones and perhaps more, and there are more of them if they are
not the same. -/
structure Gains (m m' : PointsTo) : Prop where
  function : m'.function = m.function
  vars : ∀ v, ∀ id ∈ m.targetsOf v, id ∈ m'.targetsOf v
  /-- Only variables that are declared get targets. -/
  keys : ∀ v ∈ m'.vars.keys, v ∈ m.vars.keys ∨ v < m.function.vars.length
  size_le : m.size ≤ m'.size
  eq_of_size : m'.size = m.size → m' = m

variable {m m' m'' : PointsTo} {D : Nat} {a b : Arena} {targets : IdSet}

namespace Gains

theorem refl (m : PointsTo) : m.Gains m :=
  ⟨rfl, fun _ _ h => h, fun _ h => .inl h, Nat.le_refl _, fun _ => rfl⟩

theorem trans (h : m.Gains m') (h' : m'.Gains m'') : m.Gains m'' where
  function := h'.function.trans h.function
  vars := fun v id hid => h'.vars v id (h.vars v id hid)
  keys := fun v hv => (h'.keys v hv).elim (h.keys v) fun hlt => .inr (h.function ▸ hlt)
  size_le := Nat.le_trans h.size_le h'.size_le
  eq_of_size := fun heq => by
    have hle := h.size_le
    have hle' := h'.size_le
    exact (h'.eq_of_size (by omega)).trans (h.eq_of_size (by omega))

end Gains

theorem lt_of_declared {f : Function} {v : VarId} {q : Ty → Bool} (h : (f.ty? v).any q = true) :
    v < f.vars.length := by
  obtain ⟨ty, hty, -⟩ := (Option.any_eq_true _ _).mp h
  obtain ⟨x, hx, -⟩ := Option.map_eq_some_iff.mp hty
  exact (List.getElem?_eq_some_iff.mp hx).1

/-- Widening the set under a key gains its new members. -/
theorem size_insert_union {κ : Type} [DecidableEq κ] (c : OrderedMap κ IdSet) (k : κ)
    (hne : targets.isEmpty = false) :
    c.weight IdSet.size ≤
        (c.insert k ((c.get? k).getD .empty ∪ targets)).weight IdSet.size ∧
      ((c.insert k ((c.get? k).getD .empty ∪ targets)).weight IdSet.size =
        c.weight IdSet.size → c.insert k ((c.get? k).getD .empty ∪ targets) = c) := by
  have hweight := OrderedMap.weight_insert IdSet.size c k ((c.get? k).getD .empty ∪ targets)
  have hsub : ∀ n, n ∈ (c.get? k).getD .empty → n ∈ (c.get? k).getD .empty ∪ targets :=
    fun n hn => IdSet.mem_union.mpr (.inl hn)
  have hle := IdSet.size_le_of_subset hsub
  cases hget : c.get? k with
  | none =>
      -- a new key comes with at least one target, so the weight cannot stay the same
      rw [hget] at hweight hle
      simp only [Option.getD_none, Option.map_none] at hweight hle ⊢
      refine ⟨by omega, fun heq => ?_⟩
      have hsub' : ∀ n, n ∈ targets → n ∈ IdSet.empty ∪ targets :=
        fun n hn => IdSet.mem_union.mpr (.inr hn)
      have hzero := IdSet.size_le_of_subset hsub'
      rw [Bool.eq_false_iff, Ne, ← IdSet.size_eq_zero_iff] at hne
      omega
  | some old =>
      rw [hget] at hweight hle hsub
      simp only [Option.getD_some, Option.map_some] at hweight hle hsub ⊢
      refine ⟨by omega, fun heq => ?_⟩
      rw [IdSet.eq_of_subset_of_size hsub (by omega)]
      exact OrderedMap.insert_eq_self hget

theorem addVarTargets_gains (m : PointsTo) {v : VarId} (hv : v < m.function.vars.length)
    (targets : IdSet) : m.Gains (m.addVarTargets v targets) := by
  rw [addVarTargets]
  split
  · exact .refl m
  · next hne =>
    obtain ⟨hle, heq⟩ := size_insert_union m.vars v (Bool.eq_false_iff.mpr hne)
    refine ⟨rfl, fun w id hid => ?_, fun w hw => ?_, Nat.add_le_add_right hle _, fun hsize => ?_⟩
    · rw [targetsOf, OrderedMap.get?_insert]
      split
      · next hw => exact IdSet.mem_union.mpr (.inl (hw ▸ hid))
      · exact hid
    · refine (OrderedMap.mem_keys_insert.mp hw).imp_right fun h => ?_
      rw [h]
      exact hv
    · have hvars := heq (Nat.add_right_cancel hsize)
      rw [targetsOf, hvars]

theorem addCellTargets_gains (m : PointsTo) (id : LocId) (hne : targets.isEmpty = false) :
    m.Gains (m.addCellTargets targets id) := by
  obtain ⟨hle, heq⟩ := size_insert_union m.cells id hne
  refine ⟨rfl, fun _ _ h => h, fun _ h => .inl h, Nat.add_le_add_left hle _, fun hsize => ?_⟩
  have hcells := heq (Nat.add_left_cancel hsize)
  rw [addCellTargets, hcells]

theorem foldl_gains {α : Type} {f : PointsTo → α → PointsTo} {l : List α}
    (hf : ∀ m' : PointsTo, m'.function = m.function → ∀ x ∈ l, m'.Gains (f m' x)) :
    m.Gains (l.foldl f m) := by
  induction l generalizing m with
  | nil => exact .refl m
  | cons x rest ih =>
      have hx := hf m rfl x List.mem_cons_self
      exact hx.trans (ih fun m' hm' y hy =>
        hf m' (hm'.trans hx.function) y (List.mem_cons_of_mem x hy))

theorem foldlM_gains {α : Type} {f : PointsTo → α → Naming PointsTo} {l : List α}
    (hf : ∀ (m' : PointsTo) (b : Arena), m'.function = m.function → ∀ x ∈ l,
      m'.Gains ((f m' x).run b).1) (a : Arena) :
    m.Gains ((l.foldlM f m).run a).1 := by
  induction l generalizing m a with
  | nil => exact .refl m
  | cons x rest ih =>
      rw [List.foldlM_cons]
      have hx := hf m a rfl x List.mem_cons_self
      exact hx.trans (ih (fun m' b hm' y hy =>
        hf m' b (hm'.trans hx.function) y (List.mem_cons_of_mem x hy)) _)

theorem propagate_gains (m : PointsTo) (a : Arena) (i : Instruction) :
    m.Gains ((m.propagate i).run a).1 := by
  have hassign (dst : VarId) (n : Naming IdSet) : m.Gains
      ((if m.isPointerVar dst then do return m.addVarTargets dst (← n)
        else return m : Naming PointsTo).run a).1 := by
    split
    · next hptr => exact addVarTargets_gains m (lt_of_declared hptr) _
    · exact .refl m
  cases i with
  | assign dst e => exact hassign dst _
  | cast dst e ty => exact hassign dst _
  | load dst place => exact hassign dst (do Arena.collectAll (← m.resolve place).targets _)
  | store place src =>
      show m.Gains ((if ((m.exprTargets src).run a).1.isEmpty = true then _ else _ :
        Naming PointsTo).run ((m.exprTargets src).run a).2).1
      split
      · exact .refl m
      · next hne =>
        exact foldl_gains fun m' _ id _ => addCellTargets_gains m' id (Bool.eq_false_iff.mpr hne)
  | call dst callee args =>
      cases dst with
      | none => exact .refl m
      | some dst =>
          show m.Gains (if m.isPointerVar dst then m.addVarTargets dst (.singleton Arena.unknown)
            else m)
          split
          · next hptr => exact addVarTargets_gains m (lt_of_declared hptr) _
          · exact .refl m
  | opaqueCode touched reason =>
      refine foldl_gains fun m' hm' v hv => addVarTargets_gains m' ?_ _
      rw [hm']
      exact lt_of_declared (List.mem_filter.mp hv).2

theorem round_gains (m : PointsTo) (a : Arena) : m.Gains (m.round.run a).1 :=
  foldlM_gains (fun m' b _ i _ => propagate_gains m' b i) a

theorem saturate_gains (bits : Nat) (s : PointsTo × Arena) : s.1.Gains (saturate bits s).1 := by
  induction s using saturate.induct bits with
  | case1 s next hgrow ih =>
      rw [saturate, if_pos hgrow]
      exact (round_gains s.1 s.2).trans ih
  | case2 s next hdone =>
      rw [saturate, if_neg hdone]
      exact round_gains s.1 s.2

/-! ## From the beginning to the end -/

theorem setUp_gains {f : Function} (hm : m.function = f) (a : Arena) (e : VarId × Nat) :
    m.Gains ((setUp f m e).run a).1 := by
  rw [setUp]
  split
  · next pointee hty =>
    obtain ⟨ty, hty, -⟩ := Option.bind_eq_some_iff.mp hty
    have hlt : e.1 < m.function.vars.length := by
      refine lt_of_declared (q := fun _ => true) ?_
      rw [hm, hty]
      rfl
    exact addVarTargets_gains m hlt
      (.singleton ((Arena.root (.paramTarget e.2) (some pointee)).run a).1)
  · exact .refl m

theorem initial_gains (f : Function) (config : Config) (a : Arena) :
    Gains ⟨f, config.maxTrackedIndex, .empty, .empty⟩ ((initial f config).run a).1 :=
  foldlM_gains (fun _ b hm e _ => setUp_gains hm b e) a

/-- The facts and the arena before the first round. -/
def setup (f : Function) (config : Config) : PointsTo × Arena :=
  StateT.run (do
    let m ← initial f config
    f.blocks.values.forM m.registerBlock
    return m : Naming PointsTo) (Arena.new config.maxPathDepth)

theorem setup_gains (f : Function) (config : Config) :
    Gains ⟨f, config.maxTrackedIndex, .empty, .empty⟩ (setup f config).1 :=
  initial_gains f config _

theorem analyze_gains (f : Function) (config : Config) :
    Gains ⟨f, config.maxTrackedIndex, .empty, .empty⟩ (analyze f config).1 :=
  (setup_gains f config).trans (saturate_gains _ _)

theorem setup_advances (f : Function) (config : Config) :
    Advances config.maxPathDepth
      (⟨f, config.maxTrackedIndex, .empty, .empty⟩, .new config.maxPathDepth)
      (setup f config) := by
  have hinitial := initial_advances f config
  exact hinitial.trans (.of_grows hinitial.ready (forM_grows (l := f.blocks.values) hinitial.ready
    fun b hb block _ => registerBlock_grows hb block))

/-- What the pointers of a function may refer to at the end of the analysis, by path. -/
def finalFacts (f : Function) (config : Config) : PathFacts :=
  (analyze f config).1.pathFacts config.maxPathDepth (analyze f config).2

/-! ## The objects of the parameters -/

variable {f : Function} {config : Config} {i : Nat} {v : VarId}

theorem mem_targetsOf_addVarTargets {id : LocId} (h : id ∈ targets) :
    id ∈ (m.addVarTargets v targets).targetsOf v := by
  rw [addVarTargets]
  split
  · next hempty =>
    exact absurd (IdSet.mem_def.mp h) (List.isEmpty_iff.mp hempty ▸ List.not_mem_nil)
  · rw [targetsOf, OrderedMap.get?_insert_self]
    exact IdSet.mem_union.mpr (.inr h)

/-- One of the targets of the variable is the location. -/
def Refers (s : PointsTo × Arena) (v : VarId) (l : Location) : Prop :=
  ∃ id ∈ s.1.targetsOf v, s.2.Points id l

theorem Refers.mono {s t : PointsTo × Arena} {l : Location} (h : Refers s v l)
    (hgains : s.1.Gains t.1) (hextend : s.2.Extends t.2) : Refers t v l := by
  obtain ⟨id, hid, hpoints⟩ := h
  exact ⟨id, hgains.vars v id hid, hpoints.mono hextend⟩

theorem Refers.mem {s : PointsTo × Arena} {l : Location} (h : Refers s v l) :
    l ∈ (s.1.pathFacts D s.2).vars v := by
  obtain ⟨id, hid, -, hl⟩ := h
  exact List.mem_map.mpr ⟨id, hid, hl⟩

/-- The parameters are set up one after the other, and each of them keeps its object. -/
theorem foldlM_setUp_refers {params : List (VarId × Nat)} {pointee : Ty}
    (hparams : ∀ e ∈ params, f.params[e.2]? = some e.1) (hm : m.function = f) (h : m.Ready D a)
    (hmem : (v, i) ∈ params) (hty : (f.ty? v).bind Ty.pointee? = some pointee) :
    Refers ((params.foldlM (setUp f) m).run a) v ⟨.paramTarget i, []⟩ := by
  induction params generalizing m a with
  | nil => exact absurd hmem List.not_mem_nil
  | cons e rest ih =>
      rw [List.foldlM_cons]
      obtain ⟨hadvance, hsetUp⟩ := setUp_advances hm h (hparams e List.mem_cons_self)
      have hfun : ((setUp f m e).run a).1.function = f := hadvance.function.trans hm
      have hrest : ∀ e ∈ rest, f.params[e.2]? = some e.1 :=
        fun e he => hparams e (List.mem_cons_of_mem _ he)
      -- what has just been set up is left alone by the parameters that follow
      rcases List.mem_cons.mp hmem with rfl | hmem
      · obtain ⟨id, hvars, hpoints⟩ := hsetUp pointee hty
        have hrefers : Refers ((setUp f m (v, i)).run a) v ⟨.paramTarget i, []⟩ :=
          ⟨id, hvars ▸ mem_targetsOf_addVarTargets (IdSet.mem_singleton.mpr rfl), hpoints⟩
        have hextend : Advances D ((setUp f m (v, i)).run a)
            ((rest.foldlM (setUp f) ((setUp f m (v, i)).run a).1).run
              ((setUp f m (v, i)).run a).2) :=
          foldlM_advances hadvance.ready fun m' b hm' hb e he =>
            (setUp_advances (hm'.trans hfun) hb (hrest e he)).1
        exact hrefers.mono (foldlM_gains (fun m' b hm' e _ => setUp_gains (hm'.trans hfun) b e) _)
          hextend.extend
      · exact ih hrest hfun hadvance.ready hmem

/-- Before any instruction is looked at, a parameter that is a pointer or an array refers to an
object of its own. -/
theorem setup_refers (config : Config) (hparam : f.params[i]? = some v) {pointee : Ty}
    (hty : (f.ty? v).bind Ty.pointee? = some pointee) :
    Refers (setup f config) v ⟨.paramTarget i, []⟩ := by
  have hinitial : Refers ((initial f config).run (.new config.maxPathDepth)) v
      ⟨.paramTarget i, []⟩ :=
    foldlM_setUp_refers (fun e he => List.mem_zipIdx_iff_getElem?.mp he) rfl (ready_new f _ _)
      (List.mem_zipIdx_iff_getElem?.mpr hparam) hty
  have hregister := forM_grows (l := f.blocks.values) (initial_advances f config).ready
    fun b hb block _ => registerBlock_grows hb block
  exact hinitial.mono (.refl _) hregister.extend

/-- At the end of the analysis a parameter that is a pointer or an array still refers to the
object that was set up for it. -/
theorem paramTarget_mem (config : Config) (hparam : f.params[i]? = some v) {pointee : Ty}
    (hty : (f.ty? v).bind Ty.pointee? = some pointee) :
    ⟨.paramTarget i, []⟩ ∈ (finalFacts f config).vars v :=
  ((setup_refers config hparam hty).mono (saturate_gains _ _)
    (saturate_advances _ _ (setup_advances f config).ready).extend).mem

end PointsTo

end TaintAnalysis
