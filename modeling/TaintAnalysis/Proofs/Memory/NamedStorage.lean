import TaintAnalysis.Proofs.Memory.Universe

/-!
# Whose storage is named

A variable lives in memory from the moment on when its storage is named, and that is when a place
that lies in it is resolved, or when an array stands for its first element. Whether it happens is a
matter of the text. Pointers lead from named storage to other named storage, and the settings of
the analysis decide about the parts of an object, never about the object.

`Registers` says of a computation whose storage it names at least, and whose at most. The two lists
are the same for every step except those that are skipped at times. What is skipped was named
before, so the storage that is named when the analysis is over is that of one list
(`PointsTo.analyze_has_iff`), whatever the configuration is.
-/

namespace TaintAnalysis

theorem Place.eq_var_of_plain? {p : Place} {v : VarId} (h : p.plain? = some v) : p = .var v := by
  cases p with
  | var w => exact congrArg Place.var (Option.some.inj h)
  | deref p | index p e | field p name => exact absurd h.symm (Option.some_ne_none v)

namespace Function

variable (f : Function)

/-- An array stands for its storage, any other variable does not. -/
def arrays (v : VarId) : List VarId :=
  if (f.ty? v).any Ty.isArray then [v] else []

/-- Whether a path begins by following a pointer that is kept in a variable. -/
def leaves : Place → Bool
  | .var _ => false
  | .deref p => leaves p || p.plain?.any fun v => !(f.ty? v).any Ty.isArray
  | .index p _ => leaves p || p.plain?.any fun v => (f.ty? v).any Ty.isPointer
  | .field p _ => leaves p

/-- The storage that is named when a place is resolved: that of the variable it begins at, unless
the path leaves the variable at once. -/
def stored (p : Place) : List VarId :=
  if f.leaves p then [] else [p.base]

/-- The storage that is named when a path is followed. A variable alone is not followed. -/
def selected (p : Place) : List VarId :=
  if p.plain?.isSome then [] else f.stored p

/-- Following a longer path begins as following the shorter one does. -/
theorem selected_of_leaves {p q : Place} (hp : p.plain? = none) (hq : q.plain? = none)
    (hbase : q.base = p.base) (h : f.leaves q = f.leaves p) : f.selected q = f.selected p := by
  rw [selected, selected, hp, hq, stored, stored, hbase, h]

theorem selected_deref (p : Place) :
    f.selected (.deref p) = f.selected p ++ p.plain?.toList.flatMap f.arrays := by
  cases hp : p.plain? with
  | none => simpa using f.selected_of_leaves (q := .deref p) hp rfl rfl (by simp [leaves, hp])
  | some v =>
      obtain rfl := Place.eq_var_of_plain? hp
      simp [selected, stored, leaves, Place.plain?, Place.base, arrays]
      split <;> simp_all

theorem selected_index (p : Place) (e : Expr) : f.selected (.index p e) =
    f.selected p ++ p.plain?.toList.filter fun v => !(f.ty? v).any Ty.isPointer := by
  cases hp : p.plain? with
  | none => simpa using f.selected_of_leaves (q := .index p e) hp rfl rfl (by simp [leaves, hp])
  | some v =>
      obtain rfl := Place.eq_var_of_plain? hp
      simp [selected, stored, leaves, Place.plain?, Place.base, List.filter_cons]
      split <;> simp_all

theorem selected_field (p : Place) (name : String) :
    f.selected (.field p name) = f.selected p ++ p.plain?.toList := by
  cases hp : p.plain? with
  | none => simpa using f.selected_of_leaves (q := .field p name) hp rfl rfl rfl
  | some v =>
      obtain rfl := Place.eq_var_of_plain? hp
      simp [selected, stored, leaves, Place.plain?, Place.base]

theorem stored_eq (p : Place) : f.stored p = f.selected p ++ p.plain?.toList := by
  cases hp : p.plain? with
  | none => simp [selected, hp]
  | some v =>
      obtain rfl := Place.eq_var_of_plain? hp
      simp [selected, stored, leaves, Place.plain?, Place.base]

theorem arrays_of_isPointer {v : VarId} (h : (f.ty? v).any Ty.isPointer = true) :
    f.arrays v = [] := by
  rw [arrays]
  cases hty : f.ty? v with
  | none => simp
  | some ty => cases ty <;> simp_all [Ty.isPointer, Ty.isArray]

/-- The storage that is named to find what the value of an expression refers to. -/
def referred : Expr → List VarId
  | .var v => f.arrays v
  | .addrOf p => f.stored p
  | .binary op l r => if op.movesPointer then referred l ++ referred r else []
  | .unary .. | .const _ => []

/-- The storage of the places whose address an expression takes at its top or below operators. -/
def taken : Expr → List VarId
  | .addrOf p => f.stored p
  | .unary _ e => taken e
  | .binary _ l r => taken l ++ taken r
  | .var _ | .const _ => []

/-- The storage of the places that an instruction mentions. -/
def mentioned (i : Instruction) : List VarId :=
  i.place?.toList.flatMap f.stored ++ i.operands.flatMap f.taken

/-- The storage that is named while an instruction is looked at for pointers. -/
def pointed (i : Instruction) : List VarId :=
  match i with
  | .assign dst e | .cast dst e _ => if (f.ty? dst).any Ty.isPointer then f.referred e else []
  | .store _ src => f.referred src
  | .load .. | .call .. | .opaqueCode .. => []

def mentionedIn (block : Block) : List VarId :=
  block.instructions.flatMap f.mentioned ++ block.terminator.operand?.toList.flatMap f.taken

/-- The storage that is named by the pointer analysis. -/
def namedStorage : List VarId :=
  f.blocks.values.flatMap f.mentionedIn ++ f.instructions.flatMap f.pointed

theorem mentioned_subset {i : Instruction} (hi : i ∈ f.instructions) :
    f.mentioned i ⊆ f.blocks.values.flatMap f.mentionedIn := by
  obtain ⟨block, hblock, hi⟩ := List.mem_flatMap.mp hi
  exact fun v hv => List.mem_flatMap.mpr
    ⟨block, hblock, List.mem_append_left _ (List.mem_flatMap.mpr ⟨i, hi, hv⟩)⟩

end Function

namespace Arena

/-- From one arena to the other the storage of all variables of the first list is named, and that
of no variable that is not in the second one. -/
structure NamesBetween (vs ws : List VarId) (a b : Arena) : Prop where
  least : ∀ v, a.Has ⟨.variable v, []⟩ ∨ v ∈ vs → b.Has ⟨.variable v, []⟩
  most : ∀ v, b.Has ⟨.variable v, []⟩ → a.Has ⟨.variable v, []⟩ ∨ v ∈ ws

namespace NamesBetween

variable {vs vs' ws ws' : List VarId} {a b c : Arena}

theorem refl (a : Arena) : NamesBetween [] [] a a :=
  ⟨by simp, by simp⟩

theorem trans (h : NamesBetween vs ws a b) (h' : NamesBetween vs' ws' b c) :
    NamesBetween (vs ++ vs') (ws ++ ws') a c where
  least := fun v hv => by
    refine h'.least v ?_
    rcases hv with hv | hv
    · exact .inl (h.least v (.inl hv))
    · exact (List.mem_append.mp hv).imp (fun hv => h.least v (.inr hv)) id
  most := fun v hv => by
    rcases h'.most v hv with hv | hv
    · exact (h.most v hv).imp id (List.mem_append_left _)
    · exact .inr (List.mem_append_right _ hv)

theorem mono (h : NamesBetween vs ws a b) (hvs : vs' ⊆ vs) (hws : ws ⊆ ws') :
    NamesBetween vs' ws' a b :=
  ⟨fun v hv => h.least v (hv.imp id (hvs ·)), fun v hv => (h.most v hv).imp id (hws ·)⟩

end NamesBetween

/-- Whatever is named before, the computation names the storage of all variables of the first list,
and that of no variable that is not in the second one. -/
def Registers {σ α : Type} (π : σ → Arena) (vs ws : List VarId) (c : StateM σ α) : Prop :=
  ∀ s, NamesBetween vs ws (π s) (π (c.run s).2)

namespace Registers

variable {σ α β : Type} {π : σ → Arena} {vs vs' ws ws' : List VarId} {c : StateM σ α}
  {g : α → StateM σ β}

theorem pure (x : α) : Registers π [] [] (Pure.pure x : StateM σ α) :=
  fun _ => .refl _

theorem mono (h : Registers π vs ws c) (hvs : vs' ⊆ vs) (hws : ws ⊆ ws') :
    Registers π vs' ws' c :=
  fun s => (h s).mono hvs hws

/-- What follows may rely on what is true of every result. -/
theorem bind_of {P : α → Prop} (hc : Registers π vs ws c) (hP : ∀ s, P (c.run s).1)
    (hg : ∀ x, P x → Registers π vs' ws' (g x)) :
    Registers π (vs ++ vs') (ws ++ ws') (c >>= g) :=
  fun s => (hc s).trans (hg (c.run s).1 (hP s) (c.run s).2)

theorem bind (hc : Registers π vs ws c) (hg : ∀ x, Registers π vs' ws' (g x)) :
    Registers π (vs ++ vs') (ws ++ ws') (c >>= g) :=
  hc.bind_of (P := fun _ => True) (fun _ => trivial) fun x _ => hg x

/-- What comes first may be all that names something. -/
theorem bind_left (hc : Registers π vs ws c) (hg : ∀ x, Registers π [] [] (g x)) :
    Registers π vs ws (c >>= g) := by
  simpa using hc.bind hg

theorem bind_right (hc : Registers π [] [] c) (hg : ∀ x, Registers π vs ws (g x)) :
    Registers π vs ws (c >>= g) :=
  hc.bind hg

/-- What follows may rely on the state that it has looked at. -/
theorem get_bind {g : σ → StateM σ β}
    (hg : ∀ s, NamesBetween vs ws (π s) (π ((g s).run s).2)) :
    Registers π vs ws (MonadState.get >>= g) :=
  hg

theorem get : Registers π [] [] (MonadState.get : StateM σ σ) :=
  fun _ => .refl _

theorem map {k : α → β} (hc : Registers π vs ws c) : Registers π vs ws (k <$> c) :=
  fun s => hc s

theorem mapM {l : List α} {vs ws : α → List VarId} {g : α → StateM σ β}
    (h : ∀ x ∈ l, Registers π (vs x) (ws x) (g x)) :
    Registers π (l.flatMap vs) (l.flatMap ws) (l.mapM g) := by
  induction l with
  | nil => exact .pure []
  | cons x rest ih =>
      rw [List.mapM_cons]
      exact .bind (h x List.mem_cons_self) fun y =>
        .bind_left (ih fun z hz => h z (List.mem_cons_of_mem x hz)) fun ys => .pure _

theorem forM {l : List α} {vs ws : α → List VarId} {g : α → StateM σ Unit}
    (h : ∀ x ∈ l, Registers π (vs x) (ws x) (g x)) :
    Registers π (l.flatMap vs) (l.flatMap ws) (l.forM g) := by
  induction l with
  | nil => exact .pure ()
  | cons x rest ih =>
      exact .bind (h x List.mem_cons_self) fun _ => ih fun y hy => h y (List.mem_cons_of_mem x hy)

/-- The elements may rely on a property of the value that is handed on. -/
theorem foldlM {P : α → Prop} {l : List β} {vs ws : β → List VarId} {g : α → β → StateM σ α}
    (h : ∀ y, P y → ∀ x ∈ l, Registers π (vs x) (ws x) (g y x))
    (hP : ∀ y, P y → ∀ x ∈ l, ∀ s, P ((g y x).run s).1) {y : α} (hy : P y) :
    Registers π (l.flatMap vs) (l.flatMap ws) (l.foldlM g y) := by
  induction l generalizing y with
  | nil => exact .pure y
  | cons x rest ih =>
      rw [List.foldlM_cons]
      exact .bind_of (h y hy x List.mem_cons_self) (hP y hy x List.mem_cons_self) fun z hz =>
        ih (fun y' hy' x' hx => h y' hy' x' (List.mem_cons_of_mem x hx))
          (fun y' hy' x' hx => hP y' hy' x' (List.mem_cons_of_mem x hx)) hz

end Registers

/-! ## Steps between locations -/

theorem intern_registers {l : Location} {vs : List VarId}
    (h : ∀ v, l = ⟨.variable v, []⟩ ↔ v ∈ vs) (ty : Option Ty) :
    Registers id vs vs (intern l ty) := by
  intro a
  rw [StateT.run, intern]
  split
  · next i hi =>
    have hhas : a.Has l := has_iff_find?.mpr (by rw [hi]; rfl)
    refine ⟨fun v hv => hv.elim id fun hv => (h v).mpr hv ▸ hhas, fun v hv => .inl hv⟩
  · refine ⟨fun v hv => (has_push (n := ⟨l, ty⟩)).mpr (hv.imp id fun hv => ((h v).mpr hv).symm),
      fun v hv => ((has_push (n := ⟨l, ty⟩)).mp hv).imp id fun hv => (h v).mp hv.symm⟩

theorem root_registers (r : Root) (ty : Option Ty) {vs : List VarId}
    (h : ∀ v, r = .variable v ↔ v ∈ vs) : Registers id vs vs (root r ty) := by
  rw [root]
  split
  · next hr =>
    obtain rfl : vs = [] := List.eq_nil_iff_forall_not_mem.mpr fun v hv =>
      absurd (hr.symm.trans ((h v).mpr hv)) (by simp)
    exact .pure _
  · exact intern_registers (fun v => by simp [h]) ty

theorem child_registers (id' : LocId) (step : Step) (ty : Option Ty) :
    Registers id [] [] (child id' step ty) := by
  refine .get_bind fun a => ?_
  show NamesBetween [] [] a ((if (a.location id').isUnknown || decide (a.maxDepth ≤
    (a.location id').path.length) then Pure.pure id' else
      intern ((a.location id').extend step) ty : Naming LocId).run a).2
  split
  · exact .refl a
  · exact intern_registers (fun v => by simp [Location.extend]) ty a

theorem element_registers (k : Nat) (array : LocId) (index : Option Int) :
    Registers id [] [] (element k array index) := by
  have hchild (step : Step) (ty : Option Ty) := child_registers array step ty
  refine .bind_right .get fun a => ?_
  cases index with
  | none => exact hchild _ _
  | some i =>
      simp only []
      split
      · exact .pure _
      · split <;> split <;> first | exact .pure _ | exact hchild _ _

theorem shifted_registers (k : Nat) (target : LocId) : Registers id [] [] (shifted k target) := by
  refine .bind_right .get fun a => ?_
  split
  · exact child_registers _ _ _
  · exact element_registers k target none

theorem offset_registers (k : Nat) (target : LocId) (index : Option Int) :
    Registers id [] [] (offset k target index) := by
  refine .bind_right .get fun a => ?_
  split
  · split
    · exact .pure _
    · exact element_registers k _ _
    · exact child_registers _ _ _
  · exact element_registers k target index

theorem collect_registers (s : IdSet) {g : LocId → Naming LocId}
    (h : ∀ i, Registers id [] [] (g i)) : Registers id [] [] (collect s g) := by
  refine .map ?_
  have hall : Registers id (s.elems.flatMap fun _ => []) (s.elems.flatMap fun _ => [])
      (s.elems.mapM g) := .mapM fun i _ => h i
  rwa [List.flatMap_eq_nil_iff.mpr fun _ _ => rfl] at hall

theorem collectAll_registers (s : IdSet) {g : LocId → Naming IdSet}
    (h : ∀ i, Registers id [] [] (g i)) : Registers id [] [] (collectAll s g) := by
  refine .map ?_
  have hall : Registers id (s.elems.flatMap fun _ => []) (s.elems.flatMap fun _ => [])
      (s.elems.mapM g) := .mapM fun i _ => h i
  rwa [List.flatMap_eq_nil_iff.mpr fun _ _ => rfl] at hall

end Arena

/-! ## Places and expressions -/

namespace PointsTo

open Arena

variable {m : PointsTo} {f : Function} {p : Place} {i : Instruction}

theorem varLocation_registers (m : PointsTo) (v : VarId) :
    Registers id [v] [v] (m.varLocation v) :=
  root_registers _ _ fun w => by simp [eq_comm]

theorem varTargets_registers (m : PointsTo) (v : VarId) :
    Registers id (m.function.arrays v) (m.function.arrays v) (m.varTargets v) := by
  rw [varTargets, Function.arrays, isArrayVar]
  split
  · exact .bind_left (varLocation_registers m v) fun _ => .pure _
  · exact .pure _

theorem storedTargets_registers (orUnknown : Bool) (l : LocId) :
    Registers id [] [] (m.storedTargets orUnknown l) := by
  refine .bind_right .get fun a => ?_
  simp only []
  split
  · exact .pure _
  · split
    · exact .pure _
    · split
      · exact .bind_left (root_registers _ _ fun v => by simp) fun _ => .pure _
      · exact .pure _

theorem derefVar_registers (m : PointsTo) (v : VarId) :
    Registers id (m.function.arrays v) (m.function.arrays v) (m.derefVar v) :=
  .bind_left (varTargets_registers m v) fun _ => .pure _

theorem indexed_registers (index : Option Int) (l : LocId) :
    Registers id [] [] (m.indexed index l) := by
  refine .bind_right .get fun a => ?_
  split
  · exact .bind_left (storedTargets_registers true l) fun ids =>
      collect_registers ids fun t => offset_registers _ t index
  · exact .bind_left (element_registers _ l index) fun _ => .pure _

/-- A path is followed to a variable if it is that variable, and to locations otherwise. -/
def Followed.Ends (p : Place) (s : Followed) : Prop :=
  match s.reached with
  | .scalar v => p.plain? = some v
  | .locations _ => p.plain? = none

theorem Followed.Ends.cases {p : Place} {s : Followed} (h : Followed.Ends p s) :
    (∃ v, s.reached = .scalar v ∧ p.plain? = some v) ∨
      ∃ ids, s.reached = .locations ids ∧ p.plain? = none := by
  rw [Followed.Ends] at h
  split at h
  · next v hv => exact .inl ⟨v, hv, h⟩
  · next ids hids => exact .inr ⟨ids, hids, h⟩

theorem follow_ends (m : PointsTo) (p : Place) (a : Arena) :
    Followed.Ends p ((m.follow p).run a).1 := by
  rw [Followed.Ends]
  split
  · next v hv => rw [eq_var_of_scalar hv]; rfl
  · next ids hids =>
    cases p with
    | var v => exact absurd (show PathEnd.scalar v = _ from hids) (by simp)
    | deref p | index p e | field p name => rfl

theorem follow_registers : ∀ p : Place,
    Registers id (m.function.selected p) (m.function.selected p) (m.follow p)
  | .var v => .pure _
  | .deref p => by
      rw [Function.selected_deref]
      refine .bind_of (follow_registers p) (follow_ends m p) fun s hs => ?_
      obtain ⟨v, hv, hplain⟩ | ⟨ids, hids, hplain⟩ := hs.cases
      · rw [hplain, hv]
        simpa using Registers.bind_left (derefVar_registers m v) fun _ => .pure _
      · rw [hplain, hids]
        exact .bind_left (collectAll_registers ids fun l => storedTargets_registers true l)
          fun _ => .pure _
  | .index p e => by
      rw [Function.selected_index]
      refine .bind_of (follow_registers p) (follow_ends m p) fun s hs => ?_
      obtain ⟨v, hv, hplain⟩ | ⟨ids, hids, hplain⟩ := hs.cases
      · rw [hplain, hv]
        simp only []
        split
        · next hptr =>
          have hptr' : (m.function.ty? v).any Ty.isPointer = true := hptr
          have hderef := derefVar_registers m v
          rw [m.function.arrays_of_isPointer hptr'] at hderef
          rw [Option.toList_some, List.filter_cons_of_neg (by simp [hptr'])]
          exact .bind_left hderef fun ids =>
            .bind_left (collect_registers ids fun t => offset_registers _ t _) fun _ => .pure _
        · next hptr =>
          have hptr' : ¬ (m.function.ty? v).any Ty.isPointer = true := hptr
          rw [Option.toList_some, List.filter_cons_of_pos (by simp [hptr'])]
          exact .bind_left (varLocation_registers m v) fun l =>
            .bind_left (element_registers _ l _) fun _ => .pure _
      · rw [hplain, hids]
        exact .bind_right .get fun _ => .bind_left
          (collectAll_registers ids fun l => indexed_registers _ l) fun _ => .pure _
  | .field p name => by
      rw [Function.selected_field]
      refine .bind_of (follow_registers p) (follow_ends m p) fun s hs => ?_
      obtain ⟨v, hv, hplain⟩ | ⟨ids, hids, hplain⟩ := hs.cases
      · rw [hplain, hv]
        refine .bind_left (varLocation_registers m v) fun l => ?_
        exact .bind_left (child_registers l _ _) fun _ => .pure _
      · rw [hplain, hids]
        exact .bind_left (collect_registers ids fun l => child_registers l _ _) fun _ => .pure _

theorem resolve_registers (m : PointsTo) (p : Place) :
    Registers id (m.function.stored p) (m.function.stored p) (m.resolve p) := by
  rw [Function.stored_eq]
  refine .bind_of (follow_registers p) (follow_ends m p) fun s hs => ?_
  obtain ⟨v, hv, hplain⟩ | ⟨ids, hids, hplain⟩ := hs.cases
  · rw [hplain, hv]
    exact .bind_left (varLocation_registers m v) fun _ => .pure _
  · rw [hplain, hids]
    exact .pure _

theorem exprTargets_registers (m : PointsTo) : ∀ e : Expr,
    Registers id (m.function.referred e) (m.function.referred e) (m.exprTargets e)
  | .var v => varTargets_registers m v
  | .addrOf p => .bind_left (resolve_registers m p) fun _ => .pure _
  | .binary op l r => by
      rw [exprTargets, Function.referred]
      split
      · exact .bind (exprTargets_registers m l) fun left =>
          .bind_left (exprTargets_registers m r) fun right =>
            collect_registers _ fun l => shifted_registers _ l
      · exact .pure _
  | .unary _ _ => .pure _
  | .const _ => .pure _

theorem registerExpr_registers (m : PointsTo) : ∀ e : Expr,
    Registers id (m.function.taken e) (m.function.taken e) (m.registerExpr e)
  | .var _ => .pure _
  | .const _ => .pure _
  | .unary _ e => registerExpr_registers m e
  | .binary _ l r => .bind (registerExpr_registers m l) fun _ => registerExpr_registers m r
  | .addrOf p => .map (resolve_registers m p)

/-! ## The analysis -/

theorem registerInstruction_registers (m : PointsTo) (i : Instruction) :
    Registers id (m.function.mentioned i) (m.function.mentioned i) (m.registerInstruction i) := by
  have hoperands : Registers id (i.operands.flatMap m.function.taken)
      (i.operands.flatMap m.function.taken) (i.operands.forM m.registerExpr) :=
    .forM fun e _ => registerExpr_registers m e
  rw [registerInstruction, Function.mentioned]
  cases i.place? with
  | none => exact hoperands
  | some place =>
      simp only [Option.toList_some, List.flatMap_singleton]
      exact .bind (.map (resolve_registers m place)) fun _ => hoperands

theorem registerBlock_registers (m : PointsTo) (block : Block) :
    Registers id (m.function.mentionedIn block) (m.function.mentionedIn block)
      (m.registerBlock block) := by
  refine .bind (.forM fun i _ => registerInstruction_registers m i) fun _ => ?_
  cases block.terminator.operand? with
  | none => exact .pure ()
  | some e =>
      simp only [Option.toList_some, List.flatMap_singleton]
      exact registerExpr_registers m e

/-- An instruction resolves its place at most, and that is a place that it mentions. -/
theorem propagate_registers (m : PointsTo) (i : Instruction) :
    Registers id (m.function.pointed i) (m.function.pointed i ++ m.function.mentioned i)
      (m.propagate i) := by
  have hassign (dst : VarId) (e : Expr) (ws : List VarId) :
      Registers id (if (m.function.ty? dst).any Ty.isPointer then m.function.referred e else [])
        ((if (m.function.ty? dst).any Ty.isPointer then m.function.referred e else []) ++ ws)
        (if m.isPointerVar dst then do return m.addVarTargets dst (← m.exprTargets e)
          else return m : Naming PointsTo) := by
    rw [isPointerVar]
    split
    · exact Registers.mono (.bind_left (exprTargets_registers m e) fun _ => .pure _)
        (List.Subset.refl _) (List.subset_append_left _ _)
    · exact Registers.mono (.pure _) (List.Subset.refl _) (List.nil_subset _)
  have hplace (place : Place) (ws : List VarId) (h : i.place? = some place) :
      m.function.stored place ⊆ ws ++ m.function.mentioned i := fun v hv =>
    List.mem_append_right _ (List.mem_append_left _ (by simpa [h] using hv))
  cases i with
  | assign dst e => exact hassign dst e _
  | cast dst e ty => exact hassign dst e _
  | load dst place =>
      rw [propagate]
      split
      · refine Registers.mono (.bind_left (resolve_registers m place) fun r => ?_)
          (List.nil_subset _) (hplace place _ rfl)
        exact .bind_left (collectAll_registers _ fun l => storedTargets_registers false l)
          fun _ => .pure _
      · exact Registers.mono (.pure _) (List.nil_subset _) (List.nil_subset _)
  | store place src =>
      have hstore : Registers id (m.function.referred src ++ [])
          (m.function.referred src ++ m.function.stored place)
          (m.propagate (.store place src)) := by
        refine .bind (exprTargets_registers m src) fun stored => ?_
        split
        · exact Registers.mono (.pure _) (List.nil_subset _) (List.nil_subset _)
        · exact Registers.mono (.bind_left (resolve_registers m place) fun _ => .pure _)
            (List.nil_subset _) (List.Subset.refl _)
      exact hstore.mono (by simp [Function.pointed])
        (List.append_subset.mpr ⟨List.subset_append_left _ _, hplace place _ rfl⟩)
  | call dst callee args =>
      cases dst <;> exact Registers.mono (.pure _) (List.nil_subset _) (List.nil_subset _)
  | opaqueCode touched reason =>
      exact Registers.mono (.pure _) (List.nil_subset _) (List.nil_subset _)

theorem setUp_registers (f : Function) (m : PointsTo) (e : VarId × Nat) :
    Registers id [] [] (setUp f m e) := by
  rw [setUp]
  split
  · exact .bind_left (root_registers _ _ fun v => by simp) fun _ => .pure _
  · exact .pure _

/-- Before the first round the places that the function mentions have their storage named. -/
theorem setup_names (f : Function) (config : Config) :
    NamesBetween (f.blocks.values.flatMap f.mentionedIn) (f.blocks.values.flatMap f.mentionedIn)
      (.new config.maxPathDepth) (setup f config).2 := by
  have hinitial : Registers id [] [] (initial f config) := by
    have hall := Registers.foldlM (P := fun _ => True) (l := f.params.zipIdx)
      (fun m _ e _ => setUp_registers f m e) (fun _ _ _ _ _ => trivial)
      (y := ⟨f, config.maxTrackedIndex, .empty, .empty⟩) trivial
    rwa [List.flatMap_eq_nil_iff.mpr fun _ _ => rfl] at hall
  have hregister : Registers id ([] ++ f.blocks.values.flatMap f.mentionedIn)
      ([] ++ f.blocks.values.flatMap f.mentionedIn) (do
        let m ← initial f config
        f.blocks.values.forM m.registerBlock
        return m) :=
    hinitial.bind_of (P := fun m => m.function = f)
      (fun a => (initial_gains f config a).function) fun m hm =>
        .bind_left (hm ▸ .forM fun block _ => registerBlock_registers m block) fun _ => .pure _
  exact hregister _

theorem round_registers (m : PointsTo) :
    Registers id (m.function.instructions.flatMap m.function.pointed)
      (m.function.instructions.flatMap fun i => m.function.pointed i ++ m.function.mentioned i)
      m.round :=
  .foldlM (P := fun m' => m'.function = m.function)
    (fun m' hm' i _ => hm' ▸ propagate_registers m' i)
    (fun m' hm' i _ a => (propagate_gains m' a i).function.trans hm') rfl

theorem saturate_names (bits : Nat) (s : PointsTo × Arena) (hs : s.1.function = f) :
    NamesBetween (f.instructions.flatMap f.pointed)
      (f.instructions.flatMap fun i => f.pointed i ++ f.mentioned i) s.2 (saturate bits s).2 := by
  have hround (s : PointsTo × Arena) (hs : s.1.function = f) :
      NamesBetween (f.instructions.flatMap f.pointed)
        (f.instructions.flatMap fun i => f.pointed i ++ f.mentioned i) s.2 (s.1.round.run s.2).2 :=
    hs ▸ round_registers s.1 s.2
  induction s using saturate.induct bits with
  | case1 s next hgrow ih =>
      rw [saturate, if_pos hgrow]
      exact ((hround s hs).trans (ih ((round_gains s.1 s.2).function.trans hs))).mono
        (List.subset_append_left _ _) (List.append_subset.mpr ⟨.refl _, .refl _⟩)
  | case2 s next hdone =>
      rw [saturate, if_neg hdone]
      exact hround s hs

/-- Which storage is named when the pointer analysis is over does not depend on the
configuration. -/
theorem analyze_has_iff (f : Function) (config : Config) (v : VarId) :
    (analyze f config).2.Has ⟨.variable v, []⟩ ↔ v ∈ f.namedStorage := by
  have hsetup := setup_names f config
  have hrounds := saturate_names (factBits f config) (setup f config)
    (setup_gains f config).function
  have hnew : ¬ (new config.maxPathDepth).Has ⟨.variable v, []⟩ := by
    rintro ⟨n, hn, hl⟩
    rw [List.mem_singleton.mp hn] at hl
    exact absurd (Location.mk.inj hl).1 (by simp)
  constructor
  · intro h
    rcases hrounds.most v h with h | h
    · exact List.mem_append_left _ ((hsetup.most v h).resolve_left hnew)
    · obtain ⟨i, hi, hv⟩ := List.mem_flatMap.mp h
      rcases List.mem_append.mp hv with hv | hv
      · exact List.mem_append_right _ (List.mem_flatMap.mpr ⟨i, hi, hv⟩)
      · exact List.mem_append_left _ (f.mentioned_subset hi hv)
  · intro h
    refine hrounds.least v ((List.mem_append.mp h).imp (fun h => ?_) id)
    exact hsetup.least v (.inr h)

/-- The objects that are named are those of the parameters that refer to something. -/
theorem analyze_has_object_iff (f : Function) (config : Config) (i : Nat) :
    (analyze f config).2.Has ⟨.paramTarget i, []⟩ ↔
      (Location.rootTy? f (.paramTarget i)).isSome = true := by
  constructor
  · rintro ⟨n, hn, hl⟩
    have hroot := ((analyze_inside f config).nameable n hn).root
    rw [hl] at hroot
    exact hroot
  · intro h
    obtain ⟨ty, hty⟩ := Option.isSome_iff_exists.mp h
    obtain ⟨v, hv, hpointee⟩ := Option.bind_eq_some_iff.mp hty
    obtain ⟨t, ht, hlocation⟩ := List.mem_map.mp (paramTarget_mem config hv hpointee)
    exact hlocation ▸ has_location ((analyze_advances f config).ready.inRange.vars v t ht)

end PointsTo

end TaintAnalysis
