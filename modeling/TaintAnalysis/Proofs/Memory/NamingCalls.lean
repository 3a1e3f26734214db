import TaintAnalysis.Proofs.Memory.Facts

/-!
# How locations come to be named

All that the pointer analysis does to the arena, it does by calls of seven kinds: it asks for the
storage of a variable, for the object of a parameter, or for the location one step from another one,
where the step is a field, an element or the outcome of pointer arithmetic. The arguments of a call
depend on what the analysis has found out; but whatever they are, what holds at the beginning and is
kept by every call holds in all arenas of the analysis, and of the queries after it.

`Made` says that a computation goes by such calls, and which of them it may need. It is put together
along the access paths, the expressions and the instructions.
-/

namespace TaintAnalysis

/-- A call by which the pointer analysis names a location, unless it has a name. -/
inductive NamingCall where
  /-- The storage of a variable. -/
  | storage (v : VarId)
  /-- What a parameter refers to when the function is entered. -/
  | object (i : Nat)
  /-- The object of the parameter that a location lies in, for want of a better target. -/
  | fallback (id : LocId)
  | field (id : LocId) (name : String)
  | element (id : LocId) (index : Option Int64)
  | shifted (id : LocId)
  | offset (id : LocId) (index : Option Int64)

namespace NamingCall

variable {f : Function} {k : Nat} {vs vs' : List VarId} {names names' : List String}
  {c : NamingCall}

/-- Makes the call for a function, where `k` is the first index that is not kept apart. -/
def perform (f : Function) (k : Nat) : NamingCall → Naming LocId
  | storage v => Arena.root (.variable v) (f.ty? v)
  | object i =>
      match Location.rootTy? f (.paramTarget i) with
      | some ty => Arena.root (.paramTarget i) (some ty)
      | none => return Arena.unknown
  | fallback id => do
      match ((← get).location id).param? with
      | some i => Arena.root (.paramTarget i) none
      | none => return Arena.unknown
  | field id name => Arena.child id (.field name) none
  | element id index => Arena.element k id (index.map Int64.toInt)
  | shifted id => Arena.shifted k id
  | offset id index => Arena.offset k id (index.map Int64.toInt)

/-- The arena after a list of calls. -/
def after (f : Function) (k : Nat) (calls : List NamingCall) (a : Arena) : Arena :=
  calls.foldl (fun a c => ((c.perform f k).run a).2) a

theorem after_append (calls calls' : List NamingCall) (a : Arena) :
    after f k (calls ++ calls') a = after f k calls' (after f k calls a) :=
  List.foldl_append

/-- A call on behalf of a text with the given variables and fields. The objects of parameters are
asked for on no one's behalf. -/
def Mentions (vs : List VarId) (names : List String) : NamingCall → Prop
  | storage v => v ∈ vs
  | field _ name => name ∈ names
  | object _ => False
  | fallback _ | element _ _ | shifted _ | offset _ _ => True

/-- A call of the analysis of a function. -/
def Of (f : Function) (c : NamingCall) : Prop :=
  c.Mentions f.occurrences f.fieldNames ∨ ∃ i, c = .object i

theorem Mentions.mono (h : c.Mentions vs names) (hvs : vs ⊆ vs') (hnames : names ⊆ names') :
    c.Mentions vs' names' := by
  cases c with
  | storage v => exact hvs h
  | field id name => exact hnames h
  | object i => exact h
  | fallback id => trivial
  | element id index => trivial
  | shifted id => trivial
  | offset id index => trivial

/-- Calls that have the property lead from one arena to another. -/
def Leads (f : Function) (k : Nat) (P : NamingCall → Prop) (a b : Arena) : Prop :=
  ∃ calls, (∀ c ∈ calls, P c) ∧ b = after f k calls a

namespace Leads

variable {P Q : NamingCall → Prop} {a b b' : Arena}

theorem refl (a : Arena) : Leads f k P a a :=
  ⟨[], fun _ hc => absurd hc List.not_mem_nil, rfl⟩

theorem single (hc : P c) (a : Arena) : Leads f k P a ((c.perform f k).run a).2 :=
  ⟨[c], fun _ hd => List.mem_singleton.mp hd ▸ hc, rfl⟩

theorem trans (h : Leads f k P a b) (h' : Leads f k P b b') : Leads f k P a b' := by
  obtain ⟨calls, hcalls, rfl⟩ := h
  obtain ⟨calls', hcalls', rfl⟩ := h'
  exact ⟨calls ++ calls', fun c hc => (List.mem_append.mp hc).elim (hcalls c) (hcalls' c),
    (after_append calls calls' a).symm⟩

theorem mono (h : Leads f k P a b) (hPQ : ∀ c, P c → Q c) : Leads f k Q a b := by
  obtain ⟨calls, hcalls, hb⟩ := h
  exact ⟨calls, fun c hc => hPQ c (hcalls c hc), hb⟩

/-- What every call keeps is kept. -/
theorem keeps {I : Arena → Prop} (h : Leads f k P a b)
    (hI : ∀ c, P c → ∀ a, I a → I ((c.perform f k).run a).2) (ha : I a) : I b := by
  obtain ⟨calls, hcalls, rfl⟩ := h
  exact List.foldlRecOn (motive := I) _ _ ha fun a ha c hc => hI c (hcalls c hc) a ha

end Leads

end NamingCall

/-! ## Computations that go by calls -/

open NamingCall (Leads)

/-- Whatever the computation names, it names by calls that have the property. -/
def Made {α : Type} (f : Function) (k : Nat) (P : NamingCall → Prop) (n : Naming α) : Prop :=
  ∀ a, Leads f k P a (n.run a).2

namespace Made

variable {α β : Type} {f : Function} {k : Nat} {P Q : NamingCall → Prop} {n : Naming α}
  {g : α → Naming β}

theorem mono (hn : Made f k P n) (hPQ : ∀ c, P c → Q c) : Made f k Q n :=
  fun a => (hn a).mono hPQ

theorem call (c : NamingCall) (hc : P c) : Made f k P (c.perform f k) :=
  fun a => .single hc a

theorem pure (x : α) : Made f k P (Pure.pure x : Naming α) :=
  fun a => .refl a

/-- What follows may rely on what is true of every result. -/
theorem bind_of {R : α → Prop} (hn : Made f k P n) (hR : ∀ a, R (n.run a).1)
    (hg : ∀ x, R x → Made f k P (g x)) : Made f k P (n >>= g) :=
  fun a => (hn a).trans (hg (n.run a).1 (hR a) (n.run a).2)

theorem bind (hn : Made f k P n) (hg : ∀ x, Made f k P (g x)) : Made f k P (n >>= g) :=
  hn.bind_of (R := fun _ => True) (fun _ => trivial) fun x _ => hg x

/-- What follows may depend on the arena. -/
theorem get_bind {g : Arena → Naming β} (hg : ∀ a, Made f k P (g a)) :
    Made f k P (MonadState.get >>= g) :=
  fun a => hg a a

theorem map {g : α → β} (hn : Made f k P n) : Made f k P (g <$> n) :=
  hn

theorem mapM {l : List α} {g : α → Naming β} (hg : ∀ x ∈ l, Made f k P (g x)) :
    Made f k P (l.mapM g) := by
  induction l with
  | nil => exact .pure []
  | cons x rest ih =>
      rw [List.mapM_cons]
      exact .bind (hg x List.mem_cons_self) fun y =>
        .bind (ih fun z hz => hg z (List.mem_cons_of_mem x hz)) fun ys => .pure _

theorem forM {l : List α} {g : α → Naming Unit} (hg : ∀ x ∈ l, Made f k P (g x)) :
    Made f k P (l.forM g) := by
  induction l with
  | nil => exact .pure ()
  | cons x rest ih =>
      exact .bind (hg x List.mem_cons_self) fun _ =>
        ih fun y hy => hg y (List.mem_cons_of_mem x hy)

/-- Each member of the list may rely on what the members before it keep. -/
theorem foldlM {R : α → Prop} {l : List β} {g : α → β → Naming α}
    (hg : ∀ y, R y → ∀ x ∈ l, Made f k P (g y x) ∧ ∀ a, R ((g y x).run a).1) {y : α} (hy : R y) :
    Made f k P (l.foldlM g y) ∧ ∀ a, R ((l.foldlM g y).run a).1 := by
  induction l generalizing y with
  | nil => exact ⟨.pure y, fun _ => hy⟩
  | cons x rest ih =>
      obtain ⟨hmade, hkept⟩ := hg y hy x List.mem_cons_self
      have hrest (z : α) (hz : R z) :=
        ih (fun y' hy' x' hx => hg y' hy' x' (List.mem_cons_of_mem x hx)) hz
      rw [List.foldlM_cons]
      exact ⟨hmade.bind_of hkept fun z hz => (hrest z hz).1,
        fun a => (hrest _ (hkept a)).2 ((g y x).run a).2⟩

theorem collect (s : IdSet) {g : LocId → Naming LocId} (hg : ∀ id, Made f k P (g id)) :
    Made f k P (Arena.collect s g) :=
  .map (.mapM fun id _ => hg id)

theorem collectAll (s : IdSet) {g : LocId → Naming IdSet} (hg : ∀ id, Made f k P (g id)) :
    Made f k P (Arena.collectAll s g) :=
  .map (.mapM fun id _ => hg id)

end Made

/-! ## Places and expressions -/

namespace PointsTo

open NamingCall

variable {m : PointsTo} {v : VarId} {p : Place} {P : NamingCall → Prop} {vs vs' : List VarId}
  {names names' : List String}

/-- The computation goes by calls for the given variables and fields. -/
def Mentions {α : Type} (m : PointsTo) (vs : List VarId) (names : List String) (n : Naming α) :
    Prop :=
  Made m.function m.maxTrackedIndex (NamingCall.Mentions vs names) n

theorem Mentions.mono {α : Type} {n : Naming α} (h : m.Mentions vs names n) (hvs : vs ⊆ vs')
    (hnames : names ⊆ names') : m.Mentions vs' names' n :=
  Made.mono h fun _ hc => hc.mono hvs hnames

theorem varLocation_mentions (m : PointsTo) (hv : v ∈ vs) :
    m.Mentions vs names (m.varLocation v) :=
  .call (.storage v) hv

theorem varTargets_mentions (m : PointsTo) (hv : v ∈ vs) : m.Mentions vs names (m.varTargets v) := by
  rw [varTargets]
  split
  · exact .bind (m.varLocation_mentions hv) fun _ => .pure _
  · exact .pure _

theorem storedTargets_mentions (m : PointsTo) (orUnknown : Bool) (id : LocId) :
    m.Mentions vs names (m.storedTargets orUnknown id) := by
  intro a
  simp only [storedTargets, StateT.run_bind, StateT.run_get, pure_bind]
  split
  · exact .refl a
  · split
    · exact .refl a
    · split
      · next i hi =>
        have hcall : ((NamingCall.fallback id).perform m.function m.maxTrackedIndex).run a =
            (Arena.root (.paramTarget i) none).run a := by
          simp only [perform, StateT.run_bind, StateT.run_get, pure_bind, hi]
        exact congrArg Prod.snd hcall ▸ .single trivial a
      · exact .refl a

theorem derefVar_mentions (m : PointsTo) (hv : v ∈ vs) : m.Mentions vs names (m.derefVar v) :=
  .bind (m.varTargets_mentions hv) fun _ => .pure _

theorem indexed_mentions (m : PointsTo) (e : Expr) (id : LocId) :
    m.Mentions vs names (m.indexed (constantIndex e) id) := by
  refine .get_bind fun a => ?_
  split
  · exact .bind (m.storedTargets_mentions true id) fun ids =>
      .collect ids fun t => .call (.offset t e.const?) trivial
  · exact .bind (.call (.element id e.const?) trivial) fun _ => .pure _

/-- Only a path that is a variable and nothing else can be followed to a variable. -/
theorem eq_var_of_scalar {a : Arena} (h : ((m.follow p).run a).1.reached = .scalar v) :
    p = .var v := by
  have hloc {ids : IdSet} (h : PathEnd.locations ids = .scalar v) : p = .var v :=
    absurd h (by simp only [reduceCtorEq, not_false_eq_true])
  cases p with
  | var w => exact congrArg Place.var (PathEnd.scalar.inj h)
  | deref p =>
      rw [follow, Arena.run_bind] at h
      split at h <;> exact hloc h
  | index p e =>
      rw [follow, Arena.run_bind] at h
      simp only [] at h
      split at h
      · split at h <;> exact hloc h
      · exact hloc h
  | field p name =>
      rw [follow, Arena.run_bind] at h
      split at h <;> exact hloc h

/-- If a path has been followed to a variable, then the variable occurs in it. -/
def Followed.Within (p : Place) (s : Followed) : Prop :=
  ∀ v, s.reached = .scalar v → v ∈ p.occurrences

theorem followed_within (m : PointsTo) (p : Place) (a : Arena) :
    Followed.Within p ((m.follow p).run a).1 := by
  intro v h
  obtain rfl := eq_var_of_scalar h
  exact List.mem_singleton.mpr rfl

theorem follow_mentions (m : PointsTo) :
    ∀ p : Place, m.Mentions p.occurrences p.fieldNames (m.follow p)
  | .var v => .pure _
  | .deref p => by
      refine Made.bind_of (follow_mentions m p) (followed_within m p) fun s hs => ?_
      split
      · next v hv => exact .bind (m.derefVar_mentions (hs v hv)) fun _ => .pure _
      · next ids _ =>
        exact .bind (.collectAll ids fun id => m.storedTargets_mentions true id) fun _ => .pure _
  | .index p e => by
      have hp := (follow_mentions m p).mono (List.subset_append_left _ e.occurrences)
        (List.subset_append_left _ e.fieldNames)
      refine Made.bind_of hp (followed_within m p) fun s hs => ?_
      simp only []
      split
      · next v hv =>
        have hocc : v ∈ p.occurrences ++ e.occurrences := List.mem_append_left _ (hs v hv)
        split
        · exact .bind (m.derefVar_mentions hocc) fun ids =>
            .bind (.collect ids fun t => .call (.offset t e.const?) trivial) fun _ => .pure _
        · exact .bind (m.varLocation_mentions hocc) fun id =>
            .bind (.call (.element id e.const?) trivial) fun _ => .pure _
      · next ids _ =>
        exact .get_bind fun _ =>
          .bind (.collectAll ids fun id => m.indexed_mentions e id) fun _ => .pure _
  | .field p name => by
      have hp := (follow_mentions m p).mono (List.Subset.refl _)
        (List.subset_append_left _ [name])
      have hname : name ∈ p.fieldNames ++ [name] :=
        List.mem_append_right _ (List.mem_singleton.mpr rfl)
      refine Made.bind_of hp (followed_within m p) fun s hs => ?_
      split
      · next v hv =>
        exact .bind (m.varLocation_mentions (hs v hv)) fun id =>
          .bind (.call (.field id name) hname) fun _ => .pure _
      · next ids _ =>
        exact .bind (.collect ids fun id => .call (.field id name) hname) fun _ => .pure _

theorem resolve_mentions (m : PointsTo) (p : Place) :
    m.Mentions p.occurrences p.fieldNames (m.resolve p) := by
  refine Made.bind_of (m.follow_mentions p) (followed_within m p) fun s hs => ?_
  split
  · next v hv => exact .bind (m.varLocation_mentions (hs v hv)) fun _ => .pure _
  · exact .pure _

theorem exprTargets_mentions (m : PointsTo) :
    ∀ e : Expr, m.Mentions e.occurrences e.fieldNames (m.exprTargets e)
  | .var v => m.varTargets_mentions (List.mem_singleton.mpr rfl)
  | .addrOf p => .bind (m.resolve_mentions p) fun _ => .pure _
  | .binary op l r => by
      rw [exprTargets]
      split
      · refine .bind ((exprTargets_mentions m l).mono (List.subset_append_left _ _)
          (List.subset_append_left _ _)) fun left => ?_
        refine .bind ((exprTargets_mentions m r).mono (List.subset_append_right _ _)
          (List.subset_append_right _ _)) fun right => ?_
        exact .collect _ fun id => .call (.shifted id) trivial
      · exact .pure _
  | .unary op e => .pure _
  | .const c => .pure _

/-! ## Instructions -/

section Subsets

variable {i : Instruction} {e : Expr} {block : Block} {f : Function}

theorem operand_subset (he : e ∈ i.operands) :
    e.occurrences ⊆ i.occurrences ∧ e.fieldNames ⊆ i.fieldNames :=
  ⟨fun _ hv => List.mem_append_left _ (List.mem_append_right _ (List.mem_flatMap.mpr ⟨e, he, hv⟩)),
    fun _ hname => List.mem_append_right _ (List.mem_flatMap.mpr ⟨e, he, hname⟩)⟩

theorem place_subset (hp : i.place? = some p) :
    p.occurrences ⊆ i.occurrences ∧ p.fieldNames ⊆ i.fieldNames := by
  refine ⟨fun v hv => ?_, fun name hname => ?_⟩
  · refine List.mem_append_left _ (List.mem_append_left _ (List.mem_append_right _ ?_))
    rwa [hp]
  · refine List.mem_append_left _ ?_
    rwa [hp]

theorem instruction_subset (hi : i ∈ block.instructions) :
    i.occurrences ⊆ block.occurrences ∧ i.fieldNames ⊆ block.fieldNames :=
  ⟨fun _ hv => List.mem_append_left _ (List.mem_flatMap.mpr ⟨i, hi, hv⟩),
    fun _ hname => List.mem_append_left _ (List.mem_flatMap.mpr ⟨i, hi, hname⟩)⟩

theorem terminator_subset (he : block.terminator.operand? = some e) :
    e.occurrences ⊆ block.occurrences ∧ e.fieldNames ⊆ block.fieldNames := by
  refine ⟨fun v hv => List.mem_append_right _ ?_, fun name hname => List.mem_append_right _ ?_⟩
  · rwa [Terminator.occurrences, he]
  · rwa [Terminator.fieldNames, he]

theorem block_subset (hblock : block ∈ f.blocks.values) :
    block.occurrences ⊆ f.occurrences ∧ block.fieldNames ⊆ f.fieldNames :=
  ⟨fun _ hv => List.mem_flatMap.mpr ⟨block, hblock, hv⟩,
    fun _ hname => List.mem_flatMap.mpr ⟨block, hblock, hname⟩⟩

end Subsets

theorem exprTargets_mentions_of_mem (m : PointsTo) {i : Instruction} {e : Expr}
    (he : e ∈ i.operands) : m.Mentions i.occurrences i.fieldNames (m.exprTargets e) :=
  (m.exprTargets_mentions e).mono (operand_subset he).1 (operand_subset he).2

theorem resolve_mentions_of_place (m : PointsTo) {i : Instruction} (hp : i.place? = some p) :
    m.Mentions i.occurrences i.fieldNames (m.resolve p) :=
  (m.resolve_mentions p).mono (place_subset hp).1 (place_subset hp).2

theorem propagate_mentions (m : PointsTo) (i : Instruction) :
    m.Mentions i.occurrences i.fieldNames (m.propagate i) := by
  have hassign (dst : VarId) (e : Expr) (he : e ∈ i.operands) :
      m.Mentions i.occurrences i.fieldNames
        (if m.isPointerVar dst then do return m.addVarTargets dst (← m.exprTargets e)
          else return m : Naming PointsTo) := by
    split
    · exact .bind (m.exprTargets_mentions_of_mem he) fun _ => .pure _
    · exact .pure _
  cases i with
  | assign dst e => exact hassign dst e List.mem_cons_self
  | cast dst e ty => exact hassign dst e List.mem_cons_self
  | load dst place =>
      rw [propagate]
      split
      · exact .bind (m.resolve_mentions_of_place rfl) fun r =>
          .bind (.collectAll _ fun id => m.storedTargets_mentions false id) fun _ => .pure _
      · exact .pure _
  | store place src =>
      refine .bind (m.exprTargets_mentions_of_mem List.mem_cons_self) fun stored => ?_
      split
      · exact .pure _
      · exact .bind (m.resolve_mentions_of_place rfl) fun _ => .pure _
  | call dst callee args => cases dst <;> exact .pure _
  | opaqueCode touched reason => exact .pure _

theorem registerExpr_mentions (m : PointsTo) :
    ∀ e : Expr, m.Mentions e.occurrences e.fieldNames (m.registerExpr e)
  | .var _ => .pure _
  | .const _ => .pure _
  | .unary _ e => registerExpr_mentions m e
  | .binary _ l r =>
      .bind ((registerExpr_mentions m l).mono (List.subset_append_left _ _)
        (List.subset_append_left _ _)) fun _ =>
          (registerExpr_mentions m r).mono (List.subset_append_right _ _)
            (List.subset_append_right _ _)
  | .addrOf p => .map (m.resolve_mentions p)

theorem registerInstruction_mentions (m : PointsTo) (i : Instruction) :
    m.Mentions i.occurrences i.fieldNames (m.registerInstruction i) := by
  have hoperands : m.Mentions i.occurrences i.fieldNames (i.operands.forM m.registerExpr) :=
    .forM fun e he =>
      (m.registerExpr_mentions e).mono (operand_subset he).1 (operand_subset he).2
  rw [registerInstruction]
  cases hplace : i.place? with
  | none => exact hoperands
  | some p => exact .bind (.map (m.resolve_mentions_of_place hplace)) fun _ => hoperands

theorem registerBlock_mentions (m : PointsTo) (block : Block) :
    m.Mentions block.occurrences block.fieldNames (m.registerBlock block) := by
  refine .bind (.forM fun i hi => (m.registerInstruction_mentions i).mono
    (instruction_subset hi).1 (instruction_subset hi).2) fun _ => ?_
  cases hoperand : block.terminator.operand? with
  | none => exact .pure ()
  | some e =>
      exact (m.registerExpr_mentions e).mono (terminator_subset hoperand).1
        (terminator_subset hoperand).2

/-! ## The analysis -/

variable {f : Function} {k : Nat}

/-- The facts are about the function and keep the indices below `k` apart. -/
structure About (f : Function) (k : Nat) (m : PointsTo) : Prop where
  function : m.function = f
  maxTrackedIndex : m.maxTrackedIndex = k

theorem About.addVarTargets (h : m.About f k) (v : VarId) (targets : IdSet) :
    (m.addVarTargets v targets).About f k := by
  rw [PointsTo.addVarTargets]
  split
  · exact h
  · exact ⟨h.function, h.maxTrackedIndex⟩

theorem About.propagate (h : m.About f k) (i : Instruction) (a : Arena) :
    ((m.propagate i).run a).1.About f k := by
  have hassign (dst : VarId) (n : Naming IdSet) :
      ((if m.isPointerVar dst then do return m.addVarTargets dst (← n)
        else return m : Naming PointsTo).run a).1.About f k := by
    split
    · exact h.addVarTargets dst _
    · exact h
  cases i with
  | assign dst e => exact hassign dst _
  | cast dst e ty => exact hassign dst _
  | load dst place => exact hassign dst (do Arena.collectAll (← m.resolve place).targets _)
  | store place src =>
      show About f k ((if ((m.exprTargets src).run a).1.isEmpty = true then _ else _ :
        Naming PointsTo).run ((m.exprTargets src).run a).2).1
      split
      · exact h
      · exact List.foldlRecOn (motive := fun m' : PointsTo => m'.About f k) _ _ h
          fun m' hm' id _ => ⟨hm'.function, hm'.maxTrackedIndex⟩
  | call dst callee args =>
      cases dst with
      | none => exact h
      | some dst =>
          show About f k (if m.isPointerVar dst then _ else m)
          split
          · exact h.addVarTargets dst _
          · exact h
  | opaqueCode touched reason =>
      exact List.foldlRecOn (motive := fun m' : PointsTo => m'.About f k) _ _ h
        fun m' hm' v _ => hm'.addVarTargets v _

theorem About.mentions {α : Type} {n : Naming α} (h : m.About f k) (hn : m.Mentions vs names n)
    (hvs : vs ⊆ f.occurrences) (hnames : names ⊆ f.fieldNames) :
    Made f k (NamingCall.Mentions f.occurrences f.fieldNames) n := by
  obtain ⟨rfl, rfl⟩ := h
  exact hn.mono hvs hnames

theorem About.round (h : m.About f k) :
    Made f k (NamingCall.Mentions f.occurrences f.fieldNames) m.round ∧
      ∀ a, (m.round.run a).1.About f k := by
  refine Made.foldlM (R := About f k) (fun m' hm' i hi => ⟨?_, hm'.propagate i⟩) h
  rw [h.function] at hi
  obtain ⟨block, hblock, hi⟩ := List.mem_flatMap.mp hi
  exact hm'.mentions (m'.propagate_mentions i)
    (List.Subset.trans (instruction_subset hi).1 (block_subset hblock).1)
    (List.Subset.trans (instruction_subset hi).2 (block_subset hblock).2)

theorem About.setUp (h : m.About f k) {e : VarId × Nat} (he : f.params[e.2]? = some e.1) :
    Made f k (NamingCall.Of f) (setUp f m e) ∧
      ∀ a, ((PointsTo.setUp f m e).run a).1.About f k := by
  rw [PointsTo.setUp]
  split
  · next pointee hty =>
    have hroot : Location.rootTy? f (.paramTarget e.2) = some pointee := by
      rw [Location.rootTy?, he, Option.bind_some, hty]
    have hcall : (NamingCall.object e.2).perform f k =
        Arena.root (.paramTarget e.2) (some pointee) := by
      rw [NamingCall.perform, hroot]
    refine ⟨.bind (hcall ▸ .call _ (.inr ⟨e.2, rfl⟩)) fun _ => .pure _, fun a => ?_⟩
    exact h.addVarTargets e.1 (.singleton ((Arena.root (.paramTarget e.2) (some pointee)).run a).1)
  · exact ⟨.pure _, fun _ => h⟩

theorem About.saturate (bits : Nat) {s : PointsTo × Arena} (h : s.1.About f k) :
    Leads f k (NamingCall.Mentions f.occurrences f.fieldNames) s.2 (saturate bits s).2 ∧
      (PointsTo.saturate bits s).1.About f k := by
  have hround (s : PointsTo × Arena) (h : s.1.About f k) := h.round
  induction s using saturate.induct bits with
  | case1 s next hgrow ih =>
      obtain ⟨hmade, hkept⟩ := hround s h
      rw [PointsTo.saturate, if_pos hgrow]
      exact ⟨(hmade s.2).trans (ih (hkept s.2)).1, (ih (hkept s.2)).2⟩
  | case2 s next hdone =>
      obtain ⟨hmade, hkept⟩ := hround s h
      rw [PointsTo.saturate, if_neg hdone]
      exact ⟨hmade s.2, hkept s.2⟩

theorem setup_leads (f : Function) (config : Config) :
    Leads f config.maxTrackedIndex (NamingCall.Of f) (.new config.maxPathDepth)
        (setup f config).2 ∧ (setup f config).1.About f config.maxTrackedIndex := by
  obtain ⟨hinitial, hkept⟩ := Made.foldlM (R := About f config.maxTrackedIndex)
    (fun m hm e he => hm.setUp (List.mem_zipIdx_iff_getElem?.mp he))
    (y := ⟨f, config.maxTrackedIndex, .empty, .empty⟩) (l := f.params.zipIdx) ⟨rfl, rfl⟩
  refine ⟨Made.bind_of (n := initial f config) hinitial hkept (fun m hm => ?_) _, hkept _⟩
  refine .bind (.forM fun block hblock => ?_) fun _ => .pure _
  exact (hm.mentions (m.registerBlock_mentions block) (block_subset hblock).1
    (block_subset hblock).2).mono fun _ hc => .inl hc

/-- The analysis names what it names by calls of its own. -/
theorem analyze_leads (f : Function) (config : Config) :
    Leads f config.maxTrackedIndex (NamingCall.Of f) (.new config.maxPathDepth)
        (analyze f config).2 ∧ (analyze f config).1.About f config.maxTrackedIndex := by
  obtain ⟨hsetup, habout⟩ := setup_leads f config
  obtain ⟨hloop, hend⟩ := habout.saturate (factBits f config)
  exact ⟨hsetup.trans (hloop.mono fun _ hc => .inl hc), hend⟩

end PointsTo

end TaintAnalysis
