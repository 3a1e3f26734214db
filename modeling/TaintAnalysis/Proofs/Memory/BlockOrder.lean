import TaintAnalysis.Proofs.Memory.Propagation

/-!
# When the order of the blocks does not matter

The pointer analysis goes through the instructions in the order of the blocks, until
a round adds nothing. What it ends with accounts for every instruction, and so does
what it ends with in any other order of the same blocks. If every instruction added
more wherever more is known, then each of the two ends would contain the other.

It does, except where an instruction follows a pointer too early: one about which
nothing is known yet, but something is at the end. What the instruction adds then
stays. So the result is independent of the order as long as the analysis never comes
to such an instruction in either order (`Settles`), and otherwise it need not be.
-/

namespace TaintAnalysis

/-- The functions differ only in the order in which their blocks are listed. -/
def Function.Reordered (f f' : Function) : Prop :=
  ∃ blocks : OrderedMap BlockId Block, blocks.entries.Perm f.blocks.entries ∧
    f' = { f with blocks := blocks }

theorem Function.Reordered.vars {f f' : Function} (h : f.Reordered f') : f'.vars = f.vars := by
  obtain ⟨blocks, -, rfl⟩ := h
  rfl

theorem Function.Reordered.symm {f f' : Function} (h : f.Reordered f') : f'.Reordered f := by
  obtain ⟨blocks, hperm, rfl⟩ := h
  exact ⟨f.blocks, hperm.symm, rfl⟩

theorem Function.Reordered.mem_instructions {f f' : Function} (h : f.Reordered f')
    {i : Instruction} : i ∈ f'.instructions ↔ i ∈ f.instructions := by
  obtain ⟨blocks, hperm, rfl⟩ := h
  exact ((hperm.map Prod.snd).flatMap_right (·.instructions)).mem_iff

namespace PathFacts

variable {m n m' : PathFacts} {i : Instruction} {v : VarId} {l t : Location}

/-! ## One instruction -/

theorem Below.isPointer_iff (h : m.Below n) : m.IsPointer v ↔ n.IsPointer v := by
  rw [IsPointer, IsPointer, h.alike.varTy?]

/-- With more facts an instruction gives more targets, if the pointers it follows are settled. -/
theorem Gives.mono (h : m.Below n) (hs : m.SettledBy n i) (hgives : m.Gives v t i) :
    n.Gives v t i := by
  have hassign {dst : VarId} {e : Expr}
      (hs : m.IsPointer dst → ∀ p ∈ e.targeted, m.SettledPath n p)
      (hgives : dst = v ∧ m.IsPointer v ∧ t ∈ m.exprTargets e) :
      dst = v ∧ n.IsPointer v ∧ t ∈ n.exprTargets e := by
    obtain ⟨rfl, hptr, ht⟩ := hgives
    exact ⟨rfl, h.isPointer_iff.mp hptr, exprTargets_mono h (hs hptr) ht⟩
  cases i with
  | assign dst e => exact hassign hs hgives
  | cast dst e ty => exact hassign hs hgives
  | load dst place =>
      obtain ⟨rfl, hptr, l, hl, ht⟩ := hgives
      obtain ⟨hpath, hcells⟩ := hs hptr
      refine ⟨rfl, h.isPointer_iff.mp hptr, l, (resolve_mono h hpath).1 hl,
        storedTargets_mono h (fun hparam => ?_) ht⟩
      exact hcells l hl (hparam.resolve_left Bool.false_ne_true)
  | store place src => exact hgives.elim
  | call dst callee args => exact ⟨hgives.1, h.isPointer_iff.mp hgives.2.1, hgives.2.2⟩
  | opaqueCode touched reason => exact ⟨hgives.1, h.isPointer_iff.mp hgives.2.1, hgives.2.2⟩

/-- The same for what it puts into memory. -/
theorem Puts.mono (h : m.Below n) (hs : m.SettledBy n i) (hputs : m.Puts l t i) :
    n.Puts l t i := by
  cases i with
  | store place src =>
      obtain ⟨hl, ht⟩ := hputs
      exact ⟨(resolve_mono h (hs.2 (List.ne_nil_of_mem ht))).1 hl, exprTargets_mono h hs.1 ht⟩
  | _ => exact hputs.elim

/-- If the facts are below others that account for an instruction, then so they are after the
instruction, provided that the pointers it follows are settled. -/
theorem Adds.below (hadds : m.Adds m' i) (h : m.Below n) (hs : m.SettledBy n i)
    (haccounts : n.Accounts i) : m'.Below n where
  alike := hadds.layout ▸ h.alike
  vars := fun v t ht => (hadds.vars v t ht).elim (h.vars v t) fun hgives =>
    haccounts.gives (hgives.mono h hs)
  held := fun l t ht => (hadds.held l t ht).elim (h.held l t) fun hputs =>
    haccounts.puts (hputs.mono h hs)

end PathFacts

namespace PointsTo

open Arena

variable {n : PathFacts} {f f' : Function} {config : Config} {s : PointsTo × Arena}
  {rest : List Instruction}

/-! ## The whole analysis -/

/-- Whenever the analysis comes to an instruction, the pointers that it follows are settled with
respect to the facts. -/
def Settles (f : Function) (config : Config) (n : PathFacts) : Prop :=
  ∀ s i rest, Pending f config s (i :: rest) →
    (s.1.pathFacts config.maxPathDepth s.2).SettledBy n i

/-- The facts have what the analysis of the function begins with, and account for every
instruction. -/
structure Encloses (n : PathFacts) (f : Function) (config : Config) : Prop where
  alike : Layout.Alike ⟨f, config.maxPathDepth, config.maxTrackedIndex⟩ n.layout
  objects : ∀ i v pointee, f.params[i]? = some v → (f.ty? v).bind Ty.pointee? = some pointee →
    ⟨.paramTarget i, []⟩ ∈ n.vars v
  accounts : ∀ i ∈ f.instructions, n.Accounts i

/-- What the analysis ends with encloses it, whatever the order of the blocks. -/
theorem finalFacts_encloses (h : f.Reordered f') (config : Config) :
    Encloses (finalFacts f config) f' config := by
  have halike : Layout.Alike ⟨f', config.maxPathDepth, config.maxTrackedIndex⟩
      (finalFacts f config).layout := by
    rw [layout_finalFacts]
    exact ⟨h.vars, rfl, rfl⟩
  have hlayout := layout_finalFacts f config
  refine ⟨halike, fun i v pointee hparam hty => ?_, fun i hi =>
    finalFacts_accounts f config (h.mem_instructions.mp hi)⟩
  have hparams := halike.params
  have hvarTy := halike.varTy? v
  rw [hlayout] at hparams hvarTy
  exact paramTarget_mem config (hparams ▸ hparam) (hvarTy ▸ hty)

/-- The analysis stays below facts that enclose it, as long as the pointers it follows are
settled with respect to them. -/
theorem pending_below (hn : Encloses n f config) (hs : Settles f config n)
    (h : Pending f config s rest) : (s.1.pathFacts config.maxPathDepth s.2).Below n := by
  refine h.invariant (P := fun m => m.Below n) (fun m hlayout hinitial => ?_)
    fun s i rest hpending hi hbelow m' hadds =>
      hadds.below hbelow (hs s i rest hpending) (hn.accounts i hi)
  refine ⟨hlayout ▸ hn.alike, fun v t ht => ?_, fun l t ht => absurd ht (hinitial.held l t)⟩
  obtain ⟨i, pointee, hparam, hty, rfl⟩ := hinitial.vars v t ht
  rw [hlayout] at hparam hty
  exact hn.objects i v pointee hparam hty

theorem finalFacts_below (hn : Encloses n f config) (hs : Settles f config n) :
    (finalFacts f config).Below n :=
  pending_below hn hs (pending_analyze f config)

/-! ## Any order of the blocks -/

/-- Where a place leads at the end of the analysis, by path. -/
def resolution (f : Function) (config : Config) (place : Place) : PathResolution :=
  let last := analyze f config
  let found := (last.1.resolve place).run last.2
  { targets := found.1.targets.elems.map found.2.location
    pointerCells := found.1.pointerCells.elems.map found.2.location
    derefsBase := found.1.derefsBase }

theorem resolution_eq (f : Function) (config : Config) (place : Place) :
    (∀ l, l ∈ (resolution f config place).targets ↔
      l ∈ ((finalFacts f config).resolve place).targets) ∧
    (∀ l, l ∈ (resolution f config place).pointerCells ↔
      l ∈ ((finalFacts f config).resolve place).pointerCells) ∧
    (resolution f config place).derefsBase =
      ((finalFacts f config).resolve place).derefsBase := by
  obtain ⟨-, htargets, hcells, hbase, -⟩ := resolve_found (analyze_advances f config).ready place
  exact ⟨fun l => List.mem_map.trans (htargets.2 l).symm,
    fun l => List.mem_map.trans (hcells.2 l).symm, hbase⟩

/-- In either order of the blocks every variable may point to the same locations and every place
leads to the same locations, as long as in both orders each pointer that the analysis follows
while nothing is known about it is one about which nothing is known at the end. -/
theorem analyze_reordered (h : f.Reordered f') (config : Config)
    (hs : Settles f config (finalFacts f config)) (hs' : Settles f' config (finalFacts f config)) :
    (∀ v t, t ∈ (finalFacts f config).vars v ↔ t ∈ (finalFacts f' config).vars v) ∧
    ∀ place,
      (∀ l, l ∈ (resolution f config place).targets ↔ l ∈ (resolution f' config place).targets) ∧
      (∀ l, l ∈ (resolution f config place).pointerCells ↔
        l ∈ (resolution f' config place).pointerCells) ∧
      (resolution f config place).derefsBase = (resolution f' config place).derefsBase := by
  have hbelow' : (finalFacts f' config).Below (finalFacts f config) :=
    finalFacts_below (finalFacts_encloses h config) hs'
  -- what is settled with respect to one end is so with respect to the other, which is below it
  have hbelow : (finalFacts f config).Below (finalFacts f' config) :=
    finalFacts_below (finalFacts_encloses h.symm config) fun s i rest hpending =>
      (hs s i rest hpending).of_below hbelow'
  refine ⟨fun v t => ⟨hbelow.vars v t, hbelow'.vars v t⟩, fun place => ?_⟩
  obtain ⟨htargets, hcells, hbase⟩ := resolution_eq f config place
  obtain ⟨htargets', hcells', hbase'⟩ := resolution_eq f' config place
  obtain ⟨hto, hto', heq⟩ :=
    PathFacts.resolve_mono hbelow (PathFacts.settledPath_of_below hbelow' place)
  obtain ⟨hfrom, hfrom', -⟩ :=
    PathFacts.resolve_mono hbelow' (PathFacts.settledPath_of_below hbelow place)
  refine ⟨fun l => ?_, fun l => ?_, ?_⟩
  · rw [htargets, htargets']
    exact ⟨(hto ·), (hfrom ·)⟩
  · rw [hcells, hcells']
    exact ⟨(hto' ·), (hfrom' ·)⟩
  · rw [hbase, hbase', heq]

end PointsTo

/-! ## A pointer that is stored and loaded -/

/-- A function that stores the parameter `q` into an array, loads it from there, and stores what
it has loaded through the parameter `pp`. -/
def relaying (order : List BlockId) : Function where
  name := "relaying"
  returns := .void
  vars :=
    [⟨"pp", .pointer (.pointer (.int 32)), .param⟩, ⟨"q", .pointer (.int 32), .param⟩,
      ⟨"slots", .array (.pointer (.int 32)) (some 2), .local⟩,
      ⟨"r", .pointer (.int 32), .local⟩]
  blocks := .ofList <| order.map fun
    | 0 => (0, ⟨[], .jump 1⟩)
    | 1 => (1, ⟨[.store (.index (.var 2) (.const 0)) (.var 1)], .jump 2⟩)
    | b => (b, ⟨[.load 3 (.index (.var 2) (.const 0)), .store (.deref (.var 0)) (.var 3)],
        .ret none⟩)
  entry := 0
  nextBlock := 3

/-- The only pointer that the function follows is its parameter. -/
theorem settles_relaying {order : List BlockId}
    (hinstructions : ∀ i ∈ (relaying order).instructions,
      i = .store (.index (.var 2) (.const 0)) (.var 1) ∨
      i = .load 3 (.index (.var 2) (.const 0)) ∨ i = .store (.deref (.var 0)) (.var 3))
    (n : PathFacts) : PointsTo.Settles (relaying order) .standard n := by
  intro s i rest hpending
  have hfunction := hpending.function
  have hslots : ¬ (s.1.pathFacts Config.standard.maxPathDepth s.2).IsPointer 2 := by
    rw [PointsTo.isPointer_iff, PointsTo.isPointerVar, hfunction]
    exact Bool.false_ne_true
  obtain rfl | rfl | rfl := hinstructions i (hpending.mem_instructions i List.mem_cons_self)
  · exact ⟨fun p hp => absurd hp List.not_mem_nil, fun _ => PathFacts.settledPath_index_var hslots⟩
  · refine fun _ => ⟨PathFacts.settledPath_index_var hslots, fun l hl hparam => ?_⟩
    have hroot : l = (s.1.layout Config.standard.maxPathDepth).element ⟨.variable 2, []⟩
        (PointsTo.constantIndex (.const 0)) := by
      rw [PathFacts.resolve, PathFacts.follow_index_var hslots] at hl
      exact List.mem_singleton.mp hl
    rw [PointsTo.layout, hfunction] at hroot
    subst hroot
    exact absurd hparam Bool.false_ne_true
  · refine ⟨fun p hp => absurd hp List.not_mem_nil, fun _ => ?_⟩
    exact PathFacts.settledPath_deref_var (hpending.settledVar (i := 0) rfl rfl)

theorem relaying_reordered : (relaying [0, 1, 2]).Reordered (relaying [0, 2, 1]) :=
  ⟨(relaying [0, 2, 1]).blocks, by decide, rfl⟩

/-- The load finds the parameter in the array, whether or not it is listed after the store. -/
theorem analyze_reordered_relaying :
    (relaying [0, 1, 2]).Reordered (relaying [0, 2, 1]) ∧
    ⟨.paramTarget 1, []⟩ ∈ (PointsTo.finalFacts (relaying [0, 2, 1]) .standard).vars 3 := by
  obtain ⟨hvars, -⟩ := PointsTo.analyze_reordered relaying_reordered .standard
    (settles_relaying (by decide) _) (settles_relaying (by decide) _)
  exact ⟨relaying_reordered, (hvars 3 _).mp (by decide_cbv)⟩

/-! ## A list that is linked -/

/-- A function that makes the node `q` the next one of the node `p`, and then goes on to the next
node of `p`. -/
def linking (order : List BlockId) : Function where
  name := "list"
  returns := .void
  vars :=
    [⟨"p", .pointer (.struct "node"), .param⟩, ⟨"q", .pointer (.struct "node"), .param⟩,
      ⟨"r", .pointer (.struct "node"), .local⟩]
  blocks := .ofList <| order.map fun
    | 0 => (0, ⟨[], .jump 1⟩)
    | 1 => (1, ⟨[.store (.field (.deref (.var 0)) "next") (.var 1)], .jump 2⟩)
    | b => (b, ⟨[.load 2 (.field (.deref (.var 0)) "next")], .ret none⟩)
  entry := 0
  nextBlock := 3

/-- If the load is listed before the store, it comes at a time when nothing is known to be stored
in the node, and `r` may also refer to the object of `p`. -/
theorem linking_reordered :
    (linking [0, 1, 2]).Reordered (linking [0, 2, 1]) ∧
      (PointsTo.finalFacts (linking [0, 1, 2]) .standard).vars 2 = [⟨.paramTarget 1, []⟩] ∧
      ⟨.paramTarget 0, []⟩ ∈ (PointsTo.finalFacts (linking [0, 2, 1]) .standard).vars 2 ∧
      ⟨.paramTarget 0, []⟩ ∈
        (PointsTo.resolution (linking [0, 2, 1]) .standard (.deref (.var 2))).targets ∧
      ⟨.paramTarget 0, []⟩ ∉
        (PointsTo.resolution (linking [0, 1, 2]) .standard (.deref (.var 2))).targets := by
  have hreordered : (linking [0, 1, 2]).Reordered (linking [0, 2, 1]) :=
    ⟨(linking [0, 2, 1]).blocks, by decide, rfl⟩
  refine ⟨hreordered, ?_, ?_, ?_, ?_⟩ <;> decide_cbv

end TaintAnalysis
