import Mathlib
import TaintAnalysis.Proofs.Memory.NamingCalls

/-!
# The locations that can be named

How long the pointer analysis may go on is a matter of how many facts there are, and
so of how many locations it can name. A location that it names begins at a variable
that occurs in the function, at what a parameter refers to, or in unknown memory. Its
path is not longer than the configuration allows, and every step of it is a field that
occurs in the function or an index: the summary of all elements, or a number that a
word of 64 bits can hold.

`Stays` says of a computation that it names no other locations. Each call by which the
analysis names a location has this property: the location it starts from is named, and
it extends it by a step that is allowed. Counting the locations is then a matter of
counting roots and paths.
-/

namespace TaintAnalysis

variable {f : Function} {D : Nat}

/-- The root is one that the function can mention. Only parameters that refer to something have an
object. -/
def Root.Nameable (f : Function) : Root → Prop
  | .variable v => v ∈ f.occurrences
  | .paramTarget i => (Location.rootTy? f (.paramTarget i)).isSome = true
  | .unknown => True

theorem Root.Nameable.lt_params {i : Nat} (h : (Root.paramTarget i).Nameable f) :
    i < f.params.length := by
  obtain ⟨ty, hty⟩ := Option.isSome_iff_exists.mp h
  obtain ⟨v, hv, -⟩ := Option.bind_eq_some_iff.mp hty
  exact (List.getElem?_eq_some_iff.mp hv).1

/-- The step is one that the function can mention. -/
def Step.Nameable (f : Function) : Step → Prop
  | .index none => True
  | .index (some i) => i < 2 ^ 63
  | .field name => name ∈ f.fieldNames

/-- The location is one that the function can mention. -/
structure Location.Nameable (f : Function) (D : Nat) (l : Location) : Prop where
  root : l.root.Nameable f
  path : ∀ step ∈ l.path, step.Nameable f
  depth : l.path.length ≤ D

/-- The variables and fields of a place occur in the function. -/
structure Place.Within (f : Function) (p : Place) : Prop where
  vars : ∀ v ∈ p.occurrences, v ∈ f.occurrences
  fields : ∀ name ∈ p.fieldNames, name ∈ f.fieldNames

/-- The variables and fields of an expression occur in the function. -/
structure Expr.Within (f : Function) (e : Expr) : Prop where
  vars : ∀ v ∈ e.occurrences, v ∈ f.occurrences
  fields : ∀ name ∈ e.fieldNames, name ∈ f.fieldNames

theorem Expr.Within.left {op : BinOp} {l r : Expr} (h : (Expr.binary op l r).Within f) :
    l.Within f :=
  ⟨fun v hv => h.vars v (List.mem_append_left _ hv),
    fun name hname => h.fields name (List.mem_append_left _ hname)⟩

theorem Expr.Within.right {op : BinOp} {l r : Expr} (h : (Expr.binary op l r).Within f) :
    r.Within f :=
  ⟨fun v hv => h.vars v (List.mem_append_right _ hv),
    fun name hname => h.fields name (List.mem_append_right _ hname)⟩

/-- The variables and fields of an instruction occur in the function. -/
structure Instruction.Within (f : Function) (i : Instruction) : Prop where
  place : ∀ p, i.place? = some p → p.Within f
  operands : ∀ e ∈ i.operands, e.Within f

theorem Instruction.Within.of_mem {block : Block} {i : Instruction}
    (hblock : block ∈ f.blocks.values) (hi : i ∈ block.instructions) : i.Within f := by
  have hvars := List.Subset.trans (PointsTo.instruction_subset hi).1
    (PointsTo.block_subset hblock).1
  have hfields := List.Subset.trans (PointsTo.instruction_subset hi).2
    (PointsTo.block_subset hblock).2
  exact
    { place := fun p hp => ⟨List.Subset.trans (PointsTo.place_subset hp).1 hvars,
        List.Subset.trans (PointsTo.place_subset hp).2 hfields⟩
      operands := fun e he => ⟨List.Subset.trans (PointsTo.operand_subset he).1 hvars,
        List.Subset.trans (PointsTo.operand_subset he).2 hfields⟩ }

theorem Expr.Within.of_terminator {block : Block} {e : Expr} (hblock : block ∈ f.blocks.values)
    (he : block.terminator.operand? = some e) : e.Within f :=
  ⟨List.Subset.trans (PointsTo.terminator_subset he).1 (PointsTo.block_subset hblock).1,
    List.Subset.trans (PointsTo.terminator_subset he).2 (PointsTo.block_subset hblock).2⟩

theorem Step.nameable_summary : (Step.index none).Nameable f :=
  trivial

theorem Location.nameable_unknown : Location.unknown.Nameable f D :=
  ⟨trivial, fun _ h => absurd h List.not_mem_nil, Nat.zero_le D⟩

theorem Location.nameable_root {r : Root} (h : r.Nameable f) : Location.Nameable f D ⟨r, []⟩ :=
  ⟨h, fun _ h => absurd h List.not_mem_nil, Nat.zero_le D⟩

namespace Arena

/-- Every location in the arena is one that the function can mention. -/
structure Inside (f : Function) (D : Nat) (a : Arena) : Prop where
  depth : a.maxDepth = D
  nameable : ∀ n ∈ a.named, n.location.Nameable f D

theorem inside_new : Inside f D (new D) where
  depth := rfl
  nameable := fun _ hn => List.mem_singleton.mp hn ▸ Location.nameable_unknown

theorem Inside.location {a : Arena} (h : Inside f D a) (id : LocId) :
    (a.location id).Nameable f D := by
  rw [Arena.location]
  cases hget : a.named[id]? with
  | none => exact Location.nameable_unknown
  | some n => exact h.nameable n (List.mem_of_getElem? hget)

/-- The computation names only locations that the function can mention. -/
def Stays {α : Type} (f : Function) (D : Nat) (n : Naming α) : Prop :=
  ∀ a, Inside f D a → Inside f D (n.run a).2

theorem Stays.pure {α : Type} (x : α) : Stays f D (Pure.pure x : Naming α) :=
  fun _ h => h

/-- What follows may rely on the arena that it has looked at. -/
theorem Stays.get_bind {α : Type} {k : Arena → Naming α}
    (hk : ∀ a, Inside f D a → Stays f D (k a)) : Stays f D (MonadState.get >>= k) :=
  fun a h => hk a h a h

/-! ## Steps between locations -/

theorem intern_stays {l : Location} (hl : l.Nameable f D) (ty : Option Ty) :
    Stays f D (intern l ty) := by
  intro a h
  rw [StateT.run, intern]
  split
  · exact h
  · refine ⟨h.depth, fun n hn => ?_⟩
    rcases List.mem_append.mp hn with hold | hnew
    · exact h.nameable n hold
    · rw [List.mem_singleton.mp hnew]
      exact hl

theorem root_stays {r : Root} (hr : r.Nameable f) (ty : Option Ty) : Stays f D (root r ty) := by
  rw [root]
  split
  · exact .pure _
  · exact intern_stays (Location.nameable_root hr) ty

theorem child_stays (id : LocId) {step : Step} (hstep : step.Nameable f) (ty : Option Ty) :
    Stays f D (child id step ty) := by
  refine .get_bind fun a h => ?_
  show Stays f D (if (a.location id).isUnknown || decide (a.maxDepth ≤ (a.location id).path.length)
    then Pure.pure id else intern ((a.location id).extend step) ty)
  split
  · exact .pure _
  · next hdepth =>
    have hl := h.location id
    refine intern_stays (l := (a.location id).extend step) ⟨hl.root, fun s hs => ?_, ?_⟩ ty
    · rcases List.mem_append.mp hs with hold | hnew
      · exact hl.path s hold
      · exact List.mem_singleton.mp hnew ▸ hstep
    · rw [Bool.or_eq_true, not_or, decide_eq_true_eq, h.depth] at hdepth
      rw [Location.extend, List.length_append, List.length_singleton]
      omega

/-- Indices are words of 64 bits. -/
def IsWord (index : Option Int) : Prop :=
  ∀ i, index = some i → i < 2 ^ 63

theorem element_stays (k : Nat) (id : LocId) {index : Option Int} (hindex : IsWord index) :
    Stays f D (element k id index) := by
  refine .get_bind fun a h => ?_
  cases index with
  | none => exact child_stays id Step.nameable_summary _
  | some i =>
      have hword : (Step.index (some i.toNat)).Nameable f := by
        have hi := hindex i rfl
        show i.toNat < 2 ^ 63
        omega
      simp only []
      split
      · exact .pure _
      · split
        · split
          · exact .pure _
          · exact child_stays id hword _
        · split
          · exact child_stays id Step.nameable_summary _
          · exact child_stays id hword _

theorem isWord_none : IsWord none :=
  fun _ h => absurd h.symm (Option.some_ne_none _)

theorem isWord_addOffset (i : Nat) (offset : Int) : IsWord (addOffset i offset) := by
  intro sum hsum
  rw [addOffset] at hsum
  split at hsum
  · next hle =>
    rw [← Option.some.inj hsum]
    have hmax : Int64.maxValue.toInt = 2 ^ 63 - 1 := rfl
    omega
  · exact absurd hsum.symm (Option.some_ne_none _)

theorem isWord_toInt (index : Option Int64) : IsWord (index.map Int64.toInt) := by
  intro i hi
  obtain ⟨n, -, rfl⟩ := Option.map_eq_some_iff.mp hi
  exact n.toInt_lt

theorem shifted_stays (k : Nat) (id : LocId) : Stays f D (shifted k id) := by
  refine .get_bind fun a h => ?_
  split
  · exact child_stays _ Step.nameable_summary _
  · exact element_stays k id isWord_none

theorem offset_stays (k : Nat) (id : LocId) {index : Option Int} (hindex : IsWord index) :
    Stays f D (offset k id index) := by
  refine .get_bind fun a h => ?_
  split
  · split
    · exact .pure _
    · exact element_stays k _ (isWord_addOffset _ _)
    · exact child_stays _ Step.nameable_summary _
  · exact element_stays k id hindex

end Arena

/-! ## The analysis -/

open Arena

/-- A call on behalf of a text in the function names a location that the function can mention,
whatever the types of the variables and wherever indices cease to be kept apart. -/
theorem NamingCall.stays {c : NamingCall} (hc : c.Mentions f.occurrences f.fieldNames)
    (g : Function) (k : Nat) : Stays f D (c.perform g k) := by
  cases c with
  | storage v => exact root_stays (r := .variable v) hc _
  | object i => exact absurd hc id
  | fallback id =>
      refine .get_bind fun a h => ?_
      split
      · next i hi =>
        -- the location lies in the object of the parameter, so the function has the parameter
        exact root_stays (Location.root_of_param? hi ▸ (h.location id).root) none
      · exact .pure _
  | field id name =>
      have hname : (Step.field name).Nameable f := hc
      exact child_stays id hname none
  | element id index => exact element_stays k id (isWord_toInt index)
  | shifted id => exact shifted_stays k id
  | offset id index => exact offset_stays k id (isWord_toInt index)

theorem NamingCall.stays_of {c : NamingCall} (hc : c.Of f) (k : Nat) :
    Stays f D (c.perform f k) := by
  rcases hc with hc | ⟨i, rfl⟩
  · exact c.stays hc f k
  · rw [NamingCall.perform]
    split
    · next ty hty =>
      exact root_stays (r := .paramTarget i) (Option.isSome_iff_exists.mpr ⟨ty, hty⟩) _
    · exact .pure _

theorem Arena.Stays.of_made {α : Type} {n : Naming α} {g : Function} {k : Nat}
    (hn : Made g k (NamingCall.Mentions f.occurrences f.fieldNames) n) : Stays f D n :=
  fun a h => (hn a).keeps (fun c hc b hb => c.stays hc g k b hb) h

namespace PointsTo

variable {m : PointsTo} {p : Place}

theorem resolve_stays (hp : p.Within f) : Stays f D (m.resolve p) :=
  .of_made ((m.resolve_mentions p).mono hp.vars hp.fields)

theorem exprTargets_stays (e : Expr) (he : e.Within f) : Stays f D (m.exprTargets e) :=
  .of_made ((m.exprTargets_mentions e).mono he.vars he.fields)

theorem round_stays (h : m.function = f) : Stays f D m.round :=
  .of_made (About.round ⟨h, rfl⟩).1

theorem setup_inside (f : Function) (config : Config) :
    Inside f config.maxPathDepth (setup f config).2 :=
  (setup_leads f config).1.keeps (fun c hc a ha => c.stays_of hc _ a ha) inside_new

theorem analyze_inside (f : Function) (config : Config) :
    Inside f config.maxPathDepth (analyze f config).2 :=
  (analyze_leads f config).1.keeps (fun c hc a ha => c.stays_of hc _ a ha) inside_new

end PointsTo

end TaintAnalysis
