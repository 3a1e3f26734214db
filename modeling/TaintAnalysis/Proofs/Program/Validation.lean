import TaintAnalysis.Program.WellFormed
import TaintAnalysis.Proofs.Maps

/-!
# What validation guarantees about a function

A function of a validated program declares every variable that its blocks
mention. The check is made after unreachable blocks have been dropped, so it is
a fact about the functions that the program has then.
-/

namespace TaintAnalysis

/-- One computation after another succeeds exactly where both do. -/
theorem bind_eq_ok_iff {α β ε : Type} {x : Except ε α} {g : α → Except ε β} {b : β} :
    x >>= g = .ok b ↔ ∃ a, x = .ok a ∧ g a = .ok b := by
  cases x with
  | error e => exact iff_of_false (fun h => nomatch h) fun ⟨_, h, _⟩ => nomatch h
  | ok a => exact ⟨fun h => ⟨a, rfl, h⟩, fun ⟨_, ha, h⟩ => Except.ok.inj ha ▸ h⟩

/-- A check of every element of a list succeeds exactly where each of the checks does. -/
theorem forM_eq_ok_iff {α ε : Type} {f : α → Except ε Unit} {l : List α} :
    l.forM f = .ok () ↔ ∀ x ∈ l, f x = .ok () := by
  induction l with
  | nil => exact ⟨fun _ x hx => absurd hx List.not_mem_nil, fun _ => rfl⟩
  | cons a rest ih =>
      rw [List.forall_mem_cons, ← ih]
      show (f a >>= fun _ => rest.forM f) = .ok () ↔ _
      rw [bind_eq_ok_iff]
      exact ⟨fun ⟨_, ha, h⟩ => ⟨ha, h⟩, fun ⟨ha, h⟩ => ⟨(), ha, h⟩⟩

/-- The function belongs to a program as validation returns it. -/
def Function.Validated (f : Function) : Prop :=
  ∃ (p q : Program) (config : Config), p.validate config = .ok q ∧ f ∈ q.functions

/-- Validation succeeds exactly where every check does. The flow of a function is checked before
its unreachable blocks are dropped, and everything else afterwards. -/
theorem Program.validate_eq_ok_iff {p q : Program} {config : Config} :
    p.validate config = .ok q ↔
      (∀ f ∈ p.functions, f.checkFlow config = .ok ()) ∧
      q = (if config.pruneUnreachable then p.prune else p) ∧
      (∀ f ∈ q.functions, f.checkVariables = .ok () ∧ f.checkCalls q = .ok ()) ∧
      q.checkSources config = .ok () := by
  have hboth : ∀ f : Function, (do f.checkVariables; f.checkCalls q) = .ok () ↔
      f.checkVariables = .ok () ∧ f.checkCalls q = .ok () := by
    intro f
    rw [bind_eq_ok_iff]
    exact ⟨fun ⟨_, hv, hc⟩ => ⟨hv, hc⟩, fun ⟨hv, hc⟩ => ⟨(), hv, hc⟩⟩
  simp only [← hboth]
  rw [← forM_eq_ok_iff, ← forM_eq_ok_iff, validate, bind_eq_ok_iff]
  simp only [bind_eq_ok_iff]
  constructor
  · rintro ⟨_, hflow, _, hfunctions, _, hsources, h⟩
    obtain rfl := Except.ok.inj h
    exact ⟨hflow, rfl, hfunctions, hsources⟩
  · rintro ⟨hflow, rfl, hfunctions, hsources⟩
    exact ⟨(), hflow, (), hfunctions, (), hsources, rfl⟩

theorem Program.checkVariables_of_validate {p q : Program} {config : Config} {f : Function}
    (h : p.validate config = .ok q) (hf : f ∈ q.functions) : f.checkVariables = .ok () :=
  ((validate_eq_ok_iff.mp h).2.2.1 f hf).1

theorem Instruction.mem_mentions_of_defined {i : Instruction} {v : VarId}
    (h : i.defined? = some v) : v ∈ i.mentions := by
  cases i with
  | assign dst e | cast dst e _ | load dst p =>
      exact List.mem_cons.mpr (.inl (Option.some.inj h).symm)
  | call dst callee args =>
      exact List.mem_append_left _ (List.mem_append_left _ (Option.mem_toList.mpr h))
  | store p src | opaqueCode touched reason => exact nomatch h

/-- A block of a validated function mentions only variables that the function declares. -/
theorem Function.Validated.declared {f : Function} (hf : f.Validated) {b : BlockId} {block : Block}
    (hblock : f.block? b = some block) {v : VarId} (hv : v ∈ block.mentions) :
    v < f.vars.length := by
  obtain ⟨p, q, config, hvalid, hmem⟩ := hf
  have hcheck := p.checkVariables_of_validate hvalid hmem
  have hvalue : block ∈ f.blocks.values := OrderedMap.mem_values_iff.mpr ⟨b, hblock⟩
  have hvar := forM_eq_ok_iff.mp (forM_eq_ok_iff.mp hcheck block hvalue) v hv
  rw [checkVariable] at hvar
  split at hvar
  · next hlt => exact hlt
  · exact nomatch hvar

theorem Function.Validated.declared_of_defined {f : Function} (hf : f.Validated) {b : BlockId}
    {block : Block} (hblock : f.block? b = some block) {i : Instruction}
    (hi : i ∈ block.instructions) {v : VarId} (hv : i.defined? = some v) : v < f.vars.length :=
  hf.declared hblock (List.mem_append_left _ (List.mem_flatMap.mpr
    ⟨i, hi, Instruction.mem_mentions_of_defined hv⟩))

end TaintAnalysis
