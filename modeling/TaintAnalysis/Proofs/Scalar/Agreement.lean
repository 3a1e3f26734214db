import TaintAnalysis.Proofs.Program.Addresses
import TaintAnalysis.Proofs.Scalar.Meaning
import TaintAnalysis.Proofs.Solver.Monotone

/-!
# Straight-line code keeps valuations in agreement

Two valuations agree, as far as a taint state is concerned, if they give the same
value to every variable in which the source of interest does not occur. The
equations keep it that way: an expression without the source reads only
variables without it, and a variable without it after an assignment was assigned
the value of such an expression.

Where the surroundings have the source, the same equations say more: what is
assigned there has the source, so a variable without it has not been assigned at
all. This needs no second valuation.
-/

namespace TaintAnalysis

/-- The valuations differ only in variables in which the source occurs. -/
def Agrees {V : Type} (i : SourceId) (s : State) (ρ ρ' : Valuation V) : Prop :=
  ∀ v, Value.Clean i (s.get v) → ρ v = ρ' v

variable {V : Type} {m : Meaning V} {i : SourceId} {S : Storage} {c : Cells} {s t : State}
  {ρ ρ' ρ₁ ρ₁' : Valuation V} {p : Problem} {around : Surroundings} {instr : Instruction}

theorem Agrees.mono (h : Agrees i s ρ ρ') (hst : s ≤ t) : Agrees i t ρ ρ' := fun v hv =>
  h v (hv.of_le (State.le_iff.mp hst v))

theorem clean_of_valueOfVar {v : VarId} (h : Value.Clean i (S.valueOfVar c s v)) :
    Value.Clean i (s.get v) := by
  rw [Storage.valueOfVar] at h
  split at h
  · exact (Value.clean_join.mp h).1
  · exact h

/-- Expressions without the source have the same value. -/
theorem Agrees.eval (h : Agrees i s ρ ρ') : ∀ e : Expr, e.addressed = [] →
    Value.Clean i (S.value c s e) → m.eval ρ e = m.eval ρ' e
  | .var v, _, hclean => h v (clean_of_valueOfVar (by rwa [Storage.value] at hclean))
  | .const _, _, _ => rfl
  | .unary op e, hfree, hclean => by
      rw [Storage.value] at hclean
      rw [Meaning.eval, Meaning.eval, h.eval e hfree hclean]
  | .binary op l r, hfree, hclean => by
      rw [Storage.value, Value.clean_join] at hclean
      rw [Expr.addressed, List.append_eq_nil_iff] at hfree
      rw [Meaning.eval, Meaning.eval, h.eval l hfree.1 hclean.1, h.eval r hfree.2 hclean.2]
  | .addrOf place, hfree, _ => by
      rw [Expr.addressed] at hfree
      exact nomatch hfree

/-! ## One instruction -/

/-- An instruction that has a meaning gives one variable a value that depends on one expression,
in the valuation as in the taint state. -/
theorem exec_cases (h : m.exec ρ instr = some ρ₁) : ∃ dst e, ∃ g : V → V,
    (g = id ∨ ∃ ty, g = m.cast ty) ∧
      (∀ ρ, m.exec ρ instr = some (Function.update ρ dst (g (m.eval ρ e)))) ∧
      dst ∈ instr.mentions ∧ (instr.addressed = [] → e.addressed = []) ∧
      ∀ p S c around s, (Problem.outcome p S c around s instr).1 =
        s.set dst (((S.value c s e).join around.control).join around.widening) := by
  have hfree : ∀ e : Expr, [e].flatMap Expr.addressed = [] → e.addressed = [] := fun e he =>
    List.flatMap_eq_nil_iff.mp he e (List.mem_singleton.mpr rfl)
  cases instr with
  | assign dst e =>
      exact ⟨dst, e, id, .inl rfl, fun _ => rfl, List.mem_cons_self, hfree e,
        fun _ _ _ _ _ => rfl⟩
  | cast dst e ty =>
      exact ⟨dst, e, m.cast ty, .inr ⟨ty, rfl⟩, fun _ => rfl, List.mem_cons_self, hfree e,
        fun _ _ _ _ _ => rfl⟩
  | load dst place => exact nomatch h
  | store place src => exact nomatch h
  | call dst callee args => exact nomatch h
  | opaqueCode vars reason => exact nomatch h

theorem Agrees.exec (h : Agrees i s ρ ρ') (hfree : instr.addressed = [])
    (hdeclared : ∀ v ∈ instr.mentions, v < s.vars.length) (hρ : m.exec ρ instr = some ρ₁)
    (hρ' : m.exec ρ' instr = some ρ₁') : Agrees i (p.outcome S c around s instr).1 ρ₁ ρ₁' := by
  obtain ⟨dst, e, g, -, hexec, hdst, hexpr, houtcome⟩ := exec_cases hρ
  obtain rfl := Option.some.inj ((hexec ρ).symm.trans hρ)
  obtain rfl := Option.some.inj ((hexec ρ').symm.trans hρ')
  intro v hv
  rw [houtcome, State.get_set] at hv
  by_cases hvd : v = dst
  · subst hvd
    rw [if_pos ⟨rfl, hdeclared v hdst⟩, Value.clean_join, Value.clean_join] at hv
    rw [Function.update_self, Function.update_self, h.eval e (hexpr hfree) hv.1.1]
  · rw [if_neg fun hset => hvd hset.1] at hv
    rw [Function.update_of_ne hvd, Function.update_of_ne hvd]
    exact h v hv

/-- Where the surroundings have the source, variables without it are not assigned. -/
theorem exec_untouched (hcontrol : ¬ Value.Clean i around.control)
    (hdeclared : ∀ v ∈ instr.mentions, v < s.vars.length) (hρ : m.exec ρ instr = some ρ₁)
    {v : VarId} (hv : Value.Clean i ((p.outcome S c around s instr).1.get v)) :
    Value.Clean i (s.get v) ∧ ρ₁ v = ρ v := by
  obtain ⟨dst, e, g, -, hexec, hdst, -, houtcome⟩ := exec_cases hρ
  obtain rfl := Option.some.inj ((hexec ρ).symm.trans hρ)
  rw [houtcome, State.get_set] at hv
  by_cases hvd : v = dst
  · rw [if_pos ⟨hvd, hdeclared dst hdst⟩, Value.clean_join, Value.clean_join] at hv
    exact absurd hv.1.2 hcontrol
  · rw [if_neg fun hset => hvd hset.1] at hv
    exact ⟨hv, Function.update_of_ne hvd _ _⟩

/-! ## The instructions of a block -/

variable {is : List Instruction}

theorem Agrees.execAll (h : Agrees i s ρ ρ') (hfree : ∀ instr ∈ is, instr.addressed = [])
    (hdeclared : ∀ instr ∈ is, ∀ v ∈ instr.mentions, v < s.vars.length)
    (hρ : is.foldlM m.exec ρ = some ρ₁) (hρ' : is.foldlM m.exec ρ' = some ρ₁') :
    Agrees i (p.outcomes S c around s is).1 ρ₁ ρ₁' := by
  induction is generalizing s ρ ρ' with
  | nil =>
      obtain rfl := Option.some.inj hρ
      obtain rfl := Option.some.inj hρ'
      exact h
  | cons instr rest ih =>
      obtain ⟨ρ₂, hfirst, hrest⟩ := Option.bind_eq_some_iff.mp hρ
      obtain ⟨ρ₂', hfirst', hrest'⟩ := Option.bind_eq_some_iff.mp hρ'
      have hstep : Agrees i (p.outcome S c around s instr).1 ρ₂ ρ₂' :=
        h.exec (hfree instr List.mem_cons_self) (hdeclared instr List.mem_cons_self)
          hfirst hfirst'
      have hlater : ∀ x ∈ rest, ∀ v ∈ x.mentions,
          v < (p.outcome S c around s instr).1.vars.length := by
        intro x hx v hv
        rw [Problem.length_outcome]
        exact hdeclared x (List.mem_cons_of_mem instr hx) v hv
      exact ih hstep (fun x hx => hfree x (List.mem_cons_of_mem instr hx)) hlater hrest hrest'

theorem execAll_untouched (hcontrol : ¬ Value.Clean i around.control)
    (hdeclared : ∀ instr ∈ is, ∀ v ∈ instr.mentions, v < s.vars.length)
    (hρ : is.foldlM m.exec ρ = some ρ₁) {v : VarId}
    (hv : Value.Clean i ((p.outcomes S c around s is).1.get v)) :
    Value.Clean i (s.get v) ∧ ρ₁ v = ρ v := by
  induction is generalizing s ρ with
  | nil =>
      obtain rfl := Option.some.inj hρ
      exact ⟨hv, rfl⟩
  | cons instr rest ih =>
      obtain ⟨ρ₂, hfirst, hrest⟩ := Option.bind_eq_some_iff.mp hρ
      have hlater : ∀ x ∈ rest, ∀ v ∈ x.mentions,
          v < (p.outcome S c around s instr).1.vars.length := by
        intro x hx v hv
        rw [Problem.length_outcome]
        exact hdeclared x (List.mem_cons_of_mem instr hx) v hv
      obtain ⟨hmid, hsame⟩ := ih hlater hrest hv
      obtain ⟨hclean, hsame'⟩ := exec_untouched hcontrol (hdeclared instr List.mem_cons_self)
        hfirst hmid
      exact ⟨hclean, hsame.trans hsame'⟩

end TaintAnalysis
