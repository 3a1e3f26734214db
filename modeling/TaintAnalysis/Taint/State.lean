import TaintAnalysis.Program.Expr
import TaintAnalysis.Taint.Value

/-!
# Taint states

The taint of every scalar variable at one point of a function. Variables are
numbered from zero and the state lists their values; a variable past the end
has no taint, and writing to it does nothing. States of different length are
joined as if the shorter one were padded with untainted variables.
-/

namespace TaintAnalysis

/-- The taint of each variable at one program point. -/
structure State where
  /-- The values of the variables, by number. -/
  vars : List Value
  deriving DecidableEq

namespace State

/-- The state of `n` untainted variables. -/
def untainted (n : Nat) : State :=
  ⟨List.replicate n Value.bottom⟩

instance : Inhabited State := ⟨untainted 0⟩

/-- The taint of one variable. -/
def get (s : State) (v : VarId) : Value :=
  s.vars.getD v Value.bottom

/-- The state with the taint of `v` replaced. -/
def set (s : State) (v : VarId) (value : Value) : State :=
  ⟨s.vars.set v value⟩

/-- The state padded with untainted variables to at least `n` of them. -/
def pad (s : State) (n : Nat) : State :=
  ⟨s.vars ++ List.replicate (n - s.vars.length) Value.bottom⟩

/-- The join of the taints of each variable. -/
def join (s t : State) : State :=
  ⟨(s.pad t.vars.length).vars.mapIdx fun i value => value.join (t.get i)⟩

/-- Whether joining `t` into `s` makes the taint of some variable larger. -/
def grows (s t : State) : Bool :=
  decide (s.join t ≠ s.pad t.vars.length)

/-- Whether every variable has in `t` all the taint it has in `s`. -/
def le (s t : State) : Bool :=
  s.vars.zipIdx.all fun p => p.1.le (t.get p.2)

instance : LE State := ⟨fun s t => s.le t = true⟩

instance (s t : State) : Decidable (s ≤ t) :=
  inferInstanceAs (Decidable (s.le t = true))

/-! ## Reading after each operation -/

@[simp] theorem get_untainted (n : Nat) (v : VarId) : (untainted n).get v = Value.bottom := by
  simp only [get, untainted, List.getD_eq_getElem?_getD, List.getElem?_replicate]
  split <;> rfl

theorem get_set (s : State) (v w : Nat) (value : Value) :
    (s.set v value).get w = if w = v ∧ v < s.vars.length then value else s.get w := by
  simp only [get, set, List.getD_eq_getElem?_getD, List.getElem?_set]
  by_cases h : v = w
  · subst h
    by_cases hl : v < s.vars.length
    · simp [hl]
    · simp [hl]
  · have h' : ¬ w = v := fun e => h e.symm
    simp [h, h']

@[simp] theorem get_pad (s : State) (n v : Nat) : (s.pad n).get v = s.get v := by
  simp only [get, pad, List.getD_eq_getElem?_getD]
  by_cases h : v < s.vars.length
  · rw [List.getElem?_append_left h]
  · rw [List.getElem?_append_right (by omega), List.getElem?_replicate,
      List.getElem?_eq_none (by omega)]
    split <;> rfl

end State

end TaintAnalysis
