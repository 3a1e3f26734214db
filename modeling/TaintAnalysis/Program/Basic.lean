import TaintAnalysis.Program.Function

/-!
# Programs

A program is the functions the analysis may see, in the order in which they were
added. No two of them have the same name, so a name stands for at most one
function; a call to any other name leaves the program.
-/

namespace TaintAnalysis

/-- The functions of one translation unit. -/
structure Program where
  /-- The functions, oldest first. -/
  functions : List Function
  /-- Each name is used once. -/
  distinct : (functions.map (·.name)).Nodup
  deriving DecidableEq

namespace Program

/-- The program without functions. -/
def empty : Program where
  functions := []
  distinct := List.nodup_nil

instance : Inhabited Program := ⟨empty⟩

/-- The names of the functions, in order. -/
def names (p : Program) : List String :=
  p.functions.map (·.name)

def function? (p : Program) (name : String) : Option Function :=
  p.functions.find? fun f => f.name = name

def contains (p : Program) (name : String) : Bool :=
  decide (name ∈ p.names)

/-- Puts a function in the place of its namesake, or at the end of a list without one. -/
def addTo (f : Function) : List Function → List Function
  | [] => [f]
  | g :: rest => if g.name = f.name then f :: rest else g :: addTo f rest

theorem names_addTo (f : Function) (fs : List Function) :
    (addTo f fs).map (·.name) =
      if f.name ∈ fs.map (·.name) then fs.map (·.name) else fs.map (·.name) ++ [f.name] := by
  induction fs with
  | nil => simp [addTo]
  | cons g rest ih =>
      by_cases h : g.name = f.name
      · simp [addTo, h]
      · have h' : ¬ f.name = g.name := fun e => h e.symm
        by_cases hr : f.name ∈ rest.map (·.name)
        · simp only [addTo, if_neg h, List.map_cons, ih, List.mem_cons, hr, or_true, if_true]
        · simp only [addTo, if_neg h, List.map_cons, ih, List.mem_cons, h', hr, or_self, if_false,
            List.cons_append]

/-- Adds a function. A function that had its name is replaced in place. -/
def add (p : Program) (f : Function) : Program where
  functions := addTo f p.functions
  distinct := by
    rw [names_addTo]
    split
    · exact p.distinct
    · next h =>
      refine List.nodup_append.2 ⟨p.distinct, by simp, ?_⟩
      intro a ha b hb hab
      rw [List.mem_singleton] at hb
      exact h (hb ▸ hab ▸ ha)

def map (p : Program) (change : Function → Function)
    (keepsName : ∀ f, (change f).name = f.name) : Program where
  functions := p.functions.map change
  distinct := by
    simpa [Function.comp_def, keepsName] using p.distinct

/-! ## The views of each operation -/

theorem names_add (p : Program) (f : Function) :
    (p.add f).names = if f.name ∈ p.names then p.names else p.names ++ [f.name] :=
  names_addTo f p.functions

/-- A function whose name is new comes last. -/
theorem functions_add {p : Program} {f : Function} (h : f.name ∉ p.names) :
    (p.add f).functions = p.functions ++ [f] := by
  show addTo f p.functions = _
  rw [names] at h
  generalize p.functions = fs at h
  induction fs with
  | nil => rfl
  | cons g rest ih =>
      rw [List.map_cons, List.mem_cons, not_or] at h
      rw [addTo, if_neg fun heq => h.1 heq.symm, ih h.2]
      rfl

@[simp] theorem names_map (p : Program) (change : Function → Function)
    (keepsName : ∀ f, (change f).name = f.name) : (p.map change keepsName).names = p.names := by
  simp [names, map, Function.comp_def, keepsName]

end Program

end TaintAnalysis
