import TaintAnalysis.OrderedMap
import TaintAnalysis.Taint.Value

/-!
# Function summaries

A summary says, over a function's own formal parameters, what its result
depends on and what it writes through its pointer parameters into the memory of
its caller. A call site rewrites both with `Value.substitute`.

Writes are listed by parameter, in ascending order. A parameter may be listed
with no taint at all; comparing and joining treat such an entry like a missing
one.
-/

namespace TaintAnalysis

/-- How a function's parameters flow to its effects. -/
structure Summary where
  /-- What the returned value depends on. -/
  returned : Value
  /-- For each listed parameter, the taint written through it, by ascending parameter. -/
  outs : List (Nat × Value)
  /-- Each parameter is listed once, in its place. -/
  ascending : (outs.map Prod.fst).Pairwise (· < ·)
  deriving DecidableEq

namespace Summary

/-- The parameters that are listed as written through. -/
def outParams (s : Summary) : IdSet :=
  ⟨s.outs.map Prod.fst, s.ascending⟩

/-- The taint listed as written through parameter `i`. -/
def out? (s : Summary) (i : Nat) : Option Value :=
  s.outs.lookup i

/-- The taint written through parameter `i`. -/
def out (s : Summary) (i : Nat) : Value :=
  (s.out? i).getD Value.bottom

/-- The summary with the given result that lists `f i` for each `i` of `params`. -/
def tabulate (returned : Value) (params : IdSet) (f : Nat → Value) : Summary where
  returned := returned
  outs := params.elems.map fun i => (i, f i)
  ascending := by
    rw [List.map_map]
    simpa [Function.comp_def] using params.ascending

/-- The summary of a function without effects. -/
def empty : Summary :=
  tabulate Value.bottom .empty fun _ => Value.bottom

instance : Inhabited Summary := ⟨empty⟩

/-- Whether `s` has everything that `t` has. -/
def covers (s t : Summary) : Bool :=
  t.returned.le s.returned && t.outs.all fun e => e.2.le (s.out e.1)

/-- The effects of both summaries. -/
def join (s t : Summary) : Summary :=
  tabulate (s.returned.join t.returned)
    (s.outParams ∪ .ofList ((t.outs.filter fun e => !e.2.isBottom).map Prod.fst))
    fun i => (s.out i).join (t.out i)

/-- Whether joining `t` into `s` makes `s` larger. -/
def grows (s t : Summary) : Bool :=
  decide (s.join t ≠ s)

end Summary

/-- What is known about a function that others call. -/
inductive CalleeSummary where
  /-- The function was analyzed. -/
  | ready (summary : Summary)
  /-- The analysis of the function failed; call sites treat it as unknown code. -/
  | failed
  deriving DecidableEq

/-- The summaries visible to the function in hand. -/
abbrev SummaryTable := OrderedMap String CalleeSummary

namespace SummaryTable

/-- The summary of a function that was analyzed. -/
def ready? (table : SummaryTable) (name : String) : Option Summary :=
  match table.get? name with
  | some (.ready summary) => some summary
  | _ => none

end SummaryTable

end TaintAnalysis
