import TaintAnalysis.Flow.Search
import TaintAnalysis.Program.Basic

/-!
# Call graphs

A function calls another one of the program if it names it in a call. Functions
that can call each other, over any number of calls, form a component, and a
component is recursive if a function in it can call itself. Components are
arranged in levels: a component stands one level above the highest component
that it calls, so that all callees of a level stand below it.
-/

namespace TaintAnalysis

/-- Which functions of a program call which. -/
structure CallGraph where
  /-- The callees of each function inside the program, in the order of their
  first call, by function in program order. -/
  edges : OrderedMap String (List String)
  deriving DecidableEq

/-- Functions that can call each other, or a single function. -/
structure Component where
  /-- The functions, in ascending order of their names. -/
  functions : List String
  /-- Whether some function of the component can call itself. -/
  isRecursive : Bool
  deriving DecidableEq

namespace CallGraph

def ofProgram (p : Program) : CallGraph :=
  ⟨.ofList (p.functions.map fun f => (f.name, f.callees.filter p.contains))⟩

/-- The functions, in program order. -/
def functions (g : CallGraph) : List String :=
  g.edges.keys

def nodeCount (g : CallGraph) : Nat :=
  g.edges.size

/-- How many pairs of a caller and a callee there are. -/
def edgeCount (g : CallGraph) : Nat :=
  g.edges.weight List.length

/-- The functions that a function calls, in the order of their first call. -/
def successors (g : CallGraph) (name : String) : List String :=
  (g.edges.get? name).getD []

/-- The functions that call a function, in program order. -/
def predecessors (g : CallGraph) (name : String) : List String :=
  (g.edges.entries.filter fun e => name ∈ e.2).map Prod.fst

/-- Names in ascending order. -/
def sorted (names : List String) : List String :=
  names.mergeSort fun a b => decide (a ≤ b)

/-- The functions that a function calls, in ascending order. -/
def callees (g : CallGraph) (name : String) : List String :=
  sorted (g.successors name)

/-- The functions that call a function, in ascending order. -/
def callers (g : CallGraph) (name : String) : List String :=
  sorted (g.predecessors name)

/-- The functions that a function can call over any number of calls, itself included. -/
def reachableFrom (g : CallGraph) (name : String) : List String :=
  (Search.run g.successors (g.nodeCount + 1) [name]).finished

/-- Whether two functions can call each other over any number of calls. -/
def sameComponent (g : CallGraph) (a b : String) : Bool :=
  decide (b ∈ g.reachableFrom a) && decide (a ∈ g.reachableFrom b)

def componentOf (g : CallGraph) (name : String) : Component :=
  let members := g.functions.filter (g.sameComponent name)
  { functions := sorted members
    isRecursive := decide (1 < members.length) || decide (name ∈ g.successors name) }

/-- The components, in the order of their first functions in the program. -/
def components (g : CallGraph) : List Component :=
  (g.functions.map g.componentOf).foldl (fun cs c => if c ∈ cs then cs else cs ++ [c]) []

/-- Whether every function that the component calls is in it or listed as done. -/
def isReady (g : CallGraph) (done : List String) (c : Component) : Bool :=
  c.functions.all fun f => (g.successors f).all fun h => decide (h ∈ c.functions ∨ h ∈ done)

/-- Arranges components in levels: those that are ready, and then the levels of
the others once these are done. -/
def levelsFrom (g : CallGraph) : Nat → List String → List Component → List (List Component)
  | 0, _, _ => []
  | budget + 1, done, waiting =>
      if waiting.isEmpty then []
      else
        let (ready, rest) := waiting.partition (g.isReady done)
        ready :: g.levelsFrom budget (done ++ ready.flatMap (·.functions)) rest

/-- The components by level, callees before callers. There are at most as many
levels as components. -/
def levels (g : CallGraph) : List (List Component) :=
  let components := g.components
  g.levelsFrom components.length [] components

end CallGraph

end TaintAnalysis
