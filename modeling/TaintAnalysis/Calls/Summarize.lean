import TaintAnalysis.Calls.Graph
import TaintAnalysis.Solver.Run

/-!
# Summaries of all functions

The functions of a program are analyzed level by level, so that the summaries of
all callees outside of a component are known when it is analyzed. A recursive
component starts from summaries without effects and is analyzed in passes, in
which later functions already see what earlier ones learned, until a pass adds
nothing.

A component that does not converge fails as a whole; its callers treat it as
unknown code, and everything else is analyzed all the same.
-/

namespace TaintAnalysis

/-- What came of the analysis of one function. -/
abbrev Outcome := Except NonConvergence FunctionResult

namespace Component

/-- The analysis of one function against a table of summaries. -/
def analyzeFunction (p : Program) (config : Config) (table : SummaryTable) (peers : List String)
    (name : String) : Option Outcome :=
  (p.function? name).map fun f => (Run.ofFunction f config table peers).result

/-- The state of a pass over a recursive component. -/
structure Pass where
  table : SummaryTable
  /-- Whether some summary grew. -/
  changed : Bool
  results : List (String × FunctionResult)

/-- Analyzes one function in the course of a pass and joins its summary into the table. -/
def passStep (p : Program) (config : Config) (c : Component) (pass : Pass) (name : String) :
    Except NonConvergence Pass :=
  match analyzeFunction p config pass.table c.functions name with
  | none => .ok pass
  | some (.error e) => .error e
  | some (.ok result) =>
      let old := (pass.table.ready? name).getD .empty
      let results := pass.results ++ [(name, result)]
      if old.grows result.summary then
        .ok ⟨pass.table.insert name (.ready (old.join result.summary)), true, results⟩
      else .ok { pass with results := results }

/-- One pass over the functions of a recursive component. -/
def pass (p : Program) (config : Config) (c : Component) (table : SummaryTable) :
    Except NonConvergence Pass :=
  c.functions.foldlM (passStep p config c) ⟨table, false, []⟩

/-- Repeats passes until one changes no summary, at most as often as the budget allows. -/
def passes (p : Program) (config : Config) (c : Component) :
    Nat → SummaryTable → Except NonConvergence (List (String × FunctionResult))
  | 0, _ => .error ⟨String.intercalate ", " c.functions, config.maxPasses⟩
  | budget + 1, table => do
      let done ← pass p config c table
      if done.changed then passes p config c budget done.table else return done.results

/-- The table in which every function of the component is without effects. -/
def startTable (c : Component) (table : SummaryTable) : SummaryTable :=
  c.functions.foldl (fun t name => t.insert name (.ready .empty)) table

def analyzeRecursive (p : Program) (config : Config) (c : Component) (table : SummaryTable) :
    Except NonConvergence (List (String × FunctionResult)) :=
  passes p config c config.maxPasses (c.startTable table)

/-- The outcome for each function of a component. -/
def analyze (p : Program) (config : Config) (table : SummaryTable) (c : Component) :
    List (String × Outcome) :=
  if c.isRecursive then
    match analyzeRecursive p config c table with
    | .ok results => results.map fun (name, result) => (name, .ok result)
    | .error e => c.functions.map fun name => (name, .error e)
  else
    c.functions.filterMap fun name =>
      (analyzeFunction p config table [] name).map fun outcome => (name, outcome)

end Component

/-- What callers see of an outcome. -/
def CalleeSummary.ofOutcome : Outcome → CalleeSummary
  | .ok result => .ready result.summary
  | .error _ => .failed

/-- The outcomes so far, and what callers see of them. -/
structure Progress where
  table : SummaryTable
  outcomes : OrderedMap String Outcome

namespace Progress

def record (g : Progress) (name : String) (outcome : Outcome) : Progress :=
  ⟨g.table.insert name (.ofOutcome outcome), g.outcomes.insert name outcome⟩

/-- Analyzes the components of a level, none of which sees another one. -/
def level (p : Program) (config : Config) (g : Progress) (components : List Component) :
    Progress :=
  (components.flatMap (Component.analyze p config g.table)).foldl
    (fun g (name, outcome) => g.record name outcome) g

end Progress

namespace Program

/-- The outcome of the analysis of every function. -/
def summarize (p : Program) (config : Config) : OrderedMap String Outcome :=
  ((CallGraph.ofProgram p).levels.foldl (Progress.level p config) ⟨.empty, .empty⟩).outcomes

end Program

end TaintAnalysis
