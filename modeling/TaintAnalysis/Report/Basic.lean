import TaintAnalysis.Calls.Summarize
import TaintAnalysis.Program.WellFormed

/-!
# Reports

A report shows, for each function, the taint of its variables and of its result
from the parameters that are designated as sources. The summary of the function
is shown unfiltered, as its callers use it. A function whose analysis failed is
reported with the reason.
-/

namespace TaintAnalysis

/-- The taint from one source. -/
structure SourceTaint where
  source : String
  kinds : Kind
  deriving DecidableEq

/-- The taint of one variable. -/
structure VariableReport where
  name : String
  tier : Tier
  sources : List SourceTaint
  deriving DecidableEq

/-- The taint of one function. -/
structure FunctionReport where
  function : String
  sources : List String
  /-- The parameters and local variables, in order of declaration. -/
  «variables» : List VariableReport
  returned : Option VariableReport
  summary : Summary
  deriving DecidableEq

/-- What a report says about one function. -/
inductive FunctionOutcome where
  | analyzed (report : FunctionReport)
  | failed (message : String)
  deriving DecidableEq

/-- What a report says about each function, in program order. -/
structure Report where
  functions : List (String × FunctionOutcome)
  deriving DecidableEq

namespace VariableReport

def sourceName (f : Function) (s : SourceId) : String :=
  match f.params[s]? with
  | some v => f.varName v
  | none => "arg" ++ toString s

def ofValue (f : Function) (name : String) (value : Value) : VariableReport where
  name := name
  tier := value.tier
  sources := value.entries.map fun e => ⟨sourceName f e.1, e.2⟩

/-- The kinds of dependence on the source with a name. -/
def kindsFrom (r : VariableReport) (source : String) : Kind :=
  ((r.sources.find? fun s => s.source = source).map (·.kinds)).getD Kind.none

/-- Whether there is dependence of all the given kinds on the source with a name. -/
def has (r : VariableReport) (source : String) (kinds : Kind) : Bool :=
  decide (kinds ≤ r.kindsFrom source)

def isTainted (r : VariableReport) : Bool :=
  decide (r.tier ≠ .none)

end VariableReport

namespace FunctionReport

/-- The positions of the parameters that are treated as sources: the designated
ones, or all. -/
def designated (f : Function) (config : Config) : List SourceId :=
  match config.sourcesOf? f.name with
  | some names => names.filterMap fun name => (f.varNamed? name).bind f.paramIndex?
  | none => List.range f.paramCount

/-- The report on a function, limited to some of its parameters as sources. -/
def ofResult (f : Function) (result : FunctionResult) (sources : List SourceId) :
    FunctionReport :=
  let shown := fun (value : Value) => value.retain fun s => s ∈ sources
  { function := f.name
    sources := sources.map (VariableReport.sourceName f)
    «variables» := (f.vars.zipIdx.filter fun (x, _) => x.kind ≠ .temp).map fun (x, v) =>
      .ofValue f x.name (shown (result.vars.getD v Value.bottom))
    returned :=
      if f.returns = .void then none
      else some (.ofValue f "return" (shown result.summary.returned))
    summary := result.summary }

def variableNamed? (r : FunctionReport) (name : String) : Option VariableReport :=
  r.variables.find? fun v => v.name = name

end FunctionReport

namespace Report

/-- The report on the function with a name, if it was analyzed. -/
def function? (r : Report) (name : String) : Option FunctionReport :=
  match r.functions.lookup name with
  | some (.analyzed report) => some report
  | _ => none

def failure? (r : Report) (name : String) : Option String :=
  match r.functions.lookup name with
  | some (.failed message) => some message
  | _ => none

end Report

namespace Program

/-- What a report says about a function of the program. -/
def outcomeOf (config : Config) (outcomes : OrderedMap String Outcome) (f : Function) :
    FunctionOutcome :=
  match outcomes.get? f.name with
  | some (.ok result) => .analyzed (.ofResult f result (FunctionReport.designated f config))
  | some (.error e) => .failed e.message
  | none => .failed (ProgramError.unknownFunction f.name).message

/-- The report on a program, or the fault for which it is rejected. -/
def analyze (p : Program) (config : Config) : Except ProgramError Report := do
  let checked ← p.validate config
  let outcomes := checked.summarize config
  return ⟨checked.functions.map fun f => (f.name, outcomeOf config outcomes f)⟩

end Program

end TaintAnalysis
