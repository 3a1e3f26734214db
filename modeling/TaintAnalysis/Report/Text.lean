import TaintAnalysis.Report.Basic

/-!
# Reports as text

One line for a function and its sources, then one indented line for each variable
and for the result. A line groups the sources by kind of dependence.
-/

namespace TaintAnalysis

namespace VariableReport

/-- The sources of one kind, behind a label; nothing if there are none. -/
def group (r : VariableReport) (label : String) (has : Kind → Bool) : List String :=
  let names := (r.sources.filter fun s => has s.kinds).map (·.source)
  if names.isEmpty then []
  else [label ++ " taint from " ++ String.intercalate ", " names]

def text (r : VariableReport) : String :=
  r.name ++ ": " ++
    if r.sources.isEmpty then "no taint"
    else
      String.intercalate "; "
        (r.group "Direct" (·.direct) ++ r.group "Indirect" (·.indirect)
          ++ r.group "Full" (·.full))

end VariableReport

namespace FunctionReport

def text (r : FunctionReport) : String :=
  r.function ++ " (sources: " ++ String.intercalate ", " r.sources ++ ")\n"
    ++ String.join ((r.variables ++ r.returned.toList).map fun v => "  " ++ v.text ++ "\n")

end FunctionReport

namespace Report

def text (r : Report) : String :=
  String.join <| r.functions.map fun (name, outcome) =>
    match outcome with
    | .analyzed report => report.text
    | .failed message => name ++ ": analysis failed: " ++ message ++ "\n"

end Report

end TaintAnalysis
