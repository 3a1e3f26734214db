import TaintAnalysis.Json.Printer
import TaintAnalysis.Report.Basic

/-!
# Taint and reports as JSON

Values are objects from sources to the names of their kinds, summaries list what
is written through each parameter, and a report has one object per function that
begins with its status.
-/

namespace TaintAnalysis

def Value.toJson (v : Value) : Json :=
  .object [("sources", .object (v.entries.map fun e => (toString e.1, .string e.2.text)))]

def Summary.toJson (s : Summary) : Json :=
  .object
    [("return_taint", s.returned.toJson),
      ("out_params", .object (s.outs.map fun e => (toString e.1, e.2.toJson)))]

def SourceTaint.toJson (s : SourceTaint) : Json :=
  .object
    [("source", .string s.source), ("tier", .string s.kinds.tier.name),
      ("kinds", .string s.kinds.text)]

def VariableReport.toJson (r : VariableReport) : Json :=
  .object
    [("name", .string r.name), ("tier", .string r.tier.name),
      ("sources", .arr (r.sources.map SourceTaint.toJson))]

def FunctionOutcome.toJson : FunctionOutcome → Json
  | .analyzed r =>
      .object
        [("status", .string "analyzed"), ("function", .string r.function),
          ("sources", .arr (r.sources.map .string)),
          ("variables", .arr (r.variables.map VariableReport.toJson)),
          ("return_value", .optional (r.returned.map VariableReport.toJson)),
          ("summary", r.summary.toJson)]
  | .failed message => .object [("status", .string "failed"), ("message", .string message)]

def Report.toJson (r : Report) : Json :=
  .object [("functions", .object (r.functions.map fun (name, o) => (name, o.toJson)))]

end TaintAnalysis
