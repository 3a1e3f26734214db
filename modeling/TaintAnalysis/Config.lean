import TaintAnalysis.Json.Printer
import TaintAnalysis.Json.Reader
import TaintAnalysis.OrderedMap

/-!
# Configuration

A configuration says which parameters are designated as sources, what to do
with unreachable blocks, and how far the analysis goes: the caps on its loops
and the resolution of its memory model.

It is read from JSON, either as an object in which every field may be missing,
or as an array that lists the fields by position and may end early. Members
that are not fields are ignored, but a field may not be given twice.
-/

namespace TaintAnalysis

/-- What the analysis is told besides the program. -/
structure Config where
  /-- The designated source parameters of a function. A function without an
  entry uses every parameter. -/
  sources : OrderedMap String (List String)
  /-- Drop the blocks that the entry cannot reach instead of rejecting the program. -/
  pruneUnreachable : Bool
  /-- Analyze independent functions at the same time. This never changes a result. -/
  parallel : Bool
  /-- How many block visits one run of the solver may take. -/
  maxBlockVisits : Nat
  /-- How many passes over one recursive component may be taken. -/
  maxPasses : Nat
  /-- From this constant index on, the elements of an array of unknown length
  are not told apart. -/
  maxTrackedIndex : Nat
  /-- The longest access path that is kept apart. -/
  maxPathDepth : Nat
  deriving DecidableEq

namespace Config

/-- The configuration that applies where nothing else is said. -/
def standard : Config where
  sources := .empty
  pruneUnreachable := true
  parallel := true
  maxBlockVisits := 10000
  maxPasses := 64
  maxTrackedIndex := 64
  maxPathDepth := 4

instance : Inhabited Config := ⟨standard⟩

/-- The designated sources of a function, if the configuration has an entry for it. -/
def sourcesOf? (c : Config) (function : String) : Option (List String) :=
  c.sources.get? function

/-- The entries for designated sources, in ascending order of the function's name. -/
def sourceEntries (c : Config) : List (String × List String) :=
  c.sources.entries.mergeSort fun a b => decide (a.1 ≤ b.1)

def withSources (c : Config) (function : String) (params : List String) : Config :=
  { c with sources := c.sources.insert function params }

/-- Analyze one function after the other. -/
def sequential (c : Config) : Config :=
  { c with parallel := false }

/-! ## Writing -/

def toJson (c : Config) : Json :=
  .object
    [("sources", .object (c.sourceEntries.map fun e => (e.1, .arr (e.2.map .string)))),
      ("prune_unreachable", .bool c.pruneUnreachable),
      ("parallel", .bool c.parallel),
      ("max_block_visits", .nat c.maxBlockVisits),
      ("max_scc_iterations", .nat c.maxPasses),
      ("max_tracked_index", .nat c.maxTrackedIndex),
      ("max_path_depth", .nat c.maxPathDepth)]

/-! ## Reading -/

/-- The fields, in the order of the array form. -/
inductive Field where
  | sources | pruneUnreachable | parallel
  | maxBlockVisits | maxPasses | maxTrackedIndex | maxPathDepth
  deriving DecidableEq

namespace Field

/-- All fields, in order. -/
def all : List Field :=
  [sources, pruneUnreachable, parallel, maxBlockVisits, maxPasses, maxTrackedIndex, maxPathDepth]

def name : Field → String
  | sources => "sources"
  | pruneUnreachable => "prune_unreachable"
  | parallel => "parallel"
  | maxBlockVisits => "max_block_visits"
  | maxPasses => "max_scc_iterations"
  | maxTrackedIndex => "max_tracked_index"
  | maxPathDepth => "max_path_depth"

def named? (name : String) : Option Field :=
  all.find? fun f => f.name = name

end Field

/-- The limit of a field that holds a number. -/
def wordLimit : Nat := UInt64.size

/-- A number below the limit, written by digits alone. -/
def readNat (j : Json) : Option Nat :=
  j.natural?.filter (· < wordLimit)

/-- The designated sources by function. A function that is listed twice keeps
the last list. -/
def readSources : Json → Option (OrderedMap String (List String))
  | .obj members =>
      members.foldlM
        (fun m (name, value) => do
          let names ← (← value.items?).mapM Json.text?
          return m.insert (← Json.unescape name) names)
        .empty
  | _ => none

def readField (c : Config) (field : Field) (j : Json) : Option Config :=
  match field with
  | .sources => do return { c with sources := ← readSources j }
  | .pruneUnreachable => do return { c with pruneUnreachable := ← j.bool? }
  | .parallel => do return { c with parallel := ← j.bool? }
  | .maxBlockVisits => do return { c with maxBlockVisits := ← readNat j }
  | .maxPasses => do return { c with maxPasses := ← readNat j }
  | .maxTrackedIndex => do return { c with maxTrackedIndex := ← readNat j }
  | .maxPathDepth => do return { c with maxPathDepth := ← readNat j }

/-- Reads the members of the object form on top of `c`; `seen` are the fields
that were given before. -/
def readMembers (c : Config) (seen : List Field) : List (String × Json) → Option Config
  | [] => some c
  | (name, value) :: rest => do
      match Field.named? (← Json.unescape name) with
      | none => readMembers c seen rest
      | some field =>
          if field ∈ seen then none
          else readMembers (← c.readField field value) (field :: seen) rest

def ofJson? : Json → Option Config
  | .obj members => readMembers standard [] members
  | .arr items =>
      if items.length ≤ Field.all.length then
        (Field.all.zip items).foldlM (fun c (field, value) => c.readField field value) standard
      else none
  | _ => none

def parse (text : String) : Option Config :=
  (Json.parse text).bind ofJson?

end Config

end TaintAnalysis
