import TaintAnalysis.Report.Export
import TaintAnalysis.Report.Text
import TaintAnalysis.Source.Scope

/-!
# From text and files to reports

The steps in one call: read a program, check it, analyze it. A failure keeps its
cause and says, from the outside in, what was being done when it happened.

What a file holds is given as data: nothing if it is missing, its bytes
otherwise.
-/

namespace TaintAnalysis

/-- Why a file cannot be read as text. -/
inductive FileError where
  /-- There is no such file. -/
  | missing
  /-- The bytes of the file are not UTF-8. -/
  | notUtf8
  deriving DecidableEq

namespace FileError

def message : FileError → String
  | missing => "No such file or directory (os error 2)"
  | notUtf8 => "stream did not contain valid UTF-8"

end FileError

abbrev FileContent := Option ByteArray

def readText (content : FileContent) : Except FileError String :=
  match content with
  | none => .error .missing
  | some bytes =>
      match String.fromUTF8? bytes with
      | some text => .ok text
      | none => .error .notUtf8

/-- What went wrong in the end. -/
inductive Cause where
  | file (e : FileError)
  | source (e : SourceError)
  | program (e : ProgramError)
  /-- A text is not a configuration. -/
  | config
  deriving DecidableEq

def Cause.message : Cause → String
  | file e => e.message
  | source e => e.message
  | program e => e.message
  | config => "Invalid configuration"

/-- A failure: its cause, and what was being done, outermost first. -/
structure Failure where
  contexts : List String
  cause : Cause
  deriving DecidableEq

namespace Failure

/-- The contexts and the cause, joined by colons. -/
def message (f : Failure) : String :=
  String.intercalate ": " (f.contexts ++ [f.cause.message])

/-- Says that a failure happened inside of something else. -/
def inside (context : String) (f : Failure) : Failure :=
  { f with contexts := context :: f.contexts }

end Failure

def withContext {ε α : Type} (cause : ε → Cause) (context : String) (r : Except ε α) :
    Except Failure α :=
  r.mapError fun e => ⟨[context], cause e⟩

def analyzeSource (text : String) (config : Config) : Except Failure Report := do
  let program ← withContext .source "failed to parse program" (Program.ofSource text)
  withContext .program "failed to analyze program" (program.analyze config)

def analyzeFile (path : String) (content : FileContent) (config : Config) :
    Except Failure Report := do
  let text ← withContext .file ("failed to read " ++ path) (readText content)
  (analyzeSource text config).mapError (Failure.inside ("while analyzing " ++ path))

def loadConfig (path : String) (content : FileContent) : Except Failure Config := do
  let text ← withContext .file ("failed to read config " ++ path) (readText content)
  match Config.parse text with
  | some config => return config
  | none => throw ⟨["invalid config " ++ path], .config⟩

end TaintAnalysis
