import TaintAnalysis.Config
import TaintAnalysis.Flow.Graph
import TaintAnalysis.Program.Basic

/-!
# Checking programs

The analyses are run on programs in which every block has a terminator, every
jump has a target, every variable is declared, and calls inside the program pass
as many arguments as the callee has parameters. A program that fails one of
these checks is rejected as a whole, with the first fault found.

Blocks that the entry block cannot reach are dropped, or rejected where the
configuration says so.
-/

namespace TaintAnalysis

/-- Why a program is rejected. -/
inductive ProgramError where
  /-- A block is not finished. -/
  | missingTerminator (function : String) (block : BlockId)
  /-- A block goes on in a block that the function does not have. -/
  | unknownBlock (function : String) (source block : BlockId)
  /-- A block cannot be reached, and the configuration keeps such blocks. -/
  | unreachableBlock (function : String) (block : BlockId)
  /-- A variable is mentioned that the function does not declare. -/
  | unknownVariable (function : String) (var : VarId)
  /-- A call passes too many or too few arguments. -/
  | arityMismatch (function callee : String) (expected found : Nat)
  /-- The configuration designates sources of a function that does not exist. -/
  | unknownFunction (name : String)
  /-- The configuration designates a source that is not a parameter. -/
  | unknownSource (function name : String)
  deriving DecidableEq

namespace ProgramError

def message : ProgramError → String
  | missingTerminator function block =>
      function ++ ": block " ++ BlockId.text block ++ " has no terminator"
  | unknownBlock function source block =>
      function ++ ": block " ++ BlockId.text source ++ " jumps to missing block "
        ++ BlockId.text block
  | unreachableBlock function block =>
      function ++ ": block " ++ BlockId.text block ++ " is unreachable from the entry block"
  | unknownVariable function var =>
      function ++ ": reference to undeclared variable " ++ VarId.text var
  | arityMismatch function callee expected found =>
      function ++ ": call to " ++ callee ++ " passes " ++ toString found
        ++ " arguments, expected " ++ toString expected
  | unknownFunction name => "Function not found: " ++ name
  | unknownSource function name => function ++ ": source " ++ name ++ " is not a parameter"

end ProgramError

namespace Function

/-- Checks that a block is finished and goes on in blocks of the function. -/
def checkBlock (f : Function) (id : BlockId) (block : Block) : Except ProgramError Unit := do
  if ¬ block.isTerminated then throw (.missingTerminator f.name id)
  for next in block.successors do
    if ¬ f.blocks.contains next then throw (.unknownBlock f.name id next)

/-- Checks the entry block and then every block in order. -/
def checkBlocks (f : Function) : Except ProgramError Unit := do
  if ¬ f.blocks.contains f.entry then throw (.unknownBlock f.name f.entry f.entry)
  for (id, block) in f.blocks.entries do f.checkBlock id block

/-- The blocks that the entry block cannot reach, in order. -/
def unreachableBlocks (f : Function) : List BlockId :=
  let reachable := f.reachableBlocks
  f.blocks.keys.filter fun b => b ∉ reachable

/-- The function without the blocks that the entry block cannot reach. -/
def prune (f : Function) : Function :=
  let reachable := f.reachableBlocks
  { f with blocks := f.blocks.filterKeys fun b => b ∈ reachable }

/-- Checks the blocks of a function and, where they are not dropped, that all
of them can be reached. -/
def checkFlow (f : Function) (config : Config) : Except ProgramError Unit := do
  f.checkBlocks
  if ¬ config.pruneUnreachable then
    match f.unreachableBlocks with
    | [] => pure ()
    | block :: _ => throw (.unreachableBlock f.name block)

/-- Checks that a variable is declared. -/
def checkVariable (f : Function) (v : VarId) : Except ProgramError Unit :=
  if v < f.vars.length then .ok () else .error (.unknownVariable f.name v)

/-- Checks every variable that a block mentions. -/
def checkVariables (f : Function) : Except ProgramError Unit :=
  f.blocks.values.forM fun block => block.mentions.forM f.checkVariable

/-- Checks the number of arguments of a call inside the program. -/
def checkCall (f : Function) (p : Program) : Instruction → Except ProgramError Unit
  | .call _ (.direct callee) args =>
      match p.function? callee with
      | some target =>
          if target.paramCount = args.length then .ok ()
          else .error (.arityMismatch f.name callee target.paramCount args.length)
      | none => .ok ()
  | _ => .ok ()

def checkCalls (f : Function) (p : Program) : Except ProgramError Unit :=
  f.instructions.forM (f.checkCall p)

/-- Checks that a name is that of a parameter. -/
def checkSource (f : Function) (name : String) : Except ProgramError Unit :=
  if ((f.varNamed? name).bind f.paramIndex?).isSome then .ok ()
  else .error (.unknownSource f.name name)

end Function

namespace Program

/-- Checks the designated sources of the configuration, by ascending function name. -/
def checkSources (p : Program) (config : Config) : Except ProgramError Unit :=
  config.sourceEntries.forM fun (function, names) =>
    match p.function? function with
    | some f => names.forM f.checkSource
    | none => .error (.unknownFunction function)

/-- Drops the unreachable blocks of every function. -/
def prune (p : Program) : Program :=
  p.map Function.prune fun _ => rfl

/-- The program that the analyses are run on, or the first fault of the program. -/
def validate (p : Program) (config : Config) : Except ProgramError Program := do
  p.functions.forM (·.checkFlow config)
  let checked := if config.pruneUnreachable then p.prune else p
  checked.functions.forM fun f => do
    f.checkVariables
    f.checkCalls checked
  checked.checkSources config
  return checked

end Program

end TaintAnalysis
