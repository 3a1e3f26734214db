import TaintAnalysis.Json.Printer
import TaintAnalysis.Program.Basic

/-!
# Programs as JSON

The exchange form of a program. A choice between alternatives is an object with
one member that names the alternative, or a plain string where the alternative
carries nothing; a record is an object with its fields in a fixed order; a place
lists its steps from the base outwards. A block repeats its number, and a
variable its position.
-/

namespace TaintAnalysis

def Json.tagged (tag : String) (content : Json) : Json :=
  .object [(tag, content)]

namespace Ty

def toJson : Ty → Json
  | int bits => .tagged "Int" (.nat bits)
  | pointer target => .tagged "Pointer" target.toJson
  | array element length =>
      .tagged "Array" (.arr [element.toJson, .optional (length.map .nat)])
  | struct name => .tagged "Struct" (.string name)
  | void => .string "Void"

end Ty

namespace BinOp

def name : BinOp → String
  | add => "Add"
  | sub => "Sub"
  | mul => "Mul"
  | div => "Div"
  | rem => "Rem"
  | and => "And"
  | or => "Or"
  | xor => "Xor"
  | shl => "Shl"
  | shr => "Shr"
  | logicalAnd => "LogicalAnd"
  | logicalOr => "LogicalOr"
  | eq => "Eq"
  | ne => "Ne"
  | lt => "Lt"
  | le => "Le"
  | gt => "Gt"
  | ge => "Ge"

end BinOp

namespace UnOp

def name : UnOp → String
  | neg => "Neg"
  | not => "Not"
  | bitNot => "BitNot"

end UnOp

mutual

def Expr.toJson : Expr → Json
  | .var v => .tagged "Var" (.nat v)
  | .const value => .tagged "Const" (.int value.toInt)
  | .unary op e => .tagged "Unary" (.arr [.string op.name, e.toJson])
  | .binary op l r => .tagged "Binary" (.arr [.string op.name, l.toJson, r.toJson])
  | .addrOf p =>
      .tagged "AddrOf" (.object [("base", .nat p.base), ("projections", .arr p.stepsToJson)])

/-- The steps of a place from the base outwards, as JSON. -/
def Place.stepsToJson : Place → List Json
  | .var _ => []
  | .deref p => p.stepsToJson ++ [.string "Deref"]
  | .index p e => p.stepsToJson ++ [.tagged "Index" e.toJson]
  | .field p name => p.stepsToJson ++ [.tagged "Field" (.string name)]

end

def Place.toJson (p : Place) : Json :=
  .object [("base", .nat p.base), ("projections", .arr p.stepsToJson)]

def Callee.toJson : Callee → Json
  | .direct name => .tagged "Direct" (.string name)
  | .indirect target => .tagged "Indirect" target.toJson

def Instruction.toJson : Instruction → Json
  | .assign dst e => .tagged "Assign" (.object [("dst", .nat dst), ("expr", e.toJson)])
  | .load dst place => .tagged "Load" (.object [("dst", .nat dst), ("place", place.toJson)])
  | .store place src => .tagged "Store" (.object [("place", place.toJson), ("src", src.toJson)])
  | .cast dst src ty =>
      .tagged "Cast" (.object [("dst", .nat dst), ("src", src.toJson), ("ty", ty.toJson)])
  | .call dst callee args =>
      .tagged "Call" (.object
        [("dst", .optional (dst.map .nat)), ("callee", callee.toJson),
          ("args", .arr (args.map Expr.toJson))])
  | .opaqueCode touched reason =>
      .tagged "Opaque" (.object
        [("touched", .arr (touched.map .nat)), ("reason", .string reason)])

def BlockId.toJson (b : BlockId) : Json :=
  .nat b.toNat

def Terminator.toJson : Terminator → Json
  | .jump target => .tagged "Jump" (BlockId.toJson target)
  | .branch condition thenBlock elseBlock =>
      .tagged "Branch" (.object
        [("condition", condition.toJson), ("then_block", BlockId.toJson thenBlock),
          ("else_block", BlockId.toJson elseBlock)])
  | .ret value => .tagged "Return" (.optional (value.map Expr.toJson))
  | .missing => .string "Invalid"

def Block.toJson (id : BlockId) (block : Block) : Json :=
  .object
    [("id", BlockId.toJson id), ("instructions", .arr (block.instructions.map Instruction.toJson)),
      ("terminator", block.terminator.toJson)]

namespace Function

/-- Where a variable comes from, as JSON. A parameter shows its position. -/
def kindToJson (f : Function) (v : VarId) (kind : VarKind) : Json :=
  match kind with
  | .param => .tagged "Param" (.nat ((f.paramIndex? v).getD 0))
  | .local => .string "Local"
  | .temp => .string "Temp"

def varsToJson (f : Function) : List Json :=
  f.vars.zipIdx.map fun (x, v) =>
    .object
      [("id", .nat v), ("name", .string x.name), ("ty", x.ty.toJson),
        ("kind", f.kindToJson v x.kind)]

def toJson (f : Function) : Json :=
  .object
    [("signature", .object
        [("name", .string f.name), ("params", .arr (f.params.map .nat)),
          ("returns", f.returns.toJson)]),
      ("body", .object
        [("entry_block", BlockId.toJson f.entry),
          ("blocks", .object
            (f.blocks.entries.map fun (id, block) => (toString id.toNat, block.toJson id))),
          ("vars", .arr f.varsToJson),
          ("next_block_id", BlockId.toJson f.nextBlock),
          ("next_temp_id", .nat f.tempCount)])]

end Function

def Program.toJson (p : Program) : Json :=
  .object [("functions", .object (p.functions.map fun f => (f.name, f.toJson)))]

end TaintAnalysis
