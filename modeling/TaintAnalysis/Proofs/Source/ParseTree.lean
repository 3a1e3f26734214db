import TaintAnalysis.Program.Builder
import TaintAnalysis.Proofs.Source.Grammar
import TaintAnalysis.Source.Scope

/-!
# From parse trees to programs

A parse tree is taken apart node by node. Each step expects certain children in a certain
order and refuses the tree where they are not there. Functions are put together block by
block, with a cursor that refuses to seal a block twice.

An expression is a flat sequence of operands and operators. It is climbed: an operand
takes in the operators behind it as long as they bind more tightly than what stands in
front of it.
-/

namespace TaintAnalysis.Source

/-- Why a parse tree does not describe a program. -/
inductive LowerError where
  | source (e : SourceError)
  /-- A node stands where it is not expected, or a child of it is missing. -/
  | unexpected (rule : Rule) (line : Nat)
  | build (e : BuildError)
  /-- An expression is no sequence of operands with operators between them. -/
  | unclimbable
  deriving DecidableEq

abbrev Lowered := Except LowerError

def lift {α : Type} : Except SourceError α → Lowered α :=
  Except.mapError .source

def liftBuild {α : Type} : Except BuildError α → Lowered α :=
  Except.mapError fun
    | .duplicateFunction name => .source (.duplicateFunction name)
    | e => .build e

namespace Node

def unexpected (n : Node) : LowerError :=
  .unexpected n.rule n.line

def name (n : Node) : Tree.Name :=
  ⟨n.text, n.line⟩

/-- The next one of the parts of a node, and the parts behind it. -/
def part (parent : Node) : List Node → Lowered (Node × List Node)
  | [] => .error parent.unexpected
  | n :: rest => .ok (n, rest)

/-- The first child. -/
def inner (parent : Node) : Lowered Node :=
  Prod.fst <$> parent.part parent.children

def innerText (n : Node) : String :=
  (n.children.head?.map (·.text)).getD ""

def isKeyword (n : Node) : Bool :=
  n.rule matches .keyword _

/-- The children that are no keywords. -/
def significant (n : Node) : List Node :=
  n.children.filter fun c => !c.isKeyword

end Node

/-- The number that a text spells, if it is no larger than a limit. -/
def number? (limit : Nat) (digits : List Char) : Option Nat :=
  let value := Nat.ofDigitChars 10 digits 0
  if digits ≠ [] ∧ digits.all Char.isDigit ∧ value ≤ limit then some value else none

/-- The number that a node spells. -/
def Node.upTo (limit : Nat) (n : Node) : Lowered Nat :=
  match number? limit n.text.toList with
  | some value => .ok value
  | none => .error (.source (.integerOutOfRange n.text n.line))

/-- The type that a node stands for. A node for any type has the actual one below it. -/
def lowerTy (below : Bool) : Node → Lowered TaintAnalysis.Ty
  | ⟨rule, text, line, children⟩ =>
      match rule, children with
      | .ty, inner :: _ =>
          if below then .error (.unexpected .ty line) else lowerTy true inner
      | .intTy, _ =>
          match number? (UInt16.size - 1) (text.toList.dropWhile (· = 'i')) with
          | some bits => .ok (.int bits)
          | none => .error (.unexpected .intTy line)
      | .voidTy, _ => .ok .void
      | .structTy, parts =>
          .ok (.struct (((parts.find? (·.rule = .ident)).map (·.text)).getD ""))
      | .pointerTy, target :: _ => .pointer <$> lowerTy false target
      | .arrayTy, element :: parts => do
          let length ← parts.head?.mapM (Node.upTo maxLength)
          return .array (← lowerTy false element) length
      | rule, _ => .error (.unexpected rule line)

/-! ## Expressions and places -/

/-- An element of the sequence that an expression is. -/
inductive Item where
  | operand (value : Lowered TaintAnalysis.Expr)
  | unary (op : UnOp)
  | binary (op : BinOp)

mutual

/-- Takes an operand and the operators behind it that bind more tightly than `level`. -/
def climb : Nat → Nat → List Item → Option (Lowered TaintAnalysis.Expr × List Item)
  | 0, _, _ => none
  | budget + 1, level, items =>
      match items with
      | .operand value :: rest => climbOn budget level value rest
      | .unary op :: rest => do
          -- an operator of one operand binds more tightly than any other
          let (operand, rest) ← climb budget 10 rest
          climbOn budget level (.unary op <$> operand) rest
      | .binary _ :: _ | [] => none

/-- Goes on behind a left operand. -/
def climbOn : Nat → Nat → Lowered TaintAnalysis.Expr → List Item →
    Option (Lowered TaintAnalysis.Expr × List Item)
  | 0, _, _, _ => none
  | budget + 1, level, left, items =>
      match items with
      | [] => some (left, [])
      | .binary op :: rest =>
          if level < op.level then do
            let (right, rest) ← climb budget op.level rest
            climbOn budget level (do return .binary op (← left) (← right)) rest
          else some (left, items)
      | .operand _ :: _ | .unary _ :: _ => none

end

def climbAll (items : List Item) : Lowered TaintAnalysis.Expr :=
  match climb (2 * items.length + 1) 0 items with
  | some (value, _) => value
  | none => .error .unclimbable

/-- What is known of a place, a number of stars and what they apply to, makes a place. -/
def stepsTo (line : Nat) : Nat × Option Place → Lowered Place
  | (stars, some p) => .ok (Nat.repeat .deref stars p)
  | (_, none) => .error (.unexpected .place line)

mutual

def lowerExpr (s : Scope) : Node → Lowered TaintAnalysis.Expr
  | ⟨_, _, _, children⟩ => climbAll (lowerItems s children)

def lowerItems (s : Scope) : List Node → List Item
  | [] => []
  | n :: rest =>
      (match n.rule with
        | .unary op => .unary op
        | .binary op => .binary op
        | _ => .operand (lowerPrimary s n)) :: lowerItems s rest

def lowerPrimary (s : Scope) : Node → Lowered TaintAnalysis.Expr
  | ⟨rule, text, line, children⟩ =>
      match rule, children with
      | .int, _ => do return .const (Int64.ofNat (← Node.upTo maxConstant ⟨.int, text, line, []⟩))
      | .ident, _ => do return .var (← lift (s.var ⟨text, line⟩))
      | .addrOf, p :: _ => do return .addrOf (← lowerPlace s p)
      | .expr, items => climbAll (lowerItems s items)
      | rule, _ => .error (.unexpected rule line)

def lowerPlace (s : Scope) : Node → Lowered Place
  | ⟨_, _, line, children⟩ => do stepsTo line (← lowerSteps s 0 none children)

/-- Follows the parts of a place. Stars come first, then what they apply to. -/
def lowerSteps (s : Scope) : Nat → Option Place → List Node → Lowered (Nat × Option Place)
  | stars, place, [] => .ok (stars, place)
  | stars, place, ⟨rule, text, line, children⟩ :: rest =>
      match rule, children, place with
      | .deref, _, none => lowerSteps s (stars + 1) none rest
      | .ident, _, none => do
          let v ← lift (s.var ⟨text, line⟩)
          lowerSteps s stars (some (.var v)) rest
      | .place, children, none => do
          let p ← lowerPlace s ⟨.place, text, line, children⟩
          lowerSteps s stars (some p) rest
      | .index, position :: _, some p => do
          let e ← lowerExpr s position
          lowerSteps s stars (some (.index p e)) rest
      | .field, children, some p =>
          lowerSteps s stars (some (.field p ((children.head?.map (·.text)).getD ""))) rest
      | .arrow, children, some p =>
          lowerSteps s stars (some (.arrow p ((children.head?.map (·.text)).getD ""))) rest
      | rule, _, _ => .error (.unexpected rule line)

end

/-! ## Statements -/

/-- A function under construction, and the place of work in it. -/
structure Site where
  function : Function
  cursor : Cursor

def Site.push (w : Site) (i : Instruction) : Site :=
  { w with cursor := w.cursor.push i }

def Site.finish (w : Site) (t : Terminator) : Lowered Site := do
  let (f, c) ← liftBuild (w.cursor.finish w.function t)
  return ⟨f, c⟩

/-- What is known of a call. -/
structure CallParts where
  dst : Option VarId := none
  direct : Option String := none
  indirect : Option TaintAnalysis.Expr := none
  args : List TaintAnalysis.Expr := []

def CallParts.add (s : Scope) (c : CallParts) (n : Node) : Lowered CallParts :=
  match n.rule with
  | .dst => do
      let var ← n.inner
      return { c with dst := some (← lift (s.var var.name)) }
  | .ident => return { c with direct := some n.text }
  | .indirect => do
      let target ← n.inner
      return { c with indirect := some (← lowerPrimary s target) }
  | .expr => do return { c with args := c.args ++ [← lowerExpr s n] }
  | _ => throw n.unexpected

/-- The call, if it is known what is called. -/
def CallParts.instruction? (c : CallParts) : Option Instruction :=
  match c.direct, c.indirect with
  | some name, _ => some (.call c.dst (.direct name) c.args)
  | none, some target => some (.call c.dst (.indirect target) c.args)
  | none, none => none

def lowerCall (s : Scope) (stmt : Node) : Lowered Instruction := do
  let c ← stmt.significant.foldlM (CallParts.add s) {}
  match c.instruction? with
  | some i => return i
  | none => throw stmt.unexpected

/-- One part of an opaque instruction: a variable that it touches, or the reason for it. -/
def addTouched (s : Scope) (known : List VarId × String) (n : Node) :
    Lowered (List VarId × String) :=
  match n.rule with
  | .ident => do return (known.1 ++ [← lift (s.var n.name)], known.2)
  | .string => return (known.1, n.innerText)
  | _ => throw n.unexpected

def lowerStatement (s : Scope) (w : Site) (stmt : Node) : Lowered Site :=
  let parts := stmt.significant
  match stmt.rule with
  | .assignStmt => do
      let (dst, parts) ← stmt.part parts
      let dst ← lift (s.var dst.name)
      let (e, _) ← stmt.part parts
      return w.push (.assign dst (← lowerExpr s e))
  | .loadStmt => do
      let (dst, parts) ← stmt.part parts
      let dst ← lift (s.var dst.name)
      let (p, _) ← stmt.part parts
      return w.push (.load dst (← lowerPlace s p))
  | .storeStmt => do
      let (p, parts) ← stmt.part parts
      let place ← lowerPlace s p
      let (e, _) ← stmt.part parts
      return w.push (.store place (← lowerExpr s e))
  | .castStmt => do
      let (dst, parts) ← stmt.part parts
      let dst ← lift (s.var dst.name)
      let (t, parts) ← stmt.part parts
      let ty ← lowerTy false t
      let (e, _) ← stmt.part parts
      return w.push (.cast dst (← lowerExpr s e) ty)
  | .callStmt => do return w.push (← lowerCall s stmt)
  | .opaqueStmt => do
      let (touched, reason) ← parts.foldlM (addTouched s) ([], "")
      return w.push (.opaqueCode touched reason)
  | .branch => do
      let (e, parts) ← stmt.part parts
      let condition ← lowerExpr s e
      let (thenLabel, parts) ← stmt.part parts
      let thenBlock ← lift (s.block thenLabel.name)
      let (elseLabel, _) ← stmt.part parts
      let elseBlock ← lift (s.block elseLabel.name)
      w.finish (.branch condition thenBlock elseBlock)
  | .jump => do
      let (label, _) ← stmt.part parts
      w.finish (.jump (← lift (s.block label.name)))
  | .ret =>
      match parts with
      | value :: _ => do w.finish (.ret (some (← lowerExpr s value)))
      | [] => w.finish (.ret none)
  | _ => throw stmt.unexpected

/-- Fills a block with the statements that follow its label. -/
def lowerBlock (s : Scope) (w : Site) (block : Node) : Lowered Function := do
  let w ← (block.children.drop 1).foldlM (lowerStatement s) w
  return w.function

/-! ## Functions -/

/-- What a function declares, and the nodes of its blocks. -/
structure Draft where
  scope : Scope
  blocks : List Node

def Draft.declare (d : Draft) (kind : VarKind) (n : Node) : Lowered Draft := do
  let (var, parts) ← n.part n.significant
  let (t, _) ← n.part parts
  let ty ← lowerTy false t
  let f := d.scope.function
  if (f.varNamed? var.text).isSome then
    throw (.source (.duplicateVariable f.name var.text))
  else return { d with scope.function := (f.addVar var.text ty kind).2 }

/-- Enters a part of a function. A block gets its number here and is filled when all labels are
known. -/
def Draft.add (d : Draft) (n : Node) : Lowered Draft :=
  match n.rule with
  | .param => d.declare .param n
  | .localVar => d.declare .local n
  | .returnType => do
      let t ← n.inner
      let ty ← lowerTy false t
      return { d with scope.function.returns := ty }
  | .block => do
      let label ← n.inner
      let s ← lift (d.scope.label ⟨label.text, [], .ret none⟩)
      return ⟨s, d.blocks ++ [n]⟩
  | _ => throw n.unexpected

end TaintAnalysis.Source
