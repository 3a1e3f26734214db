import TaintAnalysis.Proofs.Source.TermTrees

/-!
# Parse trees of statements

A node for a statement puts the instruction of its syntax tree into the block that is
being filled, and a node for a terminator ends the block with the terminator of its
syntax tree. What a statement looks up first is the same in both, so they find the same
fault.
-/

namespace TaintAnalysis.Source

open Parts

/-! ## Statements with a fixed number of parts -/

@[simp] theorem Node.isKeyword_keyword {k : Keyword} {text : String} {line : Nat}
    {children : List Node} : (⟨.keyword k, text, line, children⟩ : Node).isKeyword = true :=
  rfl

theorem Node.exists_of_rule {n : Node} {r : Rule} (h : n.rule = r) :
    ∃ text line children, n = ⟨r, text, line, children⟩ := by
  rcases n with ⟨_, text, line, children⟩
  exact ⟨text, line, children, by rw [← h]⟩

theorem ExprMeans.isKeyword {e : Tree.Expr} {n : Node} (h : ExprMeans e n) :
    n.isKeyword = false := by
  rw [Node.isKeyword, h.1]

theorem NameMeans.isKeyword {name : Tree.Name} {n : Node} (h : NameMeans name n) :
    n.isKeyword = false := by
  rw [h]
  rfl

section

variable {n : Nat}

end

/-! ## Calls -/

/-- What is called, as far as it is known. -/
def CallParts.to (c : CallParts) : Callee → CallParts
  | .direct name => { c with direct := some name }
  | .indirect target => { c with indirect := some target }

def CalleeMeans (callee : Tree.Callee) (n : Node) : Prop :=
  n.rule ∈ [.ident, .indirect] ∧ ∀ s c, CallParts.add s c n = c.to <$> lift (s.callee callee)

/-- The variable that the result of a call goes to. -/
def ResultMeans (name : Tree.Name) (n : Node) : Prop :=
  n.rule = .dst ∧ ∀ s c, CallParts.add s c n = do
    return { c with dst := some (← lift (s.var name)) }

theorem CalleeMeans.isKeyword {callee : Tree.Callee} {n : Node} (h : CalleeMeans callee n) :
    n.isKeyword = false := by
  have hrule := h.1
  simp only [List.mem_cons, List.not_mem_nil, or_false] at hrule
  rcases hrule with hrule | hrule <;> rw [Node.isKeyword, hrule]

theorem ResultMeans.isKeyword {name : Tree.Name} {n : Node} (h : ResultMeans name n) :
    n.isKeyword = false := by
  rw [Node.isKeyword, h.1]

theorem ResultMeans.foldlM {name : Tree.Name} {n : Node} (h : ResultMeans name n) (s : Scope) :
    [n].foldlM (CallParts.add s) {} = do return { dst := ← lift ((some name).mapM s.var) } := by
  rw [List.foldlM_cons, h.2]
  show _ = lift (some <$> s.var name) >>= _
  rw [lift_map]
  cases lift (s.var name) <;> rfl

section

variable {n : Nat}

end

/-! ## Opaque code -/

def StringMeans (text : String) (n : Node) : Prop :=
  n.rule = .string ∧ n.innerText = text

theorem StringMeans.isKeyword {text : String} {n : Node} (h : StringMeans text n) :
    n.isKeyword = false := by
  rw [Node.isKeyword, h.1]

section

variable {n : Nat}

end

/-! ## Terminators -/

section

variable {n : Nat}

end

/-! ## Blocks -/

/-- Collects instructions and ends the block. -/
def Site.fill (w : Site) (b : Block) : Lowered Function :=
  Site.function <$> (b.instructions.foldl Site.push w).finish b.terminator

/-- A node for a block has the label in front, and it fills a block. -/
structure BlockMeans (b : Tree.Block) (n : Node) : Prop where
  rule : n.rule = .block
  label : ∃ first rest, n.children = first :: rest ∧ first.text = b.label
  fill : ∀ s w, lowerBlock s w n = lift (s.basicBlock b) >>= w.fill

section

variable {n : Nat}

end

end TaintAnalysis.Source
