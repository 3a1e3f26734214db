import TaintAnalysis.Proofs.Source.Phrases

/-!
# The parsers take phrases

A parser reads each phrase of its construct as the syntax tree of the phrase and leaves
alone what follows, if its budget is large enough for the length of the phrase.

What follows must not continue the construct. A place goes on with a bracket, a dot or
an arrow, and an expression goes on with an operator too. All other constructs end with
a token of their own.
-/

namespace TaintAnalysis.Source.Parser

/-! ## Steps of a parser -/

section

variable {α β : Type}

@[simp] theorem run_bind (p : Parser α) (g : α → Parser β) (ls : List Lexeme) :
    (p >>= g) ls = (p ls).bind fun x => g x.1 x.2 :=
  rfl

@[simp] theorem run_map (g : α → β) (p : Parser α) (ls : List Lexeme) :
    (g <$> p) ls = (p ls).map fun x => (g x.1, x.2) := by
  show (p ls).bind (fun x => some (g x.1, x.2)) = _
  cases p ls <;> rfl

@[simp] theorem run_pure (a : α) (ls : List Lexeme) : (pure a : Parser α) ls = some (a, ls) :=
  rfl

@[simp] theorem run_peek (ls : List Lexeme) : peek ls = some (ls.head?.map (·.token), ls) :=
  rfl

@[simp] theorem run_next (l : Lexeme) (ls : List Lexeme) : next (l :: ls) = some (l, ls) :=
  rfl

@[simp] theorem run_expect (t : Token) (line : Nat) (ls : List Lexeme) :
    expect t (⟨t, line⟩ :: ls) = some ((), ls) := by
  rw [expect, run_bind, run_next, Option.bind_some, if_pos rfl]
  rfl

theorem run_accept (t : Token) (line : Nat) (ls : List Lexeme) :
    accept t (⟨t, line⟩ :: ls) = some (true, ls) := by
  simp [accept]

theorem run_accept_of_ne {t t' : Token} (h : t' ≠ t) (line : Nat) (ls : List Lexeme) :
    accept t (⟨t', line⟩ :: ls) = some (false, ⟨t', line⟩ :: ls) := by
  simp [accept, h]

@[simp] theorem run_name (text : String) (line : Nat) (ls : List Lexeme) :
    name (⟨.word text, line⟩ :: ls) = some (⟨text, line⟩, ls) :=
  rfl

@[simp] theorem run_digits (written : String) (line : Nat) (ls : List Lexeme) :
    digits (⟨.digits written, line⟩ :: ls) = some (⟨written, line⟩, ls) :=
  rfl

@[simp] theorem run_string (text : String) (line : Nat) (ls : List Lexeme) :
    string (⟨.string text, line⟩ :: ls) = some (text, ls) :=
  rfl

end

/-! ## Where constructs end -/

variable {rest : List Lexeme} {budget : Nat}

/-- What follows does not continue a place. -/
def EndsPlace (rest : List Lexeme) : Prop :=
  ∀ l ∈ rest.head?, l.token ≠ .sign .openBracket ∧ l.token ≠ .sign .dot ∧ l.token ≠ .sign .arrow

/-- What follows does not continue an expression. -/
def EndsExpr (rest : List Lexeme) : Prop :=
  EndsPlace rest ∧ ∀ l ∈ rest.head?, binOp? l.token = none

/-- The signs that stand after an expression and belong to something around it. -/
theorem endsExpr_sign {s : Sign}
    (h : s ∈ [.semicolon, .comma, .closeParen, .closeBracket]) (line : Nat) (ls : List Lexeme) :
    EndsExpr (⟨.sign s, line⟩ :: ls) := by
  simp only [List.mem_cons, List.not_mem_nil, or_false] at h
  rcases h with rfl | rfl | rfl | rfl <;> simp [EndsExpr, EndsPlace, binOp?]

theorem endsPlace_binOp {t : Token} {op : BinOp} (h : binOp? t = some op) (line : Nat)
    (ls : List Lexeme) : EndsPlace (⟨t, line⟩ :: ls) := by
  intro l hl
  obtain rfl := Option.some.inj hl
  refine ⟨?_, ?_, ?_⟩ <;> rintro rfl <;> simp [binOp?] at h

theorem suffixes_ends (h : EndsPlace rest) (p : Tree.Place) :
    suffixes (budget + 1) p rest = some (p, rest) := by
  rw [suffixes, run_bind, run_peek, Option.bind_some]
  cases rest with
  | nil => rfl
  | cons l ls =>
      obtain ⟨hbracket, hdot, harrow⟩ := h l rfl
      rcases l with ⟨_ | _ | _ | _ | s, n⟩
      case sign =>
        cases s
        case openBracket => exact absurd rfl hbracket
        case dot => exact absurd rfl hdot
        case arrow => exact absurd rfl harrow
        all_goals rfl
      all_goals rfl

theorem chain_ends (h : ∀ l ∈ rest.head?, binOp? l.token = none) (e : Tree.Expr) :
    chain (budget + 1) e rest = some (e, rest) := by
  rw [chain, run_bind, run_peek, Option.bind_some]
  cases rest with
  | nil => rfl
  | cons l ls => simp [h l rfl, run_pure]

/-! ## Where constructs begin -/

/-- The tokens that an expression begins with. -/
def beginsExpr : Token → Bool
  | .digits _ | .word _ | .sign .amp | .sign .openParen | .sign .minus | .sign .bang
  | .sign .tilde => true
  | _ => false

theorem beginsExpr_unOp {t : Token} {op : UnOp} (h : unOp? t = some op) :
    beginsExpr t = true := by
  rw [unOp?.eq_def] at h
  split at h <;> first | rfl | exact nomatch h

/-- The phrases of a construct are not empty, and their first token passes a test. -/
def Begins {α : Type} (phrase : α → List Lexeme → Prop) (test : Token → Bool) : Prop :=
  ∀ ⦃a ls⦄, phrase a ls → ∃ l rest, ls = l :: rest ∧ test l.token = true

theorem begins_operandPhrase : Begins OperandPhrase beginsExpr
  | _, _, .unary hop _ => ⟨_, _, rfl, beginsExpr_unOp hop⟩
  | _, _, .primary .int | _, _, .primary .var | _, _, .primary (.addrOf _)
  | _, _, .primary (.group _) => ⟨_, _, rfl, rfl⟩

theorem begins_exprPhrase {level : Nat} : Begins (ExprPhrase level) beginsExpr
  | _, _, .operand h => begins_operandPhrase h
  | _, _, .binary _ _ hleft _ => by
      obtain ⟨l, rest, rfl, hl⟩ := begins_exprPhrase hleft
      exact ⟨l, _, rfl, hl⟩

theorem begins_namePhrase : Begins NamePhrase (· matches .word _)
  | _, _, .word => ⟨_, _, rfl, rfl⟩

theorem begins_declarationPhrase : Begins DeclarationPhrase (· matches .word _)
  | _, _, .colon _ => ⟨_, _, rfl, rfl⟩

theorem begins_statementPhrase : Begins (Ended StatementPhrase) beginsStatement
  | _, _, .semicolon (.define _) | _, _, .semicolon (.store _ _) | _, _, .semicolon (.call _)
  | _, _, .semicolon (.opaqueCode _) => ⟨_, _, rfl, rfl⟩

theorem begins_localPhrase : Begins (Ended LocalPhrase) (· = .keyword .let)
  | _, _, .semicolon (.declare _) => ⟨_, _, rfl, rfl⟩

theorem begins_blockPhrase {test : Token → Bool} (h : ∀ text, test (.word text) = true) :
    Begins BlockPhrase test
  | _, _, .block _ _ => ⟨_, _, rfl, h _⟩

/-- The terminator of a block is not taken for another statement. -/
theorem begins_terminatorPhrase :
    Begins (Ended TerminatorPhrase) (fun t => !beginsStatement t) := by
  rintro _ _ ⟨h⟩
  cases h <;> exact ⟨_, _, rfl, rfl⟩

theorem begins_functionPhrase : Begins FunctionPhrase (fun _ => true)
  | _, _, .function _ _ _ _ => ⟨_, _, rfl, rfl⟩

/-! ## Types, expressions and places -/

theorem ty_of_phrase {t : Tree.Ty} {ls : List Lexeme} (h : TyPhrase t ls)
    (hb : ls.length ≤ budget) : ty budget (ls ++ rest) = some (t, rest) := by
  induction h generalizing budget rest with
  | int hbits =>
      obtain ⟨b, rfl⟩ : ∃ b, budget = b + 1 := ⟨budget - 1, by simp at hb; omega⟩
      simp [ty, hbits]
  | void | struct =>
      obtain ⟨b, rfl⟩ : ∃ b, budget = b + 1 := ⟨budget - 1, by simp at hb; omega⟩
      simp [ty]
  | pointer _ ih =>
      obtain ⟨b, rfl⟩ : ∃ b, budget = b + 1 := ⟨budget - 1, by simp at hb; omega⟩
      rw [List.length_cons] at hb
      have htarget : ty b (_ ++ rest) = some (_, rest) := ih (by omega)
      simp [ty, htarget]
  | slice _ ih | array _ ih =>
      obtain ⟨b, rfl⟩ : ∃ b, budget = b + 1 := ⟨budget - 1, by simp at hb; omega⟩
      simp only [List.length_cons, List.length_append] at hb
      have helement {rest : List Lexeme} : ty b (_ ++ rest) = some (_, rest) := ih (by omega)
      simp [ty, helement, sign, run_accept, run_accept_of_ne]

/-- What the parser of an operand and of the chain behind it makes of the operand, in a chain that
`put` builds around it. -/
def climb (budget : Nat) (put : Tree.Expr → Tree.Expr) : Parser Tree.Expr := do
  let e ← operand budget
  chain budget (put e)

theorem run_chain {t : Token} {op : BinOp} (h : binOp? t = some op) (line : Nat) (e : Tree.Expr)
    (ls : List Lexeme) :
    chain (budget + 1) e (⟨t, line⟩ :: ls) = climb budget (e.extend op) ls := by
  rw [chain]
  simp [h, climb]

theorem run_operand {t : Token} {op : UnOp} (h : unOp? t = some op) (line : Nat)
    (ls : List Lexeme) :
    operand (budget + 1) (⟨t, line⟩ :: ls) = (Tree.Expr.unary op <$> operand budget) ls := by
  rw [operand]
  simp [h]

/-- Operators from a level on go through `put` to what it is put around. -/
def Opens (level : Nat) (put : Tree.Expr → Tree.Expr) : Prop :=
  ∀ op : BinOp, level ≤ op.level → ∀ e operand, (put e).extend op operand = put (e.extend op operand)

theorem opens_binary {level : Nat} {put : Tree.Expr → Tree.Expr} (h : Opens level put) {op : BinOp}
    (hlevel : level ≤ op.level) (left : Tree.Expr) :
    Opens (op.level + 1) fun right => put (.binary op left right) := by
  intro op' hop' e operand
  have htighter : op.level < op'.level := hop'
  rw [h op' (by omega), Tree.Expr.extend, if_pos htighter]

/-- An operator that binds no tighter than a chain takes the whole chain as its left operand. -/
theorem extend_of_phrase {level : Nat} {e : Tree.Expr} {ls : List Lexeme}
    (h : ExprPhrase level e ls) {op : BinOp} (hlevel : op.level ≤ level) (operand : Tree.Expr) :
    e.extend op operand = .binary op e operand := by
  cases h with
  | operand h => exact h.extend op operand
  | binary _ houter _ _ => rw [Tree.Expr.extend, if_neg (by omega)]

theorem expr_of_climb {e : Tree.Expr} {ls : List Lexeme} (hends : EndsExpr rest)
    (hb : 4 * ls.length + 1 ≤ budget)
    (h : ∃ b, budget ≤ b + 4 * ls.length ∧ climb budget id (ls ++ rest) = chain b e rest) :
    expr (budget + 1) (ls ++ rest) = some (e, rest) := by
  obtain ⟨b, hb', hclimb⟩ := h
  obtain ⟨b, rfl⟩ : ∃ b', b = b' + 1 := ⟨b - 1, by omega⟩
  rw [expr]
  exact hclimb.trans (chain_ends hends.2 e)

theorem head_primaryPhrase {e : Tree.Expr} {ls : List Lexeme} (h : PrimaryPhrase e ls) :
    ((ls ++ rest).head?.map (·.token)).bind unOp? = none := by
  cases h <;> rfl

mutual

theorem primary_of_phrase : ∀ {e : Tree.Expr} {ls : List Lexeme} {budget : Nat}
    {rest : List Lexeme}, PrimaryPhrase e ls → 4 * ls.length ≤ budget + 1 → EndsPlace rest →
    primary (budget + 1) (ls ++ rest) = some (e, rest)
  | _, _, _, _, .int, _, _ => by simp [primary]
  | _, _, _, _, .var, _, _ => by simp [primary]
  | _, _, budget, rest, .addrOf h, hb, hends => by
      rw [List.length_cons] at hb
      obtain ⟨b, rfl⟩ : ∃ b, budget = b + 1 := ⟨budget - 1, by omega⟩
      have hplace := place_of_phrase h (by omega : _ ≤ b + 1) hends
      simp [primary, hplace]
  | _, _, budget, rest, .group h, hb, _ => by
      simp only [List.length_cons, List.length_append, List.length_nil] at hb
      obtain ⟨b, rfl⟩ : ∃ b, budget = b + 1 := ⟨budget - 1, by omega⟩
      have hclose (line : Nat) : EndsExpr (⟨.sign .closeParen, line⟩ :: rest) :=
        endsExpr_sign (by decide) line rest
      have hinner (line : Nat) := expr_of_climb (hclose line) (by omega : _ ≤ b)
        (climb_of_phrase h (by omega : _ ≤ b) (hclose line).1 fun _ _ _ _ => rfl)
      simp [primary, hinner, sign]

theorem operand_of_phrase : ∀ {e : Tree.Expr} {ls : List Lexeme} {budget : Nat}
    {rest : List Lexeme}, OperandPhrase e ls → 4 * ls.length ≤ budget → EndsPlace rest →
    operand (budget + 1) (ls ++ rest) = some (e, rest)
  | e, ls, budget, rest, .primary h, hb, hends => by
      have hpos : 0 < ls.length := by
        obtain ⟨l, ls, rfl, -⟩ := begins_operandPhrase (.primary h)
        exact Nat.succ_pos _
      obtain ⟨b, rfl⟩ : ∃ b, budget = b + 1 := ⟨budget - 1, by omega⟩
      rw [operand, run_bind, run_peek, Option.bind_some, head_primaryPhrase h]
      exact primary_of_phrase h hb hends
  | _, _, budget, rest, .unary hop h, hb, hends => by
      rw [List.length_cons] at hb
      obtain ⟨b, rfl⟩ : ∃ b, budget = b + 1 := ⟨budget - 1, by omega⟩
      have hoperand := operand_of_phrase h (by omega : _ ≤ b) hends
      rw [List.cons_append, run_operand hop, run_map, hoperand, Option.map_some]

/-- A phrase that begins with an operand is put where the operand would be put. -/
theorem climb_of_phrase : ∀ {level : Nat} {e : Tree.Expr} {ls : List Lexeme} {budget : Nat}
    {rest : List Lexeme} {put : Tree.Expr → Tree.Expr}, ExprPhrase level e ls →
    4 * ls.length + 1 ≤ budget → EndsPlace rest → Opens level put →
    ∃ b, budget ≤ b + 4 * ls.length ∧ climb budget put (ls ++ rest) = chain b (put e) rest
  | _, _, _, budget, _, _, .operand h, hb, hends, _ => by
      obtain ⟨b, rfl⟩ : ∃ b, budget = b + 1 := ⟨budget - 1, by omega⟩
      refine ⟨b + 1, by omega, ?_⟩
      rw [climb, run_bind, operand_of_phrase h (by omega) hends, Option.bind_some]
  | _, _, _, budget, rest, put, .binary hop hlevel hl hr, hb, hends, hput => by
      simp only [List.length_append, List.length_cons] at hb ⊢
      -- the left operand goes where the whole is to go, and the right one behind the operator
      obtain ⟨b, hb', hleft⟩ := climb_of_phrase hl (by omega : _ ≤ budget)
        (endsPlace_binOp hop _ _) fun op' hop' => hput op' (Nat.le_trans hlevel hop')
      obtain ⟨b, rfl⟩ : ∃ b', b = b' + 1 := ⟨b - 1, by omega⟩
      obtain ⟨b', hb'', hright⟩ := climb_of_phrase hr (by omega : _ ≤ b) hends
        (opens_binary hput hlevel _)
      refine ⟨b', by omega, ?_⟩
      rw [List.append_assoc, List.cons_append, hleft, run_chain hop, ← hright]
      congr 1
      funext right
      rw [hput _ hlevel, extend_of_phrase hl (Nat.le_refl _)]

theorem stem_of_phrase : ∀ {p : Tree.Place} {ls : List Lexeme} {budget : Nat}
    {rest : List Lexeme}, StemPhrase p ls → 4 * ls.length ≤ budget + 1 →
    ∃ b, budget + 2 ≤ b + 4 * ls.length ∧ place (budget + 1) (ls ++ rest) = suffixes b p rest
  | _, _, b, rest, .var, _ => ⟨b, by simp, by simp [place]⟩
  | _, _, budget, rest, .group h, hb => by
      simp only [List.length_cons, List.length_append, List.length_nil] at hb ⊢
      obtain ⟨b, rfl⟩ : ∃ b, budget = b + 1 := ⟨budget - 1, by omega⟩
      have hclose (line : Nat) : EndsPlace (⟨.sign .closeParen, line⟩ :: rest) :=
        (endsExpr_sign (by decide) line rest).1
      have hinner (line : Nat) := place_of_phrase h (by omega : _ ≤ b + 1) (hclose line)
      refine ⟨b + 1, by omega, ?_⟩
      rw [List.cons_append, place]
      simp [hinner, sign]
  | _, _, budget, rest, .index h he, hb => by
      simp only [List.length_cons, List.length_append, List.length_nil] at hb ⊢
      obtain ⟨b, hb', hstem⟩ := stem_of_phrase h (by omega : _ ≤ budget + 1)
      obtain ⟨b, rfl⟩ : ∃ b', b = b' + 2 := ⟨b - 2, by omega⟩
      have hclose (line : Nat) : EndsExpr (⟨.sign .closeBracket, line⟩ :: rest) :=
        endsExpr_sign (by decide) line rest
      have hposition (line : Nat) := expr_of_climb (hclose line) (by omega : _ ≤ b)
        (climb_of_phrase he (by omega : _ ≤ b) (hclose line).1 fun _ _ _ _ => rfl)
      refine ⟨b + 1, by omega, ?_⟩
      rw [List.append_assoc, hstem]
      simp [suffixes, hposition, sign]
  | _, _, budget, rest, .field h, hb => by
      simp only [List.length_cons, List.length_append, List.length_nil] at hb ⊢
      obtain ⟨b, hb', hstem⟩ := stem_of_phrase h (by omega : _ ≤ budget + 1)
      obtain ⟨b, rfl⟩ : ∃ b', b = b' + 1 := ⟨b - 1, by omega⟩
      refine ⟨b, by omega, ?_⟩
      rw [List.append_assoc, hstem]
      simp [suffixes]
  | _, _, budget, rest, .arrow h, hb => by
      simp only [List.length_cons, List.length_append, List.length_nil] at hb ⊢
      obtain ⟨b, hb', hstem⟩ := stem_of_phrase h (by omega : _ ≤ budget + 1)
      obtain ⟨b, rfl⟩ : ∃ b', b = b' + 1 := ⟨b - 1, by omega⟩
      refine ⟨b, by omega, ?_⟩
      rw [List.append_assoc, hstem]
      simp [suffixes]

theorem place_of_phrase : ∀ {p : Tree.Place} {ls : List Lexeme} {budget : Nat}
    {rest : List Lexeme}, PlacePhrase p ls → 4 * ls.length ≤ budget + 1 → EndsPlace rest →
    place (budget + 1) (ls ++ rest) = some (p, rest)
  | _, _, budget, rest, .stem h, hb, hends => by
      obtain ⟨b, hb', hstem⟩ := stem_of_phrase h hb
      obtain ⟨b, rfl⟩ : ∃ b', b = b' + 1 := ⟨b - 1, by omega⟩
      exact hstem.trans (suffixes_ends hends _)
  | _, _, budget, rest, .deref h, hb, hends => by
      rw [List.length_cons] at hb
      obtain ⟨b, rfl⟩ : ∃ b, budget = b + 1 := ⟨budget - 1, by omega⟩
      have hinner := place_of_phrase h (by omega : _ ≤ b + 1) hends
      rw [List.cons_append, place]
      simp [hinner]

end

theorem expr_of_phrase {level : Nat} {e : Tree.Expr} {ls : List Lexeme}
    (h : ExprPhrase level e ls) (hb : 4 * ls.length + 2 ≤ budget) (hends : EndsExpr rest) :
    expr budget (ls ++ rest) = some (e, rest) := by
  obtain ⟨b, rfl⟩ : ∃ b, budget = b + 1 := ⟨budget - 1, by omega⟩
  exact expr_of_climb hends (by omega) (climb_of_phrase h (by omega) hends.1 fun _ _ _ _ => rfl)

/-! ## Repetitions -/

section

variable {α : Type} {phrase : α → List Lexeme → Prop} {item : Parser α} {as : List α}
  {ls : List Lexeme}

theorem commaSeparated_of_phrase (h : Separated phrase as ls) (hb : ls.length < budget)
    (hitem : ∀ {a us rest}, phrase a us → us.length ≤ ls.length → EndsExpr rest →
      item (us ++ rest) = some (a, rest)) (line : Nat) :
    commaSeparated item budget (ls ++ ⟨.sign .closeParen, line⟩ :: rest) =
      some (as, ⟨.sign .closeParen, line⟩ :: rest) := by
  induction h generalizing budget with
  | last ha =>
      obtain ⟨b, rfl⟩ : ∃ b, budget = b + 1 := ⟨budget - 1, by omega⟩
      have hclose : EndsExpr (⟨.sign .closeParen, line⟩ :: rest) :=
        endsExpr_sign (by decide) line rest
      simp [commaSeparated, hitem ha (Nat.le_refl _) hclose, run_accept_of_ne]
  | @comma a as us vs line' ha _ ih =>
      obtain ⟨b, rfl⟩ : ∃ b, budget = b + 1 := ⟨budget - 1, by omega⟩
      simp only [List.length_append, List.length_cons] at hb hitem
      have hcomma (ls : List Lexeme) : EndsExpr (⟨.sign .comma, line'⟩ :: ls) :=
        endsExpr_sign (by decide) line' ls
      have hrest := ih (by omega : _ < b) fun ha hle => hitem ha (by omega)
      simp [commaSeparated, hitem ha (by omega) (hcomma _), run_accept, hrest]

theorem parenthesised_of_phrase {test : Token → Bool} (h : Enclosed phrase as ls)
    (hbegins : Begins phrase test) (htest : test (.sign .closeParen) = false)
    (hb : ls.length ≤ budget)
    (hitem : ∀ {a us rest}, phrase a us → us.length < ls.length → EndsExpr rest →
      item (us ++ rest) = some (a, rest)) :
    parenthesised item budget (ls ++ rest) = some (as, rest) := by
  cases h with
  | none => simp [parenthesised, sign, run_accept]
  | @some _ us line line' h =>
      simp only [List.length_cons, List.length_append, List.length_nil] at hb hitem
      have hitems : commaSeparated item budget (us ++ ⟨.sign .closeParen, line'⟩ :: rest) =
          some (as, ⟨.sign .closeParen, line'⟩ :: rest) :=
        commaSeparated_of_phrase h (by omega) (fun ha hle => hitem ha (by omega)) line'
      obtain ⟨l, vs, rfl, hl⟩ : ∃ l vs, us = l :: vs ∧ test l.token = true := by
        cases h with
        | last ha => exact hbegins ha
        | comma ha _ =>
            obtain ⟨l, vs, rfl, hl⟩ := hbegins ha
            exact ⟨l, _, rfl, hl⟩
      have hopen : accept (.sign .closeParen) (l :: (vs ++ ⟨.sign .closeParen, line'⟩ :: rest)) =
          some (false, l :: (vs ++ ⟨.sign .closeParen, line'⟩ :: rest)) :=
        run_accept_of_ne (fun heq => by rw [heq, htest] at hl; exact nomatch hl) l.line _
      rw [List.cons_append] at hitems
      simp [parenthesised, sign, hopen, hitems]

theorem whileNext_of_phrase {test : Token → Bool} (h : Repeated phrase as ls)
    (hbegins : Begins phrase test) (hrest : ∀ l ∈ rest.head?, test l.token = false)
    (hb : ls.length < budget)
    (hitem : ∀ {a us} rest, phrase a us → us.length ≤ ls.length →
      item (us ++ rest) = some (a, rest)) :
    whileNext test item budget (ls ++ rest) = some (as, rest) := by
  induction h generalizing budget with
  | nil =>
      obtain ⟨b, rfl⟩ : ∃ b, budget = b + 1 := ⟨budget - 1, by omega⟩
      cases rest with
      | nil => simp [whileNext]
      | cons l rest => simp [whileNext, hrest l rfl]
  | @cons a as us vs ha _ ih =>
      obtain ⟨b, rfl⟩ : ∃ b, budget = b + 1 := ⟨budget - 1, by omega⟩
      obtain ⟨l, us, rfl, hl⟩ := hbegins ha
      simp only [List.length_append, List.length_cons] at hb hitem
      have hfirst (rest : List Lexeme) := hitem rest ha (by simp)
      have hlater := ih (by omega : _ < b) fun rest ha hle => hitem rest ha (by omega)
      simp only [List.append_assoc, List.cons_append] at hfirst ⊢
      simp [whileNext, hl, hfirst, hlater]

end

/-! ## Statements -/

theorem args_of_phrase {args : List Tree.Expr} {ls : List Lexeme}
    (h : Enclosed (ExprPhrase 0) args ls) (hb : 4 * ls.length ≤ budget) :
    parenthesised (expr budget) budget (ls ++ rest) = some (args, rest) :=
  parenthesised_of_phrase h begins_exprPhrase rfl (by omega) fun he hlt hends =>
    expr_of_phrase he (by omega) hends

theorem callTail_of_phrase {callee : Tree.Callee} {args : List Tree.Expr} {ls : List Lexeme}
    (h : CallPhrase callee args ls) (hb : 4 * ls.length ≤ budget) :
    callTail budget (ls ++ rest) = some ((callee, args), rest) := by
  cases h with
  | direct hargs =>
      rw [List.length_cons] at hb
      simp [callTail, run_accept_of_ne, args_of_phrase hargs (by omega : _ ≤ budget)]
  | @indirect target _ us vs line htarget hargs =>
      simp only [List.length_cons, List.length_append] at hb
      obtain ⟨b, rfl⟩ : ∃ b, budget = b + 1 := ⟨budget - 1, by omega⟩
      have hends : EndsPlace (vs ++ rest) := by
        cases hargs <;> exact fun l hl => Option.some.inj hl ▸ ⟨nofun, nofun, nofun⟩
      have hprimary := primary_of_phrase htarget (by omega : _ ≤ b + 1) hends
      simp [callTail, run_accept, hprimary, args_of_phrase hargs (by omega : _ ≤ b + 1)]

/-- An expression does not begin with the reserved word of another definition. -/
theorem definition_of_begins {t : Token} (h : beginsExpr t = true) (dst : Tree.Name) (line : Nat)
    (ls : List Lexeme) :
    definition budget dst (⟨t, line⟩ :: ls) =
      (Tree.Statement.assign dst <$> expr budget) (⟨t, line⟩ :: ls) := by
  match t, h with
  | .digits _, _ | .word _, _ | .sign _, _ => rfl

theorem definition_of_phrase {dst : Tree.Name} {s : Tree.Statement} {ls : List Lexeme}
    (h : DefinitionPhrase dst s ls) (hb : 4 * ls.length + 2 ≤ budget) (hends : EndsExpr rest) :
    definition budget dst (ls ++ rest) = some (s, rest) := by
  obtain ⟨b, rfl⟩ : ∃ b, budget = b + 1 := ⟨budget - 1, by omega⟩
  cases h with
  | assign he =>
      have hexpr := expr_of_phrase he hb hends
      obtain ⟨l, us, rfl, hl⟩ := begins_exprPhrase he
      rw [List.cons_append] at hexpr ⊢
      rw [definition_of_begins hl, run_map, hexpr, Option.map_some]
  | load hp =>
      rw [List.length_cons] at hb
      simp [definition, place_of_phrase hp (by omega : _ ≤ b + 1) hends.1]
  | cast hty he =>
      simp only [List.length_cons, List.length_append] at hb
      simp [definition, sign, ty_of_phrase hty (by omega : _ ≤ b + 1),
        expr_of_phrase he (by omega : _ ≤ b + 1) hends]
  | call hcall =>
      rw [List.length_cons] at hb
      simp [definition, callTail_of_phrase hcall (by omega : _ ≤ b + 1)]

theorem statement_of_phrase {s : Tree.Statement} {ls : List Lexeme}
    (h : Ended StatementPhrase s ls) (hb : 4 * ls.length ≤ budget) :
    statement budget (ls ++ rest) = some (s, rest) := by
  cases h with
  | @semicolon us line h =>
  have hends : EndsExpr (⟨.sign .semicolon, line⟩ :: rest) :=
    endsExpr_sign (by decide) line rest
  obtain ⟨b, rfl⟩ : ∃ b, budget = b + 1 := ⟨budget - 1, by simp at hb; omega⟩
  have hbody : statementBody (b + 1) (us ++ ⟨.sign .semicolon, line⟩ :: rest) =
      some (s, ⟨.sign .semicolon, line⟩ :: rest) := by
    cases h with
    | define hdefinition =>
        simp only [List.length_cons, List.length_append] at hb
        simp [statementBody, sign, definition_of_phrase hdefinition (by omega : _ ≤ b + 1) hends]
    | store hp he =>
        simp only [List.length_cons, List.length_append] at hb
        have hplace (line : Nat) (ls : List Lexeme) := place_of_phrase hp (by omega : _ ≤ b + 1)
          (endsExpr_sign (by decide : Sign.comma ∈ _) line ls).1
        simp [statementBody, sign, hplace, expr_of_phrase he (by omega : _ ≤ b + 1) hends]
    | call hcall =>
        simp only [List.length_cons, List.length_append] at hb
        simp [statementBody, callTail_of_phrase hcall (by omega : _ ≤ b + 1)]
    | opaqueCode htouched =>
        simp only [List.length_cons, List.length_append] at hb
        have hnames (rest : List Lexeme) : parenthesised name (b + 1) (_ ++ rest) =
            some (_, rest) :=
          parenthesised_of_phrase htouched begins_namePhrase rfl (by omega) fun h _ _ => by
            cases h
            rfl
        simp [statementBody, hnames]
  simp [statement, hbody, sign]

theorem terminator_of_phrase {t : Tree.Terminator} {ls : List Lexeme}
    (h : Ended TerminatorPhrase t ls) (hb : 4 * ls.length ≤ budget) :
    terminator budget (ls ++ rest) = some (t, rest) := by
  cases h with
  | @semicolon us line h =>
  have hends : EndsExpr (⟨.sign .semicolon, line⟩ :: rest) :=
    endsExpr_sign (by decide) line rest
  have hbody : terminatorBody budget (us ++ ⟨.sign .semicolon, line⟩ :: rest) =
      some (t, ⟨.sign .semicolon, line⟩ :: rest) := by
    cases h with
    | jump => simp [terminatorBody]
    | branch he =>
        simp only [List.length_cons, List.length_append] at hb
        have hcondition (line : Nat) (ls : List Lexeme) := expr_of_phrase he
          (by omega : _ ≤ budget) (endsExpr_sign (by decide : Sign.comma ∈ _) line ls)
        simp [terminatorBody, sign, hcondition]
    | retVoid => simp [terminatorBody]
    | retValue he =>
        simp only [List.length_cons, List.length_append] at hb
        have hvalue := expr_of_phrase he (by omega : _ ≤ budget) hends
        obtain ⟨⟨t, line⟩, us, rfl, ht⟩ := begins_exprPhrase he
        have hne : t ≠ .sign .semicolon := by rintro rfl; exact absurd ht Bool.false_ne_true
        rw [List.cons_append] at hvalue
        simp [terminatorBody, hne, hvalue]
  simp [terminator, hbody, sign]

theorem block_of_phrase {b : Tree.Block} {ls : List Lexeme} (h : BlockPhrase b ls)
    (hb : 4 * ls.length ≤ budget) : block budget (ls ++ rest) = some (b, rest) := by
  cases h with
  | @block label statements terminator us vs line line' hstatements hterminator =>
  simp only [List.length_cons, List.length_append] at hb
  have hlast : ∀ l ∈ (vs ++ rest).head?, beginsStatement l.token = false := by
    obtain ⟨l, vs, rfl, hl⟩ := begins_terminatorPhrase hterminator
    exact fun m hm => Option.some.inj hm ▸ (Bool.not_eq_true' _ ▸ hl)
  have hbody := whileNext_of_phrase hstatements begins_statementPhrase hlast
    (by omega : _ < budget) fun rest h hle => statement_of_phrase h (by omega : _ ≤ budget)
  simp [block, sign, hbody, terminator_of_phrase hterminator (by omega : _ ≤ budget)]

/-! ## Functions -/

theorem declaration_of_phrase {d : Tree.Declaration} {ls : List Lexeme}
    (h : DeclarationPhrase d ls) (hb : ls.length ≤ budget) :
    declaration budget (ls ++ rest) = some (d, rest) := by
  cases h with
  | colon hty =>
      simp only [List.length_cons] at hb
      simp [declaration, sign, ty_of_phrase hty (by omega : _ ≤ budget)]

theorem localDeclaration_of_phrase {d : Tree.Declaration} {ls : List Lexeme}
    (h : Ended LocalPhrase d ls) (hb : ls.length ≤ budget) :
    localDeclaration budget (ls ++ rest) = some (d, rest) := by
  cases h with
  | semicolon h =>
  cases h with
  | declare h =>
      simp only [List.length_cons, List.length_append] at hb
      simp [localDeclaration, keyword, sign, declaration_of_phrase h (by omega : _ ≤ budget)]

theorem function_of_phrase {f : Tree.Function} {ls : List Lexeme} (h : FunctionPhrase f ls)
    (hb : 4 * ls.length ≤ budget) : function budget (ls ++ rest) = some (f, rest) := by
  obtain ⟨name, params, returns, locals, blocks⟩ := f
  cases h with
  | @function ps rs vs bs line line₁ line₂ line₃ hparams hreturns hlocals hblocks =>
  simp only [List.length_cons, List.length_append] at hb
  have hps (rest : List Lexeme) :
      parenthesised (declaration budget) budget (ps ++ rest) = some (params, rest) :=
    parenthesised_of_phrase hparams begins_declarationPhrase rfl (by omega)
      fun h hlt _ => declaration_of_phrase h (by omega)
  have hvs : whileNext (· = .keyword .let) (localDeclaration budget) budget
      (vs ++ (bs ++ ⟨.sign .closeBrace, line₃⟩ :: rest)) =
        some (locals, bs ++ ⟨.sign .closeBrace, line₃⟩ :: rest) := by
    refine whileNext_of_phrase hlocals begins_localPhrase ?_ (by omega)
      fun rest h hle => localDeclaration_of_phrase h (by omega)
    cases hblocks with
    | nil => exact fun l hl => Option.some.inj hl ▸ rfl
    | cons h _ => cases h; exact fun l hl => Option.some.inj hl ▸ rfl
  have hbs {test : Token → Bool} (hword : ∀ text, test (.word text) = true)
      (hclose : test (.sign .closeBrace) = false) : whileNext test (block budget) budget
        (bs ++ ⟨.sign .closeBrace, line₃⟩ :: rest) =
          some (blocks, ⟨.sign .closeBrace, line₃⟩ :: rest) :=
    whileNext_of_phrase hblocks (begins_blockPhrase hword)
      (fun l hl => Option.some.inj hl ▸ hclose) (by omega)
      fun rest h hle => block_of_phrase h (by omega)
  cases hreturns with
  | none => simp [function, keyword, sign, hps, run_accept_of_ne, hvs, hbs]
  | arrow hty =>
      simp only [List.length_cons] at hb
      simp [function, keyword, sign, hps, run_accept, ty_of_phrase hty (by omega : _ ≤ budget),
        hvs, hbs]

end TaintAnalysis.Source.Parser

namespace TaintAnalysis.Source

/-- A sequence of phrases of functions is parsed as these functions. -/
theorem Tree.parseTokens_of_phrase {fs : List Tree.Function} {ls : List Lexeme}
    (h : Repeated FunctionPhrase fs ls) : Tree.parseTokens ls = some fs := by
  have hfs : Parser.whileNext (fun _ => true) (Parser.function (4 * ls.length + 4))
      (4 * ls.length + 4) (ls ++ []) = some (fs, []) :=
    Parser.whileNext_of_phrase h Parser.begins_functionPhrase (fun l hl => nomatch hl) (by omega)
      fun rest h hle => Parser.function_of_phrase h (by omega)
  rw [List.append_nil] at hfs
  rw [Tree.parseTokens, StateT.run, hfs]
  rfl

end TaintAnalysis.Source
