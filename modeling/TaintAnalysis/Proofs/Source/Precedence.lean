import TaintAnalysis.Proofs.Source.Derivation
import TaintAnalysis.Proofs.Source.RoundTrip

/-!
# Which operands an operator takes

The table of the operators decides how a text without parentheses is read. `Scope.Reads`
says so without a parser: the tokens of an operation are those of its left operand, the
sign of the operator and those of its right operand, and neither operand may be an
operation that binds too loosely for where it stands, unless it is in parentheses. A
text is read as an expression if and only if its tokens are related to the expression in
this way.

So it is enough to put parentheses where the table asks for them: what `Expr.brief`
writes is read as the same expression.
-/

namespace TaintAnalysis

open Source

namespace Source

/-! ## Reading an expression -/

/-- The expression that a whole text is. -/
def Tree.parseExpr (text : String) : Option Tree.Expr :=
  (scan text).bind fun ls =>
    ((Parser.expr (4 * ls.length + 4)).run ls).bind fun (e, rest) =>
      if rest.isEmpty then some e else none

/-- The expression that a text stands for in a scope. -/
def Scope.exprOfSource (s : Scope) (text : String) : Except SourceError TaintAnalysis.Expr :=
  match Tree.parseExpr text with
  | some e => s.expr e
  | none => .error .malformed

mutual

/-- The tokens are the operands and operators of the expression, in order. Outside of parentheses
no operator of two operands binds less tightly than the level. -/
inductive Scope.Reads (s : Scope) : Nat → TaintAnalysis.Expr → List Token → Prop where
  | const {level n : Nat} {written : String} : Nat.ofDigitChars 10 written.toList 0 = n →
      n ≤ maxConstant → Reads s level (.const (Int64.ofNat n)) [.digits written]
  | var {level : Nat} {v : VarId} {name : String} : s.function.varNamed? name = some v →
      Reads s level (.var v) [.word name]
  | addrOf {level : Nat} {p : Place} {ts : List Token} : ReadsPlace s p ts →
      Reads s level (.addrOf p) (.sign .amp :: ts)
  -- no operator of two operands has the level 11
  | unary {level : Nat} {e : TaintAnalysis.Expr} {ts : List Token} (op : UnOp) : Reads s 11 e ts →
      Reads s level (.unary op e) (.sign op.sign :: ts)
  | binary {level : Nat} {l r : TaintAnalysis.Expr} {ts us : List Token} (op : BinOp) :
      level ≤ op.level → Reads s op.level l ts → Reads s (op.level + 1) r us →
        Reads s level (.binary op l r) (ts ++ .sign op.sign :: us)
  | group {level : Nat} {e : TaintAnalysis.Expr} {ts : List Token} : Reads s 0 e ts →
      Reads s level e (.sign .openParen :: (ts ++ [.sign .closeParen]))

/-- The tokens of a place that elements and fields can be taken of. -/
inductive Scope.ReadsStem (s : Scope) : Place → List Token → Prop where
  | var {v : VarId} {name : String} : s.function.varNamed? name = some v →
      ReadsStem s (.var v) [.word name]
  | group {p : Place} {ts : List Token} : ReadsPlace s p ts →
      ReadsStem s p (.sign .openParen :: (ts ++ [.sign .closeParen]))
  | index {p : Place} {e : TaintAnalysis.Expr} {ts us : List Token} : ReadsStem s p ts →
      Reads s 0 e us →
        ReadsStem s (.index p e) (ts ++ .sign .openBracket :: (us ++ [.sign .closeBracket]))
  | field {p : Place} {name : String} {ts : List Token} : ReadsStem s p ts →
      ReadsStem s (.field p name) (ts ++ [.sign .dot, .word name])
  | arrow {p : Place} {name : String} {ts : List Token} : ReadsStem s p ts →
      ReadsStem s (.field (.deref p) name) (ts ++ [.sign .arrow, .word name])

/-- The tokens of a place. Stars in front apply after everything behind. -/
inductive Scope.ReadsPlace (s : Scope) : Place → List Token → Prop where
  | stem {p : Place} {ts : List Token} : ReadsStem s p ts → ReadsPlace s p ts
  | deref {p : Place} {ts : List Token} : ReadsPlace s p ts →
      ReadsPlace s (.deref p) (.sign .star :: ts)

end

/-! ## From phrases to readings -/

theorem Tree.parseExpr_iff {text : String} {e : Tree.Expr} :
    Tree.parseExpr text = some e ↔ ∃ ls, scan text = some ls ∧ ExprPhrase 0 e ls := by
  constructor
  · intro h
    obtain ⟨ls, hls, h⟩ := Option.bind_eq_some_iff.mp h
    obtain ⟨⟨e', rest⟩, he, hend⟩ := Option.bind_eq_some_iff.mp h
    obtain ⟨us, rfl, hus⟩ := (Parser.terms_derive _).expr he
    cases rest with
    | nil =>
        obtain rfl : e' = e := Option.some.inj hend
        exact ⟨_, hls, by rwa [List.append_nil]⟩
    | cons l rest => exact nomatch hend
  · rintro ⟨ls, hls, he⟩
    have hends : Parser.EndsExpr [] := by simp [Parser.EndsExpr, Parser.EndsPlace]
    have hrun : Parser.expr (4 * ls.length + 4) (ls ++ []) = some (e, []) :=
      Parser.expr_of_phrase he (by omega) hends
    rw [List.append_nil] at hrun
    rw [parseExpr, hls, Option.bind_some, StateT.run, hrun]
    rfl

theorem sign_of_binOp? {t : Token} {op : BinOp} (h : Parser.binOp? t = some op) :
    t = .sign op.sign := by
  rw [Parser.binOp?.eq_def] at h
  split at h <;> cases h <;> rfl

theorem sign_of_unOp? {t : Token} {op : UnOp} (h : Parser.unOp? t = some op) :
    t = .sign op.sign := by
  rw [Parser.unOp?.eq_def] at h
  split at h <;> cases h <;> rfl

theorem BinOp.level_lt (op : BinOp) : op.level < 11 := by
  cases op <;> decide

/-- Where no operator of two operands is tight enough, there is only an operand. -/
theorem ExprPhrase.operand_of_tightest {e : Tree.Expr} {ls : List Lexeme}
    (h : ExprPhrase 11 e ls) : OperandPhrase e ls := by
  cases h with
  | operand h => exact h
  | binary _ hlevel => exact absurd (BinOp.level_lt _) (Nat.not_lt.mpr hlevel)

section

variable {s : Scope}

theorem varNamed?_of_var {n : Tree.Name} {v : VarId} (h : s.var n = .ok v) :
    s.function.varNamed? n.text = some v := by
  rw [Scope.var] at h
  split at h
  · next hv => exact Except.ok.inj h ▸ hv
  · cases h

mutual

theorem reads_of_primary : ∀ {t : Tree.Expr} {e : TaintAnalysis.Expr} {ls : List Lexeme},
    PrimaryPhrase t ls → s.expr t = .ok e → ∀ level, s.Reads level e (ls.map (·.token))
  | _, e, _, .int, h, _ => by
      rw [Scope.expr] at h
      obtain ⟨n, hn, h⟩ := bind_eq_ok h
      obtain rfl := Except.ok.inj h
      rw [Tree.Digits.upTo] at hn
      split at hn
      · next hle =>
        obtain rfl := Except.ok.inj hn
        exact .const rfl hle
      · exact nomatch hn
  | _, e, _, .var, h, _ => by
      rw [Scope.expr] at h
      obtain ⟨v, hv, h⟩ := bind_eq_ok h
      obtain rfl := Except.ok.inj h
      exact .var (varNamed?_of_var hv)
  | _, e, _, .addrOf hp, h, _ => by
      rw [Scope.expr] at h
      obtain ⟨p, hplace, h⟩ := bind_eq_ok h
      obtain rfl := Except.ok.inj h
      exact .addrOf (readsPlace_of_phrase hp hplace)
  | _, e, _, .group he, h, _ => by
      rw [Scope.expr] at h
      simpa using Scope.Reads.group (reads_of_phrase he h)

theorem reads_of_operand : ∀ {t : Tree.Expr} {e : TaintAnalysis.Expr} {ls : List Lexeme},
    OperandPhrase t ls → s.expr t = .ok e → ∀ level, s.Reads level e (ls.map (·.token))
  | _, _, _, .primary h, he, level => reads_of_primary h he level
  | _, e, _, .unary hop h, he, level => by
      rw [Scope.expr] at he
      obtain ⟨e', he', he⟩ := bind_eq_ok he
      obtain rfl := Except.ok.inj he
      rw [List.map_cons, sign_of_unOp? hop]
      exact .unary _ (reads_of_operand h he' 11)

theorem reads_of_phrase : ∀ {level : Nat} {t : Tree.Expr} {e : TaintAnalysis.Expr}
    {ls : List Lexeme}, ExprPhrase level t ls → s.expr t = .ok e →
      s.Reads level e (ls.map (·.token))
  | level, _, _, _, .operand h, he => reads_of_operand h he level
  | _, _, e, _, .binary hop hlevel hl hr, he => by
      rw [Scope.expr] at he
      obtain ⟨left, hleft, he⟩ := bind_eq_ok he
      obtain ⟨right, hright, he⟩ := bind_eq_ok he
      obtain rfl := Except.ok.inj he
      rw [List.map_append, List.map_cons, sign_of_binOp? hop]
      exact .binary _ hlevel (reads_of_phrase hl hleft) (reads_of_phrase hr hright)

theorem readsStem_of_phrase : ∀ {t : Tree.Place} {p : Place} {ls : List Lexeme},
    StemPhrase t ls → s.place t = .ok p → s.ReadsStem p (ls.map (·.token))
  | _, _, _, .var, h => by
      rw [Scope.place] at h
      obtain ⟨v, hv, h⟩ := bind_eq_ok h
      obtain rfl := Except.ok.inj h
      exact .var (varNamed?_of_var hv)
  | _, _, _, .group hp, h => by simpa using Scope.ReadsStem.group (readsPlace_of_phrase hp h)
  | _, _, _, .index hp he, h => by
      rw [Scope.place] at h
      obtain ⟨p, hplace, h⟩ := bind_eq_ok h
      obtain ⟨e, hexpr, h⟩ := bind_eq_ok h
      obtain rfl := Except.ok.inj h
      simpa using
        Scope.ReadsStem.index (readsStem_of_phrase hp hplace) (reads_of_phrase he hexpr)
  | _, _, _, .field hp, h => by
      rw [Scope.place] at h
      obtain ⟨p, hplace, h⟩ := bind_eq_ok h
      obtain rfl := Except.ok.inj h
      simpa using Scope.ReadsStem.field (readsStem_of_phrase hp hplace)
  | _, _, _, .arrow hp, h => by
      rw [Scope.place, Scope.place] at h
      obtain ⟨p, hplace, h⟩ := bind_eq_ok h
      obtain ⟨p', hplace', hplace⟩ := bind_eq_ok hplace
      obtain rfl := Except.ok.inj hplace
      obtain rfl := Except.ok.inj h
      simpa using Scope.ReadsStem.arrow (readsStem_of_phrase hp hplace')

theorem readsPlace_of_phrase : ∀ {t : Tree.Place} {p : Place} {ls : List Lexeme},
    PlacePhrase t ls → s.place t = .ok p → s.ReadsPlace p (ls.map (·.token))
  | _, _, _, .stem hp, h => .stem (readsStem_of_phrase hp h)
  | _, _, _, .deref hp, h => by
      rw [Scope.place] at h
      obtain ⟨p, hplace, h⟩ := bind_eq_ok h
      obtain rfl := Except.ok.inj h
      exact .deref (readsPlace_of_phrase hp hplace)

end

/-! ## From readings to phrases -/

theorem append_of_map_eq {ls : List Lexeme} {ts us : List Token} {t : Token}
    (h : ls.map (·.token) = ts ++ t :: us) :
    ∃ as line bs, ls = as ++ ⟨t, line⟩ :: bs ∧ as.map (·.token) = ts ∧ bs.map (·.token) = us := by
  obtain ⟨as, rest, rfl, has, hrest⟩ := List.map_eq_append_iff.mp h
  obtain ⟨⟨t', line⟩, bs, rfl, rfl, hbs⟩ := List.map_eq_cons_iff.mp hrest
  exact ⟨as, line, bs, rfl, has, hbs⟩

theorem cons_of_map_eq {ls : List Lexeme} {us : List Token} {t : Token}
    (h : ls.map (·.token) = t :: us) :
    ∃ line bs, ls = ⟨t, line⟩ :: bs ∧ bs.map (·.token) = us := by
  obtain ⟨⟨t', line⟩, bs, rfl, rfl, hbs⟩ := List.map_eq_cons_iff.mp h
  exact ⟨line, bs, rfl, hbs⟩

theorem var_of_varNamed? {name : String} {v : VarId} (h : s.function.varNamed? name = some v)
    (line : Nat) : s.var ⟨name, line⟩ = .ok v := by
  rw [Scope.var, h]

mutual

theorem phrase_of_reads : ∀ {level : Nat} {e : TaintAnalysis.Expr} {ts : List Token},
    s.Reads level e ts → ∀ {ls : List Lexeme}, ls.map (·.token) = ts →
      ∃ t, ExprPhrase level t ls ∧ s.expr t = .ok e
  | _, _, _, .const hvalue hle, ls, h => by
      obtain ⟨line, bs, rfl, hbs⟩ := cons_of_map_eq h
      obtain rfl := List.map_eq_nil_iff.mp hbs
      refine ⟨.int ⟨_, line⟩, .operand (.primary .int), ?_⟩
      rw [Scope.expr, Tree.Digits.upTo, hvalue, if_pos hle]
      rfl
  | _, _, _, .var hv, ls, h => by
      obtain ⟨line, bs, rfl, hbs⟩ := cons_of_map_eq h
      obtain rfl := List.map_eq_nil_iff.mp hbs
      refine ⟨.var ⟨_, line⟩, .operand (.primary .var), ?_⟩
      rw [Scope.expr, var_of_varNamed? hv]
      rfl
  | _, _, _, .addrOf hp, ls, h => by
      obtain ⟨line, bs, rfl, hbs⟩ := cons_of_map_eq h
      obtain ⟨t, ht, hplace⟩ := placePhrase_of_reads hp hbs
      refine ⟨.addrOf t, .operand (.primary (.addrOf ht)), ?_⟩
      rw [Scope.expr, hplace]
      rfl
  | _, _, _, .unary op he, ls, h => by
      obtain ⟨line, bs, rfl, hbs⟩ := cons_of_map_eq h
      obtain ⟨t, ht, hexpr⟩ := phrase_of_reads he hbs
      refine ⟨.unary op t, .operand (.unary (unOp?_sign op) ht.operand_of_tightest), ?_⟩
      rw [Scope.expr, hexpr]
      rfl
  | _, _, _, .binary op hlevel hl hr, ls, h => by
      obtain ⟨as, line, bs, rfl, has, hbs⟩ := append_of_map_eq h
      obtain ⟨t, ht, hleft⟩ := phrase_of_reads hl has
      obtain ⟨u, hu, hright⟩ := phrase_of_reads hr hbs
      refine ⟨.binary op t u, .binary (binOp?_sign op) hlevel ht hu, ?_⟩
      rw [Scope.expr, hleft, hright]
      rfl
  | _, _, _, .group he, ls, h => by
      obtain ⟨line, bs, rfl, hbs⟩ := cons_of_map_eq h
      obtain ⟨as, line', cs, rfl, has, hcs⟩ := append_of_map_eq hbs
      obtain rfl := List.map_eq_nil_iff.mp hcs
      obtain ⟨t, ht, hexpr⟩ := phrase_of_reads he has
      refine ⟨.group t, .operand (.primary (.group ht)), ?_⟩
      rwa [Scope.expr]

theorem stemPhrase_of_reads : ∀ {p : Place} {ts : List Token}, s.ReadsStem p ts →
    ∀ {ls : List Lexeme}, ls.map (·.token) = ts → ∃ t, StemPhrase t ls ∧ s.place t = .ok p
  | _, _, .var hv, ls, h => by
      obtain ⟨line, bs, rfl, hbs⟩ := cons_of_map_eq h
      obtain rfl := List.map_eq_nil_iff.mp hbs
      refine ⟨.var ⟨_, line⟩, .var, ?_⟩
      rw [Scope.place, var_of_varNamed? hv]
      rfl
  | _, _, .group hp, ls, h => by
      obtain ⟨line, bs, rfl, hbs⟩ := cons_of_map_eq h
      obtain ⟨as, line', cs, rfl, has, hcs⟩ := append_of_map_eq hbs
      obtain rfl := List.map_eq_nil_iff.mp hcs
      obtain ⟨t, ht, hplace⟩ := placePhrase_of_reads hp has
      exact ⟨t, .group ht, hplace⟩
  | _, _, .index hp he, ls, h => by
      obtain ⟨as, line, bs, rfl, has, hbs⟩ := append_of_map_eq h
      obtain ⟨as', line', cs, rfl, has', hcs⟩ := append_of_map_eq hbs
      obtain rfl := List.map_eq_nil_iff.mp hcs
      obtain ⟨t, ht, hplace⟩ := stemPhrase_of_reads hp has
      obtain ⟨u, hu, hexpr⟩ := phrase_of_reads he has'
      refine ⟨.index t u, .index ht hu, ?_⟩
      rw [Scope.place, hplace, hexpr]
      rfl
  | _, _, .field hp, ls, h => by
      obtain ⟨as, line, bs, rfl, has, hbs⟩ := append_of_map_eq h
      obtain ⟨line', cs, rfl, hcs⟩ := cons_of_map_eq hbs
      obtain rfl := List.map_eq_nil_iff.mp hcs
      obtain ⟨t, ht, hplace⟩ := stemPhrase_of_reads hp has
      refine ⟨.field t _, .field ht, ?_⟩
      rw [Scope.place, hplace]
      rfl
  | _, _, .arrow hp, ls, h => by
      obtain ⟨as, line, bs, rfl, has, hbs⟩ := append_of_map_eq h
      obtain ⟨line', cs, rfl, hcs⟩ := cons_of_map_eq hbs
      obtain rfl := List.map_eq_nil_iff.mp hcs
      obtain ⟨t, ht, hplace⟩ := stemPhrase_of_reads hp has
      refine ⟨.field (.deref t) _, .arrow ht, ?_⟩
      rw [Scope.place, Scope.place, hplace]
      rfl

theorem placePhrase_of_reads : ∀ {p : Place} {ts : List Token}, s.ReadsPlace p ts →
    ∀ {ls : List Lexeme}, ls.map (·.token) = ts → ∃ t, PlacePhrase t ls ∧ s.place t = .ok p
  | _, _, .stem hp, ls, h => by
      obtain ⟨t, ht, hplace⟩ := stemPhrase_of_reads hp h
      exact ⟨t, .stem ht, hplace⟩
  | _, _, .deref hp, ls, h => by
      obtain ⟨line, bs, rfl, hbs⟩ := cons_of_map_eq h
      obtain ⟨t, ht, hplace⟩ := placePhrase_of_reads hp hbs
      refine ⟨.deref t, .deref ht, ?_⟩
      rw [Scope.place, hplace]
      rfl

end

end

theorem Scope.exprOfSource_iff {s : Scope} {text : String} {e : TaintAnalysis.Expr} :
    s.exprOfSource text = .ok e ↔
      ∃ ls, scan text = some ls ∧ s.Reads 0 e (ls.map (·.token)) := by
  constructor
  · intro h
    rw [exprOfSource] at h
    split at h
    · next t ht =>
      obtain ⟨ls, hls, hphrase⟩ := Tree.parseExpr_iff.mp ht
      exact ⟨ls, hls, reads_of_phrase hphrase h⟩
    · exact nomatch h
  · rintro ⟨ls, hls, hreads⟩
    obtain ⟨t, hphrase, he⟩ := phrase_of_reads hreads rfl
    rw [exprOfSource, Tree.parseExpr_iff.mpr ⟨ls, hls, hphrase⟩]
    exact he

end Source

/-! ## Writing an expression -/

mutual

/-- The text of an expression with no more parentheses around its operations than the table of the
operators asks for, where operators of the level and of tighter ones may stand. -/
def Expr.brief (names : VarId → String) (level : Nat) : Expr → String
  | .var v => names v
  | .const value => toString value.toInt
  | .unary op e => op.symbol ++ e.brief names 11
  | .binary op l r =>
      let text := l.brief names op.level ++ " " ++ op.symbol ++ " " ++ r.brief names (op.level + 1)
      if level ≤ op.level then text else "(" ++ text ++ ")"
  | .addrOf p => "&" ++ p.brief names

/-- The text of a place. A dereference is parenthesised. -/
def Place.brief (names : VarId → String) : Place → String
  | .var v => names v
  | .deref p => "(*" ++ p.brief names ++ ")"
  | .index p e => p.brief names ++ "[" ++ e.brief names 0 ++ "]"
  | .field p name => p.brief names ++ "." ++ name

end

/-- The variables up to a number are declared, under the names that they are called by. -/
def Source.Scope.Declares (s : Scope) (names : VarId → String) (count : Nat) : Prop :=
  ∀ v < count, IsName (names v) ∧ s.function.varNamed? (names v) = some v

section

variable {names : VarId → String} {count : Nat} {c : Char} {rest : List Char}

theorem IsName.head {name : String} (h : IsName name) (hc : c ∈ (name.toList ++ rest).head?) :
    isWordStart c = true := by
  have hword := h.1
  rw [isWord] at hword
  split at hword
  · exact absurd hword Bool.false_ne_true
  · next d ds hname =>
    rw [hname] at hc
    obtain rfl : d = c := Option.some.inj hc
    exact (Bool.and_eq_true_iff.mp hword).1

theorem ofDigitChars_toString (n : Nat) : Nat.ofDigitChars 10 (toString n).toList 0 = n := by
  simp

theorem Expr.head_brief (hnames : ∀ v < count, IsName (names v)) :
    ∀ {e : Expr} {level : Nat} {rest : List Char}, e.Printable count →
      c ∈ ((e.brief names level).toList ++ rest).head? → c ≠ '>' ∧ c ≠ '='
  | .var v, _, _, h, hc => by
      have hstart := IsName.head (hnames v h) hc
      constructor <;> rintro rfl <;> exact absurd hstart (by decide)
  | .const value, _, _, h, hc => by
      rw [brief, toString_const h] at hc
      cases hdigits : (toString value.toInt.toNat).toList with
      | nil => exact absurd hdigits (toString_ne_nil _)
      | cons d ds =>
          have hd : d.isDigit = true := isDigit_of_mem_toString (hdigits ▸ List.mem_cons_self)
          obtain rfl : d = c := Option.some.inj (by rwa [hdigits] at hc)
          constructor <;> rintro rfl <;> exact absurd hd (by decide)
  | .unary op e, _, _, _, hc => by
      cases op <;> simp [brief, UnOp.symbol] at hc <;> subst hc <;> decide
  | .binary op l r, level, rest, h, hc => by
      rw [brief] at hc
      split at hc
      · simp only [String.toList_append, List.append_assoc] at hc
        exact Expr.head_brief hnames h.1 hc
      · simp at hc
        subst hc
        decide
  | .addrOf p, _, _, _, hc => by
      simp [brief] at hc
      subst hc
      decide

theorem Place.head_brief (hnames : ∀ v < count, IsName (names v)) :
    ∀ {p : Place} {rest : List Char}, p.Printable count →
      c ∈ ((p.brief names).toList ++ rest).head? → c ≠ '&'
  | .var v, _, h, hc => by
      rintro rfl
      exact absurd (IsName.head (hnames v h) hc) (by decide)
  | .deref p, _, _, hc => by
      simp [brief] at hc
      subst hc
      decide
  | .index p e, rest, h, hc => by
      simp only [brief, String.toList_append, List.append_assoc] at hc
      exact Place.head_brief hnames h.1 hc
  | .field p name, rest, h, hc => by
      simp only [brief, String.toList_append, List.append_assoc] at hc
      exact Place.head_brief hnames h.1 hc

end

section

variable {s : Scope} {names : VarId → String} {count : Nat}

mutual

/-- What is written is split into tokens that are read as the expression. -/
theorem Expr.spells_brief (hs : s.Declares names count) : ∀ {e : Expr} (level : Nat),
    e.Printable count → ∃ ts, Spells (e.brief names level).toList ts ∧ s.Reads level e ts
  | .var v, _, he =>
      have ⟨hname, hv⟩ := hs v he
      ⟨[.word (names v)], fun _ _ _ hends h => .name hname hends h, .var hv⟩
  | .const value, level, he => by
      obtain ⟨hle, hvalue⟩ := Scope.Numbers.const_ofNat he
      have hreads : s.Reads level (.const (Int64.ofNat value.toInt.toNat))
          [.digits (toString value.toInt.toNat)] :=
        .const (ofDigitChars_toString _) hle
      rw [hvalue] at hreads
      refine ⟨_, fun _ _ _ hends h => ?_, hreads⟩
      rw [Expr.brief, Expr.toString_const he]
      exact .digits _ hends h
  | .unary op e, _, he => by
      obtain ⟨ts, hts, hreads⟩ := Expr.spells_brief hs (e := e) 11 he
      refine ⟨.sign op.sign :: ts, fun line rest tail hends h => ?_, .unary op hreads⟩
      have hext (c : Char) (hc : c ∈ ((e.brief names 11).toList ++ rest).head?) :
          op.sign.extendedBy c = false := by
        obtain ⟨harrow, heq⟩ := Expr.head_brief (e := e) (fun v hv => (hs v hv).1) he hc
        cases op <;> simp [UnOp.sign, Sign.extendedBy, harrow, heq]
      simpa [Expr.brief, UnOp.toList_symbol] using Scans.sign op.sign hext (hts hends h)
  | .binary op l r, level, he => by
      obtain ⟨ts, hts, hleft⟩ := Expr.spells_brief hs (e := l) op.level he.1
      obtain ⟨us, hus, hright⟩ := Expr.spells_brief hs (e := r) (op.level + 1) he.2
      have hspells : Spells ((l.brief names op.level ++ " " ++ op.symbol ++ " " ++
          r.brief names (op.level + 1)).toList) (ts ++ .sign op.sign :: us) := by
        intro line rest tail hends h
        have hop := Scans.blank (.spaced op.sign (hus hends h))
        simpa [BinOp.toList_symbol] using hts (ends_cons (by decide)) hop
      by_cases hlevel : level ≤ op.level
      · refine ⟨_, ?_, .binary op hlevel hleft hright⟩
        rwa [Expr.brief, if_pos hlevel]
      · refine ⟨_, fun line rest tail hends h => ?_, .group (.binary op (Nat.zero_le _) hleft hright)⟩
        have hclose := Scans.lone .closeParen rfl (fun _ => rfl) h
        have hinner := hspells (ends_cons (by decide)) hclose
        have hopen := Scans.lone .openParen rfl (fun _ => rfl) hinner
        rw [Expr.brief, if_neg hlevel]
        simpa using hopen
  | .addrOf p, _, he => by
      obtain ⟨ts, hts, hreads⟩ := Place.spells_brief hs (p := p) he
      refine ⟨.sign .amp :: ts, fun line rest tail hends h => ?_, .addrOf (.stem hreads)⟩
      have hext (c : Char) (hc : c ∈ ((p.brief names).toList ++ rest).head?) :
          Sign.amp.extendedBy c = false := by
        simp [Sign.extendedBy, Place.head_brief (p := p) (fun v hv => (hs v hv).1) he hc]
      simpa [Expr.brief, Sign.spelling] using Scans.sign .amp hext (hts hends h)

theorem Place.spells_brief (hs : s.Declares names count) : ∀ {p : Place},
    p.Printable count → ∃ ts, Spells (p.brief names).toList ts ∧ s.ReadsStem p ts
  | .var v, hp =>
      have ⟨hname, hv⟩ := hs v hp
      ⟨[.word (names v)], fun _ _ _ hends h => .name hname hends h, .var hv⟩
  | .deref p, hp => by
      obtain ⟨ts, hts, hreads⟩ := Place.spells_brief hs (p := p) hp
      refine ⟨_, fun line rest tail hends h => ?_, .group (.deref (.stem hreads))⟩
      have hclose := Scans.lone .closeParen rfl (fun _ => rfl) h
      have hstar := Scans.lone .star rfl (fun _ => rfl) (hts (ends_cons (by decide)) hclose)
      simpa [Place.brief] using Scans.lone .openParen rfl (fun _ => rfl) hstar
  | .index p e, hp => by
      obtain ⟨ts, hts, hreads⟩ := Place.spells_brief hs (p := p) hp.1
      obtain ⟨us, hus, hposition⟩ := Expr.spells_brief hs (e := e) 0 hp.2
      refine ⟨_, fun line rest tail hends h => ?_, .index hreads hposition⟩
      have hclose := Scans.lone .closeBracket rfl (fun _ => rfl) h
      have hopen := Scans.lone .openBracket rfl (fun _ => rfl) (hus (ends_cons (by decide)) hclose)
      simpa [Place.brief] using hts (ends_cons (by decide)) hopen
  | .field p name, hp => by
      obtain ⟨ts, hts, hreads⟩ := Place.spells_brief hs (p := p) hp.1
      refine ⟨_, fun line rest tail hends h => ?_, .field hreads⟩
      have hdot := Scans.lone .dot rfl (fun _ => rfl) (.name hp.2 hends h)
      simpa [Place.brief] using hts (ends_cons (by decide)) hdot

end

end

/-- Some text is split into the tokens of an expression in at most one way. -/
theorem Source.Scope.Reads.unique {s : Scope} {e e' : Expr} {ts : List Token}
    (h : s.Reads 0 e ts) (h' : s.Reads 0 e' ts) : e = e' := by
  have hends : Parser.EndsExpr [] := by simp [Parser.EndsExpr, Parser.EndsPlace]
  have htokens : (onLine 1 ts).map (·.token) = ts := by simp [onLine, Function.comp_def]
  obtain ⟨t, ht, he⟩ := phrase_of_reads h htokens
  obtain ⟨t', ht', he'⟩ := phrase_of_reads h' htokens
  have hrun := Parser.expr_of_phrase ht (Nat.le_refl _) hends
  rw [Parser.expr_of_phrase ht' (Nat.le_refl _) hends] at hrun
  obtain rfl : t' = t := congrArg Prod.fst (Option.some.inj hrun)
  exact Except.ok.inj (he.symm.trans he')

/-- The variables of a function are called by their names, if these are different. -/
theorem Source.Scope.declares_varName {s : Scope}
    (hdistinct : (s.function.vars.map (·.name)).Nodup)
    (hnames : ∀ x ∈ s.function.vars, IsName x.name) :
    s.Declares s.function.varName s.function.vars.length := by
  intro v hv
  have hname : s.function.varName v = s.function.vars[v].name := by
    rw [Function.varName, Function.var?, List.getElem?_eq_getElem hv]
    rfl
  rw [hname]
  refine ⟨hnames _ (List.getElem_mem hv), ?_⟩
  rw [Function.varNamed?, List.findIdx?_eq_some_iff_getElem]
  refine ⟨hv, decide_eq_true rfl, fun w hw heq => ?_⟩
  have hlength : v < (s.function.vars.map (·.name)).length := by rwa [List.length_map]
  have hsame : (s.function.vars.map (·.name))[w] = (s.function.vars.map (·.name))[v] := by
    simpa using heq
  exact hw.ne ((hdistinct.getElem_inj_iff ).mp hsame)

/-- A text is read as an expression if and only if it consists of the operands and operators of the
expression in order, where the table of the operators and parentheses say what belongs together.
No tokens are those of two expressions, and what is written with parentheses only where the table
asks for them is read as what was written. -/
theorem Source.Scope.exprOfSource_precedence (s : Scope) :
    (∀ text e, s.exprOfSource text = .ok e ↔
      ∃ ls, scan text = some ls ∧ s.Reads 0 e (ls.map (·.token))) ∧
    (∀ ts e e', s.Reads 0 e ts → s.Reads 0 e' ts → e = e') ∧
    ((s.function.vars.map (·.name)).Nodup → (∀ x ∈ s.function.vars, IsName x.name) →
      ∀ e : Expr, e.Printable s.function.vars.length →
        s.exprOfSource (e.brief s.function.varName 0) = .ok e) := by
  refine ⟨fun _ _ => exprOfSource_iff, fun _ _ _ => Reads.unique, fun hdistinct hnames e he => ?_⟩
  obtain ⟨ts, hts, hreads⟩ := Expr.spells_brief (declares_varName hdistinct hnames) 0 he
  have hends : Ends [] := fun _ h => nomatch h
  have hscan : scan (e.brief s.function.varName 0) = some (onLine 1 ts) :=
    scan_of_scans (by simpa using hts hends Scans.nil)
  refine exprOfSource_iff.mpr ⟨_, hscan, ?_⟩
  simpa [onLine, Function.comp_def] using hreads

/-- A function with two parameters. -/
def Source.Scope.ofTwo : Scope where
  function :=
    { Function.new "f" with vars := [⟨"a", .int 32, .param⟩, ⟨"b", .int 32, .param⟩] }
  labels := .empty

/-- An operation that needs parentheses in two places. -/
def Expr.guarded : Expr :=
  .binary .logicalAnd
    (.unary .not
      (.binary .eq (.binary .add (.var 0) (.binary .mul (.var 1) (.const 2))) (.const 7)))
    (.binary .sub (.var 0) (.binary .sub (.var 1) (.var 0)))

theorem Expr.brief_guarded :
    guarded.brief Source.Scope.ofTwo.function.varName 0 =
      "!(a + b * 2 == 7) && a - (b - a)" := by
  decide +kernel

theorem Source.Scope.exprOfSource_precedence_guarded :
    ((ofTwo.function.vars.map (·.name)).Nodup ∧ (∀ x ∈ ofTwo.function.vars, IsName x.name) ∧
      Expr.guarded.Printable ofTwo.function.vars.length) ∧
    ofTwo.exprOfSource "!(a + b * 2 == 7) && a - (b - a)" = .ok Expr.guarded := by
  have hdistinct : (ofTwo.function.vars.map (·.name)).Nodup := by decide
  have hnames : ∀ x ∈ ofTwo.function.vars, IsName x.name := by decide +kernel
  have hprintable : Expr.guarded.Printable ofTwo.function.vars.length := by decide +kernel
  refine ⟨⟨hdistinct, hnames, hprintable⟩, ?_⟩
  rw [← Expr.brief_guarded]
  exact (exprOfSource_precedence ofTwo).2.2 hdistinct hnames Expr.guarded hprintable

end TaintAnalysis
