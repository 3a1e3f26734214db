import TaintAnalysis.Proofs.Source.Recognition

/-!
# What the parsers take is a phrase

The converse of recognition. Whatever a parser takes from the front of some tokens is a
phrase of its construct, with the syntax tree that the parser returns, whatever the
budget. So the tokens of a text are parsed if and only if they are a sequence of phrases
of functions, and the grammar is not ambiguous.

What a parser takes is put together step by step: each step of a parser is followed by a
parser for the rest of the phrase. The parsers of expressions and places call each other;
for them the proof is an induction on the budget, one lemma to a parser.
-/

namespace TaintAnalysis.Source.Parser

/-! ## Steps of a parser -/

/-- Whatever the parser takes is a phrase of what it returns. -/
def Derives {α : Type} (p : Parser α) (phrase : α → List Lexeme → Prop) : Prop :=
  ∀ ⦃ls a rest⦄, p ls = some (a, rest) → ∃ us, ls = us ++ rest ∧ phrase a us

section

variable {α β : Type} {p : Parser α} {phrase : α → List Lexeme → Prop}

theorem derives_failure : Derives (failure : Parser α) phrase :=
  fun _ _ _ h => nomatch h

theorem derives_pure {a : α} (h : phrase a []) : Derives (pure a) phrase := by
  intro _ b rest hpure
  obtain ⟨rfl, rfl⟩ := Prod.mk.inj (Option.some.inj hpure)
  exact ⟨[], rfl, h⟩

theorem Derives.mono {phrase' : α → List Lexeme → Prop} (hp : Derives p phrase)
    (h : ∀ a us, phrase a us → phrase' a us) : Derives p phrase' := by
  intro ls a rest htaken
  obtain ⟨us, rfl, hus⟩ := hp htaken
  exact ⟨us, rfl, h a us hus⟩

/-- Behind what the first parser takes, the second one takes the rest of the phrase. -/
theorem Derives.bind {g : α → Parser β} {whole : β → List Lexeme → Prop} (hp : Derives p phrase)
    (hg : ∀ a us, phrase a us → Derives (g a) fun b vs => whole b (us ++ vs)) :
    Derives (p >>= g) whole := by
  intro ls b rest h
  obtain ⟨⟨a, middle⟩, hfirst, hnext⟩ := Option.bind_eq_some_iff.mp h
  obtain ⟨us, rfl, hus⟩ := hp hfirst
  obtain ⟨vs, rfl, hvs⟩ := hg a us hus hnext
  exact ⟨us ++ vs, (List.append_assoc us vs rest).symm, hvs⟩

theorem Derives.map {g : α → β} {whole : β → List Lexeme → Prop} (hp : Derives p phrase)
    (h : ∀ a us, phrase a us → whole (g a) us) : Derives (g <$> p) whole := by
  intro ls b rest htaken
  rw [run_map, Option.map_eq_some_iff] at htaken
  obtain ⟨⟨a, rest'⟩, hfirst, heq⟩ := htaken
  obtain ⟨rfl, rfl⟩ := Prod.mk.inj heq
  obtain ⟨us, rfl, hus⟩ := hp hfirst
  exact ⟨us, rfl, h a us hus⟩

theorem derives_peek {g : Option Token → Parser β} {whole : β → List Lexeme → Prop}
    (h : ∀ seen, Derives (g seen) whole) : Derives (peek >>= g) whole :=
  fun _ _ _ htaken => h _ htaken

theorem derives_next : Derives next fun l us => us = [l]
  | [], _, _, h => nomatch h
  | _ :: _, _, _, h => by
      obtain ⟨rfl, rfl⟩ := Prod.mk.inj (Option.some.inj h)
      exact ⟨[_], rfl, rfl⟩

theorem derives_expect (t : Token) : Derives (expect t) fun _ us => ∃ line, us = [⟨t, line⟩] := by
  refine derives_next.bind ?_
  rintro ⟨t', line⟩ _ rfl
  split
  · next heq => exact derives_pure ⟨line, heq ▸ rfl⟩
  · exact derives_failure

theorem derives_accept (t : Token) :
    Derives (accept t) fun taken us => if taken then ∃ line, us = [⟨t, line⟩] else us = [] := by
  intro ls taken rest h
  rw [accept, run_bind, run_peek, Option.bind_some] at h
  split at h
  · next hhead =>
    cases ls with
    | nil => cases hhead
    | cons l ls =>
        obtain ⟨rfl, rfl⟩ := Prod.mk.inj (Option.some.inj h)
        obtain rfl : l.token = t := Option.some.inj hhead
        exact ⟨[l], rfl, l.line, rfl⟩
  · obtain ⟨rfl, rfl⟩ := Prod.mk.inj (Option.some.inj h)
    exact ⟨[], rfl, rfl⟩

theorem derives_name : Derives name NamePhrase := by
  refine derives_next.bind ?_
  rintro ⟨t, line⟩ _ rfl
  cases t with
  | word text => exact derives_pure .word
  | _ => exact derives_failure

theorem derives_digits : Derives digits fun d us => us = [⟨.digits d.written, d.line⟩] := by
  refine derives_next.bind ?_
  rintro ⟨t, line⟩ _ rfl
  cases t with
  | digits written => exact derives_pure rfl
  | _ => exact derives_failure

theorem derives_string : Derives string fun text us => ∃ line, us = [⟨.string text, line⟩] := by
  refine derives_next.bind ?_
  rintro ⟨t, line⟩ _ rfl
  cases t with
  | string text => exact derives_pure ⟨line, rfl⟩
  | _ => exact derives_failure

end

/-! ## Types, expressions and places -/

theorem derives_ty : ∀ budget, Derives (ty budget) TyPhrase
  | 0 => derives_failure
  | b + 1 => by
      refine derives_next.bind ?_
      rintro ⟨t, line⟩ _ rfl
      dsimp only
      split
      · split
        · next hbits => exact derives_pure (.int hbits)
        · exact derives_failure
      · exact derives_pure .void
      · refine derives_name.bind ?_
        rintro n _ ⟨⟩
        exact derives_pure .struct
      · refine (derives_ty b).bind fun target us hus => ?_
        exact derives_pure (by simpa using .pointer hus)
      · refine (derives_ty b).bind fun element us hus => ?_
        refine (derives_accept _).bind fun taken vs hvs => ?_
        cases taken with
        | true =>
            obtain ⟨line₁, rfl⟩ := hvs
            have hlength : Derives (some <$> digits) fun length us =>
                ∃ d : Tree.Digits, length = some d ∧ us = [⟨.digits d.written, d.line⟩] :=
              derives_digits.map fun d us h => ⟨d, rfl, h⟩
            refine hlength.bind ?_
            rintro _ _ ⟨d, rfl, rfl⟩
            refine (derives_expect _).bind ?_
            rintro - _ ⟨line₃, rfl⟩
            exact derives_pure (by simpa using .array hus)
        | false =>
            obtain rfl := hvs
            have hlength : Derives (pure none : Parser (Option Tree.Digits)) fun length us =>
                length = none ∧ us = [] :=
              derives_pure ⟨rfl, rfl⟩
            refine hlength.bind ?_
            rintro _ _ ⟨rfl, rfl⟩
            refine (derives_expect _).bind ?_
            rintro - _ ⟨line', rfl⟩
            exact derives_pure (by simpa using .slice hus)
      · exact derives_failure

theorem exists_cons_of_head {ls : List Lexeme} {t : Token}
    (h : ls.head?.map (·.token) = some t) : ∃ line us, ls = ⟨t, line⟩ :: us := by
  cases ls with
  | nil => exact nomatch h
  | cons l us => exact ⟨l.line, us, Option.some.inj h ▸ rfl⟩

theorem exists_of_not_endsPlace {ls : List Lexeme} (h : ¬ EndsPlace ls) :
    ∃ line us, ls = ⟨.sign .openBracket, line⟩ :: us ∨ ls = ⟨.sign .dot, line⟩ :: us ∨
      ls = ⟨.sign .arrow, line⟩ :: us := by
  cases ls with
  | nil => exact absurd (fun l hl => nomatch hl) h
  | cons l us =>
      refine ⟨l.line, us, ?_⟩
      by_cases hbracket : l.token = .sign .openBracket
      · exact .inl (hbracket ▸ rfl)
      · by_cases hdot : l.token = .sign .dot
        · exact .inr (.inl (hdot ▸ rfl))
        · by_cases harrow : l.token = .sign .arrow
          · exact .inr (.inr (harrow ▸ rfl))
          · exact absurd (fun l' hl' => Option.some.inj hl' ▸ ⟨hbracket, hdot, harrow⟩) h

section

variable {b : Nat}

theorem primary_derives (hexpr : Derives (expr b) (ExprPhrase 0))
    (hplace : Derives (place b) PlacePhrase) : Derives (primary (b + 1)) PrimaryPhrase := by
  refine derives_next.bind ?_
  rintro ⟨t, line⟩ _ rfl
  dsimp only
  split
  · exact derives_pure .int
  · exact derives_pure .var
  · exact hplace.bind fun p us hus => derives_pure (by simpa using .addrOf hus)
  · refine hexpr.bind fun e us hus => (derives_expect _).bind ?_
    rintro - _ ⟨line', rfl⟩
    exact derives_pure (by simpa using .group hus)
  · exact derives_failure

theorem operand_derives (hoperand : Derives (operand b) OperandPhrase)
    (hprimary : Derives (primary b) PrimaryPhrase) : Derives (operand (b + 1)) OperandPhrase := by
  intro ls e rest h
  cases hop : (ls.head?.map (·.token)).bind unOp? with
  | none =>
      rw [operand, run_bind, run_peek, Option.bind_some, hop] at h
      exact (hprimary.mono fun e us hus => .primary hus) h
  | some op =>
      obtain ⟨t, hhead, hop⟩ := Option.bind_eq_some_iff.mp hop
      obtain ⟨line, ls, rfl⟩ := exists_cons_of_head hhead
      have hunary : Derives (Tree.Expr.unary op <$> operand b) fun e us =>
          OperandPhrase e (⟨t, line⟩ :: us) :=
        hoperand.map fun e us hus => .unary hop hus
      rw [run_operand hop] at h
      obtain ⟨us, rfl, hus⟩ := hunary h
      exact ⟨_ :: us, rfl, hus⟩

/-- The chain parser goes on with any phrase that it is given. -/
def ChainDerives (b : Nat) : Prop :=
  ∀ {e ls}, ExprPhrase 0 e ls → Derives (chain b e) fun e' us => ExprPhrase 0 e' (ls ++ us)

theorem expr_derives (hoperand : Derives (operand b) OperandPhrase) (hchain : ChainDerives b) :
    Derives (expr (b + 1)) (ExprPhrase 0) :=
  hoperand.bind fun _ _ hus => hchain (.operand hus)

theorem chain_derives (hoperand : Derives (operand b) OperandPhrase) (hchain : ChainDerives b) :
    ChainDerives (b + 1) := by
  intro left ps hleft ls e rest h
  cases hop : (ls.head?.map (·.token)).bind binOp? with
  | none =>
      have hend : Derives (pure left) fun e us => ExprPhrase 0 e (ps ++ us) :=
        derives_pure (by simpa using hleft)
      rw [chain_ends (by simpa using hop)] at h
      exact hend h
  | some op =>
      obtain ⟨t, hhead, hop⟩ := Option.bind_eq_some_iff.mp hop
      obtain ⟨line, ls, rfl⟩ := exists_cons_of_head hhead
      have hmore : Derives (climb b (left.extend op)) fun e us =>
          ExprPhrase 0 e (ps ++ ⟨t, line⟩ :: us) :=
        hoperand.bind fun right us hus =>
          (hchain (hleft.extend line hop hus (Nat.zero_le _))).mono fun e vs hvs => by
            simpa using hvs
      rw [run_chain hop] at h
      obtain ⟨us, rfl, hus⟩ := hmore h
      exact ⟨_ :: us, rfl, hus⟩

/-- The parser of suffixes goes on with any place that it is given. -/
def SuffixesDerive (b : Nat) : Prop :=
  ∀ {p ls}, StemPhrase p ls → Derives (suffixes b p) fun p' us => StemPhrase p' (ls ++ us)

theorem suffixes_derive (hexpr : Derives (expr b) (ExprPhrase 0)) (hsuffixes : SuffixesDerive b) :
    SuffixesDerive (b + 1) := by
  intro p ps hp ls p' rest h
  by_cases hends : EndsPlace ls
  · have hend : Derives (pure p) fun p' us => StemPhrase p' (ps ++ us) :=
      derives_pure (by simpa using hp)
    rw [suffixes_ends hends] at h
    exact hend h
  obtain ⟨line, us, rfl | rfl | rfl⟩ := exists_of_not_endsPlace hends
  · have hindex : Derives (do
        let position ← expr b
        sign .closeBracket
        suffixes b (.index p position)) fun p' us =>
          StemPhrase p' (ps ++ ⟨.sign .openBracket, line⟩ :: us) := by
      refine hexpr.bind fun position us hus => (derives_expect _).bind ?_
      rintro - _ ⟨line', rfl⟩
      exact (hsuffixes (hp.index hus)).mono fun p' vs hvs => by simpa using hvs
    obtain ⟨us, rfl, hus⟩ := hindex h
    exact ⟨_ :: us, rfl, hus⟩
  · have hfield : Derives (do suffixes b (.field p (← name).text)) fun p' us =>
          StemPhrase p' (ps ++ ⟨.sign .dot, line⟩ :: us) := by
      refine derives_name.bind ?_
      rintro n _ ⟨⟩
      exact (hsuffixes hp.field).mono fun p' vs hvs => by simpa using hvs
    obtain ⟨us, rfl, hus⟩ := hfield h
    exact ⟨_ :: us, rfl, hus⟩
  · have harrow : Derives (do suffixes b (.field (.deref p) (← name).text)) fun p' us =>
          StemPhrase p' (ps ++ ⟨.sign .arrow, line⟩ :: us) := by
      refine derives_name.bind ?_
      rintro n _ ⟨⟩
      exact (hsuffixes hp.arrow).mono fun p' vs hvs => by simpa using hvs
    obtain ⟨us, rfl, hus⟩ := harrow h
    exact ⟨_ :: us, rfl, hus⟩

theorem place_derives (hplace : Derives (place b) PlacePhrase) (hsuffixes : SuffixesDerive b) :
    Derives (place (b + 1)) PlacePhrase := by
  have hstem {p : Tree.Place} {ls : List Lexeme} (hp : StemPhrase p ls) :
      Derives (suffixes b p) fun p' us => PlacePhrase p' (ls ++ us) :=
    (hsuffixes hp).mono fun p' us hus => .stem hus
  refine derives_next.bind ?_
  rintro ⟨t, line⟩ _ rfl
  dsimp only
  split
  · exact hplace.map fun p us hus => .deref hus
  · exact hstem .var
  · refine hplace.bind fun p us hus => (derives_expect _).bind ?_
    rintro - _ ⟨line', rfl⟩
    exact (hstem (.group hus)).mono fun p' vs hvs => by simpa using hvs
  · exact derives_failure

end

/-- The parsers of expressions and places take phrases. -/
structure TermsDerive (b : Nat) : Prop where
  primary : Derives (primary b) PrimaryPhrase
  operand : Derives (operand b) OperandPhrase
  chain : ChainDerives b
  expr : Derives (expr b) (ExprPhrase 0)
  suffixes : SuffixesDerive b
  place : Derives (place b) PlacePhrase

theorem terms_derive (b : Nat) : TermsDerive b := by
  induction b with
  | zero =>
      exact ⟨derives_failure, derives_failure, fun _ => derives_failure, derives_failure,
        fun _ => derives_failure, derives_failure⟩
  | succ b ih =>
      exact ⟨primary_derives ih.expr ih.place, operand_derives ih.operand ih.primary,
        chain_derives ih.operand ih.chain, expr_derives ih.operand ih.chain,
        suffixes_derive ih.expr ih.suffixes, place_derives ih.place ih.suffixes⟩

/-! ## Repetitions -/

section

variable {α : Type} {item : Parser α} {phrase : α → List Lexeme → Prop}

theorem derives_commaSeparated (h : Derives item phrase) :
    ∀ budget, Derives (commaSeparated item budget) (Separated phrase)
  | 0 => derives_failure
  | b + 1 => by
      refine h.bind fun a us hus => (derives_accept _).bind fun taken vs hvs => ?_
      cases taken with
      | true =>
          obtain ⟨line, rfl⟩ := hvs
          exact (derives_commaSeparated h b).bind fun as ws hws =>
            derives_pure (by simpa using .comma hus hws)
      | false =>
          obtain rfl := hvs
          exact derives_pure (by simpa using .last hus)

theorem derives_parenthesised (h : Derives item phrase) (budget : Nat) :
    Derives (parenthesised item budget) (Enclosed phrase) := by
  refine (derives_expect _).bind ?_
  rintro - _ ⟨line, rfl⟩
  refine (derives_accept _).bind fun taken us hus => ?_
  cases taken with
  | true =>
      obtain ⟨line', rfl⟩ := hus
      exact derives_pure .none
  | false =>
      obtain rfl := hus
      refine (derives_commaSeparated h budget).bind fun as us hus => (derives_expect _).bind ?_
      rintro - _ ⟨line', rfl⟩
      exact derives_pure (by simpa using .some hus)

theorem derives_whileNext {test : Token → Bool} (h : Derives item phrase) :
    ∀ budget, Derives (whileNext test item budget) (Repeated phrase)
  | 0 => derives_failure
  | b + 1 => by
      refine derives_peek fun seen => ?_
      split
      · exact h.bind fun a us hus => (derives_whileNext h b).bind fun as vs hvs =>
          derives_pure (by simpa using .cons hus hvs)
      · exact derives_pure .nil

/-- A parser and the semicolon behind it. -/
theorem Derives.ended (h : Derives item phrase) :
    Derives (do
      let a ← item
      sign .semicolon
      return a) (Ended phrase) := by
  refine h.bind fun a us hus => (derives_expect _).bind ?_
  rintro - _ ⟨line, rfl⟩
  exact derives_pure (by simpa using .semicolon hus)

end

/-! ## Statements -/

variable {budget : Nat}

theorem derives_args : Derives (parenthesised (expr budget) budget) (Enclosed (ExprPhrase 0)) :=
  derives_parenthesised (terms_derive budget).expr budget

theorem derives_callTail : Derives (callTail budget) fun r => CallPhrase r.1 r.2 := by
  refine (derives_accept _).bind fun taken us hus => ?_
  cases taken with
  | true =>
      obtain ⟨line, rfl⟩ := hus
      have hcallee : Derives (Tree.Callee.indirect <$> primary budget) fun callee us =>
          ∃ target, callee = .indirect target ∧ PrimaryPhrase target us :=
        (terms_derive budget).primary.map fun target us hus => ⟨target, rfl, hus⟩
      refine hcallee.bind ?_
      rintro _ us ⟨target, rfl, hus⟩
      exact derives_args.bind fun args vs hvs => derives_pure (by simpa using .indirect hus hvs)
  | false =>
      obtain rfl := hus
      have hcallee : Derives ((fun n => Tree.Callee.direct n.text) <$> name) fun callee us =>
          ∃ n, callee = .direct n.text ∧ NamePhrase n us :=
        derives_name.map fun n us hus => ⟨n, rfl, hus⟩
      refine hcallee.bind ?_
      rintro _ _ ⟨n, rfl, ⟨⟩⟩
      exact derives_args.bind fun args vs hvs => derives_pure (by simpa using .direct hvs)

theorem derives_definition (dst : Tree.Name) :
    Derives (definition budget dst) (DefinitionPhrase dst) := by
  have hterms := terms_derive budget
  have hassign : Derives (Tree.Statement.assign dst <$> expr budget) (DefinitionPhrase dst) :=
    hterms.expr.map fun e us hus => .assign hus
  have hload (line : Nat) : Derives (Tree.Statement.load dst <$> place budget) fun s us =>
      DefinitionPhrase dst s (⟨.keyword .load, line⟩ :: us) :=
    hterms.place.map fun p us hus => .load hus
  have hcast (line : Nat) : Derives (do
      sign .less
      let ty ← ty budget
      sign .greater
      return .cast dst ty (← expr budget)) fun s us =>
        DefinitionPhrase dst s (⟨.keyword .cast, line⟩ :: us) := by
    refine (derives_expect _).bind ?_
    rintro - _ ⟨line₁, rfl⟩
    refine (derives_ty budget).bind fun ty us hus => (derives_expect _).bind ?_
    rintro - _ ⟨line₂, rfl⟩
    exact hterms.expr.bind fun e vs hvs => derives_pure (by simpa using .cast hus hvs)
  have hcall (line : Nat) : Derives (do
      let called ← callTail budget
      return .call (some dst) called.1 called.2) fun s us =>
        DefinitionPhrase dst s (⟨.keyword .call, line⟩ :: us) :=
    derives_callTail.bind fun r us hus => derives_pure (by simpa using .call hus)
  intro ls s rest h
  rcases ls with _ | ⟨⟨t, line⟩, ls⟩
  · exact hassign h
  cases t with
  | keyword k =>
      cases k with
      | load =>
          obtain ⟨us, rfl, hus⟩ := hload line h
          exact ⟨_ :: us, rfl, hus⟩
      | cast =>
          obtain ⟨us, rfl, hus⟩ := hcast line h
          exact ⟨_ :: us, rfl, hus⟩
      | call =>
          obtain ⟨us, rfl, hus⟩ := hcall line h
          exact ⟨_ :: us, rfl, hus⟩
      | _ => exact hassign h
  | _ => exact hassign h

theorem derives_statementBody : Derives (statementBody budget) StatementPhrase := by
  have hterms := terms_derive budget
  refine derives_next.bind ?_
  rintro ⟨t, line⟩ _ rfl
  dsimp only
  split
  · refine (derives_expect _).bind ?_
    rintro - _ ⟨line', rfl⟩
    exact (derives_definition _).mono fun s us hus => .define hus
  · refine hterms.place.bind fun p us hus => (derives_expect _).bind ?_
    rintro - _ ⟨line', rfl⟩
    exact hterms.expr.bind fun e vs hvs => derives_pure (by simpa using .store hus hvs)
  · exact derives_callTail.bind fun r us hus => derives_pure (by simpa using .call hus)
  · refine (derives_parenthesised derives_name budget).bind fun touched us hus =>
      derives_string.bind ?_
    rintro reason _ ⟨line', rfl⟩
    exact derives_pure (by simpa using .opaqueCode hus)
  · exact derives_failure

theorem derives_terminatorBody : Derives (terminatorBody budget) TerminatorPhrase := by
  have hterms := terms_derive budget
  refine derives_next.bind ?_
  rintro ⟨t, line⟩ _ rfl
  dsimp only
  split
  · refine hterms.expr.bind fun condition us hus => (derives_expect _).bind ?_
    rintro - _ ⟨line₁, rfl⟩
    refine derives_name.bind ?_
    rintro thenBlock _ ⟨⟩
    refine (derives_expect _).bind ?_
    rintro - _ ⟨line₃, rfl⟩
    refine derives_name.bind ?_
    rintro elseBlock _ ⟨⟩
    exact derives_pure (by simpa using .branch hus)
  · refine derives_name.bind ?_
    rintro target _ ⟨⟩
    exact derives_pure .jump
  · refine derives_peek fun seen => ?_
    split
    · exact derives_pure .retVoid
    · exact hterms.expr.bind fun value us hus => derives_pure (by simpa using .retValue hus)
  · exact derives_failure

theorem derives_block : Derives (block budget) BlockPhrase := by
  refine derives_name.bind ?_
  rintro label _ ⟨⟩
  refine (derives_expect _).bind ?_
  rintro - _ ⟨line', rfl⟩
  refine (derives_whileNext derives_statementBody.ended budget).bind fun statements us hus => ?_
  exact derives_terminatorBody.ended.bind fun t vs hvs =>
    derives_pure (by simpa using .block hus hvs)

/-! ## Functions -/

theorem derives_declaration : Derives (declaration budget) DeclarationPhrase := by
  refine derives_name.bind ?_
  rintro n _ ⟨⟩
  refine (derives_expect _).bind ?_
  rintro - _ ⟨line', rfl⟩
  exact (derives_ty budget).bind fun ty us hus => derives_pure (by simpa using .colon hus)

theorem derives_localDeclaration : Derives (localDeclaration budget) (Ended LocalPhrase) := by
  refine (derives_expect _).bind ?_
  rintro - _ ⟨line, rfl⟩
  exact derives_declaration.ended.mono fun d us hus => by
    cases hus with
    | @semicolon us _ h =>
        show Ended LocalPhrase d ((⟨.keyword .let, line⟩ :: us) ++ _)
        exact .semicolon (.declare h)

theorem derives_function : Derives (function budget) FunctionPhrase := by
  refine (derives_expect _).bind ?_
  rintro - _ ⟨line, rfl⟩
  refine derives_name.bind ?_
  rintro ⟨name, line₁⟩ _ ⟨⟩
  refine (derives_parenthesised derives_declaration budget).bind fun params ps hps => ?_
  have hbody (beginsLocal beginsBlock : Token → Bool) (returns : Option Tree.Ty)
      (rs : List Lexeme) (hrs : ReturnsPhrase returns rs) : Derives (do
        sign .openBrace
        let locals ← whileNext beginsLocal (localDeclaration budget) budget
        let blocks ← whileNext beginsBlock (block budget) budget
        sign .closeBrace
        return ⟨name, params, returns, locals, blocks⟩) fun f us =>
          FunctionPhrase f (⟨.keyword .fn, line⟩ :: ⟨.word name, line₁⟩ :: (ps ++ (rs ++ us))) := by
    refine (derives_expect _).bind ?_
    rintro - _ ⟨line₂, rfl⟩
    refine (derives_whileNext derives_localDeclaration budget).bind fun locals vs hvs => ?_
    refine (derives_whileNext derives_block budget).bind fun blocks bs hbs => ?_
    refine (derives_expect _).bind ?_
    rintro - _ ⟨line₃, rfl⟩
    exact derives_pure (by simpa using .function hps hrs hvs hbs)
  refine (derives_accept _).bind fun taken us hus => ?_
  cases taken with
  | true =>
      obtain ⟨line₂, rfl⟩ := hus
      have hreturns : Derives (some <$> ty budget) fun returns rs =>
          ReturnsPhrase returns (⟨.sign .arrow, line₂⟩ :: rs) :=
        (derives_ty budget).map fun ty us hus => .arrow hus
      exact hreturns.bind fun returns rs hrs =>
        (hbody _ _ returns _ hrs).mono fun f us hus => by simpa using hus
  | false =>
      obtain rfl := hus
      have hreturns : Derives (pure none) ReturnsPhrase := derives_pure .none
      exact hreturns.bind fun returns rs hrs =>
        (hbody _ _ returns rs hrs).mono fun f us hus => by simpa using hus

end TaintAnalysis.Source.Parser

namespace TaintAnalysis.Source

/-- The tokens of a text are parsed if and only if they are a sequence of phrases of functions. -/
theorem Tree.parseTokens_iff {fs : List Tree.Function} {ls : List Lexeme} :
    Tree.parseTokens ls = some fs ↔ Repeated FunctionPhrase fs ls := by
  refine ⟨fun h => ?_, Tree.parseTokens_of_phrase⟩
  obtain ⟨⟨fs', rest⟩, hfs, hend⟩ := Option.bind_eq_some_iff.mp h
  obtain ⟨us, rfl, hus⟩ := Parser.derives_whileNext Parser.derives_function _ hfs
  cases rest with
  | nil =>
      obtain rfl : fs' = fs := Option.some.inj hend
      rwa [List.append_nil]
  | cons l rest => exact nomatch hend

end TaintAnalysis.Source
