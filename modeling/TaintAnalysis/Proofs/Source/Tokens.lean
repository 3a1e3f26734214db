import Mathlib.Data.List.TakeWhile
import TaintAnalysis.Source.Token

/-!
# Splitting a text that was put together from tokens

A text that writes one token after the other is split into these tokens again, if
no token runs into the next one. A word or a number must not be followed by a
character that continues it, and a sign must not be followed by one that makes it a
longer sign, or a comment.

`Scans` says what the characters of a text are split into. It is built from the
right: each lemma puts one more token, or a blank, in front of characters that are
known to be split.
-/

namespace TaintAnalysis.Source

/-! ## How tokens are written -/

def Sign.spelling : Sign → List Char
  | .openParen => ['('] | .closeParen => [')'] | .openBrace => ['\x7b'] | .closeBrace => ['\x7d']
  | .openBracket => ['['] | .closeBracket => [']'] | .comma => [','] | .semicolon => [';']
  | .colon => [':'] | .dot => ['.'] | .arrow => ['-', '>'] | .equals => ['='] | .bang => ['!']
  | .tilde => ['~'] | .barBar => ['|', '|'] | .ampAmp => ['&', '&'] | .bar => ['|']
  | .caret => ['^'] | .amp => ['&'] | .equalsEquals => ['=', '='] | .bangEquals => ['!', '=']
  | .less => ['<'] | .lessEquals => ['<', '='] | .greater => ['>'] | .greaterEquals => ['>', '=']
  | .lessLess => ['<', '<'] | .greaterGreater => ['>', '>'] | .plus => ['+'] | .minus => ['-']
  | .star => ['*'] | .slash => ['/'] | .percent => ['%']

/-- The characters that a sign must not be followed by, because they make something else of it. -/
def Sign.extendedBy : Sign → Char → Bool
  | .bar, '|' | .amp, '&' | .equals, '=' | .bang, '=' | .less, '<' | .less, '=' | .greater, '>'
  | .greater, '=' | .minus, '>' | .slash, '/' => true
  | _, _ => false

def Keyword.word : Keyword → String
  | .fn => "fn" | .let => "let" | .load => "load" | .store => "store" | .cast => "cast"
  | .call => "call" | .opaqueCode => "opaque" | .br => "br" | .jump => "jump" | .ret => "ret"
  | .struct => "struct" | .void => "void"

def isWord (name : String) : Bool :=
  match name.toList with
  | [] => false
  | c :: cs => isWordStart c && cs.all isWordChar

/-- A word that is not reserved. -/
def IsName (name : String) : Prop :=
  isWord name = true ∧ Keyword.ofWord? name = none

instance (name : String) : Decidable (IsName name) :=
  inferInstanceAs (Decidable (_ ∧ _))

theorem isWord_word (k : Keyword) : isWord k.word = true := by
  cases k <;> decide

theorem word_of_ofWord? {name : String} {k : Keyword} (h : Keyword.ofWord? name = some k) :
    k.word = name := by
  rw [Keyword.ofWord?.eq_def] at h
  split at h <;> cases h <;> rfl

theorem ofWord_word (k : Keyword) : Token.ofWord k.word = .keyword k := by
  cases k <;> rfl

theorem IsName.ofWord {name : String} (h : IsName name) : Token.ofWord name = .word name := by
  rw [Token.ofWord, h.2]

/-! ## Numbers in words -/

theorem isWordChar_of_isDigit {c : Char} (h : c.isDigit = true) : isWordChar c = true := by
  simp [isWordChar, Char.isAlphanum, h]

theorem isDigit_of_mem_toString {n : Nat} {c : Char} (h : c ∈ (toString n).toList) :
    c.isDigit = true := by
  simp only [Nat.toString_eq_repr, Nat.toList_repr] at h
  exact Nat.isDigit_of_mem_toDigits (by decide) (by decide) h

theorem toString_ne_nil (n : Nat) : (toString n).toList ≠ [] := by
  simp only [Nat.toString_eq_repr, Nat.toList_repr]
  exact Nat.toDigits_ne_nil

theorem toString_injective {n m : Nat} (h : toString n = toString m) : n = m := by
  have hvalue := congrArg (fun s : String => Nat.ofDigitChars 10 s.toList 0) h
  simpa using hvalue

theorem isWordStart_of_isDigit {c : Char} (h : c.isDigit = true) : isWordStart c = false := by
  have hlast : c.val ≤ '9'.val := of_decide_eq_true (Bool.and_eq_true_iff.mp h).2
  have hupper : c.isUpper = false := Bool.eq_false_iff.mpr fun hc =>
    have hfirst : 'A'.val ≤ c.val := (of_decide_eq_true hc).1
    absurd (UInt32.le_trans hfirst hlast) (by decide)
  have hlower : c.isLower = false := Bool.eq_false_iff.mpr fun hc =>
    have hfirst : 'a'.val ≤ c.val := of_decide_eq_true (Bool.and_eq_true_iff.mp hc).1
    absurd (UInt32.le_trans hfirst hlast) (by decide)
  have halpha : c.isAlpha = false := Bool.or_eq_false_iff.mpr ⟨hupper, hlower⟩
  have hunderscore : c ≠ '_' := fun hc => absurd (hc ▸ h) (by decide)
  rw [isWordStart, halpha, Bool.false_or, decide_eq_false hunderscore]

/-- A word followed by a number is a name, unless a reserved word begins in the same way. -/
theorem isName_append_number {before : String} (hword : isWord before = true)
    (hfree : ∀ k : Keyword, ∀ c cs, k.word.toList = before.toList ++ c :: cs → c.isDigit = false)
    (n : Nat) : IsName (before ++ toString n) := by
  have hlist : (before ++ toString n).toList = before.toList ++ (toString n).toList :=
    String.toList_append
  constructor
  · rw [isWord] at hword ⊢
    rw [hlist]
    cases hbefore : before.toList with
    | nil =>
        rw [hbefore] at hword
        exact absurd hword Bool.false_ne_true
    | cons c cs =>
        rw [hbefore] at hword
        obtain ⟨hstart, hrest⟩ := Bool.and_eq_true_iff.mp hword
        refine Bool.and_eq_true_iff.mpr ⟨hstart, ?_⟩
        show (cs ++ (toString n).toList).all isWordChar = true
        rw [List.all_append, hrest, Bool.true_and, List.all_eq_true]
        exact fun d hd => isWordChar_of_isDigit (isDigit_of_mem_toString hd)
  · cases hk : Keyword.ofWord? (before ++ toString n) with
    | none => rfl
    | some k =>
        have hk' := congrArg String.toList (word_of_ofWord? hk)
        rw [hlist] at hk'
        cases hdigits : (toString n).toList with
        | nil => exact absurd hdigits (toString_ne_nil n)
        | cons c cs =>
            have hdigit : c.isDigit = true :=
              isDigit_of_mem_toString (hdigits ▸ List.mem_cons_self)
            rw [hdigits] at hk'
            rw [hfree k c cs hk'] at hdigit
            exact absurd hdigit Bool.false_ne_true

/-! ## One token in front -/

/-- What follows does not continue a word or a number. -/
def Ends (rest : List Char) : Prop :=
  ∀ c ∈ rest.head?, isWordChar c = false

theorem ends_cons {c : Char} {rest : List Char} (h : isWordChar c = false) : Ends (c :: rest) :=
  fun _ hd => Option.some.inj hd ▸ h

theorem takeSign?_spelling (s : Sign) {rest : List Char}
    (h : ∀ c ∈ rest.head?, s.extendedBy c = false) :
    takeSign? (s.spelling ++ rest) = some (s, rest) := by
  have hne (d : Char) (hd : s.extendedBy d = true) (rest' : List Char)
      (hrest : rest = d :: rest') : False := by
    subst hrest
    simp [h d rfl] at hd
  -- only some signs are the beginning of a longer one
  cases s
  case equals | bang | bar | amp | minus | slash =>
    rw [Sign.spelling, List.singleton_append, takeSign?]
    all_goals exact hne _ rfl
  case less | greater =>
    rw [Sign.spelling, List.singleton_append, takeSign?]
    · exact hne _ rfl
    · exact hne _ rfl
  all_goals rfl

theorem takeWhile_append_ends {p : Char → Bool} {cs rest : List Char} (hcs : cs.all p = true)
    (hrest : ∀ c ∈ rest.head?, p c = false) :
    (cs ++ rest).takeWhile p = cs ∧ (cs ++ rest).dropWhile p = rest := by
  have hall : ∀ c ∈ cs, p c = true := List.all_eq_true.mp hcs
  rw [List.takeWhile_append_of_pos hall, List.dropWhile_append_of_pos hall]
  cases rest with
  | nil => simp
  | cons c rest =>
      have hc := hrest c rfl
      simp [hc]

/-- The characters are split into the tokens, the first of which begins on the line. -/
def Scans (line : Nat) (cs : List Char) (ts : List Lexeme) : Prop :=
  ∀ budget, cs.length < budget → scanFrom budget line cs = some ts

theorem scan_of_scans {text : String} {ts : List Lexeme} (h : Scans 1 text.toList ts) :
    scan text = some ts :=
  h _ (by rw [String.length_toList]; omega)

namespace Scans

variable {line : Nat} {cs rest : List Char} {ts : List Lexeme}

theorem nil : Scans line [] [] := by
  intro budget hbudget
  obtain ⟨n, rfl⟩ : ∃ n, budget = n + 1 := ⟨budget - 1, by simp at hbudget; omega⟩
  rfl

theorem blank (h : Scans line rest ts) : Scans line (' ' :: rest) ts := by
  intro budget hbudget
  obtain ⟨n, rfl⟩ : ∃ n, budget = n + 1 := ⟨budget - 1, by simp at hbudget; omega⟩
  have hskip : skipBlanks line (' ' :: rest) = skipBlanks line rest := by rw [skipBlanks]
  have hrest := h (n + 1) (by simp at hbudget; omega)
  rw [scanFrom] at hrest ⊢
  rwa [hskip]

/-- A token in front, which may go over several lines. -/
theorem token {t : Token} (hcs : cs ≠ []) (hskip : skipBlanks line cs = (line, cs))
    (htake : takeToken? cs = some (t, rest)) (hlength : rest.length < cs.length)
    (h : Scans (line + t.lineBreaks) rest ts) : Scans line cs (⟨t, line⟩ :: ts) := by
  intro budget hbudget
  obtain ⟨n, rfl⟩ : ∃ n, budget = n + 1 := ⟨budget - 1, by omega⟩
  obtain ⟨c, cs, rfl⟩ := List.exists_cons_of_ne_nil hcs
  have hrest := h n (by omega)
  rw [scanFrom, hskip]
  simp only [htake, Option.bind_eq_bind, Option.bind_some, hrest, Option.pure_def]

theorem cons {t : Token} (hcs : cs ≠ []) (hskip : skipBlanks line cs = (line, cs))
    (htake : takeToken? cs = some (t, rest)) (hbreaks : t.lineBreaks = 0)
    (hlength : rest.length < cs.length) (h : Scans line rest ts) :
    Scans line cs (⟨t, line⟩ :: ts) :=
  token hcs hskip htake hlength (by rwa [hbreaks])

theorem sign (s : Sign) (hrest : ∀ c ∈ rest.head?, s.extendedBy c = false)
    (h : Scans line rest ts) : Scans line (s.spelling ++ rest) (⟨.sign s, line⟩ :: ts) := by
  have htake := takeSign?_spelling s hrest
  have hskip : skipBlanks line (s.spelling ++ rest) = (line, s.spelling ++ rest) := by
    cases s
    case slash =>
      have hne (rest' : List Char) (heq : rest = '/' :: rest') : False := by
        subst heq
        exact absurd (hrest '/' rfl) (by decide)
      rw [Sign.spelling, List.singleton_append, skipBlanks]
      all_goals simp only [List.cons.injEq, Char.reduceEq, false_and, imp_false,
        not_false_eq_true, implies_true, true_and]
      exact hne
    all_goals rfl
  refine cons ?_ hskip ?_ rfl ?_ h
  · cases s <;> simp [Sign.spelling]
  · have hsign : takeToken? (s.spelling ++ rest) =
        (takeSign? (s.spelling ++ rest)).map fun x => (.sign x.1, x.2) := by
      cases s <;> rfl
    rw [hsign, htake, Option.map_some]
  · have hpos : 0 < s.spelling.length := by cases s <;> decide
    rw [List.length_append]
    omega

/-- A sign of one character that nothing extends. -/
theorem lone (s : Sign) {c : Char} (hc : s.spelling = [c]) (hs : ∀ d, s.extendedBy d = false)
    (h : Scans line rest ts) : Scans line (c :: rest) (⟨.sign s, line⟩ :: ts) := by
  have hsign := sign s (fun d _ => hs d) h
  rwa [hc] at hsign

theorem spaced (s : Sign) (h : Scans line rest ts) :
    Scans line (s.spelling ++ ' ' :: rest) (⟨.sign s, line⟩ :: ts) := by
  refine sign s (fun c hc => ?_) h.blank
  obtain rfl := Option.some.inj hc
  cases s <;> rfl

theorem skipBlanks_cons {c : Char} (h : isWordChar c = true) (cs : List Char) :
    skipBlanks line (c :: cs) = (line, c :: cs) := by
  rw [skipBlanks]
  all_goals
    rintro _ heq
    obtain ⟨rfl, -⟩ := List.cons.inj heq
    exact absurd h (by decide)

theorem word {name : String} (hname : isWord name = true) (hrest : Ends rest)
    (h : Scans line rest ts) :
    Scans line (name.toList ++ rest) (⟨.ofWord name, line⟩ :: ts) := by
  rw [isWord] at hname
  cases hlist : name.toList with
  | nil =>
      rw [hlist] at hname
      exact absurd hname Bool.false_ne_true
  | cons c cs =>
      rw [hlist] at hname
      obtain ⟨hstart, hcs⟩ := Bool.and_eq_true_iff.mp hname
      obtain ⟨htake, hdrop⟩ := takeWhile_append_ends hcs hrest
      have hc : isWordChar c = true := by
        simp only [isWordStart, Bool.or_eq_true] at hstart
        simp only [isWordChar, Char.isAlphanum, Bool.or_eq_true]
        exact hstart.imp_left .inl
      have hlength : rest.length < (c :: cs ++ rest).length := by
        rw [List.length_append, List.length_cons]; omega
      refine cons (by simp) (skipBlanks_cons hc _) ?_ ?_ hlength h
      · rw [List.cons_append, takeToken?, if_pos hstart, htake, hdrop, ← hlist,
          String.ofList_toList]
      · rw [Token.ofWord]
        split <;> rfl

theorem name {name : String} (hname : IsName name) (hrest : Ends rest) (h : Scans line rest ts) :
    Scans line (name.toList ++ rest) (⟨.word name, line⟩ :: ts) :=
  hname.ofWord ▸ word hname.1 hrest h

theorem keyword (k : Keyword) (hrest : Ends rest) (h : Scans line rest ts) :
    Scans line (k.word.toList ++ rest) (⟨.keyword k, line⟩ :: ts) :=
  ofWord_word k ▸ word (isWord_word k) hrest h

/-- A number ends where no further digit follows. -/
theorem numeral {written : String} (hne : written.toList ≠ [])
    (hdigits : written.toList.all Char.isDigit = true)
    (hrest : ∀ c ∈ rest.head?, c.isDigit = false) (h : Scans line rest ts) :
    Scans line (written.toList ++ rest) (⟨.digits written, line⟩ :: ts) := by
  cases hlist : written.toList with
  | nil => exact absurd hlist hne
  | cons c cs =>
      rw [hlist] at hdigits
      obtain ⟨hc, hcs⟩ := Bool.and_eq_true_iff.mp hdigits
      obtain ⟨htake, hdrop⟩ := takeWhile_append_ends hcs hrest
      have hstart : ¬ isWordStart c = true := by
        rw [isWordStart_of_isDigit hc]
        exact Bool.false_ne_true
      have hlength : rest.length < (c :: cs ++ rest).length := by
        rw [List.length_append, List.length_cons]; omega
      refine cons (by simp) (skipBlanks_cons (isWordChar_of_isDigit hc) _) ?_ rfl hlength h
      rw [List.cons_append, takeToken?, if_neg hstart, if_pos hc, htake, hdrop, ← hlist,
        String.ofList_toList]

theorem digits (n : Nat) (hrest : Ends rest) (h : Scans line rest ts) :
    Scans line ((toString n).toList ++ rest) (⟨.digits (toString n), line⟩ :: ts) := by
  refine numeral (toString_ne_nil n) ?_ (fun c hc => ?_) h
  · exact List.all_eq_true.mpr fun c hc => isDigit_of_mem_toString hc
  · have hword := hrest c hc
    simp only [isWordChar, Char.isAlphanum, Bool.or_eq_false_iff] at hword
    exact hword.1.2

/-- A string, which may go over several lines. -/
theorem quoted {text : String} (htext : text.toList.all (· ≠ '"') = true)
    (h : Scans (line + text.toList.count '\n') rest ts) :
    Scans line ('"' :: (text.toList ++ '"' :: rest)) (⟨.string text, line⟩ :: ts) := by
  have hquote : ∀ c ∈ ('"' :: rest).head?, (decide (c ≠ '"')) = false := by
    intro c hc
    obtain rfl := Option.some.inj hc
    rfl
  obtain ⟨htake, hdrop⟩ := takeWhile_append_ends htext hquote
  refine token (by simp) rfl ?_ (by simp; omega) h
  have hstart : ¬ isWordStart '"' = true := by decide
  have hdigit : ¬ '"'.isDigit = true := by decide
  rw [takeToken?, if_neg hstart, if_neg hdigit, if_pos rfl, htake, hdrop, String.ofList_toList]

end Scans

end TaintAnalysis.Source
