import TaintAnalysis.Proofs.Source.Tokens

/-!
# Splitting two texts that are put together

A text that can be split into tokens is split in the same way if a line break and any
other text follow it. A line break ends a comment that runs to the end of the text, and
it is not part of any word, number or sign. A string that is closed does not notice what
follows. The tokens of the second text keep their order and move down by the lines that
are in front of them.
-/

namespace TaintAnalysis.Source

/-- A token further down in the text. -/
def Lexeme.moveDown (lines : Nat) (l : Lexeme) : Lexeme :=
  ⟨l.token, l.line + lines⟩

/-! ## Blanks -/

mutual

/-- What is skipped does not depend on the number of the line. -/
theorem skipBlanks_add (lines : Nat) : ∀ (cs : List Char) (line : Nat),
    skipBlanks (line + lines) cs = ((skipBlanks line cs).1 + lines, (skipBlanks line cs).2)
  | cs, line => by
      rw [skipBlanks.eq_def, skipBlanks.eq_def line]
      split
      · rw [Nat.add_right_comm, skipBlanks_add]
      · rw [skipBlanks_add]
      · rw [skipBlanks_add]
      · rw [skipBlanks_add]
      · rw [skipComment_add]
      · rfl
termination_by cs => cs.length

theorem skipComment_add (lines : Nat) : ∀ (cs : List Char) (line : Nat),
    skipComment (line + lines) cs = ((skipComment line cs).1 + lines, (skipComment line cs).2)
  | cs, line => by
      rw [skipComment.eq_def, skipComment.eq_def line]
      split
      · rfl
      · rw [Nat.add_right_comm, skipBlanks_add]
      · rw [skipBlanks_add]
      · rw [skipComment_add]
termination_by cs => cs.length

end

/-- What is left after skipping, when a line break and another text follow. -/
def goOn (left : Nat × List Char) (rest : List Char) : Nat × List Char :=
  match left with
  | (line, []) => skipBlanks (line + 1) rest
  | (line, c :: cs) => (line, c :: cs ++ '\n' :: rest)

mutual

theorem skipBlanks_append (rest : List Char) : ∀ (cs : List Char) (line : Nat),
    skipBlanks line (cs ++ '\n' :: rest) = goOn (skipBlanks line cs) rest
  | cs, line => by
      rw [skipBlanks.eq_def line cs]
      split
      · rw [List.cons_append, skipBlanks, skipBlanks_append]
      · rw [List.cons_append, skipBlanks, skipBlanks_append]
      · rw [List.cons_append, skipBlanks, skipBlanks_append]
      · rw [List.cons_append, skipBlanks, skipBlanks_append]
      · rw [List.cons_append, List.cons_append, skipBlanks, skipComment_append]
      · next hnewline hblank htab hreturn hcomment =>
        cases cs with
        | nil => rw [List.nil_append, skipBlanks, goOn]
        | cons c cs =>
            rw [goOn, List.cons_append, skipBlanks]
            all_goals
              intro left heq
              obtain ⟨rfl, htail⟩ := List.cons.inj heq
            · exact hnewline _ rfl
            · exact hblank _ rfl
            · exact htab _ rfl
            · exact hreturn _ rfl
            · cases cs with
              | nil => exact absurd (List.cons.inj htail).1 (by decide)
              | cons d cs =>
                  obtain ⟨rfl, -⟩ := List.cons.inj htail
                  exact hcomment _ rfl
termination_by cs => cs.length

theorem skipComment_append (rest : List Char) : ∀ (cs : List Char) (line : Nat),
    skipComment line (cs ++ '\n' :: rest) = goOn (skipComment line cs) rest
  | cs, line => by
      rw [skipComment.eq_def line cs]
      split
      · rw [List.nil_append, skipComment, goOn]
      · rw [List.cons_append, skipComment, skipBlanks_append]
      · rw [List.cons_append, skipComment, skipBlanks_append]
      · next hnewline hreturn =>
        rw [List.cons_append, skipComment, skipComment_append]
        · exact hnewline
        · exact hreturn
termination_by cs => cs.length

end

/-! ## Tokens -/

theorem takeWhile_append_newline (test : Char → Bool) (h : test '\n' = false)
    (cs rest : List Char) :
    (cs ++ '\n' :: rest).takeWhile test = cs.takeWhile test ∧
      (cs ++ '\n' :: rest).dropWhile test = cs.dropWhile test ++ '\n' :: rest := by
  induction cs with
  | nil => simp [h]
  | cons c cs ih =>
      cases hc : test c with
      | true => simpa [hc] using ih
      | false => simp [hc]

/-- What ends inside of a text ends there when the text goes on. -/
theorem takeWhile_append_inside {test : Char → Bool} {cs : List Char} {c : Char} {left : List Char}
    (h : cs.dropWhile test = c :: left) (rest : List Char) :
    (cs ++ rest).takeWhile test = cs.takeWhile test ∧
      (cs ++ rest).dropWhile test = c :: (left ++ rest) := by
  induction cs with
  | nil => exact nomatch h
  | cons d cs ih =>
      cases hd : test d with
      | true =>
          rw [List.dropWhile_cons_of_pos hd] at h
          simpa [hd] using ih h
      | false =>
          rw [List.dropWhile_cons_of_neg (by simp [hd])] at h
          obtain ⟨rfl, rfl⟩ := List.cons.inj h
          simp [hd]

theorem eq_spelling_append {cs rest : List Char} {s : Sign} (h : takeSign? cs = some (s, rest)) :
    cs = s.spelling ++ rest := by
  rw [takeSign?.eq_def] at h
  split at h <;> cases h <;> rfl

/-- The sign that is taken is the longest one, but a slash is taken from two slashes. -/
theorem not_extended {rest : List Char} {s : Sign}
    (h : takeSign? (s.spelling ++ rest) = some (s, rest)) (hs : s ≠ .slash) :
    ∀ c ∈ rest.head?, s.extendedBy c = false := by
  intro c hc
  obtain ⟨left, rfl⟩ := List.head?_eq_some_iff.mp hc
  refine Bool.eq_false_iff.mpr fun hext => ?_
  rw [Sign.extendedBy.eq_def] at hext
  split at hext
  case h_10 => exact hs rfl
  case h_11 => exact Bool.false_ne_true hext
  all_goals exact absurd h nofun

theorem takeSign?_append {cs left : List Char} {s : Sign} (h : takeSign? cs = some (s, left))
    (rest : List Char) : takeSign? (cs ++ '\n' :: rest) = some (s, left ++ '\n' :: rest) := by
  obtain rfl := eq_spelling_append h
  rw [List.append_assoc]
  by_cases hs : s = .slash
  · subst hs
    rfl
  · refine takeSign?_spelling s fun c hc => ?_
    cases left with
    | nil =>
        obtain rfl := Option.some.inj hc
        cases s <;> rfl
    | cons d left => exact not_extended h hs c hc

theorem takeToken?_append {cs left : List Char} {t : Token} (h : takeToken? cs = some (t, left))
    (rest : List Char) : takeToken? (cs ++ '\n' :: rest) = some (t, left ++ '\n' :: rest) := by
  cases cs with
  | nil => exact nomatch h
  | cons c cs =>
      rw [takeToken?] at h
      rw [List.cons_append, takeToken?]
      split at h
      · next hstart =>
        obtain ⟨htake, hdrop⟩ := takeWhile_append_newline isWordChar rfl cs rest
        obtain ⟨rfl, rfl⟩ := Prod.mk.inj (Option.some.inj h)
        rw [if_pos hstart, htake, hdrop]
      · next hstart =>
        rw [if_neg hstart]
        split at h
        · next hdigit =>
          obtain ⟨htake, hdrop⟩ := takeWhile_append_newline Char.isDigit rfl cs rest
          obtain ⟨rfl, rfl⟩ := Prod.mk.inj (Option.some.inj h)
          rw [if_pos hdigit, htake, hdrop]
        · next hdigit =>
          rw [if_neg hdigit]
          split at h
          · next hquote =>
            rw [if_pos hquote]
            cases hclose : cs.dropWhile (· ≠ '"') with
            | nil =>
                rw [hclose] at h
                cases h
            | cons q left =>
                obtain ⟨htake, hdrop⟩ := takeWhile_append_inside hclose ('\n' :: rest)
                rw [hclose] at h
                obtain ⟨rfl, rfl⟩ := Prod.mk.inj (Option.some.inj h)
                rw [htake, hdrop]
          · next hquote =>
            rw [if_neg hquote]
            obtain ⟨⟨s, left⟩, hsign, heq⟩ := Option.map_eq_some_iff.mp h
            obtain ⟨rfl, rfl⟩ := Prod.mk.inj heq
            have hmore := takeSign?_append hsign rest
            rw [List.cons_append] at hmore
            rw [hmore, Option.map_some]

/-! ## Texts -/

theorem scanFrom_of_le {budget budget' line : Nat} {cs : List Char} {ts : List Lexeme}
    (h : scanFrom budget line cs = some ts) (hle : budget ≤ budget') :
    scanFrom budget' line cs = some ts := by
  induction budget generalizing budget' line cs ts with
  | zero => exact nomatch h
  | succ b ih =>
      obtain ⟨b', rfl⟩ : ∃ b', budget' = b' + 1 := ⟨budget' - 1, by omega⟩
      rw [scanFrom] at h ⊢
      split at h
      · exact h
      · obtain ⟨⟨t, left⟩, htake, h⟩ := Option.bind_eq_some_iff.mp h
        obtain ⟨us, hus, h⟩ := Option.bind_eq_some_iff.mp h
        rw [htake, Option.bind_eq_bind, Option.bind_some]
        simp only [ih hus (by omega : b ≤ b'), Option.bind_eq_bind, Option.bind_some]
        exact h

theorem scanFrom_add (lines : Nat) {budget line : Nat} {cs : List Char} :
    scanFrom budget (line + lines) cs =
      (scanFrom budget line cs).map (List.map (Lexeme.moveDown lines)) := by
  induction budget generalizing line cs with
  | zero => rfl
  | succ b ih =>
      rw [scanFrom, scanFrom, skipBlanks_add]
      rcases skipBlanks line cs with ⟨line', _ | ⟨c, cs⟩⟩
      · rfl
      · cases htake : takeToken? (c :: cs) with
        | none => simp [htake]
        | some r =>
            have hline : line' + lines + r.1.lineBreaks = line' + r.1.lineBreaks + lines := by omega
            simp only [htake, Option.bind_eq_bind, Option.bind_some, hline, ih]
            cases scanFrom b (line' + r.1.lineBreaks) r.2 <;> rfl

theorem scanFrom_congr {budget line line' : Nat} {cs cs' : List Char}
    (h : skipBlanks line cs = skipBlanks line' cs') :
    scanFrom budget line cs = scanFrom budget line' cs' := by
  cases budget with
  | zero => rfl
  | succ b => rw [scanFrom, scanFrom, h]

theorem line_le_skipBlanks (line : Nat) (cs : List Char) : line ≤ (skipBlanks line cs).1 := by
  have hskip := skipBlanks_add line cs 0
  rw [Nat.zero_add] at hskip
  rw [hskip]
  exact Nat.le_add_left line _

/-- Behind a text that can be split, and a line break, another text is split as it would be
further down. -/
theorem scanFrom_append {budget line : Nat} {cs : List Char} {ts : List Lexeme}
    (h : scanFrom budget line cs = some ts) :
    ∃ lines, ∀ {budget' rest us}, scanFrom budget' (line + lines) rest = some us →
      scanFrom (budget + budget') line (cs ++ '\n' :: rest) = some (ts ++ us) := by
  induction budget generalizing line cs ts with
  | zero => exact nomatch h
  | succ b ih =>
      rw [scanFrom] at h
      have hle := line_le_skipBlanks line cs
      have happend (rest : List Char) := skipBlanks_append rest cs line
      generalize skipBlanks line cs = skipped at h hle happend
      obtain ⟨line', _ | ⟨c, left⟩⟩ := skipped
      · -- nothing but blanks is left, and the line break ends the last comment
        obtain rfl := Option.some.inj h
        refine ⟨line' + 1 - line, fun {budget' rest us} hrest => ?_⟩
        rw [show line + (line' + 1 - line) = line' + 1 by omega] at hrest
        rw [scanFrom_congr (happend rest)]
        exact scanFrom_of_le hrest (by omega)
      · obtain ⟨⟨t, left'⟩, htake, h⟩ := Option.bind_eq_some_iff.mp h
        obtain ⟨us', hus', h⟩ := Option.bind_eq_some_iff.mp h
        obtain rfl := Option.some.inj h
        obtain ⟨lines, hlines⟩ := ih hus'
        refine ⟨line' + t.lineBreaks + lines - line, fun {budget' rest us} hrest => ?_⟩
        rw [show line + (line' + t.lineBreaks + lines - line) = line' + t.lineBreaks + lines by
          dsimp only at hle; omega] at hrest
        have hmore : takeToken? (c :: (left ++ '\n' :: rest)) = some (t, left' ++ '\n' :: rest) :=
          takeToken?_append htake rest
        rw [Nat.add_right_comm, scanFrom, happend rest]
        simp only [goOn, List.cons_append, hmore, hlines hrest, Option.bind_eq_bind,
          Option.bind_some]
        rfl

/-- Two texts with a line break between them are split into the tokens of the first and, further
down, those of the second. -/
theorem scan_append {s₁ s₂ : String} {ts us : List Lexeme} (h₁ : scan s₁ = some ts)
    (h₂ : scan s₂ = some us) :
    ∃ lines, scan (s₁ ++ "\n" ++ s₂) = some (ts ++ us.map (Lexeme.moveDown lines)) := by
  obtain ⟨lines, happend⟩ := scanFrom_append h₁
  refine ⟨lines, ?_⟩
  have hsecond : scanFrom (s₂.length + 1) (1 + lines) s₂.toList =
      some (us.map (Lexeme.moveDown lines)) := by
    rw [scanFrom_add]
    exact congrArg (Option.map _) h₂
  have hlength : (s₁ ++ "\n" ++ s₂).length + 1 = s₁.length + 1 + (s₂.length + 1) := by
    have hbreak : "\n".length = 1 := rfl
    rw [String.length_append, String.length_append, hbreak]
    omega
  have hlist : (s₁ ++ "\n" ++ s₂).toList = s₁.toList ++ '\n' :: s₂.toList := by
    simp
  rw [scan, hlength, hlist]
  exact happend hsecond

end TaintAnalysis.Source
