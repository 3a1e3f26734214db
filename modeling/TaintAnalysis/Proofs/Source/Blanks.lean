import TaintAnalysis.Proofs.Source.Matching

/-!
# Blanks and comments in the grammar

Between the parts of a rule as many blanks and comments are taken as there are. That is
what is skipped between the tokens of a text, and it never fails.
-/

namespace TaintAnalysis.Source

/-! ## Blanks -/

mutual

/-- Nothing is left to skip. -/
theorem skipBlanks_skipBlanks : ∀ (cs : List Char) (line : Nat),
    skipBlanks (skipBlanks line cs).1 (skipBlanks line cs).2 = skipBlanks line cs
  | cs, line => by
      rw [skipBlanks.eq_def line]
      split
      · exact skipBlanks_skipBlanks _ _
      · exact skipBlanks_skipBlanks _ _
      · exact skipBlanks_skipBlanks _ _
      · exact skipBlanks_skipBlanks _ _
      · exact skipBlanks_skipComment _ _
      · next hnewline hblank htab hreturn hcomment =>
        rw [skipBlanks]
        · exact hnewline
        · exact hblank
        · exact htab
        · exact hreturn
        · exact hcomment
termination_by cs => cs.length

theorem skipBlanks_skipComment : ∀ (cs : List Char) (line : Nat),
    skipBlanks (skipComment line cs).1 (skipComment line cs).2 = skipComment line cs
  | cs, line => by
      rw [skipComment.eq_def line]
      split
      · rfl
      · exact skipBlanks_skipBlanks _ _
      · exact skipBlanks_skipBlanks _ _
      · exact skipBlanks_skipComment _ _
termination_by cs => cs.length

end

/-- The same is left of the text at both places when blanks have been skipped. -/
def Input.SameBehindBlanks (i j : Input) : Prop :=
  skipBlanks i.line i.chars = skipBlanks j.line j.chars

/-- No blank stands in front. -/
def Input.Blankless (i : Input) : Prop :=
  ∀ c ∈ i.chars.head?, c ∉ [' ', '\t', '\n', '\r']

theorem Input.Blankless.skipBlanks {i : Input} (h : i.Blankless)
    (hcomment : ¬ ['/', '/'] <+: i.chars) : skipBlanks i.line i.chars = (i.line, i.chars) := by
  rw [Source.skipBlanks.eq_def]
  split
  case h_5 =>
    next rest hchars => exact absurd (hchars ▸ List.prefix_append ['/', '/'] rest) hcomment
  case h_6 => rfl
  all_goals
    next rest hchars =>
      have hfirst := h _ (by rw [hchars]; rfl)
      simp at hfirst

section

variable {α : Type} {n : Nat} {m : Mode}

/-- Of several patterns the first one matches that is not refused. -/
theorem yields_any {f : α → Pattern} {P : α → Input → List Node → Input → Prop}
    {N : α → Input → Prop} (hP : ∀ a, Yields n m (f a) (P a)) (hN : ∀ a, Refuses n m (f a) (N a)) :
    ∀ l : List α, Yields n m (.any (l.map f)) fun i nodes rest =>
      ∃ before a behind, l = before ++ a :: behind ∧ (∀ b ∈ before, N b i) ∧ P a i nodes rest
  | [] => by
      refine (yields_not (refuses_text n m [])).mono fun _ _ _ h => ?_
      exact absurd (List.nil_prefix) h.2.2
  | [a] => (hP a).mono fun i nodes rest h =>
      ⟨[], a, [], rfl, fun b hb => absurd hb List.not_mem_nil, h⟩
  | a :: b :: l => by
      refine (yields_alt (hP a) (hN a) (yields_any hP hN (b :: l))).mono fun i nodes rest h => ?_
      rcases h with h | ⟨hrefused, before, c, behind, hl, hbefore, h⟩
      · exact ⟨[], a, b :: l, rfl, fun b hb => absurd hb List.not_mem_nil, h⟩
      · refine ⟨a :: before, c, behind, by rw [hl]; rfl, ?_, h⟩
        exact List.forall_mem_cons.mpr ⟨hrefused, hbefore⟩

theorem refuses_any {f : α → Pattern} {N : α → Input → Prop}
    (hN : ∀ a, Refuses n m (f a) (N a)) :
    ∀ l : List α, l ≠ [] → Refuses n m (.any (l.map f)) fun i => ∀ a ∈ l, N a i
  | [], hl => absurd rfl hl
  | [a], _ => fun k hk _ h => List.forall_mem_singleton.mpr (hN a k hk h)
  | a :: b :: l, _ => fun k hk _ h =>
      List.forall_mem_cons.mpr
        (refuses_alt (hN a) (refuses_any hN (b :: l) (List.cons_ne_nil b l)) k hk h)

/-- One of several spellings. -/
theorem yields_spelling (l : List (List Char)) :
    Yields n m (.any (l.map .text)) fun i nodes rest =>
      nodes = [] ∧ ∃ cs ∈ l, i.Takes cs rest := by
  refine (yields_any (yields_text n m) (refuses_text n m) l).mono fun i nodes rest h => ?_
  obtain ⟨before, cs, behind, rfl, -, rfl, h⟩ := h
  exact ⟨rfl, cs, List.mem_append_right before List.mem_cons_self, h⟩

theorem refuses_spelling {l : List (List Char)} (hl : l ≠ []) :
    Refuses n m (.any (l.map .text)) fun i => ∀ cs ∈ l, ¬ cs <+: i.chars :=
  refuses_any (refuses_text n m) l hl

theorem yields_newline : Yields n m .newline fun i nodes rest =>
    nodes = [] ∧ ∃ cs ∈ [['\n'], ['\r', '\n'], ['\r']], i.Takes cs rest :=
  yields_spelling [['\n'], ['\r', '\n'], ['\r']]

theorem refuses_newline : Refuses n m .newline fun i =>
    ∀ cs ∈ [['\n'], ['\r', '\n'], ['\r']], ¬ cs <+: i.chars :=
  refuses_spelling (l := [['\n'], ['\r', '\n'], ['\r']]) (List.cons_ne_nil _ _)

end

section

variable {n : Nat}

theorem sameBehindBlanks_of_takes {i j : Input} {cs : List Char} (h : i.Takes cs j)
    (hcs : cs ∈ [[' '], ['\t'], ['\n'], ['\r', '\n'], ['\r']]) : i.SameBehindBlanks j := by
  rw [Input.SameBehindBlanks, h.1, h.2]
  simp only [List.mem_cons, List.not_mem_nil, or_false] at hcs
  rcases hcs with rfl | rfl | rfl | rfl | rfl
  all_goals simp [skipBlanks]

theorem yields_whitespace : Yields n .inToken (.rule .whitespace) fun i nodes rest =>
    nodes = [] ∧ i.SameBehindBlanks rest := by
  have hpattern : Yields n .inToken Rule.whitespace.pattern fun i nodes rest =>
      nodes = [] ∧ i.SameBehindBlanks rest := by
    refine (yields_alt (yields_text n .inToken [' ']) (refuses_text n .inToken [' '])
      (yields_alt (yields_text n .inToken ['\t']) (refuses_text n .inToken ['\t'])
        yields_newline)).mono fun i nodes rest h => ?_
    rcases h with ⟨hnodes, h⟩ | ⟨-, ⟨hnodes, h⟩ | ⟨-, hnodes, cs, hcs, h⟩⟩
    · exact ⟨hnodes, sameBehindBlanks_of_takes h (by simp)⟩
    · exact ⟨hnodes, sameBehindBlanks_of_takes h (by simp)⟩
    · exact ⟨hnodes, sameBehindBlanks_of_takes h
        (List.mem_cons_of_mem _ (List.mem_cons_of_mem _ hcs))⟩
  refine ((yields_rule hpattern).le (Nat.le_succ n)).mono fun i nodes rest h => ?_
  obtain ⟨inner, ⟨hinner, hsame⟩, hnodes⟩ := h
  exact ⟨hnodes.trans hinner, hsame⟩

theorem head?_of_not_prefix {c : Char} {cs : List Char} (h : ¬ [c] <+: cs) : cs.head? ≠ some c := by
  intro hc
  obtain ⟨rest, rfl⟩ := List.head?_eq_some_iff.mp hc
  exact h (List.prefix_append [c] rest)

theorem refuses_whitespace : Refuses n .inToken (.rule .whitespace) Input.Blankless := by
  have hpattern : Refuses n .inToken Rule.whitespace.pattern Input.Blankless := by
    intro k hk i hrun c hc hblank
    obtain ⟨hspace, htab, hnewline⟩ := refuses_alt (refuses_text n .inToken [' '])
      (refuses_alt (refuses_text n .inToken ['\t']) refuses_newline) k hk hrun
    simp only [List.mem_cons, List.not_mem_nil, or_false] at hblank
    rcases hblank with rfl | rfl | rfl | rfl
    · exact head?_of_not_prefix hspace hc
    · exact head?_of_not_prefix htab hc
    · exact head?_of_not_prefix (hnewline ['\n'] (by simp)) hc
    · exact head?_of_not_prefix (hnewline ['\r'] (by simp)) hc
  exact fun k hk => refuses_rule hpattern k (hk.trans (Nat.le_succ n))

/-- What a repetition keeps, if nothing is skipped between its parts. -/
theorem Repeats.keeps {m : Mode} {P : Input → List Node → Input → Prop} {N K : Input → Prop}
    {R : Input → Input → Prop} (hm : m ≠ .spaced) (hrefl : ∀ i, R i i)
    (htrans : ∀ {i j k}, R i j → R j k → R i k)
    (hstep : ∀ {i nodes j}, K i → P i nodes j → nodes = [] ∧ R i j ∧ K j) {i j : Input}
    {nodes : List Node} (h : Repeats m P N i nodes j) (hi : K i) :
    nodes = [] ∧ R i j ∧ K j ∧ N j := by
  have hsame {i j : Input} (h : Skips m i j) : j = i := by rwa [Skips, if_neg hm] at h
  have hfurther : ∀ {i nodes j}, Further m P N i nodes j → K i →
      nodes = [] ∧ R i j ∧ K j ∧ N j := by
    intro i nodes j h
    induction h with
    | done hskip hn =>
        obtain rfl := hsame hskip
        exact fun hi => ⟨rfl, hrefl _, hi, hn⟩
    | step hskip hp _ ih =>
        obtain rfl := hsame hskip
        intro hi
        obtain ⟨rfl, hr, hj⟩ := hstep hi hp
        obtain ⟨rfl, hr', hk⟩ := ih hj
        exact ⟨rfl, htrans hr hr', hk⟩
  cases h with
  | none hn => exact ⟨rfl, hrefl _, hi, hn⟩
  | some hp hmore =>
      obtain ⟨rfl, hr, hj⟩ := hstep hi hp
      obtain ⟨rfl, hr', hk⟩ := hfurther hmore hj
      exact ⟨rfl, htrans hr hr', hk⟩

theorem yields_whitespaces : Yields n .inToken (.many (.rule .whitespace)) fun i nodes rest =>
    nodes = [] ∧ i.SameBehindBlanks rest ∧ rest.Blankless := by
  have hmany := (skipsOnly_of_ne (by decide) n).many yields_whitespace refuses_whitespace
  refine hmany.mono fun i nodes rest h => ?_
  obtain ⟨hnodes, hsame, -, hblankless⟩ := h.keeps (K := fun _ => True)
    (R := Input.SameBehindBlanks) (by decide) (fun _ => rfl) Eq.trans (fun _ h => ⟨h.1, h.2, trivial⟩) trivial
  exact ⟨hnodes, hsame, hblankless⟩

theorem skips_inToken {i j : Input} : Skips .inToken i j ↔ j = i :=
  Iff.rfl

/-- One character of a comment. -/
theorem yields_commentChar :
    Yields n .inToken (.seq (.not .newline) (.char fun _ => true)) fun i nodes rest =>
      nodes = [] ∧ ∃ c, c ∉ ['\n', '\r'] ∧ i.Takes [c] rest := by
  refine ((skipsOnly_of_ne (by decide) n).seq (yields_not refuses_newline)
    (yields_char n .inToken fun _ => true)).mono fun i nodes rest h => ?_
  obtain ⟨_, _, _, _, ⟨rfl, rfl, hnewline⟩, hskip, ⟨rfl, c, -, hc⟩, rfl⟩ := h
  obtain rfl := skips_inToken.mp hskip
  refine ⟨rfl, c, fun hmem => ?_, hc⟩
  simp only [List.mem_cons, List.not_mem_nil, or_false] at hmem
  rcases hmem with rfl | rfl
  · exact hnewline ['\n'] (by simp) (hc.1 ▸ List.prefix_append _ _)
  · exact hnewline ['\r'] (by simp) (hc.1 ▸ List.prefix_append _ _)

/-- A comment goes to the end of its line, or to the end of the text. -/
theorem refuses_commentChar :
    Refuses n .inToken (.seq (.not .newline) (.char fun _ => true)) fun i =>
      skipComment i.line i.chars = skipBlanks i.line i.chars := by
  intro k hk i hrun
  rcases (skipsOnly_of_ne (by decide) n).refuses_seq (yields_not refuses_newline)
    (refuses_not yields_newline) (refuses_char n .inToken fun _ => true) k hk hrun with
    ⟨_, rest, -, cs, hcs, htakes⟩ | ⟨_, j, l, ⟨-, rfl, -⟩, hskip, hend⟩
  · rw [htakes.1]
    simp only [List.mem_cons, List.not_mem_nil, or_false] at hcs
    rcases hcs with rfl | rfl | rfl
    all_goals simp [skipComment, skipBlanks]
  · obtain rfl := skips_inToken.mp hskip
    cases hchars : l.chars with
    | nil => rfl
    | cons c cs =>
        rw [hchars] at hend
        exact absurd (hend c rfl) Bool.noConfusion

theorem yields_comment : Yields n .inToken (.rule .comment) fun i nodes rest =>
    nodes = [] ∧ i.SameBehindBlanks rest := by
  have hskip := skipsOnly_of_ne (m := .inToken) (by decide) n
  have hpattern : Yields n .inToken Rule.comment.pattern fun i nodes rest =>
      nodes = [] ∧ i.SameBehindBlanks rest := by
    refine (hskip.seq (yields_text n .inToken ['/', '/'])
      (hskip.many yields_commentChar refuses_commentChar)).mono fun i nodes rest h => ?_
    obtain ⟨_, j, l, _, ⟨rfl, hslashes⟩, hsame, hchars, rfl⟩ := h
    obtain rfl := skips_inToken.mp hsame
    have hone {i j : Input} (h : ∃ c, c ∉ ['\n', '\r'] ∧ i.Takes [c] j) :
        skipComment i.line i.chars = skipComment j.line j.chars := by
      obtain ⟨c, hc, htakes⟩ := h
      simp only [List.mem_cons, List.not_mem_nil, or_false, not_or] at hc
      have hlines : [c].count '\n' = 0 := List.count_eq_zero.mpr (by simpa using Ne.symm hc.1)
      rw [htakes.1, htakes.2, hlines, Nat.add_zero, List.singleton_append, skipComment]
      · exact hc.1
      · exact hc.2
    obtain ⟨rfl, hbody, -, hend⟩ := hchars.keeps (K := fun _ => True)
      (R := fun i j => skipComment i.line i.chars = skipComment j.line j.chars)
      (by decide) (fun _ => rfl) Eq.trans (fun _ h => ⟨h.1, hone h.2, trivial⟩) trivial
    refine ⟨rfl, ?_⟩
    rw [Input.SameBehindBlanks, ← hend, ← hbody, hslashes.1, hslashes.2]
    simp [skipBlanks]
  refine ((yields_rule hpattern).le (Nat.le_succ n)).mono fun i nodes rest h => ?_
  obtain ⟨inner, ⟨hinner, hsame⟩, hnodes⟩ := h
  exact ⟨hnodes.trans hinner, hsame⟩

theorem refuses_comment : Refuses n .inToken (.rule .comment) fun i =>
    ¬ ['/', '/'] <+: i.chars := by
  have hpattern : Refuses n .inToken Rule.comment.pattern fun i => ¬ ['/', '/'] <+: i.chars := by
    intro k hk i hrun
    rcases (skipsOnly_of_ne (by decide) n).refuses_seq (yields_text n .inToken ['/', '/'])
      (refuses_text n .inToken ['/', '/']) (refuses_many n .inToken _) k hk hrun with
      h | ⟨_, _, _, _, _, h⟩
    · exact h
    · exact h.elim
  exact fun k hk => refuses_rule hpattern k (hk.trans (Nat.le_succ n))

theorem yields_blanks : Yields n .inToken .blanks fun i nodes rest =>
    nodes = [] ∧ skipBlanks i.line i.chars = (rest.line, rest.chars) := by
  have hskip := skipsOnly_of_ne (m := .inToken) (by decide) n
  have hcomments := hskip.many (hskip.seq yields_comment yields_whitespaces)
    (hskip.refuses_seq yields_comment refuses_comment (refuses_many n .inToken _))
  refine (hskip.seq yields_whitespaces hcomments).mono fun i nodes rest h => ?_
  obtain ⟨_, j, l, _, ⟨rfl, hfirst, hblankless⟩, hsame, hcomments, rfl⟩ := h
  obtain rfl := skips_inToken.mp hsame
  obtain ⟨rfl, hrest, hblankless, hcomment⟩ := hcomments.keeps (K := Input.Blankless)
    (R := Input.SameBehindBlanks) (by decide) (fun _ => rfl) Eq.trans
    (by
      rintro i nodes j - ⟨_, l, l', _, ⟨rfl, hcomment⟩, hsame, ⟨rfl, hspaces, hblankless⟩, rfl⟩
      obtain rfl := skips_inToken.mp hsame
      exact ⟨rfl, hcomment.trans hspaces, hblankless⟩) hblankless
  refine ⟨rfl, hfirst.trans (hrest.trans (hblankless.skipBlanks ?_))⟩
  rcases hcomment with hcomment | ⟨_, _, _, _, _, hcomment⟩
  · exact hcomment
  · exact hcomment.elim

theorem skipsOnly (n : Nat) (m : Mode) : SkipsOnly n m := by
  by_cases hm : m = .spaced
  · subst hm
    refine ⟨fun k hk i nodes rest hrun => ?_, fun k hk i hrun => ?_⟩
    · exact (yields_blanks (n := n) k hk hrun).2
    · have hrefused := (skipsOnly_of_ne (by decide) n).refuses_seq yields_whitespaces
        (refuses_many n .inToken _) (refuses_many n .inToken _) k hk hrun
      rcases hrefused with h | ⟨_, _, _, _, _, h⟩
      · exact h
      · exact h
  · exact skipsOnly_of_ne hm n

end

end TaintAnalysis.Source
