import TaintAnalysis.Proofs.Source.Grammar

/-!
# What a pattern matches

A statement about a pattern says what holds between the place where it starts to match,
the nodes that it leaves and the place where it stops, whatever the budget. What holds of
a pattern follows from what holds of its parts; the rules of the grammar are then treated
one by one.

The blanks between the parts of a rule are those that stand between the tokens of a text.
-/

namespace TaintAnalysis.Source

/-! ## Matching, pattern by pattern -/

namespace Pattern

variable (n : Nat) (m : Mode) (p q : Pattern) (i : Input)

theorem run_text (spelling : List Char) : run (n + 1) m (.text spelling) i =
    if spelling.isPrefixOf i.chars then .matched [] (i.advance spelling.length) else .refused := rfl

theorem run_char (test : Char → Bool) : run (n + 1) m (.char test) i =
    if i.chars.head?.any test then .matched [] (i.advance 1) else .refused := rfl

theorem run_rule (r : Rule) : run (n + 1) m (.rule r) i =
    (run n (r.kind.inside m) r.pattern i).andThen fun nodes rest =>
      .matched (if r.kind.leavesNode m then [.between r nodes i rest] else nodes) rest := rfl

theorem run_seq : run (n + 1) m (.seq p q) i =
    (run n m p i).andThen fun nodes i =>
      (if m = .spaced then run n .inToken blanks i else .matched [] i).andThen fun _ i =>
        (run n m q i).andThen fun nodes' rest => .matched (nodes ++ nodes') rest := rfl

theorem run_alt : run (n + 1) m (.alt p q) i = (run n m p i).orElse (run n m q i) := rfl

theorem run_opt : run (n + 1) m (.opt p) i = (run n m p i).orElse (.matched [] i) := rfl

theorem run_many : run (n + 1) m (.many p) i =
    ((run n m p i).andThen fun nodes i => (run n m (.more p) i).andThen fun nodes' rest =>
      .matched (nodes ++ nodes') rest).orElse (.matched [] i) := rfl

theorem run_more : run (n + 1) m (.more p) i =
    ((if m = .spaced then run n .inToken blanks i else .matched [] i).andThen fun _ i =>
      (run n m p i).andThen fun nodes i => (run n m (.more p) i).andThen fun nodes' rest =>
        .matched (nodes ++ nodes') rest).orElse (.matched [] i) := rfl

theorem run_not : run (n + 1) m (.not p) i =
    match run n m p i with
    | .matched _ _ => .refused
    | .refused => .matched [] i
    | .exhausted => .exhausted := rfl

end Pattern

/-! ## Statements about patterns -/

/-- The statement holds of all that the pattern matches within a budget. -/
def Yields (n : Nat) (m : Mode) (p : Pattern) (P : Input → List Node → Input → Prop) : Prop :=
  ∀ k ≤ n, ∀ ⦃i nodes rest⦄, p.run k m i = .matched nodes rest → P i nodes rest

/-- The statement holds wherever the pattern is refused. -/
def Refuses (n : Nat) (m : Mode) (p : Pattern) (P : Input → Prop) : Prop :=
  ∀ k ≤ n, ∀ ⦃i⦄, p.run k m i = .refused → P i

/-- The characters stand in front, and the rest of the text is behind them. -/
def Input.Takes (i : Input) (cs : List Char) (rest : Input) : Prop :=
  i.chars = cs ++ rest.chars ∧ rest.line = i.line + cs.count '\n'

theorem Input.Takes.append {i j k : Input} {cs ds : List Char} (h : i.Takes cs j)
    (h' : j.Takes ds k) : i.Takes (cs ++ ds) k := by
  refine ⟨by rw [h.1, h'.1, List.append_assoc], ?_⟩
  rw [h'.2, h.2, List.count_append, Nat.add_assoc]

theorem Input.takes_advance {i : Input} {cs rest : List Char} (h : i.chars = cs ++ rest) :
    i.Takes cs (i.advance cs.length) := by
  refine ⟨?_, ?_⟩
  · rw [advance, h, List.drop_left]
  · rw [advance, h, List.take_left]

/-- What the node of a rule says its text is. -/
theorem Node.between_eq {i rest : Input} {cs : List Char} (h : i.Takes cs rest) (r : Rule)
    (children : List Node) :
    Node.between r children i rest = ⟨r, String.ofList cs, i.line, children⟩ := by
  have hlength : i.chars.length - rest.chars.length = cs.length := by
    rw [h.1, List.length_append]
    omega
  rw [between, hlength, h.1, List.take_left]

/-- Only blanks stand between the two places, as far as there may be any. -/
def Skips (m : Mode) (i j : Input) : Prop :=
  if m = .spaced then skipBlanks i.line i.chars = (j.line, j.chars) else j = i

section

variable {n : Nat} {m : Mode} {p q : Pattern} {P Q : Input → List Node → Input → Prop}
  {N : Input → Prop}

theorem Yields.le {k : Nat} (h : Yields n m p P) (hk : k ≤ n) : Yields k m p P :=
  fun l hl _ _ _ hrun => h l (hl.trans hk) hrun

theorem Yields.mono (h : Yields n m p P) (hPQ : ∀ i nodes rest, P i nodes rest → Q i nodes rest) :
    Yields n m p Q :=
  fun k hk _ _ _ hrun => hPQ _ _ _ (h k hk hrun)

theorem Yields.and (h : Yields n m p P) (h' : Yields n m p Q) :
    Yields n m p fun i nodes rest => P i nodes rest ∧ Q i nodes rest :=
  fun k hk _ _ _ hrun => ⟨h k hk hrun, h' k hk hrun⟩

theorem andThen_eq_matched {o : Outcome} {next : List Node → Input → Outcome} {nodes : List Node}
    {rest : Input} (h : o.andThen next = .matched nodes rest) :
    ∃ nodes' j, o = .matched nodes' j ∧ next nodes' j = .matched nodes rest := by
  cases o with
  | matched nodes' j => exact ⟨nodes', j, rfl, h⟩
  | exhausted => cases h
  | refused => cases h

theorem orElse_eq_matched {o next : Outcome} {nodes : List Node} {rest : Input}
    (h : o.orElse next = .matched nodes rest) :
    o = .matched nodes rest ∨ o = .refused ∧ next = .matched nodes rest := by
  cases o with
  | matched nodes' j => exact .inl h
  | exhausted => cases h
  | refused => exact .inr ⟨rfl, h⟩

theorem andThen_eq_refused {o : Outcome} {next : List Node → Input → Outcome}
    (h : o.andThen next = .refused) :
    o = .refused ∨ ∃ nodes j, o = .matched nodes j ∧ next nodes j = .refused := by
  cases o with
  | matched nodes j => exact .inr ⟨nodes, j, rfl, h⟩
  | exhausted => cases h
  | refused => exact .inl rfl

theorem orElse_matched_ne_refused {o : Outcome} {nodes : List Node} {rest : Input} :
    o.orElse (.matched nodes rest) ≠ .refused := by
  intro h
  cases o <;> cases h

theorem Yields.of_succ (h : ∀ k, k + 1 ≤ n → ∀ ⦃i nodes rest⦄,
    p.run (k + 1) m i = .matched nodes rest → P i nodes rest) : Yields n m p P := by
  intro k hk i nodes rest hrun
  cases k with
  | zero => cases hrun
  | succ k => exact h k hk hrun

theorem Refuses.of_succ (h : ∀ k, k + 1 ≤ n → ∀ ⦃i⦄, p.run (k + 1) m i = .refused → N i) :
    Refuses n m p N := by
  intro k hk i hrun
  cases k with
  | zero => cases hrun
  | succ k => exact h k hk hrun

theorem yields_text (n : Nat) (m : Mode) (spelling : List Char) :
    Yields n m (.text spelling) fun i nodes rest => nodes = [] ∧ i.Takes spelling rest := by
  refine .of_succ fun k _ i nodes rest hrun => ?_
  rw [Pattern.run_text] at hrun
  split at hrun
  · next hfront =>
    obtain ⟨left, hleft⟩ := List.isPrefixOf_iff_prefix.mp hfront
    cases hrun
    exact ⟨rfl, Input.takes_advance hleft.symm⟩
  · cases hrun

theorem refuses_text (n : Nat) (m : Mode) (spelling : List Char) :
    Refuses n m (.text spelling) fun i => ¬ spelling <+: i.chars := by
  refine .of_succ fun k _ i hrun => ?_
  rw [Pattern.run_text] at hrun
  split at hrun
  · cases hrun
  · next hfront => exact fun h => hfront (List.isPrefixOf_iff_prefix.mpr h)

theorem yields_char (n : Nat) (m : Mode) (test : Char → Bool) :
    Yields n m (.char test) fun i nodes rest =>
      nodes = [] ∧ ∃ c, test c = true ∧ i.Takes [c] rest := by
  refine .of_succ fun k _ i nodes rest hrun => ?_
  rw [Pattern.run_char] at hrun
  cases hchars : i.chars with
  | nil =>
      rw [hchars] at hrun
      cases hrun
  | cons c cs =>
      rw [hchars] at hrun
      split at hrun
      · next htest =>
        cases hrun
        exact ⟨rfl, c, htest, Input.takes_advance hchars⟩
      · cases hrun

theorem refuses_char (n : Nat) (m : Mode) (test : Char → Bool) :
    Refuses n m (.char test) fun i => ∀ c ∈ i.chars.head?, test c = false := by
  refine .of_succ fun k _ i hrun c hc => ?_
  rw [Pattern.run_char, Option.mem_def.mp hc, Option.any_some] at hrun
  split at hrun
  · cases hrun
  · next htest => exact Bool.eq_false_iff.mpr htest

theorem yields_rule {r : Rule} (h : Yields n (r.kind.inside m) r.pattern P) :
    Yields (n + 1) m (.rule r) fun i nodes rest => ∃ inner, P i inner rest ∧
      nodes = if r.kind.leavesNode m then [.between r inner i rest] else inner := by
  refine .of_succ fun k hk i nodes rest hrun => ?_
  rw [Pattern.run_rule] at hrun
  obtain ⟨inner, j, hinner, hrun⟩ := andThen_eq_matched hrun
  cases hrun
  exact ⟨inner, h k (by omega) hinner, rfl⟩

theorem refuses_rule {r : Rule} (h : Refuses n (r.kind.inside m) r.pattern N) :
    Refuses (n + 1) m (.rule r) N := by
  refine .of_succ fun k hk i hrun => h k (by omega) ?_
  rw [Pattern.run_rule] at hrun
  cases hinner : Pattern.run k (r.kind.inside m) r.pattern i with
  | refused => rfl
  | exhausted | matched =>
      rw [hinner] at hrun
      cases hrun

theorem yields_alt (hp : Yields n m p P) (hr : Refuses n m p N) (hq : Yields n m q Q) :
    Yields n m (.alt p q) fun i nodes rest => P i nodes rest ∨ N i ∧ Q i nodes rest := by
  refine .of_succ fun k hk i nodes rest hrun => ?_
  rw [Pattern.run_alt] at hrun
  rcases orElse_eq_matched hrun with hfirst | ⟨hrefused, hsecond⟩
  · exact .inl (hp k (by omega) hfirst)
  · exact .inr ⟨hr k (by omega) hrefused, hq k (by omega) hsecond⟩

theorem refuses_alt {N' : Input → Prop} (hp : Refuses n m p N) (hq : Refuses n m q N') :
    Refuses n m (.alt p q) fun i => N i ∧ N' i := by
  refine .of_succ fun k hk i hrun => ?_
  rw [Pattern.run_alt] at hrun
  cases hfirst : Pattern.run k m p i with
  | refused =>
      rw [hfirst] at hrun
      exact ⟨hp k (by omega) hfirst, hq k (by omega) hrun⟩
  | exhausted | matched =>
      rw [hfirst] at hrun
      cases hrun

theorem yields_opt (hp : Yields n m p P) :
    Yields n m (.opt p) fun i nodes rest => P i nodes rest ∨ nodes = [] ∧ rest = i := by
  refine .of_succ fun k hk i nodes rest hrun => ?_
  rw [Pattern.run_opt] at hrun
  rcases orElse_eq_matched hrun with hfirst | ⟨-, hsecond⟩
  · exact .inl (hp k (by omega) hfirst)
  · cases hsecond
    exact .inr ⟨rfl, rfl⟩

theorem yields_not (hr : Refuses n m p N) :
    Yields n m (.not p) fun i nodes rest => nodes = [] ∧ rest = i ∧ N i := by
  refine .of_succ fun k hk i nodes rest hrun => ?_
  rw [Pattern.run_not] at hrun
  cases hinner : Pattern.run k m p i with
  | refused =>
      rw [hinner] at hrun
      cases hrun
      exact ⟨rfl, rfl, hr k (by omega) hinner⟩
  | exhausted | matched =>
      rw [hinner] at hrun
      cases hrun

theorem refuses_not (hp : Yields n m p P) :
    Refuses n m (.not p) fun i => ∃ nodes rest, P i nodes rest := by
  refine .of_succ fun k hk i hrun => ?_
  rw [Pattern.run_not] at hrun
  cases hinner : Pattern.run k m p i with
  | matched nodes rest => exact ⟨nodes, rest, hp k (by omega) hinner⟩
  | exhausted | refused =>
      rw [hinner] at hrun
      cases hrun

theorem refuses_many (n : Nat) (m : Mode) (p : Pattern) :
    Refuses n m (.many p) fun _ => False := by
  refine .of_succ fun k _ i hrun => ?_
  rw [Pattern.run_many] at hrun
  exact orElse_matched_ne_refused hrun

theorem refuses_more (n : Nat) (m : Mode) (p : Pattern) :
    Refuses n m (.more p) fun _ => False := by
  refine .of_succ fun k _ i hrun => ?_
  rw [Pattern.run_more] at hrun
  exact orElse_matched_ne_refused hrun

end

/-! ## Sequences and repetitions -/

/-- What comes behind the first of several repetitions. -/
inductive Further (m : Mode) (P : Input → List Node → Input → Prop) (N : Input → Prop) :
    Input → List Node → Input → Prop where
  | done {i j : Input} : Skips m i j → N j → Further m P N i [] i
  | step {i j k l : Input} {nodes nodes' : List Node} : Skips m i j → P j nodes k →
      Further m P N k nodes' l → Further m P N i (nodes ++ nodes') l

/-- Any number of repetitions. The statement `N` holds where the pattern is refused. -/
inductive Repeats (m : Mode) (P : Input → List Node → Input → Prop) (N : Input → Prop) :
    Input → List Node → Input → Prop where
  | none {i : Input} : N i → Repeats m P N i [] i
  | some {i j k : Input} {nodes nodes' : List Node} : P i nodes j → Further m P N j nodes' k →
      Repeats m P N i (nodes ++ nodes') k

/-- What is matched before the next part of a rule. -/
def skipped (k : Nat) (m : Mode) (i : Input) : Outcome :=
  if m = .spaced then Pattern.blanks.run k .inToken i else .matched [] i

/-- Blanks are skipped before the next part of a rule, and nothing else. -/
structure SkipsOnly (n : Nat) (m : Mode) : Prop where
  matched : ∀ k ≤ n, ∀ ⦃i nodes rest⦄, skipped k m i = .matched nodes rest → Skips m i rest
  not_refused : ∀ k ≤ n, ∀ ⦃i⦄, skipped k m i ≠ .refused

theorem skipsOnly_of_ne {m : Mode} (hm : m ≠ .spaced) (n : Nat) : SkipsOnly n m where
  matched k _ i nodes rest hrun := by
    rw [skipped, if_neg hm] at hrun
    rw [Skips, if_neg hm]
    cases hrun
    rfl
  not_refused k _ i hrun := by
    rw [skipped, if_neg hm] at hrun
    cases hrun

section

variable {n : Nat} {m : Mode} {p q : Pattern} {P Q : Input → List Node → Input → Prop}
  {N : Input → Prop}

theorem SkipsOnly.seq (hskip : SkipsOnly n m) (hp : Yields n m p P) (hq : Yields n m q Q) :
    Yields n m (.seq p q) fun i nodes rest => ∃ nodes₁ j k nodes₂,
      P i nodes₁ j ∧ Skips m j k ∧ Q k nodes₂ rest ∧ nodes = nodes₁ ++ nodes₂ := by
  refine .of_succ fun k hk i nodes rest hrun => ?_
  rw [Pattern.run_seq] at hrun
  obtain ⟨nodes₁, j, hfirst, hrun⟩ := andThen_eq_matched hrun
  obtain ⟨_, j', hblanks, hrun⟩ := andThen_eq_matched hrun
  obtain ⟨nodes₂, j'', hsecond, hrun⟩ := andThen_eq_matched hrun
  cases hrun
  exact ⟨nodes₁, j, j', nodes₂, hp k (by omega) hfirst, hskip.matched k (by omega) hblanks,
    hq k (by omega) hsecond, rfl⟩

theorem SkipsOnly.refuses_seq {N' : Input → Prop} (hskip : SkipsOnly n m) (hp : Yields n m p P)
    (hrp : Refuses n m p N) (hrq : Refuses n m q N') :
    Refuses n m (.seq p q) fun i => N i ∨ ∃ nodes j k, P i nodes j ∧ Skips m j k ∧ N' k := by
  refine .of_succ fun k hk i hrun => ?_
  rw [Pattern.run_seq] at hrun
  rcases andThen_eq_refused hrun with hrefused | ⟨nodes₁, j, hfirst, hrun⟩
  · exact .inl (hrp k (by omega) hrefused)
  rcases andThen_eq_refused hrun with hrefused | ⟨_, j', hblanks, hrun⟩
  · exact (hskip.not_refused k (by omega) hrefused).elim
  rcases andThen_eq_refused hrun with hrefused | ⟨nodes₂, j'', hsecond, hrun⟩
  · exact .inr ⟨nodes₁, j, j', hp k (by omega) hfirst, hskip.matched k (by omega) hblanks,
      hrq k (by omega) hrefused⟩
  · cases hrun

theorem SkipsOnly.more (hskip : SkipsOnly n m) (hp : Yields n m p P) (hr : Refuses n m p N) :
    Yields n m (.more p) (Further m P N) := by
  intro k
  induction k with
  | zero => exact fun _ _ _ _ hrun => by cases hrun
  | succ k ih =>
      intro hk i nodes rest hrun
      rw [Pattern.run_more] at hrun
      rcases orElse_eq_matched hrun with hnext | ⟨hrefused, hsecond⟩
      · obtain ⟨_, j, hblanks, hnext⟩ := andThen_eq_matched hnext
        obtain ⟨nodes₁, j', hfirst, hmore⟩ := andThen_eq_matched hnext
        obtain ⟨nodes₂, j'', hmore, heq⟩ := andThen_eq_matched hmore
        cases heq
        exact .step (hskip.matched k (by omega) hblanks) (hp k (by omega) hfirst)
          (ih (by omega) hmore)
      · cases hsecond
        rcases andThen_eq_refused hrefused with hrefused | ⟨_, j, hblanks, hrefused⟩
        · exact (hskip.not_refused k (by omega) hrefused).elim
        rcases andThen_eq_refused hrefused with hrefused | ⟨nodes₁, j', hfirst, hrefused⟩
        · exact .done (hskip.matched k (by omega) hblanks) (hr k (by omega) hrefused)
        rcases andThen_eq_refused hrefused with hrefused | ⟨nodes₂, j'', hmore, heq⟩
        · exact (refuses_more n m p k (by omega) hrefused).elim
        · cases heq

theorem SkipsOnly.many (hskip : SkipsOnly n m) (hp : Yields n m p P) (hr : Refuses n m p N) :
    Yields n m (.many p) (Repeats m P N) := by
  refine .of_succ fun k hk i nodes rest hrun => ?_
  rw [Pattern.run_many] at hrun
  rcases orElse_eq_matched hrun with hnext | ⟨hrefused, hsecond⟩
  · obtain ⟨nodes₁, j, hfirst, hmore⟩ := andThen_eq_matched hnext
    obtain ⟨nodes₂, j', hmore, heq⟩ := andThen_eq_matched hmore
    cases heq
    exact .some (hp k (by omega) hfirst) (hskip.more hp hr k (by omega) hmore)
  · cases hsecond
    rcases andThen_eq_refused hrefused with hrefused | ⟨nodes₁, j, hfirst, hrefused⟩
    · exact .none (hr k (by omega) hrefused)
    rcases andThen_eq_refused hrefused with hrefused | ⟨nodes₂, j', hmore, heq⟩
    · exact (refuses_more n m p k (by omega) hrefused).elim
    · cases heq

end

end TaintAnalysis.Source
