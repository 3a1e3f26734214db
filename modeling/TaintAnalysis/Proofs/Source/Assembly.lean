import Mathlib.Data.List.Forall2
import TaintAnalysis.Proofs.Source.Lexing
import TaintAnalysis.Proofs.Source.Phrases

/-!
# Nodes and tokens side by side

What a pattern matches leaves nodes in the parse tree, and it is split into tokens. Both
are put together in the same way, so what a pattern says about its nodes and its tokens
follows from what its parts say about theirs.

Where a sign could become a longer one, what comes behind it is looked at. Where a sign
could become a comment, what stands in front of it is: the blanks there have been skipped.
-/

namespace TaintAnalysis.Source

/-! ## Parts -/

/-- What is said about the nodes and the tokens of a part of a text. -/
abbrev Parts := List Node → List Lexeme → Prop

namespace Parts

/-- A token that leaves no node. -/
inductive Mark (t : Token) : Parts where
  | mk {line : Nat} : Mark t [] [⟨t, line⟩]

/-- One part behind the other. -/
inductive Followed (A B : Parts) : Parts where
  | mk {ns ms : List Node} {us vs : List Lexeme} :
      A ns us → B ms vs → Followed A B (ns ++ ms) (us ++ vs)

/-- A part that may be left out. -/
inductive Optional (A : Parts) : Parts where
  | none : Optional A [] []
  | some {ns : List Node} {us : List Lexeme} : A ns us → Optional A ns us

/-- Any number of parts. -/
inductive Several (A : Parts) : Parts where
  | nil : Several A [] []
  | cons {ns ms : List Node} {us vs : List Lexeme} :
      A ns us → Several A ms vs → Several A (ns ++ ms) (us ++ vs)

/-- A phrase whose syntax tree the nodes stand for. -/
inductive Of {α : Type} (phrase : α → List Lexeme → Prop) (means : α → List Node → Prop) :
    Parts where
  | mk {a : α} {ns : List Node} {us : List Lexeme} :
      phrase a us → means a ns → Of phrase means ns us

end Parts

/-- A single node that stands for a syntax tree. -/
inductive One {α : Type} (means : α → Node → Prop) : α → List Node → Prop where
  | mk {a : α} {n : Node} : means a n → One means a [n]

open Parts

section

variable {α : Type} {phrase : α → List Lexeme → Prop} {means : α → Node → Prop}
  {ns : List Node} {us : List Lexeme}

/-- Any number of further parts, each of them behind a comma. -/
theorem Parts.Several.separated {a : α} {n : Node} {vs : List Lexeme} (hphrase : phrase a vs)
    (hmeans : means a n)
    (h : Several (Parts.Followed (Mark (.sign .comma)) (Of phrase (One means))) ns us) :
    Of (Separated phrase) (List.Forall₂ means) (n :: ns) (vs ++ us) := by
  suffices ∀ {a n vs}, phrase a vs → means a n → ∃ as, Separated phrase (a :: as) (vs ++ us) ∧
      List.Forall₂ means (a :: as) (n :: ns) by
    obtain ⟨as, has, hall⟩ := this hphrase hmeans
    exact .mk has hall
  clear hphrase hmeans
  induction h with
  | nil =>
      intro a n vs hphrase hmeans
      exact ⟨[], by simpa using .last hphrase, .cons hmeans .nil⟩
  | cons hfirst _ ih =>
      obtain ⟨⟨⟩, ⟨hphrase', ⟨hmeans'⟩⟩⟩ := hfirst
      intro a n vs hphrase hmeans
      obtain ⟨as, has, hall⟩ := ih hphrase' hmeans'
      exact ⟨_ :: as, by simpa using .comma hphrase has, .cons hmeans hall⟩

end

/-! ## Matching parts -/

/-- What is matched is split into tokens, and something is said about these and the nodes. -/
def Reading (A : Parts) (i : Input) (nodes : List Node) (rest : Input) : Prop :=
  ∃ ls, A nodes ls ∧ Lexes i ls rest

section

variable {n : Nat} {p q : Pattern} {A B : Parts}

theorem Yields.reading_mono (h : Yields n .spaced p (Reading A))
    (hAB : ∀ ns us, A ns us → B ns us) : Yields n .spaced p (Reading B) :=
  h.mono fun _ nodes _ ⟨ls, hls, hlexes⟩ => ⟨ls, hAB nodes ls hls, hlexes⟩

/-- One part behind the other, where the second one is read if something holds of its end. -/
theorem Yields.seq_if {K : Input → Prop} (hp : Yields n .spaced p (Reading A))
    (hq : Yields n .spaced q fun i nodes rest => K rest → Reading B i nodes rest) :
    Yields n .spaced (.seq p q) fun i nodes rest =>
      K rest → Reading (Parts.Followed A B) i nodes rest := by
  refine ((skipsOnly n .spaced).seq hp hq).mono fun i nodes rest h hrest => ?_
  obtain ⟨ns, j, k, ms, ⟨us, hus, hfirst⟩, hskip, hsecond, rfl⟩ := h
  obtain ⟨vs, hvs, hsecond⟩ := hsecond hrest
  exact ⟨us ++ vs, .mk hus hvs, hfirst.append (hskip.lexes.append hsecond)⟩

theorem Yields.seq (hp : Yields n .spaced p (Reading A)) (hq : Yields n .spaced q (Reading B)) :
    Yields n .spaced (.seq p q) (Reading (Parts.Followed A B)) :=
  (hp.seq_if (K := fun _ => True) (hq.mono fun _ _ _ h _ => h)).mono fun _ _ _ h => h trivial

theorem Yields.alt {m : Mode} {P : Input → List Node → Input → Prop} (hp : Yields n m p P)
    (hq : Yields n m q P) : Yields n m (.alt p q) P :=
  (yields_alt hp refuses_true hq).mono fun _ _ _ h => h.elim id And.right

theorem Yields.opt_if {K : Input → Prop}
    (hp : Yields n .spaced p fun i nodes rest => K rest → Reading A i nodes rest) :
    Yields n .spaced (.opt p) fun i nodes rest => K rest → Reading (Optional A) i nodes rest := by
  refine (yields_opt hp).mono fun i nodes rest h hrest => ?_
  rcases h with h | ⟨rfl, rfl⟩
  · obtain ⟨ls, hls, hlexes⟩ := h hrest
    exact ⟨ls, .some hls, hlexes⟩
  · exact ⟨[], .none, lexes_nil rest⟩

theorem Yields.opt (hp : Yields n .spaced p (Reading A)) :
    Yields n .spaced (.opt p) (Reading (Optional A)) :=
  (Yields.opt_if (K := fun _ => True) (hp.mono fun _ _ _ h _ => h)).mono fun _ _ _ h => h trivial

/-- Each of several parts is read, if something holds wherever blanks have been skipped. -/
theorem Repeats.reading {K N : Input → Prop} (hK : ∀ {i j}, Skips .spaced i j → K j)
    {i rest : Input} {nodes : List Node}
    (h : Repeats .spaced (fun i ns j => K i → Reading A i ns j) N i nodes rest) (hi : K i) :
    Reading (Several A) i nodes rest := by
  have hfurther : ∀ {i nodes rest},
      Further .spaced (fun i ns j => K i → Reading A i ns j) N i nodes rest →
        Reading (Several A) i nodes rest := by
    intro i nodes rest h
    induction h with
    | @done i _ _ _ => exact ⟨[], .nil, lexes_nil i⟩
    | step hskip hfirst _ ih =>
        obtain ⟨us, hus, hlexes⟩ := hfirst (hK hskip)
        obtain ⟨vs, hvs, hlexes'⟩ := ih
        exact ⟨us ++ vs, .cons hus hvs, hskip.lexes.append (hlexes.append hlexes')⟩
  cases h with
  | none => exact ⟨[], .nil, lexes_nil i⟩
  | some hfirst hmore =>
      obtain ⟨us, hus, hlexes⟩ := hfirst hi
      obtain ⟨vs, hvs, hlexes'⟩ := hfurther hmore
      exact ⟨us ++ vs, .cons hus hvs, hlexes.append hlexes'⟩

theorem Yields.many (hp : Yields n .spaced p (Reading A)) :
    Yields n .spaced (.many p) (Reading (Several A)) := by
  refine ((skipsOnly n .spaced).many (hp.mono fun _ _ _ h (_ : True) => h) refuses_true).mono
    fun i nodes rest h => ?_
  exact h.reading (K := fun _ => True) (fun _ => trivial) trivial

theorem Yields.node_succ {r : Rule} (hkind : r.kind = .normal)
    (h : Yields n .spaced r.pattern (Reading A))
    (hAB : ∀ text line ns us, A ns us → B [⟨r, text, line, ns⟩] us) :
    Yields (n + 1) .spaced (.rule r) (Reading B) := by
  have hrule := yields_rule (m := .spaced) (r := r) (by rw [hkind]; exact h)
  refine hrule.mono fun i nodes rest h => ?_
  obtain ⟨inner, ⟨ls, hls, hlexes⟩, rfl⟩ := h
  rw [hkind]
  exact ⟨ls, hAB _ _ inner ls hls, hlexes⟩

/-- A rule that leaves a node. -/
theorem Yields.node {r : Rule} (hkind : r.kind = .normal)
    (h : Yields n .spaced r.pattern (Reading A))
    (hAB : ∀ text line ns us, A ns us → B [⟨r, text, line, ns⟩] us) :
    Yields n .spaced (.rule r) (Reading B) :=
  (h.node_succ hkind hAB).le (Nat.le_succ n)

/-- A rule that leaves the nodes of its parts. -/
theorem Yields.silent {r : Rule} (hkind : r.kind = .silent)
    (h : Yields n .spaced r.pattern (Reading A)) : Yields n .spaced (.rule r) (Reading A) := by
  have hrule := yields_rule (m := .spaced) (r := r) (by rw [hkind]; exact h)
  refine (hrule.le (Nat.le_succ n)).mono fun i nodes rest h => ?_
  obtain ⟨inner, hreading, rfl⟩ := h
  rw [hkind]
  exact hreading

/-- A sign that nothing makes longer. -/
theorem yields_lone (s : Sign) (hs : ∀ c, s.extendedBy c = false) :
    Yields n .spaced (Pattern.sign s) (Reading (Mark (.sign s))) := by
  refine (yields_text n .spaced s.spelling).mono fun i nodes rest h => ?_
  obtain ⟨rfl, htakes⟩ := h
  exact ⟨_, .mk, lexes_sign htakes fun c _ => hs c⟩

theorem Yields.separated {α : Type} {phrase : α → List Lexeme → Prop} {means : α → Node → Prop}
    (hp : Yields n .spaced p (Reading (Of phrase (One means)))) :
    Yields n .spaced (Pattern.separated p)
      (Reading (Of (Separated phrase) (List.Forall₂ means))) := by
  have hcomma := yields_lone (n := n) .comma fun _ => rfl
  refine (hp.seq (hcomma.seq hp).many).reading_mono ?_
  rintro _ _ ⟨⟨hphrase, ⟨hmeans⟩⟩, hmore⟩
  exact hmore.separated hphrase hmeans

end

end TaintAnalysis.Source
