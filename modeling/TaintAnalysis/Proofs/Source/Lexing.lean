import TaintAnalysis.Proofs.Source.Blanks
import TaintAnalysis.Proofs.Source.ParseTree
import TaintAnalysis.Proofs.Source.Printing
import TaintAnalysis.Proofs.Source.Scanning

/-!
# The tokens that the grammar matches

The grammar knows no tokens, but what its rules match can be split into tokens. A word, a
number or a string is matched as a whole: as many characters are taken as there are. A
sign is the longest one that stands there, provided that what comes next does not begin
with a character that would make it longer. What an operand, a place or a type begins
with is no such character, except that the sign for an address may stand behind another
one; in that place the longer sign has been tried before.
-/

namespace TaintAnalysis.Source

/-! ## Tokens between two places -/

/-- The text between the two places is split into the tokens, whatever comes behind. -/
def Lexes (i : Input) (ls : List Lexeme) (j : Input) : Prop :=
  ∀ ⦃ts⦄, Scans j.line j.chars ts → Scans i.line i.chars (ls ++ ts)

mutual

theorem length_skipBlanks : ∀ (cs : List Char) (line : Nat),
    (skipBlanks line cs).2.length ≤ cs.length
  | cs, line => by
      rw [skipBlanks.eq_def]
      split
      · exact Nat.le_succ_of_le (length_skipBlanks _ _)
      · exact Nat.le_succ_of_le (length_skipBlanks _ _)
      · exact Nat.le_succ_of_le (length_skipBlanks _ _)
      · exact Nat.le_succ_of_le (length_skipBlanks _ _)
      · exact Nat.le_succ_of_le (Nat.le_succ_of_le (length_skipComment _ _))
      · exact Nat.le_refl _
termination_by cs => cs.length

theorem length_skipComment : ∀ (cs : List Char) (line : Nat),
    (skipComment line cs).2.length ≤ cs.length
  | cs, line => by
      rw [skipComment.eq_def]
      split
      · exact Nat.le_refl _
      · exact Nat.le_succ_of_le (length_skipBlanks _ _)
      · exact Nat.le_succ_of_le (length_skipBlanks _ _)
      · exact Nat.le_succ_of_le (length_skipComment _ _)
termination_by cs => cs.length

end

section

variable {i j k : Input} {ls ms : List Lexeme}

theorem lexes_nil (i : Input) : Lexes i [] i :=
  fun _ h => h

theorem Lexes.append (h : Lexes i ls j) (h' : Lexes j ms k) : Lexes i (ls ++ ms) k := by
  intro ts hts
  rw [List.append_assoc]
  exact h (h' hts)

theorem Skips.same (h : Skips .spaced i j) : i.SameBehindBlanks j := by
  have hskip : skipBlanks i.line i.chars = (j.line, j.chars) := h
  have hagain := skipBlanks_skipBlanks i.chars i.line
  rw [hskip] at hagain
  exact hskip.trans hagain.symm

/-- Where blanks have been skipped, none are left. -/
theorem Skips.skipped (h : Skips .spaced i j) : Skips .spaced j j :=
  h.same.symm.trans h

theorem Skips.lexes (h : Skips .spaced i j) : Lexes i [] j := by
  intro ts hts budget hbudget
  have hskip : skipBlanks i.line i.chars = (j.line, j.chars) := h
  have hlength := length_skipBlanks i.chars i.line
  rw [hskip] at hlength
  rw [scanFrom_congr h.same]
  exact hts budget (Nat.lt_of_le_of_lt hlength hbudget)

/-- A token without line breaks. -/
theorem lexes_token {cs : List Char} {t : Token} (htakes : i.Takes cs j) (hcs : '\n' ∉ cs)
    (h : ∀ {ts}, Scans i.line j.chars ts → Scans i.line (cs ++ j.chars) (⟨t, i.line⟩ :: ts)) :
    Lexes i [⟨t, i.line⟩] j := by
  intro ts hts
  rw [htakes.2, List.count_eq_zero.mpr hcs, Nat.add_zero] at hts
  rw [htakes.1]
  exact h hts

theorem lexes_sign {s : Sign} (htakes : i.Takes s.spelling j)
    (hnext : ∀ c ∈ j.chars.head?, s.extendedBy c = false) : Lexes i [⟨.sign s, i.line⟩] j :=
  lexes_token htakes (by cases s <;> decide) (Scans.sign s hnext)

end

/-! ## What stands in front -/

/-- Whatever stands behind the blanks in front begins with a character of some kind. -/
def Input.Opens (i : Input) (kind : Char → Prop) : Prop :=
  ∀ c ∈ (skipBlanks i.line i.chars).2.head?, kind c

section

variable {n : Nat} {m : Mode} {i j : Input} {kind : Char → Prop} {p q : Pattern}

theorem Input.Opens.mono {kind' : Char → Prop} (h : i.Opens kind) (hkind : ∀ c, kind c → kind' c) :
    i.Opens kind' :=
  fun c hc => hkind c (h c hc)

theorem refuses_true : Refuses n m p fun _ => True :=
  fun _ _ _ _ => trivial

end

/-! ## Words -/

section

variable {n : Nat} {m : Mode}

/-- A rule that is a token leaves a node without children. -/
theorem Yields.token {r : Rule} {P : Input → List Char → Input → Prop} (hkind : r.kind = .token)
    (hm : m ≠ .inToken) (h : Yields n .inToken r.pattern fun i nodes rest =>
      nodes = [] ∧ ∃ cs, i.Takes cs rest ∧ P i cs rest) :
    Yields n m (.rule r) fun i nodes rest =>
      ∃ cs, nodes = [⟨r, String.ofList cs, i.line, []⟩] ∧ i.Takes cs rest ∧ P i cs rest := by
  have hinside : r.kind.inside m = .inToken := by rw [hkind]; rfl
  have hleaves : r.kind.leavesNode m = true := by rw [hkind]; exact decide_eq_true hm
  have hrule := yields_rule (m := m) (r := r) (by rw [hinside]; exact h)
  refine (hrule.le (Nat.le_succ n)).mono fun i nodes rest h => ?_
  obtain ⟨_, ⟨rfl, cs, htakes, hcs⟩, rfl⟩ := h
  exact ⟨cs, by rw [if_pos hleaves, Node.between_eq htakes], htakes, hcs⟩

end

/-! ## Numbers and strings -/

section

variable {n : Nat}

end

end TaintAnalysis.Source
