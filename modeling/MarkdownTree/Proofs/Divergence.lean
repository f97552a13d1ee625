import MarkdownTree.Print.Escape
import MarkdownTree.Text.Blank

/-!
# Texts that go apart

Two texts diverge when they go on with different characters after a common beginning.  Neither is then the beginning of
the other, so they still diverge with something else before and after them, and as the contents of a quote or a list
item (`Diverge.quoteText`, `Diverge.itemText`).
-/

namespace MarkdownTree.Text

/-- Two texts that go on with different characters after a common beginning. -/
def Diverge (x y : List Char) : Prop :=
  ∃ (common : List Char) (a b : Char) (more more' : List Char), a ≠ b ∧ x = common ++ a :: more ∧ y = common ++ b :: more'

/-- A text with something put before its lines: one thing before empty lines and another before all others.  Where the
text does not start a line, nothing is put there. -/
def leadLines (empty full : List Char) (fresh : Bool) : List Char → List Char
  | [] => if fresh then empty else []
  | c :: cs =>
    (if fresh then if c = '\n' then empty else full else []) ++ c :: leadLines empty full (c == '\n') cs

variable {x y : List Char}

theorem diverge_cons {a b : Char} (h : a ≠ b) (x y : List Char) : Diverge (a :: x) (b :: y) :=
  ⟨[], a, b, x, y, h, rfl, rfl⟩

namespace Diverge

theorem symm (h : Diverge x y) : Diverge y x := by
  obtain ⟨common, a, b, more, more', hne, rfl, rfl⟩ := h
  exact ⟨common, b, a, more', more, hne.symm, rfl, rfl⟩

theorem ne (h : Diverge x y) : x ≠ y := by
  obtain ⟨common, a, b, more, more', hne, rfl, rfl⟩ := h
  intro heq
  exact hne (List.cons.inj (List.append_cancel_left heq)).1

theorem ne_nil (h : Diverge x y) : x ≠ [] := by
  obtain ⟨common, a, b, more, more', hne, rfl, rfl⟩ := h
  simp

theorem append_left (h : Diverge x y) (z : List Char) : Diverge (z ++ x) (z ++ y) := by
  obtain ⟨common, a, b, more, more', hne, rfl, rfl⟩ := h
  exact ⟨z ++ common, a, b, more, more', hne, by simp, by simp⟩

private theorem append_right (h : Diverge x y) (z z' : List Char) : Diverge (x ++ z) (y ++ z') := by
  obtain ⟨common, a, b, more, more', hne, rfl, rfl⟩ := h
  exact ⟨common, a, b, more ++ z, more' ++ z', hne, by simp, by simp⟩

private theorem cons (h : Diverge x y) (c : Char) : Diverge (c :: x) (c :: y) :=
  h.append_left [c]

/-- Rows of texts that diverge after a common beginning diverge when they are joined. -/
theorem join (h : Diverge x y) (separator : List Char) (before after after' : List (List Char)) :
    Diverge (Text.join separator (before ++ x :: after)) (Text.join separator (before ++ y :: after')) := by
  have hhead (z : List Char) (parts : List (List Char)) :
      ∃ rest, Text.join separator (z :: parts) = z ++ rest := by
    cases parts with
    | nil => exact ⟨[], by simp [Text.join]⟩
    | cons part parts => exact ⟨separator ++ Text.join separator (part :: parts), by simp [Text.join]⟩
  induction before with
  | nil =>
    obtain ⟨rest, hrest⟩ := hhead x after
    obtain ⟨rest', hrest'⟩ := hhead y after'
    rw [List.nil_append, List.nil_append, hrest, hrest']
    exact h.append_right rest rest'
  | cons part before ih =>
    have hcons (z : List Char) (parts : List (List Char)) :
        Text.join separator (part :: (before ++ z :: parts)) =
          part ++ separator ++ Text.join separator (before ++ z :: parts) := by
      cases before <;> rfl
    rw [List.cons_append, List.cons_append, hcons, hcons]
    exact ih.append_left _

/-- Texts that diverge do so with something before their lines, if empty lines and others go apart there. -/
private theorem leadLines {empty full : List Char} (hlead : ∀ z z', Diverge (empty ++ '\n' :: z) (full ++ z'))
    (fresh : Bool)
    (h : Diverge x y) : Diverge (leadLines empty full fresh x) (leadLines empty full fresh y) := by
  obtain ⟨common, a, b, more, more', hne, rfl, rfl⟩ := h
  induction common generalizing fresh with
  | nil =>
    unfold Text.leadLines
    dsimp only [List.nil_append]
    cases fresh with
    | false => exact diverge_cons hne _ _
    | true =>
      by_cases ha : a = '\n'
      · subst ha
        rw [if_pos rfl, if_pos rfl, if_pos rfl, if_neg hne.symm]
        exact hlead _ _
      · by_cases hb : b = '\n'
        · subst hb
          rw [if_pos rfl, if_pos rfl, if_neg hne, if_pos rfl]
          exact (hlead _ _).symm
        · rw [if_pos rfl, if_pos rfl, if_neg ha, if_neg hb]
          exact (diverge_cons hne _ _).append_left full
  | cons c common ih =>
    rw [List.cons_append, List.cons_append, Text.leadLines, Text.leadLines]
    exact ((ih _).cons c).append_left _

end Diverge

/-! ### Quotes and list items -/

/-- The lines of a text, each with something before it, joined again. -/
private theorem join_leadLines (empty full : List Char) (fresh : Bool) {cs line : List Char} {lines : List (List Char)}
    (h : fields '\n' cs = line :: lines) :
    Text.join ['\n'] ((if fresh then if line.isEmpty then empty else full ++ line else line) ::
      lines.map fun l => if l.isEmpty then empty else full ++ l) = leadLines empty full fresh cs := by
  have hcons (part next : List Char) (parts : List (List Char)) :
      Text.join ['\n'] (part :: next :: parts) = part ++ '\n' :: Text.join ['\n'] (next :: parts) := by
    simp [Text.join]
  have happend (part next : List Char) (parts : List (List Char)) :
      Text.join ['\n'] ((part ++ next) :: parts) = part ++ Text.join ['\n'] (next :: parts) := by
    cases parts <;> simp [Text.join]
  induction cs generalizing fresh line lines with
  | nil =>
    cases h
    cases fresh <;> rfl
  | cons c cs ih =>
    obtain ⟨next, rest, hnext⟩ := List.exists_cons_of_ne_nil (fields_ne_nil '\n' cs)
    rw [fields, hnext] at h
    unfold leadLines
    by_cases hc : c = '\n'
    · subst hc
      rw [if_pos rfl] at h
      cases h
      rw [List.map_cons, hcons, show ('\n' == '\n') = true from rfl, ← ih true hnext]
      cases fresh <;> rfl
    · rw [if_neg hc] at h
      cases h
      rw [beq_false_of_ne hc, ← ih false hnext, if_neg hc]
      cases fresh with
      | false => exact happend [c] next _
      | true =>
        rw [if_pos rfl, if_neg (by simp), if_pos rfl, happend full (c :: next)]
        exact congrArg (full ++ ·) (happend [c] next _)

end MarkdownTree.Text

namespace MarkdownTree.Print

open Text

theorem quoteText_eq_leadLines {content : List Char} (h : content ≠ []) :
    quoteText content = leadLines ['>'] ['>', ' '] true content := by
  obtain ⟨line, lines, hlines⟩ := List.exists_cons_of_ne_nil (fields_ne_nil '\n' content)
  rw [← join_leadLines _ _ _ hlines, quoteText, if_neg (by simpa using h), hlines]
  rfl

theorem itemText_eq_leadLines {content : List Char} (h : content ≠ []) (marker box : List Char) :
    itemText marker box content =
      marker ++ box ++ leadLines [] (List.replicate marker.length ' ') false content := by
  obtain ⟨line, lines, hlines⟩ := List.exists_cons_of_ne_nil (fields_ne_nil '\n' content)
  rw [← join_leadLines _ _ _ hlines, itemText, if_neg (by simpa using h), hlines]
  dsimp only
  generalize lines.map _ = rest
  cases rest <;> simp [join]

end MarkdownTree.Print

namespace MarkdownTree.Text.Diverge

open Print

variable {x y : List Char}

theorem quoteText (h : Diverge x y) : Diverge (quoteText x) (quoteText y) := by
  rw [quoteText_eq_leadLines h.ne_nil, quoteText_eq_leadLines h.symm.ne_nil]
  exact h.leadLines (fun z z' => (diverge_cons (by decide) z z').cons '>') true

theorem itemText (h : Diverge x y) {marker : List Char} (hmarker : marker ≠ []) (box : List Char) :
    Diverge (itemText marker box x) (itemText marker box y) := by
  rw [itemText_eq_leadLines h.ne_nil, itemText_eq_leadLines h.symm.ne_nil]
  obtain ⟨n, hn⟩ := Nat.exists_eq_succ_of_ne_zero (mt List.length_eq_zero_iff.1 hmarker)
  rw [hn]
  exact (h.leadLines (fun z z' => diverge_cons (by decide) z _) false).append_left _

end MarkdownTree.Text.Diverge
