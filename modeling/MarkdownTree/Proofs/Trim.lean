import Mathlib.Data.List.DropRight
import MarkdownTree.Text.Blank

/-!
# Trimming

What trimming leaves: a start of the text (`prefix_dropEndWhile`).  Cutting characters off the front and trimming the
end commute (`dropEndWhile_drop`), so a line ends at the same place however much of its start is gone.
-/

namespace MarkdownTree.Text

variable {α : Type} {p : α → Bool}

theorem drop_length_takeWhile (p : α → Bool) (cs : List α) : cs.drop (cs.takeWhile p).length = cs.dropWhile p := by
  conv => lhs; arg 2; rw [← List.takeWhile_append_dropWhile (p := p) (l := cs)]
  rw [List.drop_left]

theorem takeWhile_append_drop (p : α → Bool) (cs : List α) :
    cs.takeWhile p ++ cs.drop (cs.takeWhile p).length = cs := by
  rw [drop_length_takeWhile, List.takeWhile_append_dropWhile]

theorem takeWhile_append_of_head? {ds : List α} (h : ∀ d ∈ ds.head?, p d = false) (cs : List α) :
    (cs ++ ds).takeWhile p = cs.takeWhile p := by
  induction cs with
  | nil =>
    cases ds with
    | nil => rfl
    | cons d ds => exact List.takeWhile_cons_of_neg (by simp [h d rfl])
  | cons c cs ih => rw [List.cons_append, List.takeWhile_cons, List.takeWhile_cons, ih]

theorem takeWhile_beq (mark : Char) (cs : List Char) :
    cs.takeWhile (· == mark) = List.replicate (cs.takeWhile (· == mark)).length mark :=
  List.eq_replicate_iff.2 ⟨rfl, fun c hc => by simpa using List.all_eq_true.1 List.all_takeWhile c hc⟩

theorem prefix_dropEndWhile (p : α → Bool) (cs : List α) : dropEndWhile p cs <+: cs :=
  List.rdropWhile_prefix p cs

theorem length_dropEndWhile_le (p : α → Bool) (cs : List α) : (dropEndWhile p cs).length ≤ cs.length :=
  (prefix_dropEndWhile p cs).length_le

theorem dropEndWhile_eq_nil {cs : List α} : dropEndWhile p cs = [] ↔ ∀ c ∈ cs, p c = true :=
  List.rdropWhile_eq_nil_iff

theorem dropEndWhile_concat (p : α → Bool) (cs : List α) (c : α) :
    dropEndWhile p (cs ++ [c]) = if p c then dropEndWhile p cs else cs ++ [c] :=
  List.rdropWhile_concat p cs c

/-- What is left ends in something that was not to be dropped. -/
theorem getLast?_dropEndWhile {cs : List α} {c : α} (h : (dropEndWhile p cs).getLast? = some c) : p c = false := by
  have hne : dropEndWhile p cs ≠ [] := by
    intro hnil
    rw [hnil] at h
    cases h
  rw [List.getLast?_eq_some_getLast hne] at h
  cases h
  exact Bool.eq_false_iff.2 (List.rdropWhile_last_not p cs hne)

/-- A row that ends in something that is not to be dropped stays as it is. -/
theorem dropEndWhile_eq_self {cs : List α} (h : ∀ c ∈ cs.getLast?, p c = false) : dropEndWhile p cs = cs := by
  cases cs using List.reverseRecOn with
  | nil => rfl
  | append_singleton cs c =>
    rw [dropEndWhile_concat, h c List.getLast?_concat]
    rfl

theorem dropEndWhile_append_of_pos (cs : List α) {ds : List α} (h : ∀ c ∈ ds, p c = true) :
    dropEndWhile p (cs ++ ds) = dropEndWhile p cs := by
  induction ds using List.reverseRecOn with
  | nil => rw [List.append_nil]
  | append_singleton ds d ih =>
    rw [← List.append_assoc, dropEndWhile_concat, if_pos (h d (by simp)), ih fun c hc => h c (by simp [hc])]

/-- Cutting off the front and trimming the end commute. -/
theorem dropEndWhile_drop (p : α → Bool) (cs : List α) (n : Nat) :
    dropEndWhile p (cs.drop n) = (dropEndWhile p cs).drop n := by
  induction cs using List.reverseRecOn with
  | nil => simp [dropEndWhile]
  | append_singleton cs c ih =>
    by_cases hn : n ≤ cs.length
    · rw [List.drop_append_of_le_length hn, dropEndWhile_concat, dropEndWhile_concat]
      split
      · exact ih
      · rw [List.drop_append_of_le_length hn]
    · have hlen : (cs ++ [c]).length ≤ n := by simp; omega
      rw [List.drop_of_length_le hlen, List.drop_of_length_le ((length_dropEndWhile_le p _).trans hlen)]
      rfl

/-- Of a text that is not all blank, something is left without the blanks at its end. -/
theorem trimEnd_ne_nil {cs : List Char} (h : cs.all isBlank = false) : trimEnd cs ≠ [] := by
  intro hnil
  rw [trimEnd, dropEndWhile_eq_nil] at hnil
  rw [List.all_eq_true.2 hnil] at h
  cases h

theorem trim_ne_nil {cs : List Char} (h : cs.all isBlank = false) : trim cs ≠ [] := by
  refine trimEnd_ne_nil (Bool.eq_false_iff.2 fun hall => Bool.eq_false_iff.1 h ?_)
  rw [trimStart, List.all_eq_true] at hall
  rw [← List.takeWhile_append_dropWhile (p := isBlank) (l := cs), List.all_append, List.all_takeWhile,
    List.all_eq_true.2 hall]
  rfl

/-- A trimmed text starts with no blank. -/
theorem head?_trim {cs : List Char} {c : Char} (h : (trim cs).head? = some c) : isBlank c = false := by
  obtain ⟨rest, hrest⟩ := prefix_dropEndWhile isBlank (trimStart cs)
  have hs : (cs.dropWhile isBlank).head? = some c := by
    show (trimStart cs).head? = some c
    rw [← hrest, List.head?_append]
    show ((trim cs).head?.or _) = some c
    rw [h]
    rfl
  have := List.head?_dropWhile_not isBlank cs
  rw [hs] at this
  simpa using this

/-- A text that neither starts nor ends with a blank is trimmed. -/
theorem trim_eq_self {cs : List Char} (hhead : ∀ c ∈ cs.head?, isBlank c = false)
    (hlast : ∀ c ∈ cs.getLast?, isBlank c = false) : trim cs = cs := by
  have hstart : trimStart cs = cs := by
    cases cs with
    | nil => rfl
    | cons c cs => exact List.dropWhile_cons_of_neg (by simp [hhead c rfl])
  rw [trim, hstart]
  exact dropEndWhile_eq_self hlast

theorem infix_trim (cs : List Char) : trim cs <:+: cs :=
  (prefix_dropEndWhile isBlank (trimStart cs)).isInfix.trans (List.dropWhile_suffix isBlank).isInfix

theorem trim_trim (cs : List Char) : trim (trim cs) = trim cs :=
  trim_eq_self (fun _ => head?_trim) fun _ => getLast?_dropEndWhile

end MarkdownTree.Text
