import MarkdownTree.Print.Escape
import MarkdownTree.Print.Scene
import MarkdownTree.Proofs.Spelling

/-!
# Spelling with other delimiters

Two texts that spell the same trees differ in their delimiters only.  The row of delimiters determines the text
(`Spells.unique`); where the row is another one, the characters are the same but for delimiters (`Spells.mem_or`), and
so are the ends (`Spells.head_or`, `Spells.getLast_or`).  What the printer escapes at the start of a line is no
delimiter, so either both texts need an escape or neither (`Spells.escapeLineStart_eq_self`).
-/

namespace MarkdownTree

open Text Print

/-! ### Escapes at the start of a line -/

/-- The line starts with a number of up to nine digits and a mark after it. -/
def StartsNumbered (line : List Char) : Prop :=
  ∃ ds d rest, line = ds ++ d :: rest ∧ (∀ c ∈ ds, isDigit c = true) ∧ 1 ≤ ds.length ∧ ds.length ≤ 9 ∧
    (d = '.' ∨ d = ')')

theorem StartsNumbered.append {line : List Char} (h : StartsNumbered line) (cs : List Char) :
    StartsNumbered (line ++ cs) := by
  obtain ⟨ds, d, rest, rfl, hds⟩ := h
  exact ⟨ds, d, rest ++ cs, by rw [List.append_assoc, List.cons_append], hds⟩

private theorem isDigit_eq_false {d : Char} (h : d = '.' ∨ d = ')') : isDigit d = false := by
  rcases h with rfl | rfl <;> decide +kernel

/-- Nothing at the start of a line is escaped exactly where it starts with neither a mark nor a number and a mark. -/
theorem escapeLineStart_eq_self_iff {line : List Char} :
    escapeLineStart line = line ↔ (∀ c ∈ line.head?, isLineMark c = false) ∧ ¬StartsNumbered line := by
  constructor
  · intro h
    refine ⟨fun c hc => ?_, ?_⟩
    · obtain ⟨cs, rfl⟩ := List.head?_eq_some_iff.1 hc
      rw [← Bool.not_eq_true]
      intro hmark
      rw [escapeLineStart, if_pos hmark] at h
      simpa using congrArg List.length h
    · rintro ⟨ds, d, rest, rfl, hds, hone, hnine, hd⟩
      have htake : (ds ++ d :: rest).takeWhile isDigit = ds := by
        rw [List.takeWhile_append_of_pos hds, List.takeWhile_cons_of_neg (by simp [isDigit_eq_false hd]),
          List.append_nil]
      cases ds with
      | nil => cases hone
      | cons c ds =>
        rw [List.cons_append, escapeLineStart] at h
        split at h
        · simpa using congrArg List.length h
        · rw [← List.cons_append, htake] at h
          dsimp only at h
          rw [List.drop_left] at h
          dsimp only at h
          rw [if_pos ⟨hone, hnine, hd⟩] at h
          simpa using congrArg List.length h
  · rintro ⟨hhead, hnumber⟩
    cases line with
    | nil => rfl
    | cons c cs =>
      rw [escapeLineStart, if_neg (by rw [hhead c rfl]; decide)]
      dsimp only
      split
      · rename_i d rest hdrop
        refine if_neg fun hcond => hnumber ⟨_, d, rest, ?_, ?_, hcond⟩
        · rw [← hdrop, takeWhile_append_drop]
        · exact fun x hx => List.all_eq_true.1 List.all_takeWhile x hx
      · rfl

/-- A text that needs no escape at the start of a line needs none when less comes after it. -/
theorem escapeLineStart_of_append {value cs : List Char} (h : escapeLineStart (value ++ cs) = value ++ cs) :
    escapeLineStart value = value := by
  obtain ⟨hhead, hnumber⟩ := escapeLineStart_eq_self_iff.1 h
  refine escapeLineStart_eq_self_iff.2 ⟨fun c hc => hhead c ?_, fun h => hnumber (h.append cs)⟩
  rw [List.head?_append, Option.mem_def.1 hc]
  rfl

/-! ### Delimiters -/

namespace Spells

variable {ts : List (Tree Unit)} {row row' : List Delimiter} {cs cs' : List Char}

/-- There is one delimiter for each emphasis node. -/
theorem length_row (h : Spells ts row cs) :
    row.length = (Tree.preorderList ts).countP fun t => isEmphasis t.kind := by
  induction h with
  | nil => rfl
  | text _ _ _ ih => simpa [Tree.preorderList, Tree.preorder, Tree.kind, Tree.content, Content.kind, isEmphasis]
  | @emphasis content width inner ts below row cs ds d hwidth _ _ ihinner ih =>
    have hkind : isEmphasis content.kind = true := by
      rcases Content.kind_of_width hwidth with hk | hk <;> rw [hk] <;> rfl
    simp [Tree.preorderList, Tree.preorder, Tree.kind, Tree.content, hkind, ihinner, ih]

theorem eq_nil_iff (h : Spells ts row cs) : cs = [] ↔ ts = [] := by
  cases h with
  | nil => exact iff_of_true rfl rfl
  | text hne => simp [hne]
  | emphasis _ hwidth => simp [Nat.ne_of_gt (Content.width_pos hwidth)]

/-- The delimiters determine the text. -/
theorem unique (h : Spells ts row cs) (h' : Spells ts row cs') : cs = cs' := by
  induction h generalizing cs' with
  | nil =>
    cases h'
    rfl
  | text _ _ _ ih =>
    cases h' with
    | text _ _ hrest => rw [ih hrest]
    | emphasis _ hwidth => cases hwidth
  | emphasis d hwidth hinner _ ihinner ih =>
    generalize hrow : d :: (_ ++ _) = full at h'
    cases h' with
    | text => cases hwidth
    | emphasis d' hwidth' hinner' hrest' =>
      obtain ⟨rfl, hrows⟩ := List.cons.inj hrow
      obtain ⟨rfl, rfl⟩ := List.append_inj hrows (hinner.length_row.trans hinner'.length_row.symm)
      cases hwidth.symm.trans hwidth'
      rw [ihinner hinner', ih hrest']

/-- What does not start with a text starts with a delimiter. -/
private theorem exists_delimiter (h : Spells ts row cs) (hnext : ∀ t ∈ ts.head?, t.kind ≠ .text) :
    ∀ c ∈ cs.head?, ∃ d : Delimiter, c = d.char := by
  intro c hc
  cases h with
  | nil => cases hc
  | text => exact absurd rfl (hnext _ rfl)
  | emphasis d hwidth =>
    obtain ⟨width, rfl⟩ := Nat.exists_eq_succ_of_ne_zero (Nat.ne_of_gt (Content.width_pos hwidth))
    rw [List.replicate_succ] at hc
    exact ⟨d, (Option.some.inj hc).symm⟩

/-- The texts are parts of what spells them. -/
theorem mem_of_text (h : Spells ts row cs) :
    ∀ t ∈ Tree.preorderList ts, ∀ value, t.content = .text value → ∀ c ∈ value.toList, c ∈ cs := by
  induction h with
  | nil => simp [Tree.preorderList]
  | @text v ts row cs _ _ _ ih =>
    intro t ht value hvalue c hc
    rw [Tree.preorderList, Tree.preorder, Tree.preorderList, List.cons_append, List.mem_cons] at ht
    rcases ht with rfl | ht
    · cases hvalue
      exact List.mem_append_left _ hc
    · exact List.mem_append_right _ (ih t ht value hvalue c hc)
  | @emphasis content width inner ts below row cs ds d hwidth _ _ ihinner ih =>
    intro t ht value hvalue c hc
    rw [Tree.preorderList, Tree.preorder, List.cons_append, List.mem_cons, List.mem_append] at ht
    simp only [List.mem_append]
    rcases ht with rfl | ht | ht
    · cases hvalue
      cases hwidth
    · exact .inr (.inl (ihinner t ht value hvalue c hc))
    · exact .inr (.inr (.inr (ih t ht value hvalue c hc)))

/-- Other delimiters bring no other characters. -/
theorem mem_or (h : Spells ts row cs) (h' : Spells ts row' cs') : ∀ c ∈ cs', c ∈ cs ∨ ∃ d : Delimiter, c = d.char := by
  induction h generalizing row' cs' with
  | nil =>
    cases h'
    simp
  | text _ _ _ ih =>
    cases h' with
    | text _ _ hrest =>
      intro c hc
      rcases List.mem_append.1 hc with hc | hc
      · exact .inl (List.mem_append_left _ hc)
      · exact (ih hrest c hc).imp_left (List.mem_append_right _)
    | emphasis _ hwidth => cases hwidth
  | emphasis _ hwidth _ _ ihinner ih =>
    cases h' with
    | text => cases hwidth
    | emphasis d _ hinner hrest =>
      intro c hc
      simp only [List.mem_append, List.mem_replicate] at hc ⊢
      rcases hc with ⟨-, rfl⟩ | hc | ⟨-, rfl⟩ | hc
      · exact .inr ⟨d, rfl⟩
      · exact (ihinner hinner c hc).imp_left fun hc => .inr (.inl hc)
      · exact .inr ⟨d, rfl⟩
      · exact (ih hrest c hc).imp_left fun hc => .inr (.inr (.inr hc))

/-- The first character is the same, or a delimiter. -/
theorem head_or (h : Spells ts row cs) (h' : Spells ts row' cs') :
    ∀ c ∈ cs'.head?, c ∈ cs.head? ∨ ∃ d : Delimiter, c = d.char := by
  intro c hc
  cases h with
  | nil =>
    cases h'
    cases hc
  | text hne =>
    cases h' with
    | text =>
      refine .inl ?_
      rw [List.head?_append_of_ne_nil _ (by simpa using hne)] at hc ⊢
      exact hc
    | emphasis _ hwidth => cases hwidth
  | emphasis _ hwidth =>
    refine .inr (h'.exists_delimiter ?_ c hc)
    rintro t ⟨⟩
    exact Content.kind_ne_text hwidth

private theorem getLast?_delimited {content : Content} {width : Nat} (hwidth : content.width? = some width)
    (d : Delimiter) (cs ds : List Char) :
    (List.replicate width d.char ++ (cs ++ (List.replicate width d.char ++ ds))).getLast? =
      some (ds.getLast?.getD d.char) := by
  have hclose : (List.replicate width d.char).getLast? = some d.char := by
    rw [List.getLast?_replicate, if_neg (Nat.ne_of_gt (Content.width_pos hwidth))]
  rw [List.getLast?_append, List.getLast?_append, List.getLast?_append, hclose]
  cases ds.getLast? <;> rfl

/-- The last character is the same, or a delimiter. -/
theorem getLast_or (h : Spells ts row cs) (h' : Spells ts row' cs') :
    cs'.getLast? = cs.getLast? ∨ ∃ d : Delimiter, cs'.getLast? = some d.char := by
  induction h generalizing row' cs' with
  | nil =>
    cases h'
    exact .inl rfl
  | text _ _ _ ih =>
    cases h' with
    | text _ _ hrest =>
      rw [List.getLast?_append, List.getLast?_append]
      rcases ih hrest with hlast | ⟨d, hlast⟩
      · exact .inl (by rw [hlast])
      · exact .inr ⟨d, by rw [hlast, Option.some_or]⟩
    | emphasis _ hwidth => cases hwidth
  | emphasis _ hwidth _ _ _ ih =>
    cases h' with
    | text => cases hwidth
    | emphasis d hwidth' _ hrest =>
      rw [getLast?_delimited hwidth, getLast?_delimited hwidth']
      rcases ih hrest with hlast | ⟨e, hlast⟩
      · rw [hlast]
        cases List.getLast? _ with
        | none => exact .inr ⟨d, rfl⟩
        | some c => exact .inl rfl
      · exact .inr ⟨e, by rw [hlast, Option.getD_some]⟩

/-- Numbers with a mark after them are parts of texts. -/
private theorem startsNumbered (h : Spells ts row cs) (h' : Spells ts row' cs') (hnumber : StartsNumbered cs') :
    StartsNumbered cs := by
  obtain ⟨ds, e, rest, hsplit, hds, hone, hnine, he⟩ := hnumber
  have hdigit (d : Delimiter) : isDigit d.char = false := by cases d <;> decide +kernel
  have hmark (d : Delimiter) : e ≠ d.char := by cases d <;> rcases he with rfl | rfl <;> decide
  obtain ⟨c, ds', rfl⟩ := List.exists_cons_of_length_pos hone
  have hfirst := hds c List.mem_cons_self
  cases h with
  | nil =>
    cases h'
    cases hsplit
  | emphasis _ hwidth =>
    obtain ⟨d, rfl⟩ := h'.exists_delimiter (fun t ht => by cases ht; exact Content.kind_ne_text hwidth) c (hsplit ▸ rfl)
    rw [hdigit d] at hfirst
    cases hfirst
  | text _ hnext _ =>
    cases h' with
    | emphasis _ hwidth => cases hwidth
    | text _ _ hrest =>
      have hafter := hrest.exists_delimiter hnext
      rcases List.append_eq_append_iff.1 hsplit with ⟨bs, hnumber, rfl⟩ | ⟨bs, hvalue, hbs⟩
      · -- The number would have to go on behind the text.
        cases bs with
        | nil =>
          obtain ⟨d, hd⟩ := hafter e rfl
          exact absurd hd (hmark d)
        | cons b bs =>
          obtain ⟨d, rfl⟩ := hafter b rfl
          have hb := hds d.char (hnumber ▸ by simp)
          rw [hdigit d] at hb
          cases hb
      · cases bs with
        | nil =>
          rw [List.nil_append] at hbs
          obtain ⟨d, hd⟩ := hafter e (hbs ▸ rfl)
          exact absurd hd (hmark d)
        | cons b bs =>
          cases (List.cons.inj hbs).1
          rw [hvalue]
          exact StartsNumbered.append ⟨c :: ds', e, bs, rfl, hds, hone, hnine, he⟩ _

/-- Either both texts need an escape at their start or neither. -/
theorem escapeLineStart_eq_self (h : Spells ts row cs) (h' : Spells ts row' cs') (hcs : escapeLineStart cs = cs) :
    escapeLineStart cs' = cs' := by
  obtain ⟨hhead, hnumber⟩ := escapeLineStart_eq_self_iff.1 hcs
  refine escapeLineStart_eq_self_iff.2 ⟨fun c hc => ?_, fun hnumber' => hnumber (h.startsNumbered h' hnumber')⟩
  rcases h.head_or h' c hc with hc | ⟨d, rfl⟩
  · exact hhead c hc
  · cases d <;> rfl

end Spells

end MarkdownTree
