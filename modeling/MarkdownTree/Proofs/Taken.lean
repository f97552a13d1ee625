import MarkdownTree.Proofs.Document

/-!
# The lines that a chunk takes

How a line opens a chunk depends on that line alone (`chunk_cases`); the chunk then takes some of the lines that follow,
at most all of them (`taken_le`).  Lines further down make no difference to a chunk that leaves a line before them which
is not blank, nor, behind a blank line, to one of a kind that ends there (`chunk_append`).
-/

namespace MarkdownTree

/-- Kinds of blocks that take no line from behind a blank one. -/
def Kind.endsAtBlank : Kind → Bool
  | heading | paragraph | thematicBreak | blockQuote => true
  | _ => false

namespace Scan

open Text

/-- The kind of the node that is read from a chunk. -/
def Chunk.kind : Chunk → Kind
  | .code .. => .codeBlock
  | .heading .. => .heading
  | .paragraph .. => .paragraph
  | .rule _ => .thematicBreak
  | .quote .. => .blockQuote
  | .list .. => .list

theorem kind_chunkTree (inner : Inner) (c : Chunk) : (chunkTree inner c).1.kind = c.kind := by
  cases c <;> rfl

section

variable {α : Type} {p : α → Bool} {as : List α}

private theorem takeWhile_append_of_lt (h : (as.takeWhile p).length < as.length) (bs : List α) :
    (as ++ bs).takeWhile p = as.takeWhile p := by
  rw [List.takeWhile_append, if_neg (Nat.ne_of_lt h)]

/-- A row that goes on after some of it is longer than these. -/
private theorem lt_of_drop {n : Nat} {a : α} {rest : List α} (h : as.drop n = a :: rest) : n < as.length := by
  have := congrArg List.length h
  simp only [List.length_drop, List.length_cons] at this
  omega

/-- What is dropped at the end of a row satisfies the condition. -/
private theorem of_mem_drop_dropEndWhile {a : α} (h : a ∈ as.drop (dropEndWhile p as).length) : p a = true := by
  induction as using List.reverseRecOn with
  | nil => simp at h
  | append_singleton as b ih =>
    rw [dropEndWhile_concat] at h
    split at h
    · rename_i hb
      rw [List.drop_append_of_le_length (length_dropEndWhile_le p as)] at h
      rcases List.mem_append.1 h with h | h
      · exact ih h
      · rw [List.mem_singleton.1 h]
        exact hb
    · rw [List.drop_length] at h
      cases h

end

namespace Setting

variable (s : Setting) {l b : Line} {ls : List Line}

/-- A line opens an indented or fenced code block, a heading, a rule, a quote, a list or a paragraph, whatever lines
follow. -/
theorem chunk_cases (limit : Value) (l : Line) :
    s.chunk limit l = s.indentedCode l ∨
      (∃ fence, Fence.opening? l.trimStart.text = some fence ∧ s.chunk limit l = s.fencedCode fence l) ∨
      (∃ depth, headingDepth? l.trimStart.text = some depth ∧
        s.chunk limit l = fun _ => (markedHeading depth l.trimStart, 0)) ∨
      (s.chunk limit l = fun _ => (.rule ⟨l.trimStart.offset, l.trimStart.contentStop⟩, 0)) ∨
      s.chunk limit l = s.quote l ∨
      (∃ m, Marker.read? s.tab l = some m ∧
        s.chunk limit l = fun ls => (.list m (s.items m ls).1, (s.items m ls).2)) ∨
      s.chunk limit l = s.paragraph (s.paragraphNotes limit l l.trimStart) l := by
  unfold chunk
  dsimp only
  split
  · exact .inl rfl
  refine .inr ?_
  split
  · rename_i fence hfence
    exact .inl ⟨fence, hfence, rfl⟩
  refine .inr ?_
  split
  · rename_i depth hdepth
    exact .inl ⟨depth, hdepth, rfl⟩
  refine .inr ?_
  split
  · exact .inl rfl
  refine .inr ?_
  split
  · exact .inl rfl
  refine .inr ?_
  split
  · rename_i m hread
    split at hread
    · exact .inl ⟨m, hread, rfl⟩
    · cases hread
  · exact .inr rfl

/-! ### How many lines are taken -/

private theorem taken_fencedCode_le (fence : Fence) (l : Line) (ls : List Line) :
    (s.fencedCode fence l ls).2 ≤ ls.length := by
  unfold fencedCode
  dsimp only
  split
  · rename_i hdrop
    exact lt_of_drop hdrop
  · exact (List.takeWhile_sublist _).length_le

private theorem taken_paragraph_le (ns : List Note) (l : Line) (ls : List Line) :
    (s.paragraph ns l ls).2 ≤ ls.length := by
  have hle : (ls.takeWhile s.goesOn).length ≤ ls.length := (List.takeWhile_sublist _).length_le
  unfold paragraph
  dsimp only
  split
  · rename_i next hnext
    rw [List.head?_eq_some_iff] at hnext
    obtain ⟨rest, hdrop⟩ := hnext
    split
    · exact lt_of_drop hdrop
    · exact hle
  · exact hle

private theorem length_quotedLines_le (ls : List Line) : (s.quotedLines ls).length ≤ ls.length := by
  rw [(s.endOf_quotedLines ls).1.length_eq]
  exact List.length_take_le' _ _

private theorem taken_item_le (m : Marker) (ls : List Line) : (s.item m ls).2 ≤ ls.length := by
  unfold item
  dsimp only
  rw [(s.endOf_itemLines _ _ _ ls).length_eq]
  exact List.length_take_le' _ _

private theorem taken_items_le (m : Marker) (ls : List Line) : (s.items m ls).2 ≤ ls.length := by
  rcases s.items_cases m ls with heq | ⟨x, rest, next, hdrop, -, -, heq⟩
  · rw [heq]
    exact s.taken_item_le m ls
  · have hlen := congrArg List.length hdrop
    simp only [List.length_drop, List.length_cons] at hlen
    have hothers := taken_items_le next rest
    rw [heq]
    dsimp only
    omega
termination_by ls.length
decreasing_by
  have hlen := congrArg List.length hdrop
  simp only [List.length_drop, List.length_cons] at hlen
  omega

/-- A chunk takes lines that follow, and no more of them than there are. -/
theorem taken_le (limit : Value) (l : Line) (ls : List Line) : (s.chunk limit l ls).2 ≤ ls.length := by
  rcases s.chunk_cases limit l with h | ⟨fence, -, h⟩ | ⟨depth, -, h⟩ | h | h | ⟨m, -, h⟩ | h <;> rw [h]
  · exact (length_dropEndWhile_le _ _).trans (List.takeWhile_sublist _).length_le
  · exact s.taken_fencedCode_le fence l ls
  · exact Nat.zero_le _
  · exact Nat.zero_le _
  · have := s.length_quotedLines_le (l :: ls)
    simp only [quote, List.length_cons] at this ⊢
    omega
  · exact s.taken_items_le m ls
  · exact s.taken_paragraph_le _ l ls

/-! ### Lines further down -/

private theorem itemLines_append (indent : Rat) (previous : Line) (fence : Option Fence) (ms : List Line)
    (h : (s.itemLines indent previous fence ls).length < ls.length) :
    s.itemLines indent previous fence (ls ++ ms) = s.itemLines indent previous fence ls := by
  induction ls generalizing previous fence with
  | nil => exact absurd h (Nat.not_lt_zero _)
  | cons l ls ih =>
    rw [List.cons_append]
    unfold itemLines at h ⊢
    dsimp only at h ⊢
    split_ifs with hblank hindent hlazy
    · rw [if_pos hblank] at h
      rw [ih _ _ (Nat.lt_of_succ_lt_succ h)]
    · rw [if_neg hblank, if_pos hindent] at h
      rw [ih _ _ (Nat.lt_of_succ_lt_succ h)]
    · rw [if_neg hblank, if_neg hindent, if_pos hlazy] at h
      rw [ih _ _ (Nat.lt_of_succ_lt_succ h)]
    · rfl

private theorem item_append {m : Marker} (h : (s.item m ls).2 < ls.length) (ms : List Line) :
    s.item m (ls ++ ms) = s.item m ls := by
  unfold item at h ⊢
  dsimp only at h ⊢
  rw [s.itemLines_append _ _ _ ms h]

private theorem items_append {m : Marker} {ls : List Line} (h : (s.items m ls).2 < ls.length) (ms : List Line) :
    s.items m (ls ++ ms) = s.items m ls := by
  have htaken : (s.item m ls).2 < ls.length := by
    rcases s.items_cases m ls with heq | ⟨x, rest, next, -, -, -, heq⟩ <;> rw [heq] at h <;> dsimp only at h <;> omega
  rw [items_eq] at h
  rw [items_eq, items_eq s m ls, s.item_append htaken, List.drop_append_of_le_length (Nat.le_of_lt htaken)]
  cases hdrop : ls.drop (s.item m ls).2 with
  | nil => exact absurd (List.drop_eq_nil_iff.1 hdrop) (Nat.not_le_of_lt htaken)
  | cons x rest =>
    have hlen := congrArg List.length hdrop
    simp only [List.length_drop, List.length_cons] at hlen
    rw [hdrop] at h
    dsimp only [List.cons_append] at h ⊢
    cases hread : Marker.read? s.tab x with
    | none => rfl
    | some next =>
      rw [hread] at h
      dsimp only at h ⊢
      split_ifs with hcont
      · rw [if_pos hcont] at h
        dsimp only at h
        rw [items_append (by omega) ms]
      · rfl
termination_by ls.length
decreasing_by
  have hlen := congrArg List.length hdrop
  simp only [List.length_drop, List.length_cons] at hlen
  omega

section

variable (hb : b.isBlank = true)
include hb

theorem underline?_of_blank : s.underline? b = none := by
  have htext : b.trimStart.text = [] := by
    rw [Line.trimStart_text, trimStart, List.dropWhile_eq_nil_iff]
    exact List.all_eq_true.1 hb
  rw [underline?, htext]
  split <;> rfl

theorem goesOn_of_blank : s.goesOn b = false := by
  rw [goesOn, hb]
  rfl

theorem quoted?_of_blank : s.quoted? b = none := by
  rw [quoted?, hb]
  rfl

private theorem paragraph_append (ns : List Note) (l : Line) (ls ms : List Line) :
    s.paragraph ns l (ls ++ b :: ms) = s.paragraph ns l ls := by
  unfold paragraph
  dsimp only
  rw [takeWhile_append_of_head? (by simpa using s.goesOn_of_blank hb),
    List.drop_append_of_le_length (List.takeWhile_sublist _).length_le]
  cases ls.drop (ls.takeWhile s.goesOn).length with
  | nil =>
    dsimp only [List.nil_append, List.head?_cons]
    rw [s.underline?_of_blank hb]
    rfl
  | cons next rest => rfl

private theorem quotedLines_append (ls ms : List Line) : s.quotedLines (ls ++ b :: ms) = s.quotedLines ls := by
  induction ls with
  | nil => simp only [List.nil_append, quotedLines, s.quoted?_of_blank hb]
  | cons l ls ih => rw [List.cons_append, quotedLines, quotedLines, ih]

private theorem quote_append (l : Line) (ls ms : List Line) : s.quote l (ls ++ b :: ms) = s.quote l ls := by
  have hinner := s.quotedLines_append hb (l :: ls) ms
  rw [List.cons_append] at hinner
  have hlen := s.length_quotedLines_le (l :: ls)
  rw [quote, quote, hinner, ← List.cons_append, List.take_append_of_le_length hlen]

end

theorem kind_fencedCode (fence : Fence) (l : Line) (ls : List Line) :
    (s.fencedCode fence l ls).1.kind = .codeBlock := by
  unfold fencedCode
  dsimp only
  split <;> rfl

private theorem fencedCode_append (fence : Fence) (l : Line) {ls : List Line}
    (h : (s.fencedCode fence l ls).2 < ls.length)
    (ms : List Line) : s.fencedCode fence l (ls ++ ms) = s.fencedCode fence l ls := by
  unfold fencedCode at h ⊢
  dsimp only at h ⊢
  split at h
  · rename_i closing rest hdrop
    have hlt := lt_of_drop hdrop
    rw [takeWhile_append_of_lt hlt, List.drop_append_of_le_length (Nat.le_of_lt hlt), hdrop]
    rfl
  · rename_i hdrop
    exact absurd (List.drop_eq_nil_iff.1 hdrop) (Nat.not_le_of_lt h)

private theorem indentedCode_append (l : Line) {x : Line} (hx : x ∈ ls.drop (s.indentedCode l ls).2)
    (hxb : x.isBlank = false)
    (ms : List Line) : s.indentedCode l (ls ++ ms) = s.indentedCode l ls := by
  have hlt : (ls.takeWhile fun y => y.isBlank || 4 ≤ y.indent s.tab).length < ls.length := by
    refine Nat.lt_of_le_of_ne (List.takeWhile_sublist _).length_le fun hlen => ?_
    -- Otherwise all lines are blank or code, and only blank ones are left out at the end.
    rw [indentedCode, indentedLines, (List.takeWhile_sublist _).eq_of_length hlen] at hx
    rw [of_mem_drop_dropEndWhile hx] at hxb
    cases hxb
  rw [indentedCode, indentedCode, indentedLines, takeWhile_append_of_lt hlt]
  rfl

/-- Lines behind a blank one do not change a chunk that ends before it because of its kind, or because it leaves a line
that is not blank. -/
theorem chunk_append (limit : Value) (hb : b.isBlank = true) (l : Line) (ls ms : List Line)
    (h : (s.chunk limit l ls).1.kind.endsAtBlank = true ∨ ∃ x ∈ ls.drop (s.chunk limit l ls).2, x.isBlank = false) :
    s.chunk limit l (ls ++ b :: ms) = s.chunk limit l ls := by
  have hlt (n : Nat) (hx : ∃ x ∈ ls.drop n, x.isBlank = false) : n < ls.length := by
    obtain ⟨x, hx, -⟩ := hx
    exact Nat.lt_of_not_le fun hle => by rw [List.drop_of_length_le hle] at hx; cases hx
  rcases s.chunk_cases limit l with hc | ⟨fence, -, hc⟩ | ⟨depth, -, hc⟩ | hc | hc | ⟨m, -, hc⟩ | hc <;> rw [hc] at h ⊢
  · rcases h with h | ⟨x, hx, hxb⟩
    · cases h
    · exact s.indentedCode_append l hx hxb _
  · rcases h with h | h
    · rw [s.kind_fencedCode] at h
      cases h
    · exact s.fencedCode_append fence l (hlt _ h) _
  · exact s.quote_append hb l ls ms
  · rcases h with h | h
    · cases h
    · dsimp only
      rw [s.items_append (hlt _ h)]
  · exact s.paragraph_append hb _ l ls ms

end Setting

end Scan

end MarkdownTree
