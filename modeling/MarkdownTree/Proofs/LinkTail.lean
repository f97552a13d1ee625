import MarkdownTree.Print.Escape
import MarkdownTree.Scan.LinkTail

/-!
# Link tails come back

What is written for a destination and a title reads as them again, whatever comes after it, for all titles and for most
destinations (`read?_tailText`).  A destination without spaces and control characters stands without brackets, and there
the reader takes any blank for its end; so one with a blank of another kind does not come back (`read?_tailText_noBreak`).
-/

namespace MarkdownTree.Scan

open Text Print

/-! ### Readers and escapes, character by character -/

section

variable {c : Char} (hc : c ≠ '\\') (cs : List Char)
include hc

private theorem unescape_cons : unescape (c :: cs) = c :: unescape cs := by
  rw [unescape]
  rintro d ds rfl
  exact absurd rfl hc

private theorem angled?_cons : angled? (c :: cs) =
    if c = '>' then some [] else if c = '<' ∨ c = '\n' then none else (angled? cs).map (c :: ·) := by
  rw [angled?]
  rintro d ds rfl
  exact absurd rfl hc

private theorem bare_cons (depth : Nat) : bare depth (c :: cs) =
    if isBlank c ∨ c.toNat < 0x20 ∨ (c = ')' ∧ depth = 0) then ([], depth)
    else
      let (d, rest) := bare (if c = '(' then depth + 1 else if c = ')' then depth - 1 else depth) cs
      (c :: d, rest) := by
  rw [bare]
  rintro d ds rfl
  exact absurd rfl hc

private theorem titled?_cons (closer : Char) : titled? closer (c :: cs) =
    if c = closer then some [] else (titled? closer cs).map (c :: ·) := by
  rw [titled?]
  rintro d ds rfl
  exact absurd rfl hc

end

section

variable {p : Char → Bool} {c : Char} (cs : List Char)

theorem escapeWhere_cons_of_pos (hc : p c = true) : escapeWhere p (c :: cs) = '\\' :: c :: escapeWhere p cs := by
  rw [escapeWhere, List.flatMap_cons, if_pos hc]
  rfl

theorem escapeWhere_cons_of_neg (hc : ¬p c = true) : escapeWhere p (c :: cs) = c :: escapeWhere p cs := by
  rw [escapeWhere, List.flatMap_cons, if_neg hc]
  rfl

end

private theorem ne_of_not_marked {p : Char → Bool} {c d : Char} (hc : ¬p c = true) (hd : p d = true) : c ≠ d := by
  rintro rfl
  exact hc hd

/-! ### Parts of link tails -/

section

variable {p : Char → Bool} (hslash : p '\\' = true)
include hslash

private theorem unescape_escapeWhere (hpunct : ∀ c, p c = true → isEscapable c = true) (cs : List Char) :
    unescape (escapeWhere p cs) = cs := by
  induction cs with
  | nil => rfl
  | cons c cs ih =>
    by_cases hc : p c = true
    · rw [escapeWhere_cons_of_pos cs hc, unescape, if_pos (hpunct c hc), ih]
    · rw [escapeWhere_cons_of_neg cs hc, unescape_cons (ne_of_not_marked hc hslash), ih]

/-- Between angle brackets a text is read up to the second one, unless a line feed stands in it. -/
private theorem angled?_escapeWhere (hopen : p '<' = true) (hclose : p '>' = true) (hfeed : p '\n' = false)
    (cs rest : List Char) :
    angled? (escapeWhere p cs ++ '>' :: rest) = if '\n' ∈ cs then none else some (escapeWhere p cs) := by
  induction cs with
  | nil => exact angled?_cons (by decide) rest
  | cons c cs ih =>
    by_cases hc : p c = true
    · have hne : '\n' ≠ c := by
        rintro rfl
        rw [hfeed] at hc
        cases hc
      rw [escapeWhere_cons_of_pos cs hc, List.cons_append, List.cons_append, angled?, ih]
      simp only [List.mem_cons, hne, false_or]
      split <;> rfl
    · rw [escapeWhere_cons_of_neg cs hc, List.cons_append, angled?_cons (ne_of_not_marked hc hslash),
        if_neg (ne_of_not_marked hc hclose)]
      by_cases hne : c = '\n'
      · rw [if_pos (.inr hne), if_pos (hne ▸ List.mem_cons_self)]
      · rw [if_neg (not_or.2 ⟨ne_of_not_marked hc hopen, hne⟩), ih]
        simp only [List.mem_cons, Ne.symm hne, false_or]
        split <;> rfl

/-- Without brackets a text that has neither blanks nor control characters is read up to the blank or the parenthesis
behind it. -/
private theorem bare_escapeWhere (hpunct : ∀ c, p c = true → isEscapable c = true)
    (hopen : p '(' = true) (hclose : p ')' = true)
    {cs : List Char} (hcs : ∀ c ∈ cs, isBlank c = false ∧ 0x20 ≤ c.toNat) {x : Char} (hx : isBlank x = true ∨ x = ')')
    (rest : List Char) : bare 0 (escapeWhere p cs ++ x :: rest) = (escapeWhere p cs, 0) := by
  induction cs with
  | nil =>
    have hne : x ≠ '\\' := by
      rintro rfl
      exact absurd hx (by decide)
    have hends : isBlank x = true ∨ x.toNat < 0x20 ∨ (x = ')' ∧ 0 = 0) := by
      rcases hx with hx | hx
      · exact .inl hx
      · exact .inr (.inr ⟨hx, rfl⟩)
    show bare 0 (x :: rest) = _
    rw [bare_cons hne, if_pos hends]
    rfl
  | cons c cs ih =>
    obtain ⟨⟨hblank, hcontrol⟩, hcs⟩ := List.forall_mem_cons.1 hcs
    by_cases hc : p c = true
    · rw [escapeWhere_cons_of_pos cs hc, List.cons_append, List.cons_append, bare, if_pos (hpunct c hc), ih hcs]
    · have hgoes : ¬(isBlank c = true ∨ c.toNat < 0x20 ∨ (c = ')' ∧ (0 : Nat) = 0)) := by
        rintro (h | h | h)
        · rw [hblank] at h
          cases h
        · omega
        · exact ne_of_not_marked hc hclose h.1
      rw [escapeWhere_cons_of_neg cs hc, List.cons_append, bare_cons (ne_of_not_marked hc hslash), if_neg hgoes,
        if_neg (ne_of_not_marked hc hopen), if_neg (ne_of_not_marked hc hclose), ih hcs]

private theorem titled?_escapeWhere {closer : Char} (hcloser : p closer = true) (hne : closer ≠ '\\')
    (cs rest : List Char) :
    titled? closer (escapeWhere p cs ++ closer :: rest) = some (escapeWhere p cs) := by
  induction cs with
  | nil => exact (titled?_cons hne rest closer).trans (if_pos rfl)
  | cons c cs ih =>
    by_cases hc : p c = true
    · rw [escapeWhere_cons_of_pos cs hc, List.cons_append, List.cons_append, titled?, ih]
      rfl
    · rw [escapeWhere_cons_of_neg cs hc, List.cons_append, titled?_cons (ne_of_not_marked hc hslash),
        if_neg (ne_of_not_marked hc hcloser), ih]
      rfl

end

/-! ### Link tails -/

/-- The characters that are escaped between angle brackets. -/
def isAngleMark (c : Char) : Bool :=
  c == '\\' || c == '<' || c == '>'

/-- The characters that are escaped without brackets. -/
def isParenMark (c : Char) : Bool :=
  c == '\\' || c == '(' || c == ')'

/-- The characters that are escaped in a title. -/
def isQuoteMark (c : Char) : Bool :=
  c == '\\' || c == '"'

/-- A destination is read as it is when no line feed stands in it, and no blank unless brackets hold it. -/
def IsReadable (destination : List Char) : Prop :=
  '\n' ∉ destination ∧ ((∃ c ∈ destination, needsBrackets c = true) ∨ ∀ c ∈ destination, isBlank c = false)

instance : DecidablePred IsReadable := fun destination => by
  unfold IsReadable
  -- The lists are searched, and not all characters.
  exact @instDecidableAnd _ _ _ (@instDecidableOr _ _ (List.decidableBEx _ _) (List.decidableBAll _ _))

private theorem isEscapable_of_angleMark (c : Char) (hc : isAngleMark c = true) : isEscapable c = true := by
  simp only [isAngleMark, Bool.or_eq_true, beq_iff_eq] at hc
  rcases hc with (rfl | rfl) | rfl <;> decide

private theorem isEscapable_of_parenMark (c : Char) (hc : isParenMark c = true) : isEscapable c = true := by
  simp only [isParenMark, Bool.or_eq_true, beq_iff_eq] at hc
  rcases hc with (rfl | rfl) | rfl <;> decide

private theorem isEscapable_of_quoteMark (c : Char) (hc : isQuoteMark c = true) : isEscapable c = true := by
  simp only [isQuoteMark, Bool.or_eq_true, beq_iff_eq] at hc
  rcases hc with rfl | rfl <;> decide

private theorem tailText_append (destination : List Char) (title : Option (List Char)) (rest : List Char) :
    tailText destination title ++ rest =
      '(' :: (destinationText destination ++ (titleText title ++ ')' :: rest)) := by
  simp [tailText]

private theorem length_tailText (destination : List Char) (title : Option (List Char)) :
    (tailText destination title).length = (destinationText destination).length + (titleText title).length + 2 := by
  simp only [tailText, List.length_append, List.length_cons, List.length_nil]
  omega

namespace LinkTail

section

variable {cs rest written : List Char} (hlead : (cs ++ rest).takeWhile isTailSpace = [])
  (hread : destination? (cs ++ rest) = some (written, cs.length))
include hlead hread

/-- What comes behind a destination, if it is no blank, has to end the tail. -/
private theorem read?_untitled {x : Char} {more : List Char} (hrest : rest = x :: more) (hx : isTailSpace x = false) :
    read? ('(' :: (cs ++ rest)) = if x = ')' then some ⟨unescape written, none, cs.length + 2⟩ else none := by
  have hgap : (x :: more).takeWhile isTailSpace = [] := List.takeWhile_cons_of_neg (by simp [hx])
  subst hrest
  rw [read?]
  simp only [hlead, List.length_nil, List.drop_zero, hread, Option.bind_eq_bind, Option.bind_some, Nat.zero_add,
    List.drop_left, hgap, Nat.lt_irrefl, if_false, Nat.add_zero, Option.isSome_none, ite_self]
  by_cases hx : x = ')'
  · rw [if_pos hx, hx]
    rfl
  · rw [if_neg hx]
    split
    · rename_i htail
      exact absurd (List.cons.inj htail).1 hx
    · rfl

private theorem read?_titleText {title : Option (List Char)} {more : List Char}
    (hrest : rest = titleText title ++ ')' :: more) :
    read? ('(' :: (cs ++ rest)) = some ⟨unescape written, title, cs.length + (titleText title).length + 2⟩ := by
  cases title with
  | none => exact (read?_untitled hlead hread hrest (by decide)).trans (if_pos rfl)
  | some title =>
    have hescaped : titleText (some title) = ' ' :: '"' :: (escapeWhere isQuoteMark title ++ ['"']) := rfl
    have hunescape := unescape_escapeWhere rfl isEscapable_of_quoteMark title
    have hclosed : titled? '"' (escapeWhere isQuoteMark title ++ '"' :: ')' :: more) =
        some (escapeWhere isQuoteMark title) := titled?_escapeWhere rfl rfl (by decide) title (')' :: more)
    rw [hescaped] at hrest ⊢
    generalize escapeWhere isQuoteMark title = escaped at hrest hunescape hclosed ⊢
    have hshape : rest = ' ' :: '"' :: (escaped ++ '"' :: ')' :: more) := by simp [hrest]
    have hgap : rest.takeWhile isTailSpace = [' '] := by
      rw [hshape, List.takeWhile_cons_of_pos (by decide), List.takeWhile_cons_of_neg (by decide)]
    have htitle : title? (rest.drop 1) = some (some escaped, escaped.length + 2) := by
      rw [hshape, List.drop_succ_cons, List.drop_zero, title?, if_pos (by simp), if_neg (by decide), hclosed]
      rfl
    have hend : rest.drop (1 + (escaped.length + 2)) = ')' :: more := by
      rw [hshape, show 1 + (escaped.length + 2) = escaped.length + 1 + 2 by omega, List.drop_succ_cons,
        List.drop_succ_cons, List.drop_append, List.drop_of_length_le (by omega), Nat.add_sub_cancel_left]
      rfl
    rw [read?]
    simp only [hlead, List.length_nil, List.drop_zero, hread, Option.bind_eq_bind, Option.bind_some, Nat.zero_add,
      List.drop_left, hgap, List.length_singleton, List.drop_length_add_append, Nat.add_assoc]
    rw [if_pos Nat.zero_lt_one, htitle, Option.bind_some]
    dsimp only
    rw [hend, List.takeWhile_cons_of_neg (by decide), if_pos (by rfl), List.length_nil, Nat.add_zero,
      List.drop_length_add_append, hend]
    dsimp only [Option.map_some]
    rw [hunescape, List.length_cons, List.length_cons, List.length_append, List.length_singleton,
      show cs.length + (1 + (escaped.length + 2)) + 2 = cs.length + (escaped.length + 1 + 1 + 1 + 2) by omega]
    rfl

end

private theorem read?_bracketed {destination : List Char}
    (hbrackets : (destination.isEmpty || destination.any needsBrackets) = true) (title : Option (List Char))
    (rest : List Char) :
    read? (tailText destination title ++ rest) =
      if '\n' ∈ destination then none
      else some ⟨destination, title, (tailText destination title).length⟩ := by
  have hwritten : destinationText destination = '<' :: (escapeWhere isAngleMark destination ++ ['>']) :=
    if_pos hbrackets
  have hunescape := unescape_escapeWhere rfl isEscapable_of_angleMark destination
  have hread := angled?_escapeWhere (p := isAngleMark) rfl rfl rfl rfl destination (titleText title ++ ')' :: rest)
  have hdestination : destination? (destinationText destination ++ (titleText title ++ ')' :: rest)) =
      if '\n' ∈ destination then none
      else some (escapeWhere isAngleMark destination, (destinationText destination).length) := by
    rw [hwritten, List.cons_append, List.append_assoc, List.singleton_append, destination?, hread]
    split
    · rfl
    · simp
  have hlead : (destinationText destination ++ (titleText title ++ ')' :: rest)).takeWhile isTailSpace = [] := by
    rw [hwritten, List.cons_append, List.takeWhile_cons_of_neg (by decide)]
  rw [tailText_append, length_tailText]
  by_cases hfeed : '\n' ∈ destination
  · rw [if_pos hfeed] at hdestination
    rw [if_pos hfeed, read?, hlead, List.length_nil, List.drop_zero, hdestination]
    rfl
  · rw [if_neg hfeed] at hdestination
    rw [if_neg hfeed, read?_titleText hlead hdestination rfl, hunescape]

private theorem destination?_of_head {c : Char} (hc : c ≠ '<') (cs : List Char) : destination? (c :: cs) =
    if (bare 0 (c :: cs)).2 = 0 then some ((bare 0 (c :: cs)).1, (bare 0 (c :: cs)).1.length) else none := by
  rw [destination?]
  rintro ds hds
  exact absurd (List.cons.inj hds).1 hc

section

variable {destination : List Char} (hplain : ∀ c ∈ destination, ¬needsBrackets c = true)
include hplain

private theorem control_le {c : Char} (hc : c ∈ destination) : 0x20 ≤ c.toNat ∧ c ≠ ' ' ∧ c ≠ '<' := by
  have := hplain c hc
  simp only [needsBrackets, Bool.or_eq_true, beq_iff_eq, decide_eq_true_eq, not_or] at this
  exact ⟨by omega, this.1.1.1, this.1.1.2⟩

private theorem isTailSpace_eq_false {c : Char} (hc : c ∈ destination) : isTailSpace c = false := by
  obtain ⟨hlow, hspace, -⟩ := control_le hplain hc
  refine Bool.eq_false_iff.2 fun h => ?_
  simp only [isTailSpace, Bool.or_eq_true, beq_iff_eq] at h
  rcases h with (h | h) | h
  · exact hspace h
  · exact absurd hlow (h ▸ by decide)
  · exact absurd hlow (h ▸ by decide)

variable (hne : destination ≠ [])
include hne

/-- Without brackets a destination starts with its first character or a backslash. -/
private theorem exists_cons_escapeWhere (more : List Char) :
    ∃ e es, escapeWhere isParenMark destination ++ more = e :: es ∧ e ≠ '<' ∧ isTailSpace e = false := by
  obtain ⟨c, cs, rfl⟩ := List.exists_cons_of_ne_nil hne
  by_cases hc : isParenMark c = true
  · rw [escapeWhere_cons_of_pos cs hc]
    exact ⟨'\\', _, rfl, by decide, by decide⟩
  · rw [escapeWhere_cons_of_neg cs hc]
    exact ⟨c, _, rfl, (control_le hplain (.head _)).2.2, isTailSpace_eq_false hplain (.head _)⟩

private theorem takeWhile_escapeWhere (more : List Char) :
    (escapeWhere isParenMark destination ++ more).takeWhile isTailSpace = [] := by
  obtain ⟨e, es, htext, -, hspace⟩ := exists_cons_escapeWhere hplain hne more
  rw [htext, List.takeWhile_cons_of_neg (by simp [hspace])]

/-- The part of a destination before a blank, or the whole of it before the closing parenthesis, is read. -/
private theorem destination?_of_part {part more post : List Char} {x : Char} (hsub : part ⊆ destination)
    (hpart : ∀ c ∈ part, isBlank c = false) (hx : isBlank x = true ∨ x = ')')
    (heq : escapeWhere isParenMark destination ++ more = escapeWhere isParenMark part ++ x :: post) :
    destination? (escapeWhere isParenMark part ++ x :: post) =
      some (escapeWhere isParenMark part, (escapeWhere isParenMark part).length) := by
  have hbare := bare_escapeWhere (p := isParenMark) rfl isEscapable_of_parenMark rfl rfl
    (fun c hc => ⟨hpart c hc, (control_le hplain (hsub hc)).1⟩) hx post
  obtain ⟨e, es, htext, hangle, -⟩ := exists_cons_escapeWhere hplain hne more
  rw [← heq, htext] at hbare ⊢
  rw [destination?_of_head hangle, hbare, if_pos rfl]

private theorem read?_of_forall (hkept : ∀ c ∈ destination, isBlank c = false) (title : Option (List Char))
    (rest : List Char) :
    read? ('(' :: (escapeWhere isParenMark destination ++ (titleText title ++ ')' :: rest))) =
      some ⟨destination, title, (escapeWhere isParenMark destination).length + (titleText title).length + 2⟩ := by
  obtain ⟨x, more, hrest, hx⟩ : ∃ x more, titleText title ++ ')' :: rest = x :: more ∧
      (isBlank x = true ∨ x = ')') := by
    cases title with
    | none => exact ⟨')', rest, rfl, .inr rfl⟩
    | some title => exact ⟨' ', _, rfl, .inl (by decide)⟩
  have hdestination := destination?_of_part hplain hne (List.Subset.refl _) hkept hx (congrArg _ hrest)
  rw [← hrest] at hdestination
  rw [read?_titleText (takeWhile_escapeWhere hplain hne _) hdestination rfl,
    unescape_escapeWhere rfl isEscapable_of_parenMark]

/-- The reader stops at the first blank and finds neither a title nor a parenthesis there. -/
private theorem read?_of_exists (hcut : ∃ c ∈ destination, isBlank c = true) (more : List Char) :
    read? ('(' :: (escapeWhere isParenMark destination ++ more)) = none := by
  obtain ⟨b, hb⟩ : ∃ b, destination.find? isBlank = some b := by
    rw [← Option.isSome_iff_exists, List.find?_isSome]
    exact hcut
  obtain ⟨hblank, part, post, hsplit, hpart⟩ := List.find?_eq_some_iff_append.1 hb
  have hparen : isParenMark b = false := by
    refine Bool.eq_false_iff.2 fun h => ?_
    simp only [isParenMark, Bool.or_eq_true, beq_iff_eq] at h
    rcases h with (rfl | rfl) | rfl <;> exact absurd hblank (by decide)
  have heq : escapeWhere isParenMark destination ++ more =
      escapeWhere isParenMark part ++ b :: (escapeWhere isParenMark post ++ more) := by
    rw [hsplit, escapeWhere, List.flatMap_append, ← escapeWhere, ← escapeWhere,
      escapeWhere_cons_of_neg post (by simp [hparen]), List.append_assoc, List.cons_append]
  have hdestination := destination?_of_part hplain hne (by simp [hsplit])
    (fun c hc => by simpa using hpart c hc) (.inl hblank) heq
  have hlead := takeWhile_escapeWhere hplain hne more
  rw [heq] at hlead ⊢
  rw [read?_untitled hlead hdestination rfl (isTailSpace_eq_false hplain (by simp [hsplit])), if_neg]
  rintro rfl
  exact absurd hblank (by decide)

end

/-- Without brackets a destination comes back unless a blank stands in it. -/
private theorem read?_unbracketed {destination : List Char} (hne : destination ≠ [])
    (hplain : ∀ c ∈ destination, ¬needsBrackets c = true) (title : Option (List Char)) (rest : List Char) :
    read? (tailText destination title ++ rest) =
      if destination.any isBlank then none
      else some ⟨destination, title, (tailText destination title).length⟩ := by
  have hwritten : destinationText destination = escapeWhere isParenMark destination := by
    refine if_neg ?_
    simpa [hne] using hplain
  rw [tailText_append, length_tailText, hwritten]
  by_cases hcut : destination.any isBlank = true
  · rw [if_pos hcut]
    exact read?_of_exists hplain hne (List.any_eq_true.1 hcut) _
  · rw [if_neg hcut]
    exact read?_of_forall hplain hne (by simpa using hcut) title rest

private theorem plain_of_unbracketed {destination : List Char}
    (hbrackets : ¬(destination.isEmpty || destination.any needsBrackets) = true) :
    destination ≠ [] ∧ ∀ c ∈ destination, ¬needsBrackets c = true := by
  rw [Bool.or_eq_true_iff, not_or, List.isEmpty_iff, List.any_eq_true] at hbrackets
  exact ⟨hbrackets.1, fun c hc hneeds => hbrackets.2 ⟨c, hc, hneeds⟩⟩

/-- A destination in brackets is readable unless it has a line feed. -/
private theorem isReadable_iff_of_bracketed {destination : List Char}
    (hbrackets : (destination.isEmpty || destination.any needsBrackets) = true) :
    IsReadable destination ↔ '\n' ∉ destination := by
  refine and_iff_left ?_
  rcases Bool.or_eq_true_iff.1 hbrackets with hnil | hany
  · rw [List.isEmpty_iff.1 hnil]
    exact .inr (List.forall_mem_nil _)
  · exact .inl (List.any_eq_true.1 hany)

/-- A destination without brackets is readable unless it has a blank. -/
private theorem isReadable_iff_of_unbracketed {destination : List Char}
    (hplain : ∀ c ∈ destination, ¬needsBrackets c = true) :
    IsReadable destination ↔ destination.any isBlank = false := by
  have hfeed : '\n' ∉ destination := fun h => hplain '\n' h (by decide)
  have hbare : ¬∃ c ∈ destination, needsBrackets c = true := fun ⟨c, hc, hneeds⟩ => hplain c hc hneeds
  rw [IsReadable, and_iff_right hfeed, or_iff_right hbare]
  simp

section

variable {destination : List Char} (title : Option (List Char)) (rest : List Char)

/-- The tail of a readable destination comes back from what is written for it, and ends where that ends. -/
theorem read?_of_isReadable (h : IsReadable destination) :
    read? (tailText destination title ++ rest) =
      some ⟨destination, title, (tailText destination title).length⟩ := by
  by_cases hbrackets : (destination.isEmpty || destination.any needsBrackets) = true
  · rw [read?_bracketed hbrackets, if_neg ((isReadable_iff_of_bracketed hbrackets).1 h)]
  · obtain ⟨hne, hplain⟩ := plain_of_unbracketed hbrackets
    rw [read?_unbracketed hne hplain, (isReadable_iff_of_unbracketed hplain).1 h]
    rfl

/-- No tail is read for another destination. -/
private theorem read?_of_not_isReadable (h : ¬IsReadable destination) :
    read? (tailText destination title ++ rest) = none := by
  by_cases hbrackets : (destination.isEmpty || destination.any needsBrackets) = true
  · rw [isReadable_iff_of_bracketed hbrackets, Decidable.not_not] at h
    rw [read?_bracketed hbrackets, if_pos h]
  · obtain ⟨hne, hplain⟩ := plain_of_unbracketed hbrackets
    rw [isReadable_iff_of_unbracketed hplain, Bool.not_eq_false] at h
    rw [read?_unbracketed hne hplain, if_pos h]

end

/-- A link tail comes back from what is written for it, and ends where that ends, exactly when its destination is
readable.  No tail is read otherwise. -/
theorem read?_tailText (destination : List Char) (title : Option (List Char)) (rest : List Char) :
    read? (tailText destination title ++ rest) =
      if IsReadable destination then some ⟨destination, title, (tailText destination title).length⟩ else none := by
  split
  · exact read?_of_isReadable title rest ‹_›
  · exact read?_of_not_isReadable title rest ‹_›

/-- A space that does not break the line is no reason for brackets, but ends a destination without them. -/
theorem read?_tailText_noBreak :
    ¬∀ (destination : List Char) (title : Option (List Char)) (rest : List Char), '\n' ∉ destination →
      read? (tailText destination title ++ rest) =
        some ⟨destination, title, (tailText destination title).length⟩ := by
  intro h
  have hread := h ['b', '\u00a0', 'c'] none [] (by decide)
  have hnone : read? (tailText ['b', '\u00a0', 'c'] none ++ []) = none := by decide +kernel
  rw [hnone] at hread
  cases hread

end LinkTail

end MarkdownTree.Scan
