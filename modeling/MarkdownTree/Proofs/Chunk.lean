import MarkdownTree.Proofs.Leaf

/-!
# Chunks between two places

The lines inside a container are ends of the lines that it takes (`endOf_quotedLines`, `endOf_itemLines`), so they fit
between the ends of their container.  Every chunk lies between the places between which the lines that it takes fit
(`within_chunk`), and the chunks of a row of lines come one after the other (`within_segments`).
-/

namespace MarkdownTree.Scan

open Text

variable {source : List Char} {lo hi : Nat} {l : Line} {ls : List Line}

/-- Segments one after the other between two places. -/
def SegmentsWithin (source : List Char) : Nat → List Segment → Nat → Prop
  | lo, [], hi => lo ≤ hi
  | lo, s :: segments, hi => ∃ mid, s.chunk.Within source lo mid ∧ SegmentsWithin source mid segments hi

private theorem ItemsWithin.mono {lo' : Nat} {items : List ItemChunk} (h : ItemsWithin source lo items hi)
    (hlo : lo' ≤ lo) :
    ItemsWithin source lo' items hi := by
  cases items with
  | nil => exact hlo.trans h
  | cons item items => exact ⟨hlo.trans h.1, h.2⟩

/-- Lines that fit, between bounds that suit the first of them and what they say. -/
private theorem Line.Fit.narrow (h : Fit source lo (l :: ls) hi) {start stop : Nat} (hstart : start ≤ l.offset)
    (hle : start ≤ stop) (hstop : ∀ x ∈ l :: ls, x.isBlank = false → x.contentStop ≤ stop) :
    Fit source start (l :: ls) stop := by
  refine h.between hle (List.forall_mem_cons.2 ⟨hstart, fun x hx => ?_⟩) hstop
  have := List.rel_of_pairwise_cons h.apart hx
  have : l.offset ≤ l.stop := Nat.le_add_right _ _
  omega

namespace Setting

variable (s : Setting)

/-! ### Quotes -/

private theorem quoted?_eq_some {inner : Line} (h : s.quoted? l = some inner) :
    inner.EndOf l.trimStart ∧ l.isBlank = false := by
  unfold quoted? at h
  split at h
  · cases h
  · rename_i hcond
    simp only [Bool.or_eq_true, not_or, Bool.not_eq_true] at hcond
    refine ⟨?_, hcond.1⟩
    dsimp only at h
    split at h
    · rename_i c rest hbody
      cases h
      refine Line.drop_endOf ?_
      rw [hbody]
      split <;> simp
    · rename_i hbody
      cases h
      refine Line.drop_endOf ?_
      simp [hbody]
    · cases h

/-- The lines of a quote are ends of the first lines of a row, which are not blank. -/
theorem endOf_quotedLines (ls : List Line) :
    List.Forall₂ Line.EndOf (s.quotedLines ls) (ls.take (s.quotedLines ls).length) ∧
      ∀ x ∈ ls.take (s.quotedLines ls).length, x.isBlank = false := by
  induction ls with
  | nil => simp [quotedLines]
  | cons l ls ih =>
    unfold quotedLines
    split
    · rename_i inner hinner
      obtain ⟨hend, hl⟩ := s.quoted?_eq_some hinner
      simp only [List.length_cons, List.take_succ_cons]
      exact ⟨.cons (hend.trans (Line.trimStart_endOf l)) ih.1, List.forall_mem_cons.2 ⟨hl, ih.2⟩⟩
    · simp

private theorem within_quote (hl : l.isBlank = false) (h : Line.Fit source lo (l :: ls.take (s.quote l ls).2) hi) :
    (s.quote l ls).1.Within source lo hi := by
  obtain ⟨hends, hblank⟩ := s.endOf_quotedLines ls
  unfold quote quotedLines at h ⊢
  cases hinner : s.quoted? l with
  | none =>
    rw [hinner] at h
    obtain ⟨hlo, hlt, hle⟩ := h.trimStart_offset_le hl rfl hl
    exact ⟨hlo, .nil (Nat.le_of_lt hlt), hle⟩
  | some first =>
    rw [hinner] at h
    simp only [List.length_cons, Nat.add_sub_cancel, List.take_succ_cons] at h ⊢
    -- The quote goes on to the last of the lines taken, which says something as all of them do.
    revert h hends hblank
    generalize ls.take (s.quotedLines ls).length = taken
    intro hends hblank h
    obtain ⟨hfirst, -⟩ := s.quoted?_eq_some hinner
    have hforall := List.Forall₂.cons (hfirst.trans (Line.trimStart_endOf l)) hends
    have hlast : (l :: taken).getLast? = some ((l :: taken).getLast?.getD l) := by
      rw [List.getLast?_cons, Option.getD_some]
    have hall : ∀ x ∈ l :: taken, x.isBlank = false := List.forall_mem_cons.2 ⟨hl, hblank⟩
    have hb := hall _ (List.mem_of_getLast? hlast)
    obtain ⟨hlo, hlt, hle⟩ := h.trimStart_offset_le hl hlast hb
    refine ⟨hlo, (h.ends hforall).narrow hfirst.offset_le (Nat.le_of_lt hlt) fun x hx hxb => ?_, hle⟩
    obtain ⟨outer, houter, hend⟩ := Line.exists_outer hforall hx
    rw [hend.contentStop_eq hxb]
    exact h.contentStop_le_last houter hlast hb

end Setting

/-! ### Items -/

namespace ItemChunk

/-- An item ends no earlier than its marker. -/
private theorem marker_stop_le (item : ItemChunk) : item.marker.stop ≤ item.stop := by
  unfold stop
  split
  · split
    · exact Nat.le_refl _
    · exact Nat.le_max_left _ _
  · exact Nat.le_refl _

/-- An item ends no later than its marker and what its lines say. -/
private theorem stop_le {item : ItemChunk} (hmarker : item.marker.stop ≤ hi)
    (hlines : ∀ x ∈ item.lines, x.isBlank = false → x.contentStop ≤ hi) : item.stop ≤ hi := by
  unfold stop
  split
  · rename_i last hlast
    split
    · exact hmarker
    · rename_i hb
      exact Nat.max_le.2 ⟨hmarker, hlines last (List.mem_of_getLast? hlast) (Bool.not_eq_true _ ▸ hb)⟩
  · exact hmarker

private theorem contentStop_le_stop {item : ItemChunk} {last : Line} (hlast : item.lines.getLast? = some last)
    (hb : last.isBlank = false) : last.contentStop ≤ item.stop := by
  unfold stop
  rw [hlast]
  dsimp only
  rw [if_neg (Bool.not_eq_true _ ▸ hb)]
  exact Nat.le_max_right _ _

end ItemChunk

namespace Setting

variable (s : Setting)

/-- The lines of an item after its first are ends of the lines that follow. -/
theorem endOf_itemLines (indent : Rat) (previous : Line) (fence : Option Fence) (ls : List Line) :
    List.Forall₂ Line.EndOf (s.itemLines indent previous fence ls)
      (ls.take (s.itemLines indent previous fence ls).length) := by
  induction ls generalizing previous fence with
  | nil => simp [itemLines]
  | cons l ls ih =>
    unfold itemLines
    split
    · exact .cons (Line.dropColumns_endOf _ _ _) (ih _ _)
    · split
      · exact .cons (Line.dropColumns_endOf _ _ _) (ih _ _)
      · split
        · exact .cons (Line.trimStart_endOf _) (ih _ _)
        · exact .nil

/-- A line that says something, among a line and those after it without the blank lines at their end, has such a line
as the last. -/
private theorem exists_last {ms : List Line} {x : Line} (hx : x ∈ l :: dropEndWhile Line.isBlank ms)
    (hb : x.isBlank = false) :
    ∃ last, (l :: dropEndWhile Line.isBlank ms).getLast? = some last ∧ last.isBlank = false := by
  refine ⟨_, List.getLast?_cons, ?_⟩
  cases hlast : (dropEndWhile Line.isBlank ms).getLast? with
  | none =>
    rw [List.getLast?_eq_none_iff] at hlast
    rw [hlast] at hx
    rw [← List.mem_singleton.1 hx]
    exact hb
  | some last => exact getLast?_dropEndWhile hlast

/-- An item that is made of ends of lines lies between the places between which those fit. -/
private theorem within_itemChunk {item : ItemChunk} {m : Marker} {content : Line} {more taken : List Line}
    (hm : m.Within l) (hcontent : content.EndOf m.content) (hmore : List.Forall₂ Line.EndOf more taken)
    (hmarker : item.marker = m) (hlines : item.lines = content :: dropEndWhile Line.isBlank more)
    (h : Line.Fit source lo (l :: taken) hi) :
    lo ≤ m.start ∧ Line.Fit source m.start item.lines item.stop ∧ item.stop ≤ hi := by
  subst hmarker
  have hlt := hm.lt
  have hmarker := item.marker_stop_le
  have hbelow := h.below l (.head _) hm.not_blank
  -- The lines of the item are ends of those that it takes, without some blank ones.
  have hall := h.ends (.cons (hcontent.trans hm.content) hmore)
  have hkept := hall.sublist ((prefix_dropEndWhile Line.isBlank more).sublist.cons_cons content)
  rw [← hlines] at hkept
  refine ⟨(h.above l (.head _)).trans hm.le, ?_, ItemChunk.stop_le (hm.stop_le.trans hbelow) hkept.below⟩
  have hstop : ∀ x ∈ item.lines, x.isBlank = false → x.contentStop ≤ item.stop := by
    intro x hx hb
    obtain ⟨last, hlast, hlastb⟩ := exists_last (hlines ▸ hx) hb
    rw [← hlines] at hlast
    exact (hkept.contentStop_le_last hx hlast hlastb).trans (ItemChunk.contentStop_le_stop hlast hlastb)
  have hstart : item.marker.start ≤ content.offset := by
    have := hm.stop_le_content
    have := hcontent.offset_le
    omega
  rw [hlines] at hkept hstop ⊢
  exact hkept.narrow hstart (by omega) hstop

/-- An item lies between the places between which the lines that it takes fit. -/
private theorem within_item {m : Marker} (hm : m.Within l)
    (h : Line.Fit source lo (l :: ls.take (s.item m ls).2) hi) :
    lo ≤ m.start ∧ Line.Fit source m.start (s.item m ls).1.lines (s.item m ls).1.stop ∧ (s.item m ls).1.stop ≤ hi := by
  revert h
  unfold item
  cases hbox : taskBox? m.content.text with
  | none =>
    intro h
    exact within_itemChunk hm (.refl _) (s.endOf_itemLines _ _ _ _) rfl rfl h
  | some box =>
    obtain ⟨checked, size⟩ := box
    intro h
    exact within_itemChunk hm (Line.drop_endOf (taskBox?_le hbox)) (s.endOf_itemLines _ _ _ _) rfl rfl h

/-- The items of a list are its first item and those of the list that the next line opens, if that continues it. -/
theorem items_eq (m : Marker) (ls : List Line) :
    s.items m ls =
      match ls.drop (s.item m ls).2 with
      | [] => ([(s.item m ls).1], (s.item m ls).2)
      | l :: rest =>
        match Marker.read? s.tab l with
        | some next =>
          if next.continues m then
            ((s.item m ls).1 :: (s.items next rest).1, (s.item m ls).2 + 1 + (s.items next rest).2)
          else ([(s.item m ls).1], (s.item m ls).2)
        | none => ([(s.item m ls).1], (s.item m ls).2) := by
  rw [items]
  dsimp only
  split
  · rename_i hdrop
    simp only [hdrop]
  · rename_i hdrop
    rewrite [hdrop]
    rfl

/-- A list has one item, or that item and those of the list that the next line opens, which continues it. -/
theorem items_cases (m : Marker) (ls : List Line) :
    s.items m ls = ([(s.item m ls).1], (s.item m ls).2) ∨
      ∃ l rest next, ls.drop (s.item m ls).2 = l :: rest ∧ Marker.read? s.tab l = some next ∧
        next.continues m = true ∧
        s.items m ls = ((s.item m ls).1 :: (s.items next rest).1, (s.item m ls).2 + 1 + (s.items next rest).2) := by
  rw [items_eq]
  split
  · exact .inl rfl
  · rename_i l rest hdrop
    split
    · rename_i next hread
      split
      · rename_i hcont
        exact .inr ⟨l, rest, next, hdrop, hread, hcont, rfl⟩
      · exact .inl rfl
    · exact .inl rfl

/-- The items of a list lie one after the other. -/
private theorem within_items {lo : Nat} {l : Line} {ls : List Line} {m : Marker} (hm : m.Within l)
    (h : Line.Fit source lo (l :: ls.take (s.items m ls).2) hi) :
    (s.items m ls).1 ≠ [] ∧ lo ≤ m.start ∧ ItemsWithin source m.start (s.items m ls).1 hi := by
  rcases s.items_cases m ls with heq | ⟨opening, rest, next, hdrop, hread, -, heq⟩
  · rw [heq] at h ⊢
    obtain ⟨hlo, hfit, hstop⟩ := s.within_item hm h
    exact ⟨by simp, hlo, Nat.le_refl _, hfit, hstop⟩
  · rw [heq] at h ⊢
    dsimp only at h ⊢
    -- The lines that the list takes are those of its first item and those of the list that the next line opens.
    rw [Nat.add_assoc, List.take_add, hdrop, Nat.add_comm 1, List.take_succ_cons, ← List.cons_append] at h
    obtain ⟨mid, hfirst, hothers⟩ := h.split
    obtain ⟨hlo, hfit, hstop⟩ := s.within_item hm hfirst
    obtain ⟨-, hmid, hitems⟩ := within_items (Marker.read?_within hread) hothers
    exact ⟨by simp, hlo, Nat.le_refl _, hfit, hitems.mono (hstop.trans hmid)⟩
termination_by ls.length
decreasing_by
  have hlen := congrArg List.length hdrop
  simp only [List.length_drop, List.length_cons] at hlen
  omega

/-! ### All chunks -/

/-- The chunk that a line opens lies between the places between which the lines that it takes fit. -/
theorem within_chunk (limit : Value) (hl : l.isBlank = false)
    (h : Line.Fit source lo (l :: ls.take (s.chunk limit l ls).2) hi) :
    (s.chunk limit l ls).1.Within source lo hi := by
  have hbody := Line.trimStart_endOf l
  have hbodyStop := hbody.contentStop_eq (Line.trimStart_not_blank hl)
  have hlone := h.sublist (List.singleton_sublist.2 (.head (a := l) _))
  have hbounds : lo ≤ l.trimStart.offset ∧ l.trimStart.offset < l.contentStop ∧ l.contentStop ≤ hi :=
    hlone.trimStart_offset_le hl rfl hl
  obtain ⟨hlo, hlt, hle⟩ := hbounds
  have hstands := hbody.standsIn (h.stands l (.head _))
  revert h
  unfold chunk
  dsimp only
  split
  · exact s.within_indentedCode hl
  · split
    · rename_i fence hfence
      exact s.within_fencedCode hl hfence
    · split
      · rename_i depth hdepth
        intro _
        obtain ⟨-, hphrase, -, hdepth⟩ := within_markedHeading (Line.trimStart_not_blank hl) hstands hdepth
        exact ⟨hlo, hphrase, hbodyStop ▸ hle, hdepth⟩
      · split
        · intro _
          rw [← hbodyStop] at hlt hle
          exact ⟨hlo, Nat.le_of_lt hlt, hle⟩
        · split
          · exact s.within_quote hl
          · split
            · rename_i m hread
              intro h
              have hm : m.Within l := by
                split at hread
                · exact Marker.read?_within hread
                · cases hread
              obtain ⟨hne, hstart, hitems⟩ := s.within_items hm h
              exact ⟨hne, hm.number, hstart, hitems⟩
            · exact s.within_paragraph _ hl

/-- A chunk is opened by a line that is not blank, and takes some of those behind it. -/
theorem exists_chunk_of_mem_segments {limit : Value} {gap : Bool} {ls : List Line} {seg : Segment}
    (h : seg ∈ s.segments limit gap ls) :
    ∃ l rest, l :: rest <:+ ls ∧ l.isBlank = false ∧ seg.chunk = (s.chunk limit l rest).1 := by
  fun_induction s.segments limit gap ls with
  | case1 => cases h
  | case2 gap l ls hl ih =>
    obtain ⟨first, rest, hsuffix, hfirst⟩ := ih h
    exact ⟨first, rest, hsuffix.trans (List.suffix_cons l ls), hfirst⟩
  | case3 gap l ls hl chunk taken hchunk ih =>
    rcases List.mem_cons.1 h with rfl | h
    · exact ⟨l, ls, List.suffix_rfl, Bool.not_eq_true _ ▸ hl, by rw [hchunk]⟩
    · obtain ⟨first, rest, hsuffix, hfirst⟩ := ih h
      exact ⟨first, rest, hsuffix.trans ((List.drop_suffix taken ls).trans (List.suffix_cons l ls)), hfirst⟩

/-- The chunks of a row of lines come one after the other. -/
theorem within_segments (limit : Value) (gap : Bool) (ls : List Line) (h : Line.Fit source lo ls hi) :
    SegmentsWithin source lo (s.segments limit gap ls) hi := by
  fun_induction s.segments limit gap ls generalizing lo with
  | case1 gap => exact h.le
  | case2 gap l ls hl ih => exact ih h.tail
  | case3 gap l ls hl chunk taken hchunk ih =>
    have hsplit : l :: ls = (l :: ls.take taken) ++ ls.drop taken := by
      rw [List.cons_append, List.take_append_drop]
    rw [hsplit] at h
    obtain ⟨mid, hfirst, hrest⟩ := h.split
    have hwithin : (s.chunk limit l ls).1.Within source lo mid := by
      refine s.within_chunk limit (Bool.not_eq_true _ ▸ hl) ?_
      rw [hchunk]
      exact hfirst
    rw [hchunk] at hwithin
    exact ⟨mid, hwithin, ih hrest⟩

end Setting

end MarkdownTree.Scan
