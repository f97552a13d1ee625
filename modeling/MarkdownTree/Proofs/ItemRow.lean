import MarkdownTree.Proofs.Append
import MarkdownTree.Proofs.Extent

/-!
# Rows of items

The lines of a list are those of its items, with blank lines between them if the list is spread.  An item starts with
its marker, and its other lines are indented by the width of that (`ItemRow.lines`).  Such lines are one list of as many
items, up to a line that does not go on with it (`Setting.cuts_list`), and blank lines are what sets its items apart.
-/

namespace MarkdownTree.Scan

open Text Print

/-- Rows of lines with a blank line between them, or with nothing. -/
def spacedLines (loose : Bool) : List (List (List Char)) → List (List Char)
  | [] => []
  | [row] => row
  | row :: rows => row ++ (if loose then [[]] else []) ++ spacedLines loose rows

/-- Texts are put together as the rows of their lines are. -/
theorem fields_join_rows (loose : Bool) (x : List Char) (xs : List (List Char)) :
    fields '\n' (join (if loose then ['\n', '\n'] else ['\n']) (x :: xs)) =
      spacedLines loose ((x :: xs).map (fields '\n')) := by
  induction xs generalizing x with
  | nil => rfl
  | cons y xs ih =>
    have hrest := ih y
    cases loose with
    | true =>
      have hsplit : join ['\n', '\n'] (x :: y :: xs) = x ++ '\n' :: '\n' :: join ['\n', '\n'] (y :: xs) := by
        simp [join]
      have hempty (cs : List Char) : fields '\n' ('\n' :: cs) = [] :: fields '\n' cs := by
        rw [fields, if_pos rfl]
      rw [if_pos rfl] at hrest ⊢
      rw [hsplit, fields_append_fields, hempty, hrest]
      simp [spacedLines]
    | false =>
      have hsplit : join ['\n'] (x :: y :: xs) = x ++ '\n' :: join ['\n'] (y :: xs) := by simp [join]
      rw [if_neg (by decide)] at hrest ⊢
      rw [hsplit, fields_append_fields, hrest]
      simp [spacedLines]

/-- The lines of an item: its marker, its number, what stands behind the marker, and the other lines of its content. -/
structure ItemRow where
  mark : List Char
  number : Option Nat
  first : List Char
  more : List (List Char)

namespace ItemRow

/-- The first line of the item. -/
def opening (r : ItemRow) : List Char :=
  if r.first = [] then r.mark else r.mark ++ ' ' :: r.first

/-- The lines of the item in its list. -/
def lines (r : ItemRow) : List (List Char) :=
  r.opening :: r.more.map (indentLine (r.mark.length + 1))

/-- The lines inside the item, behind its task box. -/
def content (r : ItemRow) : List (List Char) :=
  r.first.drop (((taskBox? r.first).map (·.2)).getD 0) :: r.more

/-- The item is one of a list with a mark. -/
structure Stands (ordered : Bool) (symbol : Char) (r : ItemRow) : Prop where
  marker : IsMarker r.mark r.number
  symbol : r.mark.getLast? = some symbol
  ordered : r.number.isSome = ordered
  first : ∀ c ∈ r.first.head?, isBlank c = false
  rule : isRule r.opening = false
  last : ∀ line ∈ r.more.getLast?, line.all isBlank = false

/-- An item is read with the lines inside it and the state of its task box. -/
structure Heard (r : ItemRow) (item : ItemChunk) : Prop where
  checked : item.checked = (taskBox? r.first).map (·.1)
  lines : item.lines.map Line.text = r.content

private theorem width_le {r : ItemRow} (h : IsMarker r.mark r.number) : r.mark.length + 1 ≤ 2 ^ 53 := by
  have := h.length_le
  omega

section

variable {ordered : Bool} {symbol : Char} {r : ItemRow} (h : r.Stands ordered symbol) {l : Line}
  (hl : l.text = r.opening)
include h hl

theorem exists_head : ∃ c cs, l.text = c :: cs ∧ isBlank c = false ∧ c ≠ '#' ∧ c ≠ '\x60' ∧ c ≠ '~' ∧ c ≠ '>' ∧
    c ≠ '[' := by
  obtain ⟨c, rest, hmark, hhead⟩ := h.marker.head
  rw [hl, opening, hmark]
  split
  · exact ⟨c, _, rfl, hhead⟩
  · exact ⟨c, _, rfl, hhead⟩

/-- The first line of an item starts with its marker. -/
theorem read?_opening (tab : Rat) : ∃ m, Marker.read? tab l = some m ∧ m.number = r.number ∧ m.symbol = symbol ∧
    m.contentIndent = (r.mark.length + 1 : Nat) ∧ m.content.text = r.first := by
  obtain ⟨c, cs, htext, hblank, -⟩ := exists_head h hl
  by_cases hempty : r.first = []
  · have hmark : l.text = r.mark := by rw [hl, opening, if_pos hempty]
    obtain ⟨last, hlast, hread⟩ := h.marker.marker?_eq (show endsOrGap [] = true from rfl)
    rw [h.symbol, Option.some_inj] at hlast
    rw [List.append_nil, ← hlast] at hread
    have hrest : (l.drop r.mark.length).isBlank = true := by
      rw [Line.isBlank, Line.drop, hmark, List.drop_length]
      rfl
    unfold Marker.read?
    dsimp only
    rw [Line.indent_of_head htext hblank, Line.trimStart_of_head htext hblank, hl, h.rule, ← hl, hmark, hread,
      if_neg (by decide)]
    dsimp only [Option.map_some]
    rw [hrest, if_pos rfl, zero_add, settle_natCast, settle_natCast_add_one]
    exact ⟨_, rfl, rfl, rfl, rfl, hempty.symm⟩
  · obtain ⟨d, ds, hfirst⟩ := List.exists_cons_of_ne_nil hempty
    have hd := h.first d (by rw [hfirst]; rfl)
    have hline : l.text = r.mark ++ ' ' :: d :: ds := by rw [hl, opening, if_neg hempty, hfirst]
    have hrule : isRule (r.mark ++ ' ' :: d :: ds) = false := by rw [← hline, hl, h.rule]
    obtain ⟨m, hm, hnumber, hindent, hcontent⟩ := Setting.read?_item h.marker hd hrule hline tab
    obtain ⟨last, hlast, hread⟩ := h.marker.marker?_eq (show endsOrGap (' ' :: d :: ds) = true from rfl)
    rw [h.symbol, Option.some_inj] at hlast
    have hpair := read?_of_head htext hblank tab
    rw [hm, hline, hrule, hread, if_neg (by decide)] at hpair
    obtain ⟨hsymbol, -⟩ := Prod.mk.inj (Option.some_inj.1 hpair)
    exact ⟨m, hm, hnumber, hsymbol.trans hlast.symm, hindent, hcontent.trans hfirst.symm⟩

theorem marker_of_read? {tab : Rat} {m : Marker} (hread : Marker.read? tab l = some m) : m.number = r.number ∧
    m.ordered = ordered ∧ m.symbol = symbol ∧ m.contentIndent = (r.mark.length + 1 : Nat) ∧
      m.content.text = r.first := by
  obtain ⟨m', hread', hnumber, hsymbol, hwidth, hcontent⟩ := read?_opening h hl tab
  rw [hread, Option.some_inj] at hread'
  subst hread'
  exact ⟨hnumber, by rw [Marker.ordered, hnumber, h.ordered], hsymbol, hwidth, hcontent⟩

end

end ItemRow

namespace Setting

variable {s : Setting}

/-! ### Markers after items -/

theorem interrupts_marker {l : Line} {m : Marker} (h : Marker.read? s.tab l = some m) (hs : s.containers = true)
    (hitem : s.inItem = true) : s.interrupts l = true := by
  have hindent : ¬4 ≤ l.indent s.tab := by
    intro hindent
    rw [Marker.read?, if_pos (.inl hindent)] at h
    cases h
  unfold interrupts
  dsimp only
  rw [if_neg hindent, h, hs, hitem]
  simp

/-- What interrupts the paragraphs of items does not go on with those of an item above it. -/
theorem isLazy_of_interrupts {l : Line} (h : interrupts { s with containers := true, inItem := true } l = true)
    (previous : Line) (fence : Option Fence) : s.isLazy previous fence l = false := by
  unfold isLazy
  rw [h]
  simp

/-! ### One item -/

private theorem isBlank_dropColumns {l : Line} (h : l.isBlank = true) (tab columns : Rat) :
    (l.dropColumns tab columns).isBlank = true := by
  by_contra hblank
  have := (Line.dropColumns_endOf tab columns l).not_blank (Bool.eq_false_iff.2 hblank)
  rw [h] at this
  cases this

section

variable {indent : Rat} (hindent : 0 < indent)
include hindent

/-- Behind a blank line an item takes no line that is not indented, but more blank lines. -/
private theorem itemLines_of_blank {rest : List Line}
    (hrest : ∀ l ∈ (rest.dropWhile Line.isBlank).head?, l.indent s.tab = 0)
    {previous : Line} (hprevious : previous.isBlank = true) (fence : Option Fence) :
    s.itemLines indent previous fence rest = (rest.takeWhile Line.isBlank).map (·.dropColumns s.tab indent) := by
  induction rest generalizing previous with
  | nil => rfl
  | cons l rest ih =>
    rw [itemLines]
    by_cases hl : l.isBlank = true
    · rw [List.dropWhile_cons_of_pos hl] at hrest
      rw [if_pos hl, List.takeWhile_cons_of_pos hl]
      dsimp only
      rw [ih hrest (isBlank_dropColumns hl s.tab indent)]
      rfl
    · rw [List.dropWhile_cons_of_neg hl] at hrest
      have hlazy : s.isLazy previous fence l = false := by rw [isLazy, hprevious, Bool.or_true, if_pos rfl]
      rw [if_neg hl, hrest l rfl, if_neg (not_le.2 hindent), hlazy, List.takeWhile_cons_of_neg hl]
      rfl

/-- An item takes only the blank lines of those that do not go on with it. -/
private theorem itemLines_of_ends {rest : List Line} (hrest : s.EndsItem rest) (previous : Line)
    (fence : Option Fence) :
    s.itemLines indent previous fence rest = (rest.takeWhile Line.isBlank).map (·.dropColumns s.tab indent) := by
  cases rest with
  | nil => rfl
  | cons l rest =>
    have hindents := hrest.indent
    rw [itemLines]
    by_cases hl : l.isBlank = true
    · rw [List.dropWhile_cons_of_pos hl] at hindents
      rw [if_pos hl, List.takeWhile_cons_of_pos hl]
      dsimp only
      rw [itemLines_of_blank hindent hindents (isBlank_dropColumns hl s.tab indent)]
      rfl
    · rw [List.dropWhile_cons_of_neg hl] at hindents
      have hlazy := ((hrest.lazy l rfl).resolve_left hl) previous fence
      rw [if_neg hl, hindents l rfl, if_neg (not_le.2 hindent), hlazy, List.takeWhile_cons_of_neg hl]
      rfl

private theorem itemLines_append_ends {ls rest : List Line} (hrest : s.EndsItem rest) (previous : Line)
    (fence : Option Fence)
    (hls : (s.itemLines indent previous fence ls).length = ls.length) :
    s.itemLines indent previous fence (ls ++ rest) =
      s.itemLines indent previous fence ls ++ (rest.takeWhile Line.isBlank).map (·.dropColumns s.tab indent) := by
  induction ls generalizing previous fence with
  | nil => exact itemLines_of_ends hindent hrest previous fence
  | cons l ls ih =>
    rw [List.cons_append, itemLines, itemLines]
    rw [itemLines] at hls
    dsimp only at hls ⊢
    split_ifs at hls ⊢ with hblank hin hlazy
    · rw [ih _ _ (Nat.succ.inj hls)]
      rfl
    · rw [ih _ _ (Nat.succ.inj hls)]
      rfl
    · rw [ih _ _ (Nat.succ.inj hls)]
      rfl

end

/-- An item takes its lines and the blank lines after them, which are cut off its end. -/
private theorem item_of_row (htab : 0 < s.tab) {ordered : Bool} {symbol : Char} {r : ItemRow}
    (h : r.Stands ordered symbol)
    {m : Marker} (hwidth : m.contentIndent = (r.mark.length + 1 : Nat)) (hcontent : m.content.text = r.first)
    {ls rest : List Line} (hls : ls.map Line.text = r.more.map (indentLine (r.mark.length + 1)))
    (hrest : s.EndsItem rest) :
    (s.item m (ls ++ rest)).2 = ls.length + (rest.takeWhile Line.isBlank).length ∧
      (s.item m (ls ++ rest)).1.trailingBlank = (rest.head?.any Line.isBlank) ∧
      r.Heard (s.item m (ls ++ rest)).1 := by
  have hindent : 0 < m.contentIndent := by
    rw [hwidth]
    exact Nat.cast_pos.2 (Nat.succ_pos _)
  let blanks := (rest.takeWhile Line.isBlank).map (·.dropColumns s.tab m.contentIndent)
  have hblanks : ∀ x ∈ blanks, x.isBlank = true := by
    refine List.forall_mem_map.2 fun x hx => isBlank_dropColumns (List.mem_takeWhile_imp hx) _ _
  have hmore (previous : Line) (fence : Option Fence) : ∃ own : List Line, own.map Line.text = r.more ∧
      s.itemLines m.contentIndent previous fence (ls ++ rest) = own ++ blanks ∧
        dropEndWhile Line.isBlank (own ++ blanks) = own := by
    have htext := s.text_itemLines htab (ItemRow.width_le h.marker) previous fence hls
    rw [← hwidth] at htext
    have hlength := congrArg List.length htext
    have hsame := congrArg List.length hls
    simp only [List.length_map] at hlength hsame
    refine ⟨_, htext, itemLines_append_ends hindent hrest previous fence (hlength.trans hsame.symm), ?_⟩
    rw [dropEndWhile_append_of_pos _ hblanks]
    -- The last line says something, so no more lines are cut off.
    refine dropEndWhile_eq_self fun last hend => h.last last.text ?_
    rw [← htext, List.getLast?_map, Option.mem_def.1 hend]
    rfl
  have hsize {own : List Line} (hown : own.map Line.text = r.more) : own.length = ls.length := by
    have hlength := congrArg List.length hown
    have hsame := congrArg List.length hls
    simp only [List.length_map] at hlength hsame
    omega
  have htrailing (own : List Line) : decide (own.length < (own ++ blanks).length) = rest.head?.any Line.isBlank := by
    cases rest with
    | nil => simp [blanks]
    | cons x rest => cases hx : x.isBlank <;> simp [blanks, hx]
  unfold item
  dsimp only
  cases hbox : taskBox? m.content.text with
  | none =>
    obtain ⟨own, hown, hlines, hkept⟩ := hmore m.content (fenceAfter m.content.text none)
    dsimp only
    rw [hlines, hkept]
    refine ⟨by simp [blanks, hsize hown], htrailing own, ?_, ?_⟩
    · rw [← hcontent, hbox]
    · rw [ItemRow.content, ← hcontent, hbox, List.map_cons, hown]
      rfl
  | some box =>
    obtain ⟨own, hown, hlines, hkept⟩ := hmore (m.content.drop box.2) (fenceAfter (m.content.drop box.2).text none)
    dsimp only
    rw [hlines, hkept]
    refine ⟨by simp [blanks, hsize hown], htrailing own, ?_, ?_⟩
    · rw [← hcontent, hbox]
    · rw [ItemRow.content, ← hcontent, hbox, List.map_cons, hown]
      rfl

/-! ### Rows of items -/

section

variable {ordered : Bool} {symbol : Char}

/-- The first line of an item ends the item above it, with blank lines between them or without. -/
private theorem endsItem_opening {r : ItemRow} (h : r.Stands ordered symbol) {l : Line}
    (hl : l.text = r.opening) (loose : Bool) {blanks : List Line}
    (hblanks : blanks.map Line.text = if loose then [[]] else []) (rest : List Line) :
    s.EndsItem (blanks ++ l :: rest) ∧ (blanks ++ l :: rest).head?.any Line.isBlank = loose ∧
      (blanks ++ l :: rest).takeWhile Line.isBlank = blanks := by
  obtain ⟨c, cs, htext, hc, -⟩ := r.exists_head h hl
  obtain ⟨m, hread, -⟩ := r.read?_opening h hl s.tab
  have hblank := Line.isBlank_of_head htext hc
  have hlazy (previous : Line) (fence : Option Fence) : s.isLazy previous fence l = false :=
    isLazy_of_interrupts (interrupts_marker hread rfl rfl) previous fence
  refine ⟨endsItem_gap hblanks rest hblank (fun _ => hlazy) (Line.indent_of_head htext hc s.tab), ?_,
    takeWhile_gap hblanks rest hblank⟩
  rcases gap_cases hblanks with ⟨rfl, rfl⟩ | ⟨rfl, x, hx, rfl⟩
  · simpa using hblank
  · simpa using hx

private theorem drop_blanks (ls rest : List Line) :
    (ls ++ rest).drop (ls.length + (rest.takeWhile Line.isBlank).length) = rest.dropWhile Line.isBlank := by
  rw [← List.drop_drop, List.drop_left]
  exact (congrArg (List.drop _) List.takeWhile_append_dropWhile.symm).trans (List.drop_left' rfl)

section

variable (htab : 0 < s.tab) {r : ItemRow} (hr : r.Stands ordered symbol) {l : Line} (hl : l.text = r.opening)
  {m : Marker} (hread : Marker.read? s.tab l = some m) {own : List Line}
  (hown : own.map Line.text = r.more.map (indentLine (r.mark.length + 1)))
include htab hr hl hread hown

/-- The last item of a list, with the blank lines after it. -/
private theorem items_last {rest : List Line} (hrest : s.EndsList ordered symbol rest) :
    s.items m (own ++ rest) = ([(s.item m (own ++ rest)).1], own.length + (rest.takeWhile Line.isBlank).length) ∧
      r.Heard (s.item m (own ++ rest)).1 := by
  obtain ⟨-, hordered, hsymbol, hwidth, hcontent⟩ := r.marker_of_read? hr hl hread
  obtain ⟨htaken, -, hheard⟩ := item_of_row htab hr hwidth hcontent hown hrest.toEndsItem
  refine ⟨?_, hheard⟩
  rw [items_eq, htaken, drop_blanks]
  cases hleft : rest.dropWhile Line.isBlank with
  | nil => rfl
  | cons x left =>
    dsimp only
    cases hnext : Marker.read? s.tab x with
    | none => rfl
    | some next =>
      have hother := hrest.marker x (by rw [hleft]; rfl) next hnext
      have hends : next.continues m = false := by
        rw [Marker.continues, hordered, hsymbol]
        simpa using hother
      dsimp only
      rw [hends, if_neg (by decide)]

/-- An item above another one of the list, with blank lines between them or without. -/
private theorem items_next {x : ItemRow} (hx : x.Stands ordered symbol) {y : Line} (hy : y.text = x.opening)
    {next : Marker}
    (hnext : Marker.read? s.tab y = some next) {loose : Bool} {blanks : List Line}
    (hblanks : blanks.map Line.text = if loose then [[]] else []) (ys : List Line) : ∃ item,
      s.items m (own ++ (blanks ++ y :: ys)) =
        (item :: (s.items next ys).1, own.length + blanks.length + 1 + (s.items next ys).2) ∧
      r.Heard item ∧ item.trailingBlank = loose := by
  obtain ⟨-, hordered, hsymbol, hwidth, hcontent⟩ := r.marker_of_read? hr hl hread
  obtain ⟨-, hordered', hsymbol', -⟩ := x.marker_of_read? hx hy hnext
  obtain ⟨hends, hblank, htake⟩ := endsItem_opening (s := s) hx hy loose hblanks ys
  obtain ⟨htaken, htrailing, hheard⟩ := item_of_row htab hr hwidth hcontent hown hends
  have hcontinues : next.continues m = true := by
    rw [Marker.continues, hordered, hsymbol, hordered', hsymbol']
    simp
  have hleft : (own ++ (blanks ++ y :: ys)).drop (own.length + blanks.length) = y :: ys := by
    rw [← List.drop_drop, List.drop_left, List.drop_left]
  rw [htake] at htaken
  refine ⟨_, ?_, hheard, htrailing.trans hblank⟩
  rw [items_eq, htaken, hleft]
  dsimp only
  rw [hnext]
  dsimp only
  rw [if_pos hcontinues]

end

/-- The lines of items are read as these items, up to lines that do not go on with the list. -/
private theorem items_of_rows (htab : 0 < s.tab) (loose : Bool) {r : ItemRow} {rows : List ItemRow}
    (h : ∀ x ∈ r :: rows, x.Stands ordered symbol) {l : Line} {ls rest : List Line}
    (hls : (l :: ls).map Line.text = spacedLines loose ((r :: rows).map ItemRow.lines))
    (hrest : s.EndsList ordered symbol rest) {m : Marker} (hread : Marker.read? s.tab l = some m) :
    (s.items m (ls ++ rest)).2 = ls.length + (rest.takeWhile Line.isBlank).length ∧
      List.Forall₂ ItemRow.Heard (r :: rows) (s.items m (ls ++ rest)).1 ∧
      itemsApart (s.items m (ls ++ rest)).1 = (loose && !rows.isEmpty) := by
  induction rows generalizing r l ls m with
  | nil =>
    obtain ⟨hl, hown⟩ := List.cons.inj hls
    obtain ⟨hitems, hheard⟩ := items_last htab (h r (.head _)) hl hread hown hrest
    rw [hitems]
    exact ⟨rfl, .cons hheard .nil, by cases loose <;> rfl⟩
  | cons x rows ih =>
    obtain ⟨hr, hrows⟩ := List.forall_mem_cons.1 h
    have hx := hrows x (.head _)
    have hsplit : (l :: ls).map Line.text = r.opening :: (r.more.map (indentLine (r.mark.length + 1)) ++
        ((if loose then [[]] else []) ++ spacedLines loose ((x :: rows).map ItemRow.lines))) := by
      rw [hls, ← List.append_assoc, ← List.cons_append, ← List.cons_append]
      rfl
    obtain ⟨hl, hmore⟩ := List.cons.inj hsplit
    obtain ⟨own, others, rfl, hown, hothers⟩ := List.map_eq_append_iff.1 hmore
    obtain ⟨blanks, others, rfl, hblanks, hbelow⟩ := List.map_eq_append_iff.1 hothers
    obtain ⟨lines, hlines⟩ : ∃ lines, spacedLines loose ((x :: rows).map ItemRow.lines) = x.opening :: lines := by
      cases rows <;> exact ⟨_, rfl⟩
    obtain ⟨y, ys, rfl, hy, -⟩ := List.map_eq_cons_iff.1 (hbelow.trans hlines)
    obtain ⟨next, hnext, -⟩ := x.read?_opening hx hy s.tab
    obtain ⟨item, hitems, hheard, htrailing⟩ := items_next htab hr hl hread hown hx hy hnext hblanks (ys ++ rest)
    obtain ⟨htaken, hheardrest, hapart⟩ := ih hrows hbelow hnext
    rw [show own ++ (blanks ++ y :: ys) ++ rest = own ++ (blanks ++ y :: (ys ++ rest)) by simp, hitems]
    refine ⟨?_, .cons hheard hheardrest, ?_⟩
    · rw [htaken]
      simp only [List.length_append, List.length_cons]
      omega
    · obtain ⟨other, others, -, -, hothers⟩ := List.forall₂_cons_left_iff.1 hheardrest
      rw [hothers] at hapart ⊢
      show (item.trailingBlank || itemsApart (other :: others)) = _
      rw [htrailing, hapart]
      cases loose <;> rfl

/-- Lines of items are one list, up to lines that do not go on with it.  It also takes blank lines after it. -/
theorem cuts_list (hs : s.containers = true) (htab : 0 < s.tab) {limit : Value} (loose : Bool) {r : ItemRow}
    {rows : List ItemRow} (h : ∀ x ∈ r :: rows, x.Stands ordered symbol) {ls rest : List Line}
    (hls : ls.map Line.text = spacedLines loose ((r :: rows).map ItemRow.lines))
    (hrest : s.EndsList ordered symbol rest) : s.Cuts limit ls rest (rest.dropWhile Line.isBlank) fun c =>
      ∃ m items, c = .list m items ∧ m.number = r.number ∧ List.Forall₂ ItemRow.Heard (r :: rows) items ∧
        itemsApart items = (loose && !rows.isEmpty) := by
  obtain ⟨lines, hlines⟩ : ∃ lines, spacedLines loose ((r :: rows).map ItemRow.lines) = r.opening :: lines := by
    cases rows <;> exact ⟨_, rfl⟩
  obtain ⟨l, ls, rfl, hl, -⟩ := List.map_eq_cons_iff.1 (hls.trans hlines)
  have hr := h r (.head _)
  obtain ⟨c, cs, hhead, hblank, hhash, htick, htilde, hquote, -⟩ := r.exists_head hr hl
  obtain ⟨m, hread, hnumber, -⟩ := r.read?_opening hr hl s.tab
  obtain ⟨htaken, hheard, hapart⟩ := items_of_rows htab loose h hls hrest hread
  have hchunk : s.chunk limit l (ls ++ rest) = (.list m (s.items m (ls ++ rest)).1, (s.items m (ls ++ rest)).2) := by
    unfold chunk
    dsimp only
    rw [Line.indent_of_head hhead hblank, Line.trimStart_of_head hhead hblank, if_neg (by decide), hhead,
      opening?_eq_none htick htilde]
    dsimp only
    rw [headingDepth?_eq_none hhash]
    dsimp only
    rw [← hhead, hl, hr.rule, if_neg (by decide), ← hl, hhead, hs, if_neg (by simpa using hquote), if_pos rfl, hread]
  refine cuts_of_chunk (Line.isBlank_of_head hhead hblank) hchunk ?_ ⟨m, _, rfl, hnumber, hheard, hapart⟩
  rw [htaken, drop_blanks]

end

end Setting

end MarkdownTree.Scan
