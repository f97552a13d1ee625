import MarkdownTree.Proofs.SoundLeaf

/-!
# Sound quotes and lists

The texts of siblings are put together to the lines of a row of blocks (`ShowsRow`).  Where these stand side by side, so
do a quote (`shows_quoteText`) and an item (`showsItem`) that hold them, and a list of such items (`shows_listText`).
-/

namespace MarkdownTree

open Text Scan Print

namespace Print

/-! ### Rows of texts -/

/-- The texts of siblings are the lines of blocks that stand side by side. -/
structure ShowsRow (o : ScanOptions) (site : Site) (b : Before) (ts : List (Tree Unit)) (xs : List (List Char))
    (row : List Block) : Prop where
  trees : row.map Block.tree = ts
  lines : xs.map (fields '\n') = row.map Block.lines
  stands : ∀ d ∈ row, d.Stands o
  meets : row.IsChain (Block.Meets site.tight)
  joins : ∀ d ∈ row.head?, b.Joins site d

/-- The text of an item is the lines of a row of an item with its marker. -/
structure ShowsItem (o : ScanOptions) (number : Option Nat) (symbol : Char) (t : Tree Unit) (x : List Char)
    (r : ItemRow) : Prop where
  lines : fields '\n' x = r.lines
  numbered : r.number = number
  mark : r.mark = numeral number ++ [symbol]
  stands : r.Stands number.isSome symbol
  reads : ItemReads o t r
  first : r.first = [] → t.marks = 1

variable {o : ScanOptions} {q : PrintOptions} {site : Site} {b : Before}

theorem Shows.ne_nil {t : Tree Unit} {x : List Char} {d : Block} (h : Shows o q site b t x d) : x ≠ [] := by
  obtain ⟨line, rest, hlines, c, hc, -⟩ := h.stands.head
  have hfields := h.lines
  rintro rfl
  rw [hlines] at hfields
  cases hfields
  cases hc

theorem ShowsRow.nil : ShowsRow o site b [] [] [] :=
  ⟨rfl, rfl, by simp, .nil, by simp⟩

/-- A block meets one that joins it, unless both are quotes. -/
theorem Shows.meets {t u : Tree Unit} {x : List Char} {d e : Block} (h : Shows o q site b t x d) (hu : e.tree = u)
    (hjoins : (b.after q t).Joins site e) (hparted : site.tight = true → Tree.Parted t u) : d.Meets site.tight e := by
  obtain rfl := h.tree
  obtain rfl := hu
  refine ⟨fun htight hkind => ?_, fun htight hkind => ?_, fun htight hkind => ?_, ?_⟩
  · refine hjoins.paragraph htight ?_
    rw [Before.after]
    cases hcontent : d.tree.content <;> rw [Tree.kind, hcontent] at hkind <;> cases hkind
  · exact fun hkind' => (hparted htight).2 ⟨hkind, hkind'⟩
  · cases hcontent : d.tree.content with
    | list ordered =>
      refine hjoins.list htight ordered (b.mark q ordered) ?_
      rw [Before.after, hcontent]
    | _ =>
      rw [Tree.kind, hcontent] at hkind
      cases hkind
  · intro ordered start spread start' spread' hd he
    rw [h.mark ordered start spread hd]
    refine (hjoins.marks ordered _ start' spread' ?_ he).symm
    rw [Before.after, hd]

/-- What may stand next to each other may follow. -/
theorem mayFollow_after {t u : Tree Unit} (hstops : Tree.Stops q t u) (hparted : Tree.Parted t u) :
    u.MayFollow q (b.after q t) where
  paragraph hb := by
    have hkind : t.kind = .paragraph := by
      rw [Before.after] at hb
      cases hcontent : t.content <;> rw [hcontent] at hb <;> first | rw [Tree.kind, hcontent]; rfl | cases hb
    obtain ⟨hheading, hmarks⟩ := hstops.2 hkind
    refine ⟨fun hu => hparted.1 ⟨hkind, .inl hu⟩, fun hu => ⟨?_, hheading hu⟩, hmarks⟩
    exact Bool.eq_false_iff.2 fun hbreaks => hparted.1 ⟨hkind, .inr ⟨hu, hbreaks⟩⟩
  list ordered mark hb := by
    refine hstops.1 ?_
    rw [Before.after] at hb
    cases hcontent : t.content <;> rw [hcontent] at hb <;> first | rw [Tree.kind, hcontent]; rfl | cases hb

/-! ### Texts of containers -/

theorem fields_join_row {xs : List (List Char)} {row : List Block} (h : xs.map (fields '\n') = row.map Block.lines)
    (f : Frame) : fields '\n' (join f.separator xs) = rowLines f.tight row := by
  cases xs with
  | nil =>
    obtain rfl : row = [] := by simpa using h.symm
    rfl
  | cons x xs =>
    have hne : row ≠ [] := by
      rintro rfl
      cases h
    have hseparator : f.separator = if !f.tight then ['\n', '\n'] else ['\n'] := by
      rw [Frame.separator]
      cases f.tight <;> rfl
    rw [hseparator, fields_join_rows, h, rowLines, List.isEmpty_eq_false_iff.2 hne, if_neg Bool.false_ne_true]

private theorem fields_quoteText (content : List Char) :
    fields '\n' (quoteText content) = (fields '\n' content).map quoteLine := by
  have hquoted : ∀ line ∈ (fields '\n' content).map quoteLine, '\n' ∉ line := by
    rw [List.forall_mem_map]
    exact fun line hline => notMem_quoteLine (by decide) (by decide) (newline_notMem_fields content line hline)
  rw [quoteText]
  split
  · rename_i hempty
    obtain rfl := List.isEmpty_iff.1 hempty
    rfl
  · exact fields_join (by simpa using fields_ne_nil '\n' content) hquoted

/-- The lines of an item are those of a row with its marker, if what is in it does not start with an empty line. -/
private theorem fields_itemText {mark box content first : List Char} {more : List (List Char)}
    (hmark : ∀ c ∈ mark, isBlank c = false) (hbox : '\n' ∉ box) (hcontent : fields '\n' content = first :: more)
    (hfirst : first = [] → content = [] ∧ box = []) (number : Option Nat) :
    fields '\n' (itemText (mark ++ [' ']) box content) = (ItemRow.mk mark number (box ++ first) more).lines := by
  have hnewline : '\n' ∉ mark := fun hmem => absurd (hmark _ hmem) (by decide)
  by_cases hempty : first = []
  · obtain ⟨rfl, rfl⟩ := hfirst hempty
    cases hcontent
    have htrim : trimEnd (mark ++ [' ']) = mark := by
      rw [trimEnd, dropEndWhile_concat, if_pos (by rfl)]
      exact dropEndWhile_eq_self fun c hc => hmark c (List.mem_of_getLast? hc)
    rw [itemText, if_pos (by rfl), List.append_nil, htrim, fields_of_notMem hnewline]
    rfl
  · have hne : content.isEmpty = false := by
      rw [List.isEmpty_eq_false_iff]
      rintro rfl
      cases hcontent
      exact hempty rfl
    have hparts : ∀ line ∈ first :: more, '\n' ∉ line := hcontent ▸ newline_notMem_fields content
    have hopening : (ItemRow.mk mark number (box ++ first) more).opening = mark ++ ' ' :: (box ++ first) :=
      if_neg (by simp [hempty])
    rw [itemText, if_neg (by simp [hne]), hcontent, ItemRow.lines, hopening]
    dsimp only
    rw [List.length_append, List.length_singleton]
    refine (fields_join (by simp) (List.forall_mem_cons.2 ⟨?_, List.forall_mem_map.2 fun line hline => ?_⟩)).trans ?_
    · simp only [List.mem_append, List.mem_singleton, not_or]
      exact ⟨⟨⟨hnewline, by decide⟩, hbox⟩, hparts first (.head _)⟩
    · exact notMem_indentLine (by decide) _ (hparts line (.tail _ hline))
    · simp [indentLine]

/-! ### Items -/

private theorem isMarker_numeral {number : Option Nat} {symbol : Char} (h : IsListMark number.isSome symbol)
    (hnumber : ∀ n ∈ number, n ≤ 999999999) : IsMarker (numeral number ++ [symbol]) number := by
  cases number with
  | none => exact .bullet h
  | some n => exact isMarker_toDigits (hnumber n rfl) h

/-- The site of what an item holds. -/
def itemSite (number : Option Nat) (symbol : Char) (spread : Bool) : Site :=
  { kind := .listItem, tight := !spread, bullet := if number = none then some symbol else none }

theorem fits_item {number : Option Nat} {symbol : Char} (h : IsMarkerText (numeral number) symbol) (spread : Bool)
    (lead : List Char) : (itemSite number symbol spread).Fits
      { kind := .listItem, tight := !spread, lead, symbol := trim (numeral number ++ [symbol, ' ']) } := by
  refine ⟨rfl, rfl, fun _ => rfl, fun c => ?_⟩
  dsimp only [itemSite]
  rw [trim_marker h.digits h.mark, Bool.eq_iff_iff]
  cases number with
  | none => simp [numeral]
  | some n =>
    obtain ⟨d, ds, hdigits⟩ := List.exists_cons_of_ne_nil (Nat.toDigits_ne_nil : Nat.toDigits 10 n ≠ [])
    simp [numeral, hdigits]

/-- The row of an item: its marker, and the lines of what is in it behind the box. -/
def itemRow (number : Option Nat) (symbol : Char) (checked : Option Bool) (first : List Char)
    (more : List (List Char)) : ItemRow :=
  ⟨numeral number ++ [symbol], number, Holder.box checked ++ first, more⟩

section

variable {number : Option Nat} {symbol : Char} {spread : Bool} {checked : Option Bool} {row : List Block}
  {first : List Char} {more : List (List Char)} (hchecked : checked ≠ none → row ≠ [])
  (hstands : ∀ d ∈ row, d.Stands o) (hrow : rowLines (!spread) row = first :: more)

include hstands hrow

/-- The lines of a row start with nothing if there are no blocks, and with something visible otherwise. -/
private theorem rowLines_cases :
    row = [] ∧ first = [] ∧ more = [] ∨ ∃ c cs, first = c :: cs ∧ isBlank c = false ∧ taskBox? first = none := by
  cases row with
  | nil =>
    cases hrow
    exact .inl ⟨rfl, rfl, rfl⟩
  | cons d row =>
    obtain ⟨line, rest, hd, c, hc, hblank, -⟩ := (hstands d (.head _)).head
    have hfirst : line ∈ d.lines.head? := by rw [hd]; rfl
    have hhead := head?_rowLines hfirst (!spread) row
    rw [hrow] at hhead
    cases hhead
    obtain ⟨cs, rfl⟩ := List.head?_eq_some_iff.1 hc
    exact .inr ⟨c, cs, rfl, hblank, (hstands d (.head _)).box _ hfirst⟩

private theorem not_blank_of_getLast? : ∀ line ∈ more.getLast?, line.all isBlank = false := by
  intro line hline
  have hlast : line ∈ (rowLines (!spread) row).getLast? := by
    rw [hrow, List.getLast?_cons, Option.mem_def.1 hline]
    rfl
  cases row with
  | nil =>
    cases hrow
    cases hline
  | cons d row =>
    have hne : ∀ ls ∈ (d :: row).map Block.lines, ls ≠ [] := List.forall_mem_map.2 (lines_ne_nil hstands)
    obtain ⟨ls, hls, hmem⟩ := exists_getLast?_spacedLines (!!spread) hne hlast
    obtain ⟨e, he, rfl⟩ := List.mem_map.1 hls
    exact (hstands e he).last line hmem

include hchecked

private theorem taskBox?_itemRow : taskBox? (Holder.box checked ++ first) = checked.map (·, 4) := by
  rcases rowLines_cases hstands hrow with ⟨hnil, rfl, -⟩ | ⟨c, cs, rfl, hblank, hbox⟩
  · have hnone : checked = none := by
      by_contra hsome
      exact hchecked hsome hnil
    subst hnone
    rfl
  · exact taskBox?_box checked cs hblank hbox

private theorem stands_itemRow (hsymbol : IsListMark number.isSome symbol) (hnumber : ∀ n ∈ number, n ≤ 999999999)
    (hrule : isRule (itemRow number symbol checked first more).opening = false) :
    (itemRow number symbol checked first more).Stands number.isSome symbol := by
  refine ⟨isMarker_numeral hsymbol hnumber, by simp [itemRow], rfl, ?_, hrule, not_blank_of_getLast? hstands hrow⟩
  show ∀ c ∈ (Holder.box checked ++ first).head?, isBlank c = false
  cases checked with
  | none =>
    rcases rowLines_cases hstands hrow with ⟨-, rfl, -⟩ | ⟨c, cs, rfl, hblank, -⟩
    · rintro _ ⟨⟩
    · rintro _ ⟨⟩
      exact hblank
  | some b =>
    rintro _ ⟨⟩
    decide

private theorem reads_itemRow (hmeets : row.IsChain (Block.Meets !spread))
    (hspread : spread = true → hasLeader (row.map Block.tree) = true) :
    ItemReads o (.node () (.listItem spread checked) (row.map Block.tree))
      (itemRow number symbol checked first more) := by
  have htask := taskBox?_itemRow hchecked hstands hrow
  refine ⟨spread, row.map Block.tree, by simp [itemRow, htask, Function.comp_def], fun room hroom ls hls => ?_⟩
  have hbelow : ∀ d ∈ row, d.tree.nesting ≤ room := fun d hd =>
    Nat.le_trans (Tree.nesting_le_nestingList (List.mem_map_of_mem hd)) hroom
  have hcontent : (itemRow number symbol checked first more).content = rowLines (!spread) row := by
    rw [hrow, ItemRow.content, itemRow, htask]
    cases checked <;> rfl
  obtain ⟨hread, hloose⟩ := readBlocks_row (show (!spread) = true → true = true from fun _ => rfl) hstands hmeets
    hbelow (hls.trans hcontent)
  refine ⟨hread, hloose.trans ?_⟩
  cases spread with
  | false => rfl
  | true => rw [hspread rfl]; rfl

private theorem fields_itemRow (hsymbol : IsListMark number.isSome symbol) (hnumber : ∀ n ∈ number, n ≤ 999999999)
    {content : List Char} (hlines : fields '\n' content = rowLines (!spread) row) :
    fields '\n' (itemText (numeral number ++ [symbol, ' ']) (Holder.box checked) content) =
      (itemRow number symbol checked first more).lines := by
  have hmark : numeral number ++ [symbol, ' '] = numeral number ++ [symbol] ++ [' '] := by simp
  have hbox : '\n' ∉ Holder.box checked := by
    rcases checked with _ | _ | _ <;> decide
  rw [hmark]
  refine fields_itemText (isMarker_numeral hsymbol hnumber).not_blank hbox (hlines.trans hrow) (fun hempty => ?_) number
  rcases rowLines_cases hstands hrow with ⟨hnil, -, hmore⟩ | ⟨c, cs, hcons, -⟩
  · have hnone : checked = none := by
      by_contra hsome
      exact hchecked hsome hnil
    have hcontent := join_fields '\n' content
    rw [hlines, hrow, hempty, hmore] at hcontent
    exact ⟨hcontent.symm, by rw [hnone]; rfl⟩
  · rw [hempty] at hcons
    cases hcons

end

/-- An item that holds a row of blocks is read as one that holds their trees. -/
theorem showsItem {number : Option Nat} {symbol : Char} {spread : Bool} {checked : Option Bool} {ts : List (Tree Unit)}
    {content : List Char} {row : List Block} (hsymbol : IsListMark number.isSome symbol)
    (hnumber : ∀ n ∈ number, n ≤ 999999999) (hchecked : checked ≠ none → ts ≠ [])
    (hspread : spread = true → hasLeader ts = true) (htrees : row.map Block.tree = ts)
    (hlines : fields '\n' content = rowLines (!spread) row) (hstands : ∀ d ∈ row, d.Stands o)
    (hmeets : row.IsChain (Block.Meets !spread))
    (hrule : isRule (firstLine (itemText (numeral number ++ [symbol, ' ']) (Holder.box checked) content)) = false) :
    ∃ r, ShowsItem o number symbol (.node () (.listItem spread checked) ts)
      (itemText (numeral number ++ [symbol, ' ']) (Holder.box checked) content) r := by
  subst htrees
  obtain ⟨first, more, hrow⟩ := List.exists_cons_of_ne_nil (rowLines_ne_nil (lines_ne_nil hstands) (!spread))
  have hblocks (hsome : checked ≠ none) : row ≠ [] := mt (fun hnil => by rw [hnil]; rfl) (hchecked hsome)
  have hfields := fields_itemRow hblocks hstands hrow hsymbol hnumber hlines
  have hopening := head?_fields (itemText (numeral number ++ [symbol, ' ']) (Holder.box checked) content)
  rw [hfields, ItemRow.lines, List.head?_cons, Option.some_inj] at hopening
  refine ⟨_, hfields, rfl, rfl, stands_itemRow hblocks hstands hrow hsymbol hnumber (by rw [hopening, hrule]),
    reads_itemRow hblocks hstands hrow hmeets hspread, fun hempty => ?_⟩
  obtain ⟨hbox, rfl⟩ := List.append_eq_nil_iff.1 hempty
  rcases rowLines_cases hstands hrow with ⟨rfl, -⟩ | ⟨c, cs, hcons, -⟩
  · cases checked with
    | none => rfl
    | some b => cases hbox
  · cases hcons

/-! ### Quotes and lists -/

theorem shows_quoteText {ts : List (Tree Unit)} {xs : List (List Char)} {row : List Block} {f : Frame} {inner : Site}
    (hf : f.tight = false) (hinner : inner.tight = false) {before : Before} (h : ShowsRow o inner before ts xs row) :
    ∃ d, Shows o q site b (.node () .blockQuote ts) (quoteText (join f.separator xs)) d := by
  have hne := rowLines_ne_nil (lines_ne_nil h.stands) false
  have hmeets := h.meets
  rw [hinner] at hmeets
  have hlines : fields '\n' (quoteText (join f.separator xs)) = (rowLines false row).map quoteLine := by
    rw [fields_quoteText, fields_join_row h.lines, hf]
  have hstands := stands_quote ' ' h.stands hmeets
  have hinterrupts := interrupts_quote ' ' hne
  obtain ⟨first, more, hrow⟩ := List.exists_cons_of_ne_nil hne
  obtain ⟨cs, hcs⟩ := quoteLine_eq first
  rw [h.trees, hrow, List.map_cons, hcs] at hstands hinterrupts
  rw [hrow, List.map_cons, hcs] at hlines
  refine ⟨_, rfl, hlines, hstands, by rintro ordered start spread ⟨⟩,
    joins_of_interrupts hinterrupts (by simp [Tree.kind, Tree.content, Content.kind]) ?_ ?_⟩
  · rintro _ ⟨⟩ - -
    rfl
  · rintro _ ⟨⟩ - -
    rfl

/-- The first line of an item is no underline unless it is a lone hyphen. -/
private theorem underlineDepth?_opening {ordered : Bool} {symbol : Char} {r : ItemRow} (h : r.Stands ordered symbol)
    (hlone : ¬(r.mark = ['-'] ∧ r.first = [])) : underlineDepth? r.opening = none := by
  obtain ⟨mark, number, first, more⟩ := r
  obtain ⟨hmarker, -, -, hfirst, -⟩ := h
  dsimp only at hmarker hfirst hlone ⊢
  cases hmarker with
  | @bullet c hc =>
    unfold ItemRow.opening
    dsimp only
    split
    · rename_i hempty
      refine underlineDepth?_eq_none ?_ fun hhyphen => hlone ⟨by rw [hhyphen], hempty⟩
      rcases hc with rfl | rfl | rfl <;> decide
    · rename_i hne
      obtain ⟨d, ds, rfl⟩ := List.exists_cons_of_ne_nil hne
      have hgap := isGap_of_not_isBlank (hfirst d rfl)
      have hspace : (' ' :: d :: ds).dropWhile (· == c) = ' ' :: d :: ds :=
        List.dropWhile_cons_of_neg (by rcases hc with rfl | rfl | rfl <;> decide)
      simp [underlineDepth?, hspace, hgap]
  | @ordered ds d hne _ hdigits _ =>
    obtain ⟨c, cs, rfl⟩ := List.exists_cons_of_ne_nil hne
    have hc := hdigits c (.head _)
    have hhead : ∃ rest, ItemRow.opening ⟨c :: cs ++ [d], some (natOfDigits (c :: cs)), first, more⟩ = c :: rest := by
      unfold ItemRow.opening
      split <;> exact ⟨_, rfl⟩
    obtain ⟨rest, hrest⟩ := hhead
    rw [hrest]
    refine underlineDepth?_eq_none ?_ ?_ <;> (rintro rfl; exact absurd hc (by decide))

/-- The items of a list are the lines of rows with its mark. -/
structure ShowsItems (o : ScanOptions) (number : Option Nat) (symbol : Char) (ts : List (Tree Unit))
    (xs : List (List Char)) (rows : List ItemRow) : Prop where
  lines : xs.map (fields '\n') = rows.map ItemRow.lines
  stands : ∀ r ∈ rows, r.Stands number.isSome symbol
  reads : List.Forall₂ (ItemReads o) ts rows
  first : ∀ r ∈ rows.head?, r.number = number ∧ r.mark = numeral number ++ [symbol] ∧
    (r.first = [] → ∀ t ∈ ts.head?, t.marks = 1)

/-- The flag of a scanned list tells whether its items are printed apart, or blocks in one of them. -/
private theorem spread_eq {ordered : Bool} {start : Option Int} {spread : Bool} {t : Tree Unit} {ts : List (Tree Unit)}
    (h : (Tree.node () (.list ordered start spread) (t :: ts)).Scannable) :
    (spread && !ts.isEmpty || (t :: ts).any isSpread) = spread := by
  obtain ⟨hapart, hinside⟩ := h
  cases spread with
  | false =>
    rw [Bool.false_and, Bool.false_or]
    exact Bool.eq_false_iff.2 fun hany => by cases hinside hany
  | true =>
    rw [Bool.true_and, Bool.or_eq_true]
    refine (hapart rfl).imp_left fun htwo => ?_
    have htwo : 2 ≤ (t :: ts).length := htwo
    cases ts with
    | nil => simp at htwo
    | cons => rfl

section

variable {start : Option Int} {t : Tree Unit} {ts : List (Tree Unit)} {xs : List (List Char)} {r : ItemRow}
  {rows : List ItemRow}
  (h : ShowsItems o (start.map Int.toNat) (b.mark q start.isSome) (t :: ts) xs (r :: rows)) (spread : Bool)
include h

/-- A list that may follow a paragraph does not underline it. -/
private theorem ShowsItems.underlineDepth?
    (hfollows : Tree.MayFollow q .paragraph (.node () (.list start.isSome start spread) (t :: ts)))
    (hb : b = .paragraph) : underlineDepth? r.opening = none := by
  obtain ⟨-, hmark, hfirst⟩ := h.first r rfl
  refine underlineDepth?_opening (h.stands r (.head _)) ?_
  rintro ⟨hlone, hempty⟩
  rw [hmark] at hlone
  cases start with
  | none =>
    have hhyphen : q.bullet.char = '-' := by
      subst hb
      exact List.singleton_inj.1 hlone
    refine (hfollows.paragraph rfl).2.2 ⟨?_, hfirst hempty t rfl⟩
    cases hbullet : q.bullet <;> rw [hbullet] at hhyphen <;> first | rfl | cases hhyphen
  | some n =>
    have hlength := congrArg List.length hlone
    have hdigits : 0 < (numeral ((some n).map Int.toNat)).length := Nat.length_toDigits_pos
    rw [List.length_append, List.length_singleton, List.length_singleton] at hlength
    omega

/-- A list has another mark than one of its type before it, and interrupts a paragraph. -/
private theorem ShowsItems.joins
    (hfollows : site.tight = true → Tree.MayFollow q b (.node () (.list start.isSome start spread) (t :: ts))) :
    b.Joins site ⟨.node () (.list start.isSome start spread) (t :: ts), b.mark q start.isSome,
      spacedLines spread ((r :: rows).map ItemRow.lines)⟩ := by
  have hinterrupts := interrupts_list spread h.stands (.node () (.list start.isSome start spread) (t :: ts))
    (Nat.succ_ne_zero _)
  obtain ⟨more, hopening⟩ := spacedLines_items spread h.stands
  refine ⟨fun htight hb => ⟨hinterrupts, ?_⟩, fun _ _ _ _ => hinterrupts, ?_, fun _ _ => ?_⟩
  · dsimp only
    rw [hopening]
    rintro _ ⟨⟩
    exact h.underlineDepth? spread (hb ▸ hfollows htight) hb
  · rintro ordered mark start' spread' rfl hcontent
    obtain ⟨rfl, -, -⟩ := Content.list.inj hcontent
    show Before.mark q (.list start.isSome mark) start.isSome ≠ mark
    rw [Before.mark]
    split
    · rename_i hsame
      obtain ⟨-, rfl⟩ := Before.list.inj hsame
      exact otherMark_ne q start.isSome
    · rename_i hother
      rintro rfl
      exact hother rfl
  · dsimp only
    rw [hopening]
    rintro _ ⟨⟩
    exact opensFrontMatter_eq_false (h.stands r (.head _)).rule

end

theorem shows_listText {start : Option Int} {spread : Bool} {t : Tree Unit} {ts : List (Tree Unit)}
    {xs : List (List Char)} {rows : List ItemRow}
    (harranged : (Tree.node () (.list start.isSome start spread) (t :: ts)).Arranged)
    (h : ShowsItems o (start.map Int.toNat) (b.mark q start.isSome) (t :: ts) xs rows)
    (hfollows : site.tight = true → Tree.MayFollow q b (.node () (.list start.isSome start spread) (t :: ts))) :
    ∃ d, Shows o q site b (.node () (.list start.isSome start spread) (t :: ts))
      (join (if spread then ['\n', '\n'] else ['\n']) xs) d := by
  obtain ⟨r, rows, -, hreads, rfl⟩ := List.forall₂_cons_left_iff.1 h.reads
  obtain ⟨x, xs, rfl⟩ : ∃ x xs', xs = x :: xs' := by
    cases xs with
    | nil => cases h.lines
    | cons x xs => exact ⟨x, xs, rfl⟩
  have hlines : fields '\n' (join (if spread then ['\n', '\n'] else ['\n']) (x :: xs)) =
      spacedLines spread ((r :: rows).map ItemRow.lines) := by rw [fields_join_rows, h.lines]
  have hstart : r.number.map (fun n => (n : Int)) = start := by
    rw [(h.first r rfl).1]
    cases start with
    | none => rfl
    | some n =>
      have hn : 0 ≤ n := (harranged.legible.start _ _ _ rfl).2 n rfl
      simp [Int.toNat_of_nonneg hn]
  have hspread : (spread && !rows.isEmpty || (t :: ts).any isSpread) = spread := by
    have hempty : rows.isEmpty = ts.isEmpty := by cases hreads <;> rfl
    rw [hempty]
    exact spread_eq harranged.scannable
  have hstands := stands_list spread h.stands h.reads
  rw [Option.isSome_map, hstart, hspread] at hstands
  refine ⟨_, rfl, hlines, hstands, ?_, h.joins spread hfollows⟩
  rintro ordered start' spread' hcontent
  obtain ⟨rfl, -, -⟩ := Content.list.inj hcontent
  rfl

end Print

end MarkdownTree
