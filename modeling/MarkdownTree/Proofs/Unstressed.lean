import MarkdownTree.Proofs.Arranged

/-!
# Content without emphasis

Inline content without emphasis comes back whatever stands in it, but for what can be told from its nodes one by one
(`Tree.Unstressed`): no link may hold a link, destinations have to be readable, titles and texts of images have to stand
on one line, and a heading may not end with a blank.  What is written for such a row is read as pieces that make the row,
wherever it stands (`takes_of_writes`).  So the printer's check of it passes (`survives_of_unstressed`), and the
paragraphs and headings of a document that hold such content are sound, whatever the settings of the scanner and the
printer are (`scan_sound_of_unstressed`).
-/

namespace MarkdownTree

open Text Scan Print

namespace Content

/-- Whether a text ends visibly, and everything else but a break. -/
def closesVisibly : Content → Bool
  | .text value => value.toList.getLast?.all fun c => !isBlank c
  | .lineBreak => false
  | _ => true

theorem closesVisibly_iff (c : Content) : c.closesVisibly = true ↔ c.ClosesVisibly := by
  cases c with
  | text value => simp [closesVisibly, ClosesVisibly, Option.all_eq_true]
  | _ => simp [closesVisibly, ClosesVisibly]

instance : DecidablePred ClosesVisibly := fun c =>
  decidable_of_iff _ c.closesVisibly_iff

/-- Where a link or an image leads. -/
def destination? : Content → Option String
  | .link destination _ => some destination
  | .image destination _ _ => some destination
  | _ => none

end Content

namespace Tree

/-- A paragraph, a heading or a node of one that is no emphasis and comes back by itself. -/
structure Unstressed (t : Tree Unit) : Prop where
  calm : t.kind ≠ .emphasis ∧ t.kind ≠ .strong
  readable : ∀ destination ∈ t.content.destination?, IsReadable destination.toList
  oneLine : ¬t.content.HoldsNewline
  links : t.kind = .link → ∀ u ∈ t.descendants, u.kind ≠ .link
  closes : t.kind = .heading → ∀ c ∈ t.children.getLast?, c.content.ClosesVisibly

instance : DecidablePred Unstressed := fun t =>
  have : Decidable (∀ destination ∈ t.content.destination?, IsReadable destination.toList) :=
    Option.decidableForallMem _
  have : Decidable (∀ u ∈ t.descendants, u.kind ≠ .link) := List.decidableBAll _ _
  have : Decidable (∀ c ∈ t.children.getLast?, c.content.ClosesVisibly) := Option.decidableForallMem _
  decidable_of_iff ((t.kind ≠ .emphasis ∧ t.kind ≠ .strong) ∧
    (∀ destination ∈ t.content.destination?, IsReadable destination.toList) ∧ ¬t.content.HoldsNewline ∧
      (t.kind = .link → ∀ u ∈ t.descendants, u.kind ≠ .link) ∧
        (t.kind = .heading → ∀ c ∈ t.children.getLast?, c.content.ClosesVisibly)) (by
    constructor
    · rintro ⟨hcalm, hreadable, hline, hlinks, hcloses⟩
      exact ⟨hcalm, hreadable, hline, hlinks, hcloses⟩
    · rintro ⟨hcalm, hreadable, hline, hlinks, hcloses⟩
      exact ⟨hcalm, hreadable, hline, hlinks, hcloses⟩)

/-- A row of such nodes as it is read, without breaks if it stands behind heading marks. -/
structure UnstressedRow (atx : Bool) (ts : List (Tree Unit)) : Prop where
  phrase : IsPhrase ts
  next : (ts.map content).IsChain Content.Follows
  neat : ∀ u ∈ preorderList ts, u.Neat
  nodes : ∀ u ∈ preorderList ts, u.Unstressed
  breaks : atx = true → ts.any breaksLine = false

namespace UnstressedRow

variable {atx : Bool} {note : Unit} {content : Content} {children ts : List (Tree Unit)}

section

variable (h : UnstressedRow atx (.node note content children :: ts))
include h

theorem node : (Tree.node note content children).Unstressed :=
  (forall_mem_preorderList_cons.1 h.nodes).1

private theorem first_breaks (hatx : atx = true) : (Tree.node note content children).breaksLine = false := by
  have hbreaks := h.breaks hatx
  rw [List.any_cons, Bool.or_eq_false_iff] at hbreaks
  exact hbreaks.1

private theorem node_neat : (Tree.node note content children).Neat :=
  (forall_mem_preorderList_cons.1 h.neat).1

private theorem tail : UnstressedRow atx ts := by
  refine ⟨h.phrase.tail, ?_, (forall_mem_preorderList_cons.1 h.neat).2.2, (forall_mem_preorderList_cons.1 h.nodes).2.2,
    fun hatx => ?_⟩
  · have hnext := h.next
    rw [List.map_cons] at hnext
    exact hnext.tail
  have hbreaks := h.breaks hatx
  rw [List.any_cons, Bool.or_eq_false_iff] at hbreaks
  exact hbreaks.2

private theorem width?_ne {width : Nat} : content.width? ≠ some width := by
  intro hwidth
  obtain ⟨hemphasis, hstrong⟩ := h.node.calm
  rcases Content.kind_of_width hwidth with hkind | hkind
  · exact hemphasis hkind
  · exact hstrong hkind

private theorem children_eq_nil (hleaf : content.kind.isParent = false) : children = [] :=
  List.map_eq_nil_iff.1 (h.phrase.node_admits.eq_nil hleaf)

end

/-- The content of a link goes on the row. -/
private theorem inner {destination : String} {title : Option String}
    (h : UnstressedRow atx (.node note (.link destination title) children :: ts)) : UnstressedRow atx children := by
  refine ⟨h.phrase.inner, h.node_neat.tidy, (forall_mem_preorderList_cons.1 h.neat).2.1,
    (forall_mem_preorderList_cons.1 h.nodes).2.1, fun hatx => ?_⟩
  have hbreaks := h.first_breaks hatx
  rw [breaksLine_node, Bool.or_eq_false_iff] at hbreaks
  exact hbreaks.2

private theorem newline_notMem {value : String} (h : UnstressedRow atx (.node note (.text value) children :: ts))
    (hatx : atx = true) : '\n' ∉ value.toList := by
  have hbreaks := h.first_breaks hatx
  rw [breaksLine_node, Bool.or_eq_false_iff] at hbreaks
  simpa using hbreaks.1

private theorem atx_of_lineBreak (h : UnstressedRow atx (.node note .lineBreak children :: ts)) : atx = false := by
  cases atx with
  | true => exact absurd (h.first_breaks rfl) (by simp [breaksLine_node])
  | false => rfl

end UnstressedRow

end Tree

namespace Scan

/-! ### Pieces and trees -/

/-- Finished pieces that make a row of trees. -/
inductive Makes : List Piece → List (Tree Unit) → Prop
  | nil : Makes [] []
  | text {value : String} {words ps : List Piece} {ts : List (Tree Unit)} (hne : value ≠ "")
    (hwords : Says words value.toList) (hnext : ∀ t ∈ ts.head?, t.kind ≠ .text) (hrest : Makes ps ts) :
    Makes (words ++ ps) (.node () (.text value) [] :: ts)
  | node {start stop : Nat} {content : Content} {inner ps : List Piece} {children ts : List (Tree Unit)}
    (hinner : Makes inner children) (hrest : Makes ps ts) :
    Makes (.node start stop content inner :: ps) (.node () content children :: ts)

namespace Makes

variable {ps : List Piece} {ts : List (Tree Unit)}

private theorem finished (h : Makes ps ts) : ∀ p ∈ ps, p.IsFinished := by
  induction h with
  | nil => exact List.forall_mem_nil _
  | text _ hwords _ _ ih => exact List.forall_mem_append.2 ⟨hwords.finished, ih⟩
  | node _ _ _ ih => exact List.forall_mem_cons.2 ⟨trivial, ih⟩

/-- Words before pieces that do not start with a text stay by themselves. -/
private theorem merge_eq (h : Makes ps ts) (hnext : ∀ t ∈ ts.head?, t.kind ≠ .text) (words : List (Span × List Char)) :
    Piece.merge words (Piece.parts ps) = Piece.textNode words ++ Piece.merge [] (Piece.parts ps) := by
  cases h with
  | nil => exact (List.append_nil _).symm
  | text => exact absurd rfl (hnext _ rfl)
  | node => rfl

private theorem erase_trees (h : Makes ps ts) : (Piece.trees ps).map Tree.erase = ts := by
  unfold Piece.trees
  induction h with
  | nil => rfl
  | @text value words ps ts hne hwords hnext hrest ih =>
    obtain ⟨pending, hmerge, hvalue⟩ := hwords.merge [] ps
    have hchars : value.toList ≠ [] := mt String.toList_eq_nil_iff.1 hne
    rw [← hvalue] at hchars
    rw [hmerge, List.append_nil, hrest.merge_eq hnext, List.map_append, ih, erase_textNode hchars, hvalue,
      String.ofList_toList]
    rfl
  | @node start stop content inner ps children ts _ _ ihinner ih =>
    rw [Piece.parts, Piece.part, Piece.merge, List.map_append, List.map_cons, ih, Tree.erase_node, ihinner]
    rfl

end Makes

private theorem Says.concat {ps : List Piece} {value : List Char} (h : Says ps value) (start stop : Nat)
    (word : List Char) :
    Says (ps ++ [.text start stop word]) (value ++ word) := by
  induction h with
  | nil => simpa using Says.nil.cons start stop word
  | cons start' stop' word' _ ih =>
    rw [List.append_assoc]
    exact ih.cons start' stop' word'

private theorem Says.plainList {ps : List Piece} {value : List Char} (h : Says ps value) :
    Piece.plainList ps = value := by
  induction h with
  | nil => rfl
  | cons _ _ _ _ ih => rw [Piece.plainList, Piece.plain, ih]

/-! ### Reading one node -/

private theorem findBracket?_of_finished {ps : List Piece} (h : ∀ p ∈ ps, p.IsFinished) (start stop : Nat)
    (image : Bool)
    (before : List Piece) : findBracket? (ps ++ .opener start stop image true :: before) =
      some (ps, (start, stop, image, true), before) := by
  induction ps with
  | nil => rfl
  | cons p ps ih =>
    obtain ⟨hp, hps⟩ := List.forall_mem_cons.1 h
    rw [List.cons_append, findBracket?, ih hps]
    · rfl
    · rintro _ _ _ _ rfl
      exact hp

private theorem deactivate_of_finished {p : Piece} (h : p.IsFinished) : deactivate p = p := by
  cases p with
  | opener => exact h.elim
  | _ => rfl

section

variable {fresh atx beforeLink : Bool} {value : String} {x : List Char}
  (h : textText fresh atx beforeLink (.text value) = .ok x) (hspace : ¬[' ', '\n'] <:+: value.toList)
  (hatx : atx = true → '\n' ∉ value.toList)
include h hspace hatx

/-- A text is written as it is escaped, but for a mark at its end before a link. -/
private theorem written_textText :
    (Written false x value.toList ∧ (beforeLink = true → x.getLast? ≠ some '!')) ∨
      ∃ init cs, Written false cs init ∧ value.toList = init ++ ['!'] ∧ x = cs ++ ['\\', '!'] := by
  have hvalue : (if atx then flatten value.toList else value.toList) = value.toList := by
    split
    · exact flatten_eq (hatx ‹_›)
    · rfl
  rcases textText_cases h hvalue with ⟨rfl, hbang⟩ | ⟨init, hinit, rfl⟩
  · rw [getLast?_escape]
    exact .inl ⟨(written_escape fresh atx hspace).weaken, hbang⟩
  · refine .inr ⟨init, _, (written_escape fresh atx fun hwithin => hspace ?_).weaken, hinit, rfl⟩
    rw [hinit]
    exact hwithin.trans (List.prefix_append init ['!']).isInfix

private theorem getLast?_of_textText : x.getLast? = value.toList.getLast? := by
  rcases written_textText h hspace hatx with ⟨hwritten, -⟩ | ⟨init, cs, -, hinit, rfl⟩
  · exact hwritten.getLast?_eq
  · rw [hinit]
    simp

private theorem ne_nil_of_textText (hne : value ≠ "") : x ≠ [] := by
  rintro rfl
  exact hne (String.toList_eq_nil_iff.1 (List.getLast?_eq_none_iff.1 (getLast?_of_textText h hspace hatx).symm))

private theorem opensVisibly_textText (hfirst : ∀ c ∈ value.toList.head?, isBlank c = false) :
    ∀ c ∈ x.head?, isBlank c = false := by
  have hslash : isBlank '\\' = false := by decide
  rcases written_textText h hspace hatx with ⟨hwritten, -⟩ | ⟨init, cs, hwritten, hinit, rfl⟩
  · intro c hc
    rcases hwritten.head?_cases c hc with rfl | hc
    · exact hslash
    · exact hfirst c hc
  · intro c hc
    cases cs with
    | nil =>
      obtain rfl := Option.some.inj hc
      exact hslash
    | cons d cs =>
      obtain rfl := Option.some.inj hc
      rcases hwritten.head?_cases d rfl with rfl | hd
      · exact hslash
      · refine hfirst d ?_
        rw [hinit, List.head?_append, Option.mem_def.1 hd]
        rfl

private theorem head?_textText_ne (hne : value ≠ "") (rest : List Char) : (x ++ rest).head? ≠ some '\x60' := by
  rcases written_textText h hspace hatx with ⟨hwritten, -⟩ | ⟨init, cs, hwritten, -, rfl⟩
  · rw [List.head?_append_of_ne_nil _ (ne_nil_of_textText h hspace hatx hne)]
    exact hwritten.head?_ne rfl (by decide)
  · cases hcs : cs with
    | nil => simp
    | cons c cs' =>
      rw [hcs] at hwritten
      exact hwritten.head?_ne rfl (by decide)

/-- A text is read as pieces that say it, unless what comes behind it would go on it. -/
private theorem readFrom_textText {rest : List Char} (hrest : EndsText rest)
    (hlink : beforeLink = false → rest.head? ≠ some '[')
    (r : Reading) (index : Nat) (before : Char) :
    ∃ ps index' before', Says ps value.toList ∧
      readFrom r index before (x ++ rest) = readFrom ⟨ps.reverse ++ r.pieces, r.notes⟩ index' before' rest := by
  rcases written_textText h hspace hatx with ⟨hwritten, hbang⟩ | ⟨init, cs, hwritten, hinit, rfl⟩
  · refine readFrom_written hrest hwritten (fun hlast => hlink ?_) r index before
    exact Bool.eq_false_iff.2 fun hbefore => hbang hbefore hlast
  · -- The mark at the end is escaped, and read by itself.
    have hends : EndsText ('\\' :: '!' :: rest) := by simp [EndsText, isPlain]
    obtain ⟨ps, index', before', hps, hread⟩ := readFrom_written hends hwritten (by simp) r index before
    refine ⟨ps ++ [.text index' (index' + 2) ['!']], index' + 1 + 1, '!', ?_, ?_⟩
    · rw [hinit]
      exact hps.concat _ _ _
    · rw [List.append_assoc, List.cons_append, List.singleton_append, hread, readFrom, List.reverse_append]
      rfl

end

variable {rest : List Char} (r : Reading) (index : Nat) (before : Char)

/-- Code is read as one piece, unless a backtick comes behind it. -/
private theorem readFrom_codeSpanText {value : String} (hne : value ≠ "") (hfeed : '\n' ∉ value.toList)
    (hrest : rest.head? ≠ some '\x60') :
    ∃ start stop index' before', readFrom r index before (codeSpanText value.toList ++ rest) =
      readFrom (r.push (.node start stop (.inlineCode value) [])) index' before' rest := by
  obtain ⟨cs, hspan, hread⟩ := readCode_codeSpanText (mt String.toList_eq_nil_iff.1 hne) hfeed hrest r index
  have hstep : readStep r index before '\x60' (cs ++ rest) = readCode r index (cs ++ rest) := rfl
  rw [hspan, List.cons_append, readFrom, hstep, hread, String.ofList_toList]
  dsimp only
  rw [List.drop_left]
  exact ⟨_, _, _, _, rfl⟩

/-- A line break is read as one piece. -/
private theorem readFrom_lineBreak :
    ∃ start stop index' before', readFrom r index before ('\\' :: '\n' :: rest) =
      readFrom (r.push (.node start stop .lineBreak [])) index' before' rest := by
  rw [readFrom]
  exact ⟨_, _, _, _, rfl⟩

/-- Behind a bracket that has been opened, a closing bracket and a tail make a link or an image of the pieces between. -/
private theorem readFrom_tailText {ps before' : List Piece} (hps : ∀ p ∈ ps, p.IsFinished) {image : Bool}
    {start stop : Nat}
    (hr : r.pieces = ps.reverse ++ .opener start stop image true :: before') {destination : String}
    (hreadable : IsReadable destination.toList) (title : Option String) :
    ∃ stop' index' last,
      readFrom r index before (']' :: (tailText destination.toList (title.map String.toList) ++ rest)) =
        readFrom (if image then
            ⟨.node start stop' (.image destination (.ofList (Piece.plainList ps)) title) [] :: before', r.notes⟩
          else ⟨.node start stop' (.link destination title) ps :: before'.map deactivate, r.notes⟩) index' last rest := by
  have hstep : readStep r index before ']' (tailText destination.toList (title.map String.toList) ++ rest) =
      readClose r index (tailText destination.toList (title.map String.toList) ++ rest) := rfl
  have hfound := findBracket?_of_finished (fun p hp => hps p (List.mem_reverse.1 hp)) start stop image before'
  have htail := LinkTail.read?_of_isReadable (title.map String.toList) rest hreadable
  have htitle : (title.map String.toList).map String.ofList = title := by simp [Function.comp_def]
  rw [readFrom, hstep]
  unfold readClose
  rw [hr, hfound]
  dsimp only
  rw [if_pos rfl, htail]
  dsimp only
  rw [List.reverse_reverse, resolve_of_finished hps, htitle, String.ofList_toList]
  cases image <;> exact ⟨_, _, _, congrArg _ List.drop_left⟩

/-- An image is read as one piece, whatever comes behind it. -/
private theorem readFrom_image {destination alt : String} (hreadable : IsReadable destination.toList)
    (halt : '\n' ∉ alt.toList)
    (title : Option String) :
    ∃ start stop index' before',
      readFrom r index before ('!' :: '[' :: (escape false false alt.toList ++
          ']' :: tailText destination.toList (title.map String.toList)) ++ rest) =
        readFrom (r.push (.node start stop (.image destination alt title) [])) index' before' rest := by
  have hsplit : '!' :: '[' :: (escape false false alt.toList ++
      ']' :: tailText destination.toList (title.map String.toList)) ++ rest =
        '!' :: '[' :: (escape false false alt.toList ++
          ']' :: (tailText destination.toList (title.map String.toList) ++ rest)) := by simp
  -- The text is read behind the brackets, as pieces that say it.
  let opened := r.push (.opener index (index + 2) true true)
  have hwritten := (written_escape false false fun hwithin => halt (hwithin.subset (by simp))).weaken
  have hends : EndsText (']' :: (tailText destination.toList (title.map String.toList) ++ rest)) := by
    rintro c ⟨⟩
    decide
  obtain ⟨words, index', before', hwords, hread⟩ :=
    readFrom_written hends hwritten (fun _ => by simp) opened (index + 2) '['
  obtain ⟨stop, index'', before'', htail⟩ := readFrom_tailText ⟨words.reverse ++ opened.pieces, r.notes⟩ index' before'
    hwords.finished rfl hreadable title
  rw [hwords.plainList, String.ofList_toList] at htail
  refine ⟨index, stop, index'', before'', ?_⟩
  rw [hsplit, readFrom]
  exact hread.trans htail

/-! ### Reading a row -/

/-- No bracket is open, or no link comes. -/
def Reading.Clear (r : Reading) (ts : List (Tree Unit)) : Prop :=
  (∀ u ∈ Tree.preorderList ts, u.kind ≠ .link) ∨ ∀ p ∈ r.pieces, p.IsFinished

theorem Reading.Clear.append {r : Reading} {t : Tree Unit} {ts : List (Tree Unit)} (h : r.Clear (t :: ts))
    {ps : List Piece} (hps : ∀ p ∈ ps, p.IsFinished) : Clear ⟨ps ++ r.pieces, r.notes⟩ ts :=
  h.imp (fun hlinks u hu => hlinks u (List.mem_append_right _ hu)) fun hpieces => List.forall_mem_append.2 ⟨hps, hpieces⟩

private theorem Reading.Clear.tail {r : Reading} {t : Tree Unit} {ts : List (Tree Unit)} (h : r.Clear (t :: ts))
    {p : Piece}
    (hp : p.IsFinished) : (r.push p).Clear ts :=
  h.append (List.forall_mem_singleton.2 hp)

/-- A text is read as pieces that make a row, and what comes behind it is read from there on. -/
def Reading.Takes (r : Reading) (ts : List (Tree Unit)) (x rest : List Char) : Prop :=
  ∀ index before, ∃ ps index' before', Makes ps ts ∧
    readFrom r index before (x ++ rest) = readFrom ⟨ps.reverse ++ r.pieces, r.notes⟩ index' before' rest

namespace Reading.Takes

variable {r : Reading} {ts : List (Tree Unit)} {x y rest : List Char}

private theorem nil : r.Takes [] [] rest :=
  fun index before => ⟨[], index, before, .nil, rfl⟩

theorem text {value : String} (hne : value ≠ "") (hnext : ∀ t ∈ ts.head?, t.kind ≠ .text)
    (hvalue : ∀ index before, ∃ words index' before', Says words value.toList ∧
      readFrom r index before (x ++ (y ++ rest)) =
        readFrom ⟨words.reverse ++ r.pieces, r.notes⟩ index' before' (y ++ rest))
    (hrest : ∀ words, Says words value.toList → Takes ⟨words.reverse ++ r.pieces, r.notes⟩ ts y rest) :
    r.Takes (.node () (.text value) [] :: ts) (x ++ y) rest := by
  intro index before
  obtain ⟨words, index', before', hwords, hread⟩ := hvalue index before
  obtain ⟨ps, index'', before'', hps, hrow⟩ := hrest words hwords index' before'
  refine ⟨words ++ ps, index'', before'', .text hne hwords hnext hps, ?_⟩
  rw [List.append_assoc, hread, hrow, List.reverse_append, List.append_assoc]

theorem node {content : Content} {children : List (Tree Unit)}
    (hnode : ∀ index before, ∃ start stop inner index' before', Makes inner children ∧
      readFrom r index before (x ++ (y ++ rest)) =
        readFrom (r.push (.node start stop content inner)) index' before' (y ++ rest))
    (hrest : ∀ start stop inner, (r.push (.node start stop content inner)).Takes ts y rest) :
    r.Takes (.node () content children :: ts) (x ++ y) rest := by
  intro index before
  obtain ⟨start, stop, inner, index', before', hinner, hread⟩ := hnode index before
  obtain ⟨ps, index'', before'', hps, hrow⟩ := hrest start stop inner index' before'
  refine ⟨.node start stop content inner :: ps, index'', before'', .node hinner hps, ?_⟩
  rw [List.append_assoc, hread, hrow, List.reverse_cons, List.append_assoc]
  rfl

end Reading.Takes

/-- A link is read as one piece with the pieces of its content, if that is read and no bracket is open around it. -/
private theorem readFrom_link {r : Reading} (index : Nat) (before : Char) (hpieces : ∀ p ∈ r.pieces, p.IsFinished)
    {destination : String} (hreadable : IsReadable destination.toList) (title : Option String)
    {children : List (Tree Unit)} {x rest : List Char}
    (hinner : ∀ start, (r.push (.opener start (start + 1) false true)).Takes children x
      (']' :: (tailText destination.toList (title.map String.toList) ++ rest))) :
    ∃ start stop inner index' before', Makes inner children ∧
      readFrom r index before ('[' :: (x ++ ']' :: (tailText destination.toList (title.map String.toList) ++ rest))) =
        readFrom (r.push (.node start stop (.link destination title) inner)) index' before' rest := by
  have hkept : r.pieces.map deactivate = r.pieces :=
    (List.map_congr_left fun p hp => deactivate_of_finished (hpieces p hp)).trans (List.map_id _)
  -- The bracket in front of the content is the last one that is open at its end.
  let opened := r.push (.opener index (index + 1) false true)
  obtain ⟨inner, index', before', hmakes, hread⟩ := hinner index (index + 1) '['
  obtain ⟨stop, index'', before'', htail⟩ := readFrom_tailText ⟨inner.reverse ++ opened.pieces, r.notes⟩ index' before'
    hmakes.finished rfl hreadable title
  rw [hkept] at htail
  refine ⟨index, stop, inner, index'', before'', hmakes, ?_⟩
  rw [readFrom]
  exact hread.trans htail

end Scan

namespace Print

private theorem eq_tailText {destination : String} {title : Option String} {tail : List Char}
    (h : linkTail (.text destination) (.ofText? title) = .ok tail) :
    tail = tailText destination.toList (title.map String.toList) := by
  cases title <;> exact (Except.ok.inj h).symm

private theorem eq_imageText {alt destination : String} {title : Option String} {x : List Char}
    (h : imageText (.text alt) (.text destination) (.ofText? title) = .ok x) :
    x = '!' :: '[' :: (escape false false alt.toList ++ ']' :: tailText destination.toList (title.map String.toList)) := by
  cases title <;> exact (Except.ok.inj h).symm

section

variable {atx fresh : Bool} {ts : List (Tree Unit)} {x : List Char} (h : Writes atx fresh ts x)
  (hts : Tree.UnstressedRow atx ts)
include h hts

/-- What comes behind a text starts with something that ends it, and with brackets or backticks only if a link or code
does. -/
private theorem Writes.head?_append {rest : List Char} (hrest : ∀ c ∈ rest.head?, c = ']') :
    ((∀ t ∈ ts.head?, t.kind ≠ .text) →
      EndsText (x ++ rest) ∧ ((x ++ rest).head? = some '[' → ts.head?.map Tree.kind = some .link)) ∧
      ((x ++ rest).head? = some '\x60' → ts.head?.map Tree.kind = some .inlineCode) := by
  -- Other nodes than texts start with marks of their own.
  have hmark {c : Char} (cs : List Char) (hc : isPlain c = false ∧ c ≠ ' ' ∧ c ≠ '\n') : EndsText (c :: cs) := by
    rintro d ⟨⟩
    exact hc
  cases h with
  | nil =>
    refine ⟨fun _ => ⟨fun c hc => ?_, fun hhead => ?_⟩, fun hhead => ?_⟩
    · rw [hrest c hc]
      decide
    · exact absurd (hrest _ hhead) (by decide)
    · exact absurd (hrest _ hhead) (by decide)
  | text htext =>
    refine ⟨fun hnext => absurd rfl (hnext _ rfl), fun hhead => absurd hhead ?_⟩
    rw [List.append_assoc]
    exact head?_textText_ne htext hts.node_neat.tidy.2 hts.newline_notMem hts.phrase.node_admits.2 _
  | emphasis d hwidth => exact absurd hwidth hts.width?_ne
  | link => exact ⟨fun _ => ⟨hmark _ (by decide), fun _ => rfl⟩, fun hhead => by cases hhead⟩
  | inlineCode =>
    rw [codeSpanText_eq_cons]
    exact ⟨fun _ => ⟨hmark _ (by decide), fun hhead => by cases hhead⟩, fun _ => rfl⟩
  | image himage =>
    rw [eq_imageText himage]
    exact ⟨fun _ => ⟨hmark _ (by decide), fun hhead => by cases hhead⟩, fun hhead => by cases hhead⟩
  | lineBreak =>
    rw [hts.atx_of_lineBreak]
    exact ⟨fun _ => ⟨hmark _ (by decide), fun hhead => by cases hhead⟩, fun hhead => by cases hhead⟩

/-- What is written for a row is read as pieces that make it, and what comes behind it is read from there on: a bracket
that closes, or nothing.  If links are written, no bracket may be open. -/
theorem takes_of_writes {rest : List Char} (hrest : ∀ c ∈ rest.head?, c = ']') {r : Reading} (hclear : r.Clear ts) :
    r.Takes ts x rest := by
  induction h generalizing rest r with
  | nil => exact .nil
  | @text fresh note value children ts x y htext hwrites ih =>
    obtain rfl := hts.children_eq_nil rfl
    have hnext := hts.phrase.next rfl
    obtain ⟨hends, hlink⟩ := (hwrites.head?_append hts.tail hrest).1 hnext
    refine .text hts.phrase.node_admits.2 hnext (fun index before => ?_) fun words hwords => ?_
    · refine readFrom_textText htext hts.node_neat.tidy.2 hts.newline_notMem hends (fun hnone hhead => ?_) r index before
      rw [hlink hhead] at hnone
      cases hnone
    · exact ih hts.tail hrest (hclear.append fun p hp => hwords.finished p (List.mem_reverse.1 hp))
  | emphasis d hwidth => exact absurd hwidth hts.width?_ne
  | @link fresh note destination title children ts x y tail hinner htail hwrites ihinner ih =>
    have hreadable := hts.node.readable destination rfl
    have hlinks := hts.node.links rfl
    have hpieces : ∀ p ∈ r.pieces, p.IsFinished := hclear.resolve_left fun hnone => hnone _ (.head _) rfl
    obtain rfl := eq_tailText htail
    have hsplit (rest : List Char) :
        '[' :: (x ++ ']' :: (tailText destination.toList (title.map String.toList) ++ rest)) =
          '[' :: (x ++ ']' :: tailText destination.toList (title.map String.toList)) ++ rest := by simp
    rw [hsplit]
    refine .node (fun index before => ?_) fun _ _ _ => ih hts.tail hrest (hclear.tail trivial)
    rw [← hsplit]
    exact readFrom_link index before hpieces hreadable title fun _ => ihinner hts.inner (by simp) (.inl hlinks)
  | @inlineCode fresh note value children ts y hwrites ih =>
    obtain rfl := hts.children_eq_nil rfl
    obtain ⟨-, hne, hfeed⟩ : [] = [] ∧ value ≠ "" ∧ '\n' ∉ value.toList := hts.phrase.node_admits
    have hticks : (y ++ rest).head? ≠ some '\x60' := by
      intro hhead
      obtain ⟨t, ht, hkind⟩ := Option.map_eq_some_iff.1 ((hwrites.head?_append hts.tail hrest).2 hhead)
      have hnext := hts.next
      rw [List.map_cons, List.isChain_cons] at hnext
      exact (hnext.1 t.content (by rw [List.head?_map, ht]; rfl)).2 rfl hkind
    refine .node (fun index before => ?_) fun _ _ _ => ih hts.tail hrest (hclear.tail trivial)
    obtain ⟨start, stop, index', before', hread⟩ := readFrom_codeSpanText r index before hne hfeed hticks
    exact ⟨start, stop, [], index', before', .nil, hread⟩
  | @image fresh note destination alt title children ts x y himage hwrites ih =>
    obtain rfl := hts.children_eq_nil rfl
    have hreadable := hts.node.readable destination rfl
    have hplain := hts.node.oneLine
    obtain rfl := eq_imageText himage
    refine .node (fun index before => ?_) fun _ _ _ => ih hts.tail hrest (hclear.tail trivial)
    obtain ⟨start, stop, index', before', hread⟩ := readFrom_image r index before hreadable (mt .inl hplain) title
    exact ⟨start, stop, [], index', before', .nil, hread⟩
  | @lineBreak fresh note children ts y hwrites ih =>
    obtain rfl := hts.children_eq_nil rfl
    obtain rfl := hts.atx_of_lineBreak
    refine .node (fun index before => ?_) fun _ _ _ => ih hts.tail hrest (hclear.tail trivial)
    obtain ⟨start, stop, index', before', hread⟩ := readFrom_lineBreak r index before
    exact ⟨start, stop, [], index', before', .nil, hread⟩

/-- What is written for a row is read as it. -/
private theorem erase_readInline_of_writes : (readInline x).trees.map Tree.erase = ts := by
  have hclear : Reading.Clear ⟨[], []⟩ ts := .inr (List.forall_mem_nil _)
  have hrest : ∀ c ∈ ([] : List Char).head?, c = ']' := by simp
  obtain ⟨ps, index, before, hps, hread⟩ := takes_of_writes h hts hrest hclear 0 ' '
  rw [List.append_nil, readFrom, List.append_nil] at hread
  rw [readInline, readPieces, hread]
  dsimp only
  rw [List.reverse_reverse, resolve_of_finished hps.finished]
  exact hps.erase_trees

/-! ### The ends of content -/

/-- Nothing is written for no row but the empty one. -/
private theorem Writes.eq_nil (hx : x = []) : ts = [] := by
  cases h with
  | nil => rfl
  | text htext =>
    refine absurd (List.append_eq_nil_iff.1 hx).1 ?_
    exact ne_nil_of_textText htext hts.node_neat.tidy.2 hts.newline_notMem hts.phrase.node_admits.2
  | emphasis d hwidth => exact absurd hwidth hts.width?_ne
  | link => cases hx
  | inlineCode =>
    rw [codeSpanText_eq_cons] at hx
    cases hx
  | image himage =>
    rw [eq_imageText himage] at hx
    cases hx
  | lineBreak => cases atx <;> cases hx

private theorem Writes.opensVisibly (hfirst : ∀ c ∈ (ts.map Tree.content).head?, c.OpensVisibly) :
    ∀ c ∈ x.head?, isBlank c = false := by
  have hmark {c : Char} (cs : List Char) (hc : isBlank c = false) : ∀ d ∈ (c :: cs).head?, isBlank d = false := by
    rintro d ⟨⟩
    exact hc
  cases h with
  | nil => simp
  | text htext =>
    have hne := ne_nil_of_textText htext hts.node_neat.tidy.2 hts.newline_notMem hts.phrase.node_admits.2
    rw [List.head?_append_of_ne_nil _ hne]
    exact opensVisibly_textText htext hts.node_neat.tidy.2 hts.newline_notMem (hfirst _ rfl)
  | emphasis d hwidth => exact absurd hwidth hts.width?_ne
  | link => exact hmark _ (by decide)
  | inlineCode =>
    rw [codeSpanText_eq_cons]
    exact hmark _ (by decide)
  | image himage =>
    rw [eq_imageText himage]
    exact hmark _ (by decide)
  | lineBreak =>
    rw [hts.atx_of_lineBreak]
    exact hmark _ (by decide)

omit h hts in
private theorem closesVisibly_append {t : Tree Unit} {ts : List (Tree Unit)} {w y : List Char}
    (hlast : ∀ u ∈ (t :: ts).getLast?, u.content.ClosesVisibly) (hy : y = [] → ts = [])
    (hw : t.content.ClosesVisibly → ∀ c ∈ w.getLast?, isBlank c = false)
    (hrest : (∀ u ∈ ts.getLast?, u.content.ClosesVisibly) → ∀ c ∈ y.getLast?, isBlank c = false) :
    ∀ c ∈ (w ++ y).getLast?, isBlank c = false := by
  by_cases hnil : y = []
  · obtain rfl := hy hnil
    rw [hnil, List.append_nil]
    exact hw (hlast t rfl)
  · rw [List.getLast?_append_of_ne_nil _ hnil]
    refine hrest fun u hu => hlast u ?_
    rw [List.getLast?_cons, Option.mem_def.1 hu]
    rfl

private theorem Writes.closesVisibly (hlast : ∀ u ∈ ts.getLast?, u.content.ClosesVisibly) :
    ∀ c ∈ x.getLast?, isBlank c = false := by
  have hmark {c : Char} (init : List Char) (hc : isBlank c = false) :
      ∀ d ∈ (init ++ [c]).getLast?, isBlank d = false := by
    rw [List.getLast?_concat]
    rintro d ⟨⟩
    exact hc
  induction h with
  | nil => simp
  | text htext hwrites ih =>
    refine closesVisibly_append hlast (hwrites.eq_nil hts.tail) (fun hcloses => ?_) (ih hts.tail)
    rw [getLast?_of_textText htext hts.node_neat.tidy.2 hts.newline_notMem]
    exact hcloses
  | emphasis d hwidth => exact absurd hwidth hts.width?_ne
  | @link fresh note destination title children ts x y tail _ htail hwrites _ ih =>
    obtain ⟨init, rfl⟩ := exists_of_linkTail htail
    have hsplit : '[' :: (x ++ ']' :: (init ++ [')'] ++ y)) = ('[' :: (x ++ ']' :: init) ++ [')']) ++ y := by simp
    rw [hsplit]
    exact closesVisibly_append hlast (hwrites.eq_nil hts.tail) (fun _ => hmark _ (by decide)) (ih hts.tail)
  | @inlineCode fresh note value children ts y hwrites ih =>
    refine closesVisibly_append hlast (hwrites.eq_nil hts.tail) (fun _ => ?_) (ih hts.tail)
    unfold codeSpanText
    dsimp only
    rw [List.replicate_succ', ← List.append_assoc]
    exact hmark _ (by decide)
  | image himage hwrites ih =>
    obtain ⟨init, rfl⟩ := exists_of_imageText himage
    exact closesVisibly_append hlast (hwrites.eq_nil hts.tail) (fun _ => hmark _ (by decide)) (ih hts.tail)
  | lineBreak hwrites ih =>
    exact closesVisibly_append hlast (hwrites.eq_nil hts.tail) (fun hcloses => hcloses.elim) (ih hts.tail)

end

private theorem join_contentLines {x : List Char} (hlines : ∀ line ∈ fields '\n' x, trimStart line = line)
    (hlast : ∀ c ∈ x.getLast?, isBlank c = false) : join ['\n'] (contentLines false x) = x := by
  obtain ⟨init, line, hfields⟩ : ∃ init line, fields '\n' x = init ++ [line] :=
    ⟨_, _, (List.dropLast_concat_getLast (fields_ne_nil '\n' x)).symm⟩
  have hline : trimEnd line = line := by
    refine dropEndWhile_eq_self fun c hc => hlast c ?_
    rw [← join_fields '\n' x, hfields]
    cases init with
    | nil => exact hc
    | cons first init =>
      rw [join_concat (by simp), List.getLast?_append, List.getLast?_cons, Option.mem_def.1 hc]
      rfl
  rw [contentLines, if_neg Bool.false_ne_true, List.map_congr_left hlines, List.map_id', hfields]
  dsimp only
  rw [List.dropLast_concat, List.getLast?_concat, Option.map_some, Option.toList_some, hline, ← hfields, join_fields]

end Print

namespace Tree

open Print

variable (q : PrintOptions) {content : Content} {ts : List (Tree Unit)}

section

variable (h : ∀ u ∈ (Tree.node () content ts).preorder, u.Arranged)
  (hkind : content.kind = .paragraph ∨ content.kind = .heading)
  (hunstressed : ∀ u ∈ (Tree.node () content ts).preorder, u.Unstressed)
include h hkind hunstressed

private theorem unstressedRow_children {atx : Bool} (hbreaks : atx = true → ts.any breaksLine = false) :
    UnstressedRow atx ts := by
  obtain ⟨-, hbelow⟩ := Tree.forall_mem_preorder.1 hunstressed
  obtain ⟨hrow, -⟩ := (Tree.forall_mem_preorder.1 h).1.legible.neat.row (hkind.imp_right .inl) true
  exact ⟨isPhrase_children h hkind, hrow.next, neat_children h, Tree.forall_mem_preorderList.2 hbelow, hbreaks⟩

omit h hkind in
private theorem plain_of_unstressed : ∀ u ∈ preorderList ts, ¬u.content.HoldsNewline := by
  obtain ⟨-, hbelow⟩ := Tree.forall_mem_preorder.1 hunstressed
  exact Tree.forall_mem_preorderList.2 fun t ht u hu => (hbelow t ht u hu).oneLine

private theorem ends_inlineText {atx : Bool} (hbreaks : atx = true → ts.any breaksLine = false) :
    (∀ c ∈ (inlineText q atx ts).head?, isBlank c = false) ∧ ∀ c ∈ (inlineText q atx ts).getLast?, isBlank c = false := by
  have hwrites := writes_inlineText q h hkind atx
  have hrow := unstressedRow_children h hkind hunstressed hbreaks
  obtain ⟨hneat, -⟩ := (Tree.forall_mem_preorder.1 h).1.legible.neat.row (hkind.imp_right .inl) true
  have hcloses : ∀ c ∈ ts.getLast?, c.content.ClosesVisibly := by
    cases content with
    | paragraph =>
      obtain ⟨-, -, hlast⟩ := (Tree.forall_mem_preorder.1 h).1.legible.neat.tidy
      refine fun c hc => hlast c.content ?_
      rw [List.getLast?_map]
      exact Option.mem_map_of_mem _ hc
    | heading => exact (Tree.forall_mem_preorder.1 hunstressed).1.closes rfl
    | _ => rcases hkind with hkind | hkind <;> cases hkind
  exact ⟨hwrites.opensVisibly hrow (hneat.first rfl), hwrites.closesVisibly hrow hcloses⟩

private theorem join_contentLines_inlineText {atx : Bool} (hbreaks : atx = true → ts.any breaksLine = false) :
    join ['\n'] (contentLines atx (inlineText q atx ts)) = inlineText q atx ts := by
  obtain ⟨hhead, hlast⟩ := ends_inlineText q h hkind hunstressed hbreaks
  cases atx with
  | true => exact trim_eq_self hhead hlast
  | false =>
    refine join_contentLines (fun line hline => ?_) hlast
    by_cases hne : ts = []
    · have hwrites := writes_inlineText q h hkind false
      rw [hne] at hwrites hline
      generalize inlineText q false [] = x at hwrites hline
      cases hwrites
      rw [List.mem_singleton.1 hline]
      rfl
    · obtain ⟨c, hc, hblank⟩ := (quiet_inlineText q h hkind (plain_of_unstressed hunstressed) hne line hline).head
      obtain ⟨cs, rfl⟩ := List.head?_eq_some_iff.1 hc
      exact List.dropWhile_cons_of_neg (by simp [hblank])

/-- Content without emphasis passes the printer's check, behind heading marks if it has no breaks. -/
theorem survives_of_unstressed {atx : Bool} (hbreaks : atx = true → ts.any breaksLine = false) :
    survives q atx ts = true := by
  have hread := erase_readInline_of_writes (writes_inlineText q h hkind atx)
    (unstressedRow_children h hkind hunstressed hbreaks)
  rw [survives, isIntact, rescan, join_contentLines_inlineText q h hkind hunstressed hbreaks, unplaced_erase, hread]
  exact sameList_phrase atx rfl

private theorem survivesMarked_of_unstressed (hbreaks : ts.any breaksLine = false) : survivesMarked q ts = true := by
  obtain ⟨hhead, hlast⟩ := ends_inlineText q h hkind hunstressed fun _ => hbreaks
  rw [survivesMarked, survives_of_unstressed q h hkind hunstressed fun _ => hbreaks, trim_eq_self hhead hlast]
  simp

/-- Paragraphs and headings without emphasis are sound, and so are their nodes, whatever the settings of the printer
are. -/
private theorem sound_of_unstressed : ∀ u ∈ (Tree.node () content ts).preorder, u.Sound q := by
  rw [Tree.forall_mem_preorder]
  constructor
  · have hscannable := (Tree.forall_mem_preorder.1 h).1.scannable
    have hsurvives : survives q false ts = true := survives_of_unstressed q h hkind hunstressed (by simp)
    cases content with
    | paragraph => exact hsurvives
    | heading depth =>
      unfold Sound
      dsimp only [Tree.content]
      split
      · exact hsurvives
      · rename_i hmarked
        -- A heading with breaks is underlined, as it is not too deep for that.
        refine survivesMarked_of_unstressed q h hkind hunstressed (Bool.eq_false_iff.2 fun hbreaks => hmarked ?_)
        have hbreaks : ts.any breaksLine = true := hbreaks
        have hdepth : depth ≤ 2 := hscannable hbreaks
        have hne : ts.isEmpty = false := by
          cases ts with
          | nil => cases hbreaks
          | cons => rfl
        show (Decidable.decide (depth ≤ 2) && (q.setext || ts.any breaksLine) && !ts.isEmpty) = true
        rw [hbreaks, hne, Bool.or_true, decide_eq_true hdepth]
        rfl
    | _ => rcases hkind with hkind | hkind <;> cases hkind
  · have hinline := Tree.inline_below (fun u hu => (h u hu).legible.composed) (hkind.symm.imp_right .inl)
    have hplain := plain_of_unstressed hunstressed
    rw [← Tree.forall_mem_preorderList]
    rintro ⟨⟨⟩, c, children⟩ hu
    have hc : c.kind.isInline = true := hinline _ hu
    cases c with
    | link => exact hplain _ hu
    | image => exact hplain _ hu
    | text | emphasis | strong | inlineCode | lineBreak => trivial
    | _ => cases hc

end

end Tree

/-- Paragraphs and headings of documents are sound down to their last node if no node in them is stressed, whatever the
settings of the scanner and the printer are. -/
theorem scan_sound_of_unstressed (o : ScanOptions) (q : PrintOptions) (path : Option String) (text : String) :
    ∃ tree, (Scan.scan o path text).tree = some tree ∧
      ∀ t ∈ tree.erase.preorder, t.kind = .paragraph ∨ t.kind = .heading →
        (∀ u ∈ t.preorder, u.Unstressed) → ∀ u ∈ t.preorder, u.Sound q := by
  refine ⟨_, tree_scan o path text, ?_⟩
  rw [Tree.erase_map]
  rintro ⟨⟨⟩, content, ts⟩ ht hkind
  refine Tree.sound_of_unstressed q (fun u hu => ?_) hkind
  exact arranged_readDocument o text u (Tree.mem_preorder_trans ht hu)

/-- Links, code, images and breaks are not stressed, even if what their texts hold looks like emphasis. -/
example : ∀ u ∈ (readDocument {} "\\*a [b `*c`](<d> \"e\") ![f*](g)  \n_".toList).tree.erase.preorder,
    u.Unstressed := by
  decide +kernel

end MarkdownTree
