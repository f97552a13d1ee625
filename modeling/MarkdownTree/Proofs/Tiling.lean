import MarkdownTree.Proofs.Anchor
import MarkdownTree.Proofs.Pairing

/-!
# Tiling

The pieces of inline content tile it: the first starts where the content does, each other one where the one before it
ends, and the last ends where the content does (`Piece.Tiles`), so their stretches of the content make it up when they
are put together (`Tiling.flatMap_slice`).  A run of delimiters is as long as it counts, and inside emphasis and links
the children tile what stands between the marks (`Piece.Fits`), at every depth.  Each pair of runs keeps this when a
node takes delimiters from their ends (`Emphasis.Paired.fits`), and each step of the reader does (`fits_readStep`), also
when a closing bracket puts one node in the place of all pieces since the opening one.  So it holds of the pieces that
are read, and once emphasis is resolved (`tiling_readPieces`).
-/

namespace MarkdownTree.Scan

/-- Nothing but one delimiter of emphasis stands between two places of a text. -/
def Delimiters (text : List Char) (mark : Char) (lo hi : Nat) : Prop :=
  (mark = '*' ∨ mark = '_') ∧ ∀ i, lo ≤ i → i < hi → text[i]? = some mark

/-- A run takes up as many places as it counts, and its delimiters stand there. -/
structure Run.Fits (text : List Char) (r : Run) : Prop where
  pos : 0 < r.count
  size : r.stop = r.start + r.count
  delimiters : Delimiters text r.mark r.start r.stop

namespace Piece

/-- The pieces go from one place to another: each starts where the one before it ends, and takes up some of the text. -/
def Tiles : Nat → List Piece → Nat → Prop
  | lo, [], hi => lo = hi
  | lo, p :: ps, hi => p.start = lo ∧ lo < p.stop ∧ Tiles p.stop ps hi

/-- A stretch of text has so many of one delimiter at both ends, and the pieces tile what is between. -/
def Enclosed (text : List Char) (width start stop : Nat) (children : List Piece) : Prop :=
  Tiles (start + width) children (stop - width) ∧
    ∃ mark, Delimiters text mark start (start + width) ∧ Delimiters text mark (stop - width) stop

/-- A stretch of text goes from an opening bracket over a closing one to the end of a link tail, and the pieces tile
what is between the brackets. -/
def Bracketed (text : List Char) (start stop : Nat) (children : List Piece) : Prop :=
  ∃ close tail, text[start]? = some '[' ∧ Tiles (start + 1) children close ∧ text[close]? = some ']' ∧
    LinkTail.read? (text.drop (close + 1)) = some tail ∧ stop = close + 1 + tail.size

/-- A stretch of text has angle brackets at its ends, and the pieces tile what is between. -/
def Angled (text : List Char) (start stop : Nat) (children : List Piece) : Prop :=
  text[start]? = some '<' ∧ Tiles (start + 1) children (stop - 1) ∧ text[stop - 1]? = some '>'

/-- The marks of a piece stand at its ends, and its children tile what is between them. -/
def Fits (text : List Char) : Piece → Prop
  | .run r => r.Fits text
  | .node start stop content children =>
    match content with
    | .emphasis => Enclosed text 1 start stop children
    | .strong => Enclosed text 2 start stop children
    | .link .. => Bracketed text start stop children ∨ Angled text start stop children
    | _ => children = []
  | _ => True

mutual

/-- A piece and all that stands inside it, in the order of the text. -/
def preorder : Piece → List Piece
  | .node start stop content children => .node start stop content children :: preorderList children
  | p => [p]

/-- The pieces of a row and all that stands inside them. -/
def preorderList : List Piece → List Piece
  | [] => []
  | p :: ps => preorder p ++ preorderList ps

end

/-- The stretch of text that a piece takes up. -/
def slice (text : List Char) (p : Piece) : List Char :=
  (text.drop p.start).take (p.stop - p.start)

/-- The piece and all that stands inside it fit the text. -/
def FitsInside (text : List Char) (p : Piece) : Prop :=
  ∀ q ∈ p.preorder, q.Fits text

end Piece

open Piece

/-- The pieces tile the text, and fit it at every depth. -/
structure Tiling (text : List Char) (ps : List Piece) : Prop where
  tiles : Tiles 0 ps text.length
  fits : ∀ p ∈ preorderList ps, p.Fits text

variable {text : List Char} {ps qs : List Piece} {lo hi : Nat}

/-! ### Rows of pieces -/

namespace Piece

private theorem Row.tiles (h : Row text lo ps hi) : Tiles lo ps hi := by
  induction ps generalizing lo with
  | nil => exact h
  | cons p ps ih =>
    obtain ⟨rfl, hreads, hrow⟩ := h
    exact ⟨rfl, hreads.lt, ih hrow⟩

private theorem Tiles.le (h : Tiles lo ps hi) : lo ≤ hi := by
  induction ps generalizing lo with
  | nil => exact Nat.le_of_eq h
  | cons p ps ih =>
    obtain ⟨-, hlt, hrest⟩ := h
    exact Nat.le_trans (Nat.le_of_lt hlt) (ih hrest)

/-- What pieces take up, put together, is the stretch of text that they tile. -/
theorem Tiles.flatMap_slice (text : List Char) (h : Tiles lo ps hi) :
    ps.flatMap (slice text) = (text.drop lo).take (hi - lo) := by
  induction ps generalizing lo with
  | nil =>
    cases h
    simp
  | cons p ps ih =>
    obtain ⟨rfl, hlt, hrest⟩ := h
    have hle := hrest.le
    have hsize : hi - p.start = (p.stop - p.start) + (hi - p.stop) := by omega
    have hdrop : (text.drop p.start).drop (p.stop - p.start) = text.drop p.stop := by
      rw [List.drop_drop, Nat.add_sub_cancel' (Nat.le_of_lt hlt)]
    rw [List.flatMap_cons, ih hrest, hsize, List.take_add, hdrop, slice]

private theorem mem_preorderList {q : Piece} : q ∈ preorderList ps ↔ ∃ p ∈ ps, q ∈ p.preorder := by
  induction ps with
  | nil => simp [preorderList]
  | cons p ps ih => simp [preorderList, ih]

@[simp] theorem fitsInside_text (start stop : Nat) (value : List Char) :
    FitsInside text (.text start stop value) := by
  simp [FitsInside, preorder, Fits]

@[simp] theorem fitsInside_opener (start stop : Nat) (image active : Bool) :
    FitsInside text (.opener start stop image active) := by
  simp [FitsInside, preorder, Fits]

@[simp] theorem fitsInside_run (r : Run) : FitsInside text (.run r) ↔ r.Fits text := by
  simp [FitsInside, preorder, Fits]

private theorem fitsInside_node {start stop : Nat} {content : Content} {children : List Piece} :
    FitsInside text (.node start stop content children) ↔
      Fits text (.node start stop content children) ∧ ∀ p ∈ children, FitsInside text p := by
  simp only [FitsInside, preorder, List.forall_mem_cons, mem_preorderList, forall_exists_index, and_imp]
  exact and_congr_right fun _ => ⟨fun h p hp q hq => h q p hp hq, fun h q p hp hq => h p hp q hq⟩

end Piece

/-- No character of the text is lost between its pieces, and none stands in two of them. -/
theorem Tiling.flatMap_slice (h : Tiling text ps) : ps.flatMap (slice text) = text := by
  rw [h.tiles.flatMap_slice text, List.drop_zero, Nat.sub_zero, List.take_length]

/-! ### Resolving emphasis -/

private theorem Delimiters.mono {mark : Char} {lo' hi' : Nat} (h : Delimiters text mark lo hi) (hlo : lo ≤ lo')
    (hhi : hi' ≤ hi) : Delimiters text mark lo' hi' :=
  ⟨h.1, fun i hstart hstop => h.2 i (Nat.le_trans hlo hstart) (Nat.lt_of_lt_of_le hstop hhi)⟩

namespace Run.Fits

variable {r : Run} {n : Nat}

private theorem takeEnd (h : r.Fits text) (hn : n < r.count) : (r.takeEnd n).Fits text := by
  have hsize := h.size
  refine ⟨Nat.sub_pos_of_lt hn, ?_, h.delimiters.mono (Nat.le_refl _) (Nat.sub_le _ _)⟩
  simp only [Run.takeEnd]
  omega

private theorem takeStart (h : r.Fits text) (hn : n < r.count) : (r.takeStart n).Fits text := by
  have hsize := h.size
  refine ⟨Nat.sub_pos_of_lt hn, ?_, h.delimiters.mono (Nat.le_add_right _ _) (Nat.le_refl _)⟩
  simp only [Run.takeStart]
  omega

end Run.Fits

namespace Emphasis

private theorem fits_remains {r : Run} (h : 0 < r.count → r.Fits text) : ∀ p ∈ remains r, FitsInside text p := by
  intro p hp
  unfold remains at hp
  split at hp
  · cases hp
  · rename_i hcount
    rw [List.mem_singleton.1 hp, fitsInside_run]
    exact h (Nat.pos_of_ne_zero hcount)

/-- The delimiters of a node are the last of one run and the first of another, which are of one mark. -/
private theorem enclosed_pair {opener closer : Run} {between : List Piece} {n : Nat} (ho : opener.Fits text)
    (hc : closer.Fits text) (hmark : opener.mark = closer.mark) (hopen : n ≤ opener.count)
    (hclose : n ≤ closer.count) (htiles : Tiles opener.stop between closer.start) :
    Enclosed text n (opener.stop - n) (closer.start + n) between := by
  have hosize := ho.size
  have hcsize := hc.size
  have hfirst : opener.stop - n + n = opener.stop := by omega
  have hlast : closer.start + n - n = closer.start := Nat.add_sub_cancel _ _
  refine ⟨?_, opener.mark, ?_, ?_⟩
  · rw [hfirst, hlast]
    exact htiles
  · rw [hfirst]
    exact ho.delimiters.mono (by omega) (Nat.le_refl _)
  · rw [hlast, hmark]
    exact hc.delimiters.mono (Nat.le_refl _) (by omega)

namespace Paired

variable {given : List Piece}

/-- A step keeps pieces a row, with different marks side by side. -/
private theorem row (h : Paired given ps qs) (hrow : Row text lo ps hi) (hapart : ps.IsChain Apart) :
    Row text lo qs hi ∧ qs.IsChain Apart := by
  obtain @⟨before, between, after, opener, closer, o, c, n, -, ho, hc, hmatch, hopen, hclose, hn, -⟩ := h
  have hmatch := (ho.matches_iff hc).2 hmatch
  have hpairs : opener.pairs closer = true := (Run.pairs_iff hmatch.canClose).2 ⟨by omega, hmatch⟩
  have hused : used opener closer = n := by
    unfold used
    split <;> omega
  -- `row_pair` has the pieces in front of the closer in the order in which it looks back at them.
  have hback : before ++ .run opener :: (between ++ .run closer :: after) =
      (between.reverse ++ .run opener :: before.reverse).reverse ++ .run closer :: after := by
    simp
  rw [hback] at hrow hapart
  have hrow' := row_pair hpairs (by omega) (between_ne_nil hpairs hapart) hrow
  have hapart' := apart_pair n hapart
  rw [hused] at hrow'
  simpa [pairNode, remains_reverse] using And.intro hrow' hapart'

/-- A step keeps what fits: what was between the two runs is between the delimiters of the node. -/
theorem fits (h : Paired given ps qs) (hrow : Row text lo ps hi) (hps : ∀ p ∈ ps, FitsInside text p) :
    ∀ p ∈ qs, FitsInside text p := by
  obtain @⟨before, between, after, opener, closer, o, c, n, -, ho, hc, hmatch, hopen, hclose, hn, -⟩ := h
  obtain ⟨_, -, -, -, hrow⟩ := row_append.1 hrow
  obtain ⟨_, hbetween, rfl, -⟩ := row_append.1 hrow
  simp only [List.forall_mem_append, List.forall_mem_cons, fitsInside_run] at hps ⊢
  obtain ⟨hbefore, hopener, hinside, hcloser, hafter⟩ := hps
  have hmark := ((ho.matches_iff hc).2 hmatch).mark
  have henclosed := enclosed_pair hopener hcloser hmark hopen hclose hbetween.tiles
  refine ⟨hbefore, fits_remains fun hpos => hopener.takeEnd (Nat.lt_of_sub_pos hpos),
    fitsInside_node.2 ⟨?_, hinside⟩, fits_remains fun hpos => hcloser.takeStart (Nat.lt_of_sub_pos hpos), hafter⟩
  rcases hn with rfl | ⟨rfl, -⟩
  · exact henclosed
  · exact henclosed

end Paired

/-- Resolving emphasis keeps what fits. -/
private theorem fits_resolve (hrow : Row text lo ps hi) (hapart : ps.IsChain Apart)
    (hps : ∀ p ∈ ps, FitsInside text p) :
    ∀ p ∈ resolve ps, FitsInside text p := by
  suffices h : (Row text lo (resolve ps) hi ∧ (resolve ps).IsChain Apart) ∧ ∀ p ∈ resolve ps, FitsInside text p
    from h.2
  have hsteps := reflTransGen_resolve ps
  generalize resolve ps = qs at hsteps
  induction hsteps with
  | refl => exact ⟨⟨hrow, hapart⟩, hps⟩
  | tail _ hstep ih =>
    obtain ⟨⟨hrow, hapart⟩, hfits⟩ := ih
    exact ⟨hstep.row hrow hapart, hstep.fits hrow hfits⟩

end Emphasis

/-! ### Reading -/

/-- All pieces that have been read fit the text. -/
def Reading.Fits (text : List Char) (r : Reading) : Prop :=
  ∀ p ∈ r.pieces, FitsInside text p

section

variable {r : Reading} {index : Nat} {c : Char} {cs : List Char}

private theorem Reading.Fits.push {p : Piece} (h : r.Fits text) (hp : FitsInside text p) : (r.push p).Fits text :=
  List.forall_mem_cons.2 ⟨hp, h⟩

private theorem Reading.Fits.pushText (h : r.Fits text) (start size : Nat) (value : List Char) :
    (r.pushText start size value).Fits text :=
  h.push (fitsInside_text _ _ _)

private theorem fitsInside_break (start stop : Nat) : FitsInside text (breakPiece start stop) :=
  fitsInside_node.2 ⟨rfl, by simp⟩

private theorem fits_readEscape (h : r.Fits text) : (readEscape r index cs).1.Fits text := by
  unfold readEscape
  split
  · exact h.push (fitsInside_break _ _)
  · split
    · exact h.pushText _ _ _
    · exact h.pushText _ _ _
  · exact h.pushText _ _ _

private theorem fits_readSpaces (h : r.Fits text) : (readSpaces r index cs).1.Fits text := by
  unfold readSpaces
  dsimp only
  split
  · split
    · exact h.push (fitsInside_break _ _)
    · exact h.pushText _ _ _
  · exact h.pushText _ _ _

private theorem fits_readCode (h : r.Fits text) : (readCode r index cs).1.Fits text := by
  unfold readCode
  dsimp only
  split
  · exact h.push (fitsInside_node.2 ⟨rfl, by simp⟩)
  · exact Reading.Fits.pushText h _ _ _

private theorem fits_readRun {before : Char} (h : r.Fits text) (hrest : text.drop index = c :: cs)
    (hmark : c = '*' ∨ c = '_') : (readRun r index before c cs).1.Fits text :=
  h.push ((fitsInside_run _).2 ⟨Nat.succ_pos _, rfl, hmark, fun _ => getElem?_of_run hrest⟩)

/-- A link that starts with an angle bracket ends with one. -/
private theorem Piece.Reads.angled {start stop : Nat} {destination : String} {title : Option String}
    {children : List Piece}
    (h : Reads text (.node start stop (.link destination title) children)) (hstart : text[start]? = some '<') :
    Angled text start stop children := by
  obtain ⟨first, last, -, -, hrow, rfl, ⟨hbracket, -⟩ | ⟨-, hclose, rfl, -⟩⟩ := h
  · rw [hstart] at hbracket
    cases hbracket
  · exact ⟨hstart, hrow.tiles, hclose⟩

private theorem fits_readAngle (hr : r.Holds text index) (h : r.Fits text) (hrest : text.drop index = '<' :: cs) :
    (readAngle r index cs).1.Fits text := by
  have hrow := (holds_readAngle hr hrest).holds.row
  unfold readAngle at hrow ⊢
  split
  · rename_i address destination hread
    simp only [hread, Reading.push, List.reverse_cons] at hrow
    obtain ⟨_, -, -, hreads, -⟩ := row_append.1 hrow
    have hstart : text[index]? = some '<' := by rw [← List.head?_drop, hrest, List.head?_cons]
    exact h.push (fitsInside_node.2 ⟨.inr (hreads.angled hstart), by simp⟩)
  · exact h.pushText _ _ _

/-- A link of brackets: what stands between them is tiled by the pieces since the opening one. -/
private theorem bracketed {inner before : List Piece} {start stop : Nat} {active : Bool} {tail : LinkTail}
    (hrow : Row text 0 (inner ++ .opener start stop false active :: before).reverse index)
    (hapart : inner.IsChain Apart) (hrest : text.drop index = ']' :: cs) (htail : LinkTail.read? cs = some tail) :
    Bracketed text start (index + 1 + tail.size) (Emphasis.resolve inner.reverse) := by
  obtain ⟨-, ⟨hstop, hopen⟩, hinner⟩ := row_bracket hrow
  have hresolved := (Emphasis.row_resolve hinner (isChain_apart_reverse.2 hapart)).tiles
  refine ⟨index, tail, hopen, hstop ▸ hresolved, ?_, ?_, rfl⟩
  · rw [← List.head?_drop, hrest, List.head?_cons]
  · rw [← List.drop_drop, hrest, List.drop_one, List.tail_cons]
    exact htail

/-- Brackets that stop opening links stay where they are. -/
private theorem fitsInside_deactivate {p : Piece} : FitsInside text (deactivate p) ↔ FitsInside text p := by
  cases p with
  | opener => simp [deactivate]
  | _ => rfl

private theorem fits_readClose (hr : r.Holds text index) (h : r.Fits text) (hrest : text.drop index = ']' :: cs) :
    (readClose r index cs).1.Fits text := by
  unfold readClose
  split
  · exact h.pushText _ _ _
  · rename_i inner start stop image active before hfound
    have hpieces := findBracket?_eq_some hfound
    have hfits : ∀ p ∈ inner ++ .opener start stop image active :: before, FitsInside text p := hpieces ▸ h
    have hrow := hpieces ▸ hr.row
    have hapart := (List.isChain_append.1 (hpieces ▸ hr.apart)).1
    obtain ⟨hinner, hopener⟩ := List.forall_mem_append.1 hfits
    obtain ⟨-, hbefore⟩ := List.forall_mem_cons.1 hopener
    split
    · exact List.forall_mem_cons.2 ⟨fitsInside_text _ _ _,
        List.forall_mem_append.2 ⟨hinner, List.forall_mem_cons.2 ⟨fitsInside_text _ _ _, hbefore⟩⟩⟩
    · rename_i tail htail
      have htail : LinkTail.read? cs = some tail := by
        cases active with
        | true => exact htail
        | false => cases htail
      cases image with
      | true => exact List.forall_mem_cons.2 ⟨fitsInside_node.2 ⟨rfl, by simp⟩, hbefore⟩
      | false =>
        obtain ⟨-, -, hrowInner⟩ := row_bracket hrow
        have hchildren := Emphasis.fits_resolve hrowInner (isChain_apart_reverse.2 hapart) fun p hp =>
          hinner p (List.mem_reverse.1 hp)
        refine List.forall_mem_cons.2 ⟨fitsInside_node.2 ⟨.inl (bracketed hrow hapart hrest htail), hchildren⟩,
          fun p hp => ?_⟩
        obtain ⟨q, hq, rfl⟩ := List.mem_map.1 hp
        exact fitsInside_deactivate.2 (hbefore q hq)

private theorem fits_ite {p : Prop} [Decidable p] {s t : Step} (hs : p → s.1.Fits text) (ht : ¬p → t.1.Fits text) :
    (if p then s else t).1.Fits text := by
  split
  · exact hs ‹p›
  · exact ht ‹¬p›

/-- Every step adds pieces that fit. -/
theorem fits_readStep (hr : r.Holds text index) (h : r.Fits text) (hrest : text.drop index = c :: cs)
    (before : Char) : (readStep r index before c cs).1.Fits text := by
  unfold readStep
  refine fits_ite (fun _ => fits_readEscape h) fun _ => ?_
  refine fits_ite (fun _ => fits_readSpaces h) fun _ => ?_
  refine fits_ite (fun _ => h.pushText _ _ _) fun _ => ?_
  refine fits_ite (fun _ => fits_readCode h) fun _ => ?_
  refine fits_ite (fun hc => fits_readRun h hrest hc) fun _ => ?_
  refine fits_ite (fun _ => fits_ite (fun _ => h.push (fitsInside_opener _ _ _ _)) fun _ => h.pushText _ _ _)
    fun _ => ?_
  refine fits_ite (fun _ => h.push (fitsInside_opener _ _ _ _)) fun _ => ?_
  refine fits_ite (fun hc => fits_readClose hr h (hc ▸ hrest)) fun _ => ?_
  exact fits_ite (fun hc => fits_readAngle hr h (hc ▸ hrest)) fun _ => h.pushText _ _ _

private theorem fits_readFrom (hr : r.Holds text index) (h : r.Fits text) (hrest : text.drop index = cs)
    (before : Char) :
    (readFrom r index before cs).Fits text := by
  fun_induction readFrom r index before cs with
  | case1 r index before => exact h
  | case2 r index before c cs step taken hstep ih =>
    have hs := holds_readStep hr hrest before
    have hnext := fits_readStep hr h hrest before
    rw [hstep] at hs hnext
    refine ih hs.holds hnext ?_
    rw [Nat.add_assoc, ← List.drop_drop, hrest, List.drop_succ_cons]

end

private theorem tiling_of_row (hrow : Row text 0 ps text.length) (hfits : ∀ p ∈ ps, FitsInside text p) :
    Tiling text ps := by
  refine ⟨hrow.tiles, fun q hq => ?_⟩
  obtain ⟨p, hp, hinside⟩ := mem_preorderList.1 hq
  exact hfits p hp q hinside

/-- The pieces of inline content tile it and fit it at every depth, when they have been read and once emphasis is
resolved. -/
theorem tiling_readPieces (text : List Char) :
    Tiling text (readPieces text).1 ∧ Tiling text (Emphasis.resolve (readPieces text).1) := by
  have hholds := holds_readFrom (holds_start text) (Nat.zero_le _) ' ' rfl
  have hread := fits_readFrom (holds_start text) (fun p hp => by cases hp) rfl ' '
  have hfits : ∀ p ∈ (readPieces text).1, FitsInside text p := fun p hp => hread p (List.mem_reverse.1 hp)
  have hresolved := Emphasis.fits_resolve hholds.row (isChain_apart_reverse.2 hholds.apart) hfits
  exact ⟨tiling_of_row hholds.row hfits, tiling_of_row (row_resolve_readPieces text) hresolved⟩

end MarkdownTree.Scan
