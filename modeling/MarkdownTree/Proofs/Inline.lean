import MarkdownTree.Proofs.Emphasis
import MarkdownTree.Proofs.Trim
import MarkdownTree.Scan.Inline

/-!
# Reading inline content

Between two steps of the reader its pieces are a row that covers the text read so far, neighbouring runs have different
marks, and behind a bracket that may still open a link there is no link that is written with brackets
(`Reading.Holds`).  Every step keeps this (`holds_readStep`), so the pieces of a text cover it, and so they do once
emphasis is resolved (`row_resolve_readPieces`).
-/

namespace MarkdownTree.Scan

open Text Piece

/-- A bracket that may still open a link. -/
def Piece.OpensLink : Piece → Prop
  | .opener _ _ image active => image = false ∧ active = true
  | _ => False

/-- A reading that has come to a place of the text. -/
structure Reading.Holds (text : List Char) (r : Reading) (index : Nat) : Prop where
  row : Row text 0 r.pieces.reverse index
  apart : r.pieces.IsChain Apart
  last : ∀ p ∈ r.pieces.head?, p.mark? = none ∨ p.mark? ≠ text[index]?
  links : r.pieces.Pairwise fun later earlier => earlier.OpensLink → Unbracketed text later

variable {text : List Char} {r : Reading} {index : Nat} {c : Char} {cs : List Char}

/-! ### One more piece -/

private theorem row_push {ps : List Piece} {p : Piece} (h : Row text 0 ps.reverse p.start) (hp : Reads text p) :
    Row text 0 (p :: ps).reverse p.stop := by
  rw [List.reverse_cons]
  exact row_append.2 ⟨p.start, h, row_singleton.2 ⟨rfl, hp, rfl⟩⟩

namespace Reading

/-- A piece that is no run stands next to any other. -/
private theorem holds_cons {ps : List Piece} {p : Piece} (notes : List Note) (hrow : Row text 0 ps.reverse p.start)
    (hapart : ps.IsChain Apart) (hp : Reads text p) (hmark : p.mark? = none)
    (hlinks : (p :: ps).Pairwise fun later earlier => earlier.OpensLink → Unbracketed text later) :
    Holds text ⟨p :: ps, notes⟩ p.stop :=
  ⟨row_push hrow hp, hapart.cons fun _ _ => apart_of_mark?_left hmark, fun q hq => .inl (by cases hq; exact hmark),
    hlinks⟩

private theorem Holds.push {p : Piece} (h : Holds text r index) (hstart : p.start = index) (hp : Reads text p)
    (hmark : p.mark? = none) (hlink : Unbracketed text p) : Holds text (r.push p) p.stop :=
  holds_cons r.notes (hstart ▸ h.row) h.apart hp hmark (List.pairwise_cons.2 ⟨fun _ _ _ => hlink, h.links⟩)

/-- A run can be added that goes on as far as its mark does. -/
private theorem Holds.pushRun {run : Run} (h : Holds text r index) (hstart : run.start = index)
    (hp : Reads text (.run run))
    (hmark : text[index]? = some run.mark) (hnext : text[run.stop]? ≠ some run.mark) :
    Holds text (r.push (.run run)) run.stop := by
  subst hstart
  refine ⟨row_push h.row hp, h.apart.cons fun q hq => ?_, fun q hq => .inr ?_,
    List.pairwise_cons.2 ⟨fun _ _ _ => trivial, h.links⟩⟩
  · -- The run before, if there is one, did not stop short of this mark.
    rcases h.last q hq with hq | hq
    · exact apart_of_mark?_right hq
    · refine .symm (.inr ?_)
      rw [hmark] at hq
      exact hq
  · cases hq
    exact hnext.symm

private theorem Holds.pushText {size : Nat} {value : List Char} (h : Holds text r index) (hsize : 0 < size)
    (hvalue : value ≠ []) : Holds text (r.pushText index size value) (index + size) :=
  h.push (p := .text index (index + size) value) rfl ⟨Nat.lt_add_of_pos_right hsize, hvalue⟩ rfl trivial

private theorem Holds.remark (h : Holds text r index) (n : Note) : Holds text (r.remark n) index :=
  ⟨h.row, h.apart, h.last, h.links⟩

end Reading

open Reading

/-- A step from a place of the text: it takes no more characters than follow, and ends in a reading that holds. -/
structure Step.Holds (text : List Char) (index : Nat) (cs : List Char) (s : Step) : Prop where
  le : s.2 ≤ cs.length
  holds : s.1.Holds text (index + s.2 + 1)

/-! ### What the readers of code spans and autolinks find -/

/-- The run that closes a code span is as long as it has to be. -/
theorem CodeSpan.body?_eq_some {size : Nat} {inside : Bool} {cs body : List Char}
    (h : body? size inside cs = some body) :
    ∃ rest, cs = body ++ (List.replicate size '\x60' ++ rest) ∧ rest.head? ≠ some '\x60' := by
  induction cs generalizing inside body with
  | nil => cases h
  | cons c cs ih =>
    have hrest {inside : Bool} (h : (body? size inside cs).map (c :: ·) = some body) :
        ∃ rest, c :: cs = body ++ (List.replicate size '\x60' ++ rest) ∧ rest.head? ≠ some '\x60' := by
      obtain ⟨found, hfound, rfl⟩ := Option.map_eq_some_iff.1 h
      obtain ⟨rest, hcs, hhead⟩ := ih hfound
      exact ⟨rest, congrArg (c :: ·) hcs, hhead⟩
    unfold body? at h
    split at h
    · split at h
      · rename_i hc hsize
        cases h
        simp only [ticks, Bool.and_eq_true, beq_iff_eq] at hsize
        refine ⟨cs.dropWhile (· == '\x60'), ?_, fun hhead => ?_⟩
        · rw [List.nil_append, ← hsize.2, List.replicate_succ, ← takeWhile_beq, List.cons_append,
            List.takeWhile_append_dropWhile, hc]
        · have hnot := List.head?_dropWhile_not (· == '\x60') cs
          rw [hhead] at hnot
          cases hnot
      · exact hrest h
    · exact hrest h

private theorem CodeSpan.length_body?_le {size : Nat} {inside : Bool} {cs body : List Char}
    (h : body? size inside cs = some body) : body.length + size ≤ cs.length := by
  obtain ⟨rest, hcs, -⟩ := body?_eq_some h
  have hlength := congrArg List.length hcs
  simp only [List.length_append, List.length_replicate] at hlength
  omega

/-- Between two runs of backticks there is something else. -/
private theorem CodeSpan.body?_ne_nil {size : Nat} {cs body : List Char}
    (h : body? size false (cs.drop (ticks cs)) = some body) : body ≠ [] := by
  rw [ticks, drop_length_takeWhile] at h
  have hnot := List.head?_dropWhile_not (· == '\x60') cs
  cases hcs : cs.dropWhile (· == '\x60') with
  | nil =>
    rw [hcs] at h
    cases h
  | cons c rest =>
    rw [hcs] at h hnot
    simp only [List.head?_cons, beq_eq_false_iff_ne] at hnot
    rw [body?, if_neg hnot] at h
    obtain ⟨more, -, rfl⟩ := Option.map_eq_some_iff.1 h
    simp

private theorem CodeSpan.value_ne_nil {body : List Char} (h : body ≠ []) : value body ≠ [] := by
  have hflat : (body.map fun c => if c = '\n' then ' ' else c) ≠ [] := by simpa using h
  unfold value
  dsimp only
  split
  · rename_i hspaces
    revert hspaces
    -- Two characters at the ends that are spaces, and one that is not: there are three.
    generalize (body.map fun c => if c = '\n' then ' ' else c) = flat
    rcases flat with _ | ⟨a, _ | ⟨b, _ | ⟨d, rest⟩⟩⟩
    · simp
    · simp
    · simp only [List.head?_cons, List.getLast?_cons_cons, List.getLast?_singleton, Option.some.injEq]
      rintro ⟨-, rfl, rfl, hany⟩
      simp at hany
    · simp
  · exact hflat

private theorem CodeSpan.newline_notMem_value (body : List Char) : '\n' ∉ value body := by
  have hflat : '\n' ∉ body.map fun c => if c = '\n' then ' ' else c := by
    simp only [List.mem_map, not_exists, not_and]
    intro c _
    split
    · decide
    · assumption
  unfold value
  dsimp only
  split
  · exact fun hmem => hflat (List.mem_of_mem_drop (List.dropLast_subset _ hmem))
  · exact hflat

private theorem head?_of_drop_eq {p : Char → Bool} {cs : List Char} {d : Char}
    (h : (cs.drop (cs.takeWhile p).length).head? = some d) :
    ∃ rest, cs = cs.takeWhile p ++ d :: rest := by
  obtain ⟨rest, hrest⟩ := List.head?_eq_some_iff.1 h
  exact ⟨rest, by rw [← hrest, takeWhile_append_drop]⟩

private theorem Autolink.uri?_eq_some {cs address : List Char} (h : uri? cs = some address) :
    address ≠ [] ∧ ∃ rest, cs = address ++ '>' :: rest := by
  unfold uri? at h
  split at h
  · cases h
  · dsimp only at h
    split at h
    · rename_i c cs _ after hafter
      split at h
      · rename_i hcond
        cases h
        obtain ⟨rest, hrest⟩ := head?_of_drop_eq hcond.2.2.2
        refine ⟨by simp, rest, ?_⟩
        conv => lhs; rw [← takeWhile_append_drop (fun d => isWord d || d == '+' || d == '.' || d == '-') cs]
        rw [hafter]
        conv => lhs; rw [hrest]
        simp
      · cases h
    · cases h

private theorem Autolink.mail?_eq_some {cs address : List Char} (h : mail? cs = some address) :
    address ≠ [] ∧ ∃ rest, cs = address ++ '>' :: rest := by
  unfold mail? at h
  dsimp only at h
  split at h
  · rename_i after hafter
    split at h
    · rename_i hcond
      cases h
      obtain ⟨rest, hrest⟩ := head?_of_drop_eq hcond.2.2
      refine ⟨by simp, rest, ?_⟩
      conv => lhs; rw [← takeWhile_append_drop (fun d => isWord d || localMarks.contains d) cs]
      rw [hafter]
      conv => lhs; rw [hrest]
      simp
    · cases h
  · cases h

/-- An address goes up to a closing bracket. -/
theorem Autolink.read?_eq_some {cs address destination : List Char} (h : read? cs = some (address, destination)) :
    address ≠ [] ∧ ∃ rest, cs = address ++ '>' :: rest := by
  unfold read? at h
  split at h
  · rename_i found hfound
    cases h
    exact uri?_eq_some hfound
  · obtain ⟨found, hfound, heq⟩ := Option.map_eq_some_iff.1 h
    cases heq
    exact mail?_eq_some hfound

/-! ### Steps that look ahead only -/

theorem getElem?_index (hrest : text.drop index = c :: cs) : text[index]? = some c := by
  rw [← List.head?_drop, hrest, List.head?_cons]

theorem getElem?_index_add (hrest : text.drop index = c :: cs) (n : Nat) : text[index + n + 1]? = cs[n]? := by
  rw [Nat.add_assoc, ← List.getElem?_drop, hrest, List.getElem?_cons_succ]

/-- A step that adds some text. -/
private theorem holds_pushText (h : r.Holds text index) {taken : Nat}
    {value : List Char} (htaken : taken ≤ cs.length) (hvalue : value ≠ []) :
    Step.Holds text index cs (r.pushText index (taken + 1) value, taken) :=
  ⟨htaken, h.pushText (Nat.succ_pos _) hvalue⟩

/-- A step that adds a node without children that is no link. -/
private theorem holds_pushNode (h : r.Holds text index) {stop taken : Nat} (content : Content)
    (hstop : stop = index + taken + 1) (htaken : taken ≤ cs.length) (hpos : 0 < taken)
    (hlink : content.kind ≠ .link) (hmarks : ∀ first last, Marks text index first last stop [] content) :
    Step.Holds text index cs (r.push (.node index stop content []), taken) := by
  subst hstop
  refine ⟨htaken, h.push (p := .node index (index + taken + 1) content []) rfl ?_ rfl ?_⟩
  · simp only [Reads, Row]
    exact ⟨index + 1, index + 1, by omega, by omega, rfl, hmarks _ _⟩
  · simp [Unbracketed, UnbracketedList, hlink]

private theorem holds_readEscape (h : r.Holds text index) : Step.Holds text index cs (readEscape r index cs) := by
  unfold readEscape
  split
  · exact holds_pushNode h .lineBreak rfl (by simp) (Nat.succ_pos 0) (by simp [Content.kind]) (by simp [Marks])
  · split
    · exact holds_pushText h (by simp) (by simp)
    · exact holds_pushText h (Nat.zero_le _) (by simp)
  · exact holds_pushText h (Nat.zero_le _) (by simp)

private theorem holds_readSpaces (h : r.Holds text index) : Step.Holds text index cs (readSpaces r index cs) := by
  unfold readSpaces
  dsimp only
  have hle : (cs.takeWhile (· == ' ')).length ≤ cs.length := (List.takeWhile_sublist _).length_le
  split
  · rename_i rest hdrop
    have hlen := congrArg List.length hdrop
    simp only [List.length_drop, List.length_cons] at hlen
    split
    · have hle : (cs.takeWhile (· == ' ')).length + 1 ≤ cs.length := by omega
      exact holds_pushNode h .lineBreak rfl hle (Nat.succ_pos _) (by simp [Content.kind]) (by simp [Marks])
    · exact holds_pushText h (by omega) (by simp)
  · exact holds_pushText h hle (by simp)

private theorem holds_readCode (h : r.Holds text index) : Step.Holds text index cs (readCode r index cs) := by
  unfold readCode
  dsimp only
  have hle : CodeSpan.ticks cs ≤ cs.length := (List.takeWhile_sublist _).length_le
  split
  · rename_i body hbody
    have hlen := CodeSpan.length_body?_le hbody
    rw [List.length_drop] at hlen
    have hne : CodeSpan.value body ≠ [] := CodeSpan.value_ne_nil (CodeSpan.body?_ne_nil hbody)
    exact holds_pushNode h _ (by omega) (by omega) (by omega) (by simp [Content.kind]) fun _ _ =>
      ⟨rfl, by simpa using hne, by simpa using CodeSpan.newline_notMem_value body⟩
  · exact holds_pushText (h.remark _) hle (by simp)

private theorem holds_readRun (h : r.Holds text index) (hrest : text.drop index = c :: cs) (before : Char) :
    Step.Holds text index cs (readRun r index before c cs) := by
  have hle : (cs.takeWhile (· == c)).length ≤ cs.length := (List.takeWhile_sublist _).length_le
  refine ⟨hle, h.pushRun rfl ⟨Nat.succ_pos _, rfl⟩ (getElem?_index hrest) ?_⟩
  have hnext := List.head?_dropWhile_not (· == c) cs
  rw [← drop_length_takeWhile, List.head?_drop] at hnext
  show text[index + (cs.takeWhile (· == c)).length + 1]? ≠ some c
  rw [getElem?_index_add hrest]
  intro heq
  rw [heq] at hnext
  simp at hnext

theorem holds_readAngle (h : r.Holds text index) (hrest : text.drop index = '<' :: cs) :
    Step.Holds text index cs (readAngle r index cs) := by
  unfold readAngle
  split
  · rename_i address destination hread
    obtain ⟨hne, rest, rfl⟩ := Autolink.read?_eq_some hread
    have hlen : address.length + 1 ≤ (address ++ '>' :: rest).length := by
      rw [List.length_append, List.length_cons]
      omega
    have hclose : text[index + address.length + 1]? = some '>' := by
      rw [getElem?_index_add hrest, List.getElem?_append_right (Nat.le_refl _), Nat.sub_self, List.getElem?_cons_zero]
    refine ⟨hlen, h.push (p := .node index (index + address.length + 2) _ _) rfl ?_ rfl ?_⟩
    · simp only [Reads, Row, Marks, Piece.start, Piece.stop]
      refine ⟨index + 1, index + address.length + 1, by omega, by omega, ⟨rfl, ⟨?_, hne⟩, by omega⟩, rfl,
        .inr ⟨getElem?_index hrest, hclose, rfl, address, by simp⟩⟩
      have := List.length_pos_of_ne_nil hne
      omega
    · simp [Unbracketed, UnbracketedList, getElem?_index hrest]
  · exact holds_pushText h (Nat.zero_le _) (by simp)

/-! ### Closing brackets -/

theorem findBracket?_eq_some {ps inner before : List Piece} {start stop : Nat} {image active : Bool}
    (h : findBracket? ps = some (inner, (start, stop, image, active), before)) :
    ps = inner ++ .opener start stop image active :: before := by
  induction ps generalizing inner with
  | nil => cases h
  | cons p ps ih =>
    unfold findBracket? at h
    split at h
    · rename_i heq
      cases heq
    · rename_i heq
      cases heq
      cases h
      rfl
    · rename_i heq
      cases heq
      obtain ⟨⟨after, found⟩, hfound, hcons⟩ := Option.map_eq_some_iff.1 h
      cases hcons
      rw [ih hfound]
      rfl

private theorem LinkTail.size_le_of_closed {cs d : List Char} {t : Option (List Char)} {n : Nat} {tail : LinkTail}
    (h : (match cs.drop n with
      | ')' :: _ => some ⟨d, t, n + 2⟩
      | _ => none) = some tail) : tail.size ≤ cs.length + 1 := by
  split at h
  · rename_i hclose
    cases h
    have hlen := congrArg List.length hclose
    simp only [List.length_drop, List.length_cons] at hlen
    show n + 2 ≤ cs.length + 1
    omega
  · cases h

private theorem LinkTail.size_le {cs : List Char} {tail : LinkTail} (h : read? cs = some tail) :
    tail.size ≤ cs.length := by
  unfold read? at h
  split at h
  · obtain ⟨⟨destination, size⟩, -, h⟩ := Option.bind_eq_some_iff.1 h
    dsimp only at h
    split at h
    · obtain ⟨⟨title, more⟩, -, h⟩ := Option.bind_eq_some_iff.1 h
      exact size_le_of_closed h
    · obtain ⟨⟨title, more⟩, -, h⟩ := Option.bind_eq_some_iff.1 h
      exact size_le_of_closed h
  · cases h

/-- The pieces before an opening bracket and those after it are rows of their own. -/
theorem row_bracket {inner before : List Piece} {start stop : Nat} {image active : Bool}
    (h : Row text 0 (inner ++ .opener start stop image active :: before).reverse index) :
    Row text 0 before.reverse start ∧ Reads text (.opener start stop image active) ∧
      Row text stop inner.reverse index := by
  rw [List.reverse_append, List.reverse_cons, List.append_assoc, List.singleton_append] at h
  obtain ⟨mid, hbefore, hstart, hopener, hinner⟩ := row_append.1 h
  cases hstart
  exact ⟨hbefore, hopener, hinner⟩

/-- An opening bracket that has failed counts as text. -/
private theorem holds_fail {inner before : List Piece} {start stop : Nat} {image active : Bool} {notes : List Note}
    (h : Holds text ⟨inner ++ .opener start stop image active :: before, notes⟩ index) (notes' : List Note) :
    Holds text ⟨inner ++ .text start stop (bracket image) :: before, notes'⟩ index := by
  obtain ⟨hbefore, hopener, hinner⟩ := row_bracket h.row
  have htext : Reads text (.text start stop (bracket image)) :=
    ⟨hopener.lt, by cases image <;> simp [bracket]⟩
  refine ⟨?_, ?_, ?_, ?_⟩
  · rw [List.reverse_append, List.reverse_cons, List.append_assoc, List.singleton_append]
    exact row_append.2 ⟨start, hbefore, rfl, htext, hinner⟩
  · obtain ⟨happart, hcons, -⟩ := List.isChain_append.1 h.apart
    refine happart.append (hcons.tail.cons fun _ _ => apart_of_mark?_left rfl) fun x _ y hy => ?_
    cases hy
    exact apart_of_mark?_right rfl
  · intro p hp
    cases inner with
    | nil =>
      cases hp
      exact .inl rfl
    | cons q inner => exact h.last p hp
  · obtain ⟨hinner, hcons, hcross⟩ := List.pairwise_append.1 h.links
    refine List.pairwise_append.2 ⟨hinner, List.pairwise_cons.2 ⟨fun _ _ _ => trivial, hcons.of_cons⟩, ?_⟩
    rintro x hx y (_ | ⟨_, hy⟩)
    · exact False.elim
    · exact hcross x hx y (.tail _ hy)

/-! Deactivating brackets changes nothing else. -/

private theorem deactivate_start (p : Piece) : (deactivate p).start = p.start := by
  cases p <;> rfl

private theorem deactivate_stop (p : Piece) : (deactivate p).stop = p.stop := by
  cases p <;> rfl

private theorem deactivate_mark? (p : Piece) : (deactivate p).mark? = p.mark? := by
  cases p <;> rfl

private theorem reads_deactivate {p : Piece} : Reads text (deactivate p) ↔ Reads text p := by
  cases p <;> simp [deactivate, Reads]

private theorem not_opensLink_deactivate (p : Piece) : ¬(deactivate p).OpensLink := by
  cases p with
  | opener _ _ image _ => cases image <;> simp [deactivate, OpensLink]
  | _ => simp [deactivate, OpensLink]

private theorem row_map_deactivate {lo hi : Nat} {ps : List Piece} :
    Row text lo (ps.map deactivate) hi ↔ Row text lo ps hi := by
  induction ps generalizing lo with
  | nil => rfl
  | cons p ps ih => simp only [List.map_cons, Row, deactivate_start, deactivate_stop, reads_deactivate, ih]

private theorem isChain_map_deactivate {ps : List Piece} (h : ps.IsChain Apart) :
    (ps.map deactivate).IsChain Apart := by
  rw [List.isChain_map]
  refine h.imp fun p q hpq => ?_
  simpa only [Apart, deactivate_mark?] using hpq

/-- The link of an opening bracket: what stands in it holds no link that is written with brackets, and no bracket before
it opens a link any more. -/
private theorem holds_link {inner before : List Piece} {start stop size : Nat} {notes : List Note}
    {destination : String} {title : Option String}
    (h : Holds text ⟨inner ++ .opener start stop false true :: before, notes⟩ index)
    (hclose : text[index]? = some ']') :
    Holds text ⟨.node start (index + 1 + size) (.link destination title) (Emphasis.resolve inner.reverse)
      :: before.map deactivate, notes⟩ (index + 1 + size) := by
  obtain ⟨hbefore, hopener, hinner⟩ := row_bracket h.row
  obtain ⟨hinnerApart, hbeforeApart, -⟩ := List.isChain_append.1 h.apart
  -- The bracket still opens a link, so no piece after it is a link that is written with brackets.
  have hunbracketed : UnbracketedList text inner.reverse := by
    rw [unbracketedList_iff]
    intro p hp
    exact (List.pairwise_append.1 h.links).2.2 p (List.mem_reverse.1 hp) _ (.head _) ⟨rfl, rfl⟩
  have hrow := Emphasis.row_resolve hinner (isChain_apart_reverse.2 hinnerApart)
  have hle := hinner.le
  simp only [Reads, bracket, Bool.false_eq_true, if_false, List.length_singleton, List.head?_cons] at hopener
  have hapart := isChain_map_deactivate hbeforeApart.tail
  refine holds_cons (p := .node start (index + 1 + size) _ _) notes ?_ hapart ?_ rfl ?_
  · rw [← List.map_reverse]
    exact row_map_deactivate.2 hbefore
  · simp only [Reads]
    exact ⟨stop, index, by omega, by omega, hrow, hopener.1,
      .inl ⟨hopener.2, hclose, Emphasis.unbracketedList_resolve hunbracketed⟩⟩
  · refine List.pairwise_cons.2 ⟨fun q hq hopens => ?_, ?_⟩
    · obtain ⟨p, -, rfl⟩ := List.mem_map.1 hq
      exact absurd hopens (not_opensLink_deactivate p)
    · rw [List.pairwise_map]
      exact List.pairwise_of_forall fun _ _ hopens => absurd hopens (not_opensLink_deactivate _)

/-- The image of an opening bracket. -/
private theorem holds_image {inner before : List Piece} {start stop size : Nat} {notes : List Note}
    {destination alt : String} {title : Option String}
    (h : Holds text ⟨inner ++ .opener start stop true true :: before, notes⟩ index) :
    Holds text ⟨.node start (index + 1 + size) (.image destination alt title) [] :: before, notes⟩
      (index + 1 + size) := by
  obtain ⟨hbefore, hopener, hinner⟩ := row_bracket h.row
  obtain ⟨-, hapart, -⟩ := List.isChain_append.1 h.apart
  have hle := hinner.le
  simp only [Reads, bracket, if_true, List.length_cons, List.length_nil] at hopener
  refine holds_cons (p := .node start (index + 1 + size) _ _) notes hbefore hapart.tail ?_ rfl ?_
  · simp only [Reads, Row, Marks]
    exact ⟨start + 1, start + 1, by omega, by omega, rfl, trivial⟩
  · refine List.pairwise_cons.2 ⟨fun _ _ _ => ?_, (List.pairwise_append.1 h.links).2.1.of_cons⟩
    simp [Unbracketed, UnbracketedList, Content.kind]

private theorem holds_readClose (h : r.Holds text index) (hrest : text.drop index = ']' :: cs) :
    Step.Holds text index cs (readClose r index cs) := by
  unfold readClose
  split
  · exact holds_pushText h (Nat.zero_le _) (by simp)
  · rename_i inner start stop image active before hfound
    have hpieces := findBracket?_eq_some hfound
    obtain ⟨pieces, notes⟩ := r
    cases hpieces
    split
    · exact ⟨Nat.zero_le _, (holds_fail h _).pushText (Nat.succ_pos 0) (by simp)⟩
    · rename_i tail htail
      cases active with
      | false => cases htail
      | true =>
        have hsize : tail.size ≤ cs.length := LinkTail.size_le htail
        have hstop : index + tail.size + 1 = index + 1 + tail.size := by omega
        cases image with
        | false =>
          simp only [Bool.false_eq_true, if_false]
          refine ⟨hsize, ?_⟩
          rw [hstop]
          exact holds_link h (getElem?_index hrest)
        | true =>
          simp only [if_true]
          refine ⟨hsize, ?_⟩
          rw [hstop]
          exact holds_image h

/-! ### All steps -/

private theorem holds_ite {p : Prop} [Decidable p] {s t : Step} (hs : p → s.Holds text index cs)
    (ht : ¬p → t.Holds text index cs) : Step.Holds text index cs (if p then s else t) := by
  split
  · exact hs ‹p›
  · exact ht ‹¬p›

/-- Every step keeps what holds of a reading. -/
theorem holds_readStep (h : r.Holds text index) (hrest : text.drop index = c :: cs) (before : Char) :
    Step.Holds text index cs (readStep r index before c cs) := by
  unfold readStep
  refine holds_ite (fun _ => holds_readEscape h) fun _ => ?_
  refine holds_ite (fun _ => holds_readSpaces h) fun _ => ?_
  refine holds_ite (fun _ => holds_pushText h (Nat.zero_le _) (by simp)) fun _ => ?_
  refine holds_ite (fun _ => holds_readCode h) fun _ => ?_
  refine holds_ite (fun _ => holds_readRun h hrest before) fun _ => ?_
  refine holds_ite (fun hc => holds_ite (fun hhead => ?_) fun _ => holds_pushText h (Nat.zero_le _) (by simp))
    fun _ => ?_
  · subst hc
    obtain ⟨rest, rfl⟩ := List.head?_eq_some_iff.1 hhead
    exact ⟨by simp, h.push (p := .opener index (index + 2) true true) rfl ⟨rfl, getElem?_index hrest⟩ rfl trivial⟩
  refine holds_ite (fun hc => ?_) fun _ => ?_
  · subst hc
    exact ⟨Nat.zero_le _,
      h.push (p := .opener index (index + 1) false true) rfl ⟨rfl, getElem?_index hrest⟩ rfl trivial⟩
  refine holds_ite (fun hc => ?_) fun _ => ?_
  · subst hc
    exact holds_readClose h hrest
  refine holds_ite (fun hc => ?_) fun _ => ?_
  · subst hc
    exact holds_readAngle h hrest
  · exact holds_pushText h (List.takeWhile_sublist _).length_le (by simp)

theorem holds_readFrom (h : r.Holds text index) (hle : index ≤ text.length) (before : Char)
    (hrest : text.drop index = cs) : (readFrom r index before cs).Holds text text.length := by
  fun_induction readFrom r index before cs with
  | case1 r index before =>
    have : text.length ≤ index := List.drop_eq_nil_iff.1 hrest
    have : index = text.length := by omega
    exact this ▸ h
  | case2 r index before c cs step taken hstep ih =>
    have hs := holds_readStep h hrest before
    rw [hstep] at hs
    have hlen := congrArg List.length hrest
    have := hs.le
    simp only [List.length_drop, List.length_cons] at hlen
    refine ih hs.holds (by omega) ?_
    rw [Nat.add_assoc, ← List.drop_drop, hrest, List.drop_succ_cons]

theorem holds_start (text : List Char) : Reading.Holds text ⟨[], []⟩ 0 :=
  ⟨rfl, .nil, by simp, .nil⟩

/-- The pieces of inline content cover it once emphasis is resolved. -/
theorem row_resolve_readPieces (text : List Char) :
    Row text 0 (Emphasis.resolve (readPieces text).1) text.length := by
  have h := holds_readFrom (holds_start text) (Nat.zero_le _) ' ' rfl
  exact Emphasis.row_resolve h.row (isChain_apart_reverse.2 h.apart)

end MarkdownTree.Scan
