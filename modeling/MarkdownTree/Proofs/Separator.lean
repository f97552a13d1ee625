import MarkdownTree.Proofs.Json
import MarkdownTree.Text.Lines

/-!
# Lines of JSON text

JSON text keeps three characters that end lines as they are: U+0085, U+2028 and U+2029.  Its lines do not tell them
apart, and nothing else gets lost: a line feed stands only outside strings, a separator only inside (`run_encode`), so
texts with the same lines are the same but for which separator stands where (`lines_write_eq_iff`).
-/

namespace MarkdownTree

/-! ### Separators made one -/

namespace Text

/-- Characters that end lines and are written into JSON strings as they are. -/
def isSeparator (c : Char) : Bool :=
  c == '\u0085' || c == '\u2028' || c == '\u2029'

/-- One separator for all. -/
def mergeChar (c : Char) : Char :=
  if isSeparator c then '\u2028' else c

/-- The text with one separator for all. -/
def merge (s : String) : String :=
  String.ofList (s.toList.map mergeChar)

/-- One line end for all. -/
def endChar (c : Char) : Char :=
  if isLineEnd c then '\n' else c

private theorem isLineEnd_of_isSeparator {c : Char} (h : isSeparator c = true) : isLineEnd c = true := by
  simp only [isSeparator, Bool.or_eq_true, beq_iff_eq] at h
  rcases h with (rfl | rfl) | rfl <;> decide

private theorem endChar_mergeChar (c : Char) : endChar (mergeChar c) = endChar c := by
  unfold mergeChar
  split
  · rename_i h
    rw [endChar, endChar, if_pos (isLineEnd_of_isSeparator h)]
    decide
  · rfl

private theorem mergeChar_of_not_isLineEnd {c : Char} (h : isLineEnd c = false) : mergeChar c = c := by
  refine if_neg fun hsep => ?_
  rw [isLineEnd_of_isSeparator hsep] at h
  cases h

end Text

mutual

/-- The value with one separator for all in its texts. -/
def Value.merged : Value → Value
  | .text s => .text (Text.merge s)
  | .list items => .list (mergedItems items)
  | .map entries => .map (mergedEntries entries)
  | v => v

/-- The items, each merged. -/
def Value.mergedItems : List Value → List Value
  | [] => []
  | v :: vs => v.merged :: mergedItems vs

/-- The entries, each merged. -/
def Value.mergedEntries : List (Value × Value) → List (Value × Value)
  | [] => []
  | (key, v) :: entries => (key.merged, v.merged) :: mergedEntries entries

end

namespace Value.Json

open Text

/-! ### Strings -/

/-- Where a character of JSON text stands: outside strings, inside one, or behind a backslash in one. -/
inductive Quoting where
  | outside
  | inside
  | escaped
deriving DecidableEq, Repr

/-- Where the next character stands, unless it is a line end that cannot stand here: the only one outside strings is a
line feed, and inside there are separators only. -/
def Quoting.next? (q : Quoting) (c : Char) : Option Quoting :=
  match q with
  | outside => if c = '"' then some inside else if isLineEnd c && c != '\n' then none else some outside
  | inside =>
    if c = '"' then some outside
    else if c = '\\' then some escaped
    else if isLineEnd c && !isSeparator c then none
    else some inside
  | escaped => if isLineEnd c then none else some inside

private theorem isLineEnd_endChar (c : Char) : isLineEnd (endChar c) = isLineEnd c := by
  unfold endChar
  split
  · rename_i h
    rw [h]
    decide
  · rfl

private theorem Quoting.next?_eq {q r r' : Quoting} {c d : Char} (hc : q.next? c = some r) (hd : q.next? d = some r')
    (h : endChar c = endChar d) : r = r' ∧ mergeChar c = mergeChar d := by
  have hends : isLineEnd c = isLineEnd d := by rw [← isLineEnd_endChar c, ← isLineEnd_endChar d, h]
  cases hend : isLineEnd c with
  | false =>
    rw [hend] at hends
    simp only [endChar, hend, ← hends, Bool.false_eq_true, ↓reduceIte] at h
    subst h
    exact ⟨Option.some.inj (hc.symm.trans hd), rfl⟩
  | true =>
    rw [hend] at hends
    have hquote {c : Char} (h : isLineEnd c = true) : c ≠ '"' ∧ c ≠ '\\' := by
      constructor <;> (rintro rfl; revert h; decide)
    cases q with
    | outside =>
      simp only [next?, (hquote hend).1, (hquote hends.symm).1, hend, ← hends, Bool.true_and, ↓reduceIte, bne_iff_ne,
        ite_not, Option.ite_none_right_eq_some] at hc hd
      obtain ⟨rfl, hr⟩ := hc
      obtain ⟨rfl, hr'⟩ := hd
      exact ⟨Option.some.inj (hr.symm ▸ hr'.symm ▸ rfl), rfl⟩
    | inside =>
      simp only [next?, hquote hend, hquote hends.symm, hend, ← hends, Bool.true_and, ↓reduceIte, Bool.not_eq_true',
        Option.ite_none_left_eq_some, Bool.not_eq_false] at hc hd
      obtain ⟨hsep, hr⟩ := hc
      obtain ⟨hsep', hr'⟩ := hd
      exact ⟨by cases hr; cases hr'; rfl, by rw [mergeChar, mergeChar, if_pos hsep, if_pos hsep']⟩
    | escaped => simp [next?, hend] at hc

/-- Texts in which line ends stand where they can are the same but for their separators when they are the same but for
their line ends. -/
private theorem map_mergeChar_eq {cs ds : List Char} {q r r' : Quoting} (hcs : cs.foldlM Quoting.next? q = some r)
    (hds : ds.foldlM Quoting.next? q = some r') (h : cs.map endChar = ds.map endChar) :
    cs.map mergeChar = ds.map mergeChar := by
  induction cs generalizing ds q with
  | nil =>
    rw [List.map_nil, eq_comm, List.map_eq_nil_iff] at h
    rw [h]
  | cons c cs ih =>
    obtain ⟨d, ds, rfl⟩ := List.exists_cons_of_ne_nil (l := ds) (by rintro rfl; cases h)
    obtain ⟨hc, hrest⟩ := List.cons.inj h
    rw [List.foldlM_cons] at hcs hds
    obtain ⟨q₁, hq₁, hcs⟩ := Option.bind_eq_some_iff.1 hcs
    obtain ⟨q₂, hq₂, hds⟩ := Option.bind_eq_some_iff.1 hds
    obtain ⟨rfl, hmerge⟩ := Quoting.next?_eq hq₁ hq₂ hc
    rw [List.map_cons, List.map_cons, hmerge, ih hcs hds hrest]

/-- The first text has whole strings only, and is the second one with one separator for all. -/
def Merges (cs ds : List Char) : Prop :=
  cs.foldlM Quoting.next? .outside = some .outside ∧ cs.map mergeChar = ds

private theorem Merges.append {cs cs' ds ds' : List Char} (h : Merges cs ds) (h' : Merges cs' ds') :
    Merges (cs ++ cs') (ds ++ ds') := by
  refine ⟨?_, by rw [List.map_append, h.2, h'.2]⟩
  rw [List.foldlM_append, h.1]
  exact h'.1

private theorem merges_of_forall {cs : List Char} (h : ∀ c ∈ cs, c ≠ '"' ∧ (c = '\n' ∨ isLineEnd c = false)) :
    Merges cs cs := by
  induction cs with
  | nil => exact ⟨rfl, rfl⟩
  | cons c cs ih =>
    obtain ⟨⟨hquote, hend⟩, hcs⟩ := List.forall_mem_cons.1 h
    have hc : Merges [c] [c] := by
      rcases hend with rfl | hend
      · exact ⟨by decide, by decide⟩
      · refine ⟨?_, by rw [List.map_singleton, mergeChar_of_not_isLineEnd hend]⟩
        simp [Quoting.next?, hquote, hend]
    exact hc.append (ih hcs)

/-- The line ends that are no controls are the separators. -/
private theorem isSeparator_of_isLineEnd {c : Char} (hcontrol : ¬c.toNat < 0x20) (h : isLineEnd c = true) :
    isSeparator c = true := by
  simp only [isLineEnd, Bool.or_eq_true, Bool.and_eq_true, decide_eq_true_eq, beq_iff_eq] at h
  have hcode : c.toNat = 0x85 ∨ c.toNat = 0x2028 ∨ c.toNat = 0x2029 := by omega
  rw [← Char.ofNat_toNat c]
  rcases hcode with hcode | hcode | hcode <;> (rw [hcode]; decide)

private theorem inside_encodeChar (c : Char) : (encodeChar c).foldlM Quoting.next? .inside = some .inside := by
  unfold encodeChar
  split_ifs with hquote hslash hn hr ht hb hf hcontrol
  all_goals try decide
  · have hcontrols : ∀ n < 0x20, ('\\' :: 'u' :: hexDigits 4 n).foldlM Quoting.next? .inside = some .inside := by
      decide
    exact hcontrols c.toNat hcontrol
  · have hend : (isLineEnd c && !isSeparator c) = false := by
      cases hc : isLineEnd c with
      | false => rfl
      | true => rw [isSeparator_of_isLineEnd hcontrol hc]; rfl
    simp [Quoting.next?, hquote, hslash, hend]

private theorem map_mergeChar_encodeChar (c : Char) : (encodeChar c).map mergeChar = encodeChar (mergeChar c) := by
  cases hsep : isSeparator c with
  | true =>
    simp only [isSeparator, Bool.or_eq_true, beq_iff_eq] at hsep
    rcases hsep with (rfl | rfl) | rfl <;> decide
  | false =>
    have hc : mergeChar c = c := if_neg (by simp [hsep])
    rw [hc]
    unfold encodeChar
    split_ifs with hquote hslash hn hr ht hb hf hcontrol
    all_goals try decide
    · have hcontrols : ∀ n < 0x20, ('\\' :: 'u' :: hexDigits 4 n).map mergeChar = '\\' :: 'u' :: hexDigits 4 n := by
        decide
      exact hcontrols c.toNat hcontrol
    · rw [List.map_singleton, hc]

private theorem merges_encodeText (s : String) : Merges (encodeText s) (encodeText (merge s)) := by
  have hinside (cs : List Char) : (cs.flatMap encodeChar).foldlM Quoting.next? .inside = some .inside := by
    induction cs with
    | nil => rfl
    | cons c cs ih =>
      rw [List.flatMap_cons, List.foldlM_append, inside_encodeChar]
      exact ih
  have hmap (cs : List Char) : (cs.flatMap encodeChar).map mergeChar = (cs.map mergeChar).flatMap encodeChar := by
    induction cs with
    | nil => rfl
    | cons c cs ih =>
      rw [List.flatMap_cons, List.map_append, map_mergeChar_encodeChar, ih, List.map_cons, List.flatMap_cons]
  have hquote : mergeChar '"' = '"' := by decide
  constructor
  · rw [encodeText, List.cons_append, List.foldlM_cons]
    show (s.toList.flatMap encodeChar ++ ['"']).foldlM Quoting.next? .inside = some .outside
    rw [List.foldlM_append, hinside]
    rfl
  · rw [encodeText, encodeText, merge, String.toList_ofList, List.cons_append, List.map_cons, List.map_append, hmap,
      List.map_singleton, hquote, List.cons_append]

/-! ### Values -/

private theorem merges_int (n : Int) : Merges (toString n).toList (toString n).toList := by
  have hdigit {c : Char} (h : c.isDigit = true) : c ≠ '"' ∧ (c = '\n' ∨ isLineEnd c = false) := by
    have hcode : 48 ≤ c.toNat ∧ c.toNat ≤ 57 := by
      simpa [Char.isDigit, UInt32.le_iff_toNat_le] using h
    refine ⟨?_, .inr (Bool.eq_false_iff.2 fun hend => ?_)⟩
    · rintro rfl
      cases h
    · simp only [isLineEnd, Bool.or_eq_true, Bool.and_eq_true, decide_eq_true_eq, beq_iff_eq] at hend
      omega
  have hdigits (k : Nat) : ∀ c ∈ Nat.toDigits 10 k, c ≠ '"' ∧ (c = '\n' ∨ isLineEnd c = false) :=
    fun c hc => hdigit (Nat.isDigit_of_mem_toDigits (by decide) (by decide) hc)
  refine merges_of_forall ?_
  cases n with
  | ofNat k =>
    rw [toList_ofNat]
    exact hdigits k
  | negSucc k =>
    rw [toList_negSucc]
    exact List.forall_mem_cons.2 ⟨by decide, hdigits (k + 1)⟩

private theorem merges_lead (width level : Nat) :
    Merges ((Layout.spaced width).lead level) ((Layout.spaced width).lead level) := by
  refine merges_of_forall fun c hc => ?_
  rcases List.mem_cons.1 hc with rfl | hc
  · decide
  · obtain ⟨unit, hunit, hc⟩ := List.mem_flatten.1 hc
    rw [List.eq_of_mem_replicate hunit] at hc
    rw [List.eq_of_mem_replicate hc]
    decide

private theorem merges_between (width level : Nat) :
    Merges ((Layout.spaced width).between level) ((Layout.spaced width).between level) := by
  have hcomma : Merges [','] [','] := ⟨rfl, rfl⟩
  exact hcomma.append (merges_lead width level)

private theorem merges_list {width : Nat} {items : List Value}
    (h : ∀ v ∈ items, ∀ level, Merges (encode (.spaced width) level v) (encode (.spaced width) level v.merged))
    (level : Nat) :
    Merges (encode (.spaced width) level (.list items)) (encode (.spaced width) level (Value.list items).merged) := by
  have hitems {items : List Value}
      (h : ∀ v ∈ items, ∀ level, Merges (encode (.spaced width) level v) (encode (.spaced width) level v.merged))
      (level : Nat) :
      Merges (encodeItems (.spaced width) level items) (encodeItems (.spaced width) level (mergedItems items)) := by
    induction items with
    | nil => exact ⟨rfl, rfl⟩
    | cons v items ih =>
      obtain ⟨hv, hrest⟩ := List.forall_mem_cons.1 h
      exact ((merges_between width level).append (hv level)).append (ih hrest)
  cases items with
  | nil => exact ⟨rfl, rfl⟩
  | cons v items =>
    obtain ⟨hv, hrest⟩ := List.forall_mem_cons.1 h
    have hopen : Merges ['['] ['['] := ⟨rfl, rfl⟩
    have hclose : Merges [']'] [']'] := ⟨rfl, rfl⟩
    exact ((((hopen.append (merges_lead width (level + 1))).append (hv (level + 1))).append
      (hitems hrest (level + 1))).append (merges_lead width level)).append hclose

private theorem merges_record {width : Nat} {entries : List (String × Value)}
    (h : ∀ e ∈ entries, ∀ level, Merges (encode (.spaced width) level e.2) (encode (.spaced width) level e.2.merged))
    (level : Nat) :
    Merges (encode (.spaced width) level (.record entries))
      (encode (.spaced width) level (Value.record entries).merged) := by
  have hcolon : Merges [':', ' '] [':', ' '] := ⟨rfl, rfl⟩
  have hentries {entries : List (String × Value)}
      (h : ∀ e ∈ entries, ∀ level, Merges (encode (.spaced width) level e.2) (encode (.spaced width) level e.2.merged))
      (level : Nat) :
      Merges (encodeEntries (.spaced width) level (textEntries entries))
        (encodeEntries (.spaced width) level (mergedEntries (textEntries entries))) := by
    induction entries with
    | nil => exact ⟨rfl, rfl⟩
    | cons e entries ih =>
      obtain ⟨he, hrest⟩ := List.forall_mem_cons.1 h
      exact (((merges_between width level).append (merges_encodeText e.1)).append (hcolon.append (he level))).append
        (ih hrest)
  cases entries with
  | nil => exact ⟨rfl, rfl⟩
  | cons e entries =>
    obtain ⟨he, hrest⟩ := List.forall_mem_cons.1 h
    have hopen : Merges ['\x7b'] ['\x7b'] := ⟨rfl, rfl⟩
    have hclose : Merges ['\x7d'] ['\x7d'] := ⟨rfl, rfl⟩
    exact (((((hopen.append (merges_lead width (level + 1))).append (merges_encodeText e.1)).append
      (hcolon.append (he (level + 1)))).append (hentries hrest (level + 1))).append
      (merges_lead width level)).append hclose

private theorem merges_encode (width : Nat) {v : Value} (h : v.Plain) :
    ∀ level, Merges (encode (.spaced width) level v) (encode (.spaced width) level v.merged) := by
  induction h with
  | null => exact fun _ => ⟨rfl, rfl⟩
  | bool b => cases b <;> exact fun _ => ⟨rfl, rfl⟩
  | int n => exact fun _ => merges_int n
  | text s => exact fun _ => merges_encodeText s
  | list _ ih => exact merges_list ih
  | record _ _ ih => exact merges_record ih

/-! ### Lines -/

private theorem linesFrom_cons {c : Char} (hc : c ≠ '\r') (line cs : List Char) :
    linesFrom line (c :: cs) = if isLineEnd c then line.reverse :: linesFrom [] cs else linesFrom (c :: line) cs := by
  rw [linesFrom]
  rintro cs rfl
  exact absurd rfl hc

/-- The lines of a text depend on where its line ends are, not on which ones they are. -/
private theorem linesFrom_map_endChar {cs : List Char} (h : '\r' ∉ cs) (line : List Char) :
    linesFrom line (cs.map endChar) = linesFrom line cs := by
  induction cs generalizing line with
  | nil => rfl
  | cons c cs ih =>
    obtain ⟨hc, hcs⟩ := not_or.1 (mt List.mem_cons.2 h)
    have hend : endChar c ≠ '\r' := by
      unfold endChar
      split
      · decide
      · exact Ne.symm hc
    rw [List.map_cons, linesFrom_cons hend, linesFrom_cons (Ne.symm hc), isLineEnd_endChar, ih hcs, ih hcs]
    split
    · rfl
    · rename_i hc
      rw [endChar, if_neg hc]

private theorem exists_linesFrom_eq (line : List Char) {cs : List Char} (h : line ≠ [] ∨ cs ≠ []) :
    ∃ first rest, linesFrom line cs = first :: rest := by
  fun_induction linesFrom line cs with
  | case1 line hline => simp_all
  | case2 line hline => exact ⟨_, _, rfl⟩
  | case3 line cs ih => exact ⟨_, _, rfl⟩
  | case4 line c cs hcr hc ih => exact ⟨_, _, rfl⟩
  | case5 line c cs hcr hc ih => exact ih (.inl (List.cons_ne_nil _ _))

/-- A text that does not end with a line end is its lines with line ends between them. -/
private theorem intercalate_linesFrom {cs : List Char} (h : '\r' ∉ cs) (hlast : ∀ c ∈ cs.getLast?, isLineEnd c = false)
    (line : List Char) : List.intercalate ['\n'] (linesFrom line cs) = line.reverse ++ cs.map endChar := by
  induction cs generalizing line with
  | nil =>
    rw [linesFrom]
    split
    · simp_all
    · simp
  | cons c cs ih =>
    obtain ⟨hc, hcs⟩ := not_or.1 (mt List.mem_cons.2 h)
    rw [linesFrom_cons (Ne.symm hc)]
    cases cs with
    | nil =>
      have hend : isLineEnd c = false := hlast c rfl
      simp [hend, linesFrom, endChar]
    | cons d cs =>
      have hrest := ih hcs (by simpa [List.getLast?_cons_cons] using hlast)
      cases hend : isLineEnd c with
      | true =>
        obtain ⟨first, rest, heq⟩ := exists_linesFrom_eq [] (.inr (List.cons_ne_nil d cs))
        have hrest := hrest []
        rw [heq] at hrest
        rw [if_pos rfl, heq, List.intercalate_cons_cons, hrest]
        simp [endChar, hend]
      | false =>
        rw [if_neg (by decide), hrest]
        simp [endChar, hend]

private theorem notMem_of_foldlM {cs : List Char} {q r : Quoting} (h : cs.foldlM Quoting.next? q = some r) :
    '\r' ∉ cs := by
  have hreturn (q : Quoting) : q.next? '\r' = none := by cases q <;> rfl
  induction cs generalizing q with
  | nil => simp
  | cons c cs ih =>
    rw [List.foldlM_cons] at h
    obtain ⟨q₁, hq₁, hcs⟩ := Option.bind_eq_some_iff.1 h
    refine fun hmem => (List.mem_cons.1 hmem).elim ?_ (ih hcs)
    rintro rfl
    rw [hreturn] at hq₁
    cases hq₁

private theorem getLast?_encode_record (layout : Layout) (level : Nat) (entries : List (String × Value)) :
    (encode layout level (.record entries)).getLast? = some '\x7d' := by
  cases entries with
  | nil => rfl
  | cons e entries => exact List.getLast?_concat

private theorem map_endChar_map_mergeChar (cs : List Char) : (cs.map mergeChar).map endChar = cs.map endChar := by
  rw [List.map_map]
  exact List.map_congr_left fun c _ => endChar_mergeChar c

/-- Records written over several lines have the same lines when they are the same but for the separators in their
texts. -/
theorem lines_write_eq_iff {width : Nat} {es fs : List (String × Value)} (he : (Value.record es).Plain)
    (hf : (Value.record fs).Plain) (he' : (Value.record es).merged.Plain) (hf' : (Value.record fs).merged.Plain) :
    lines (write (.spaced width) (.record es)) = lines (write (.spaced width) (.record fs)) ↔
      (Value.record es).merged = (Value.record fs).merged := by
  obtain ⟨hquoted, hmerged⟩ := merges_encode width he 0
  obtain ⟨hquoted', hmerged'⟩ := merges_encode width hf 0
  have hreturn := notMem_of_foldlM hquoted
  have hreturn' := notMem_of_foldlM hquoted'
  have hlast (entries : List (String × Value)) :
      ∀ c ∈ (encode (.spaced width) 0 (.record entries)).getLast?, isLineEnd c = false := by
    rw [getLast?_encode_record]
    rintro c ⟨⟩
    rfl
  unfold lines write
  rw [String.toList_ofList, String.toList_ofList]
  constructor
  · intro h
    have hlines := List.map_injective_iff.2 (fun _ _ => String.ofList_injective) h
    have hends := congrArg (List.intercalate ['\n']) hlines
    rw [intercalate_linesFrom hreturn (hlast es), intercalate_linesFrom hreturn' (hlast fs)] at hends
    have hencode := map_mergeChar_eq hquoted hquoted' (by simpa using hends)
    rw [hmerged, hmerged'] at hencode
    have hread := Value.Json.read?_write (Layout.blank_spaced width) he'
    rw [write, hencode] at hread
    exact Option.some.inj (hread.symm.trans (Value.Json.read?_write (Layout.blank_spaced width) hf'))
  · intro h
    have hends :
        (encode (.spaced width) 0 (.record es)).map endChar = (encode (.spaced width) 0 (.record fs)).map endChar := by
      rw [← map_endChar_map_mergeChar, hmerged, h, ← hmerged', map_endChar_map_mergeChar]
    rw [← linesFrom_map_endChar hreturn, hends, linesFrom_map_endChar hreturn']

end Value.Json

end MarkdownTree
