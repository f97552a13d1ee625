import Mathlib.Tactic.SplitIfs
import MarkdownTree.Draft.Codec

/-!
# Faults of decoding

Decoding a serialized tree looks at its entries from the first to the last, and goes into the children where it meets
them.  Whatever is wrong with a node leads to a fault of decoding, but for one thing: a kind that is a list or a map
cannot be looked up at all.  So decoding ends with another fault exactly when it comes to a node with such a kind and has
found nothing wrong before (`decode_cases`), and so does reading a JSON text (`ofJson_cases`).
-/

namespace MarkdownTree

/-- The fault says that a serialized tree is none. -/
def Fault.isDecoding : Fault → Bool
  | decode _ | construct .. => true
  | _ => false

namespace Draft

/-- An entry of a node that decoding gets past: its children are nodes that decode, and its position is one. -/
def Passes : Value × Value → Prop
  | (.text key, value) =>
    (key = "children" → ∃ items, value = .list items ∧ ∀ item ∈ items, ∃ t, decode item = .ok t) ∧
      (key = "position" → value = .null ∨ (Place.decode? value).isSome = true)
  | _ => False

/-- The value is a node whose kind is a list or a map, or one of a known kind that has such a node below it and nothing
wrong before. -/
inductive Trips : Value → Prop
  | here {entries : List (Value × Value)} {name : Value} (hname : (Value.map entries).get? "kind" = some name)
    (hkey : name.isKey = false) : Trips (.map entries)
  | further {kind : Kind} {before after : List (Value × Value)} {done more : List Value} {item : Value}
    (hname : (Value.map (before ++ (.text "children", .list (done ++ item :: more)) :: after)).get? "kind"
      = some (.text kind.name))
    (hbefore : ∀ entry ∈ before, Passes entry) (hdone : ∀ v ∈ done, ∃ t, decode v = .ok t) (hitem : Trips item) :
    Trips (.map (before ++ (.text "children", .list (done ++ item :: more)) :: after))

/-! ### Getting past entries -/

private theorem exists_decodeList_iff {vs : List Value} :
    (∃ ts, decodeList vs = .ok ts) ↔ ∀ v ∈ vs, ∃ t, decode v = .ok t := by
  induction vs with
  | nil => simp [decodeList]
  | cons v vs ih =>
    rw [List.forall_mem_cons, ← ih, decodeList]
    constructor
    · rintro ⟨ts, h⟩
      cases hv : decode v with
      | error f =>
        rw [hv] at h
        cases h
      | ok t =>
        cases hvs : decodeList vs with
        | error f =>
          rw [hv, hvs] at h
          cases h
        | ok us => exact ⟨⟨t, rfl⟩, us, rfl⟩
    · rintro ⟨⟨t, ht⟩, ts, hts⟩
      rw [ht, hts]
      exact ⟨t :: ts, rfl⟩

private theorem decodeList_append {done : List Value} (h : ∀ v ∈ done, ∃ t, decode v = .ok t) {rest : List Value}
    {f : Fault}
    (hrest : decodeList rest = .error f) : decodeList (done ++ rest) = .error f := by
  induction done with
  | nil => exact hrest
  | cons v done ih =>
    obtain ⟨⟨t, ht⟩, hdone⟩ := List.forall_mem_cons.1 h
    rw [List.cons_append, decodeList, ht, ih hdone]
    rfl

/-- An entry that is no row of children can be added, or what is wrong with it is a fault of decoding. -/
private theorem add_cases {key : String} {value : Value} (hrow : ∀ items, value = .list items → key ≠ "children")
    (kind : Kind)
    (parts : Parts) :
    (∃ parts', parts.add kind key value = .ok parts') ∧ Passes (.text key, value) ∨
      ∃ f, parts.add kind key value = .error f ∧ f.isDecoding = true ∧ ¬Passes (.text key, value) := by
  unfold Parts.add Passes
  split_ifs with hquiet hchildren hposition hnull
  · refine .inl ⟨⟨_, rfl⟩, ?_, ?_⟩
    · rintro rfl
      exact absurd hquiet (by decide)
    · rintro rfl
      exact absurd hquiet (by decide)
  · refine .inr ⟨_, rfl, rfl, fun h => ?_⟩
    obtain ⟨items, hitems, -⟩ := h.1 hchildren
    exact hrow items hitems hchildren
  · exact .inl ⟨⟨_, rfl⟩, fun h => absurd h hchildren, fun _ => .inl hnull⟩
  · cases hplace : Place.decode? value with
    | some place => exact .inl ⟨⟨_, rfl⟩, fun h => absurd h hchildren, fun _ => .inr (by rw [hplace]; rfl)⟩
    | none => exact .inr ⟨_, rfl, rfl, fun h => (h.2 hposition).elim hnull (by simp [hplace])⟩
  · exact .inl ⟨⟨_, rfl⟩, fun h => absurd h hchildren, fun h => absurd h hposition⟩

private theorem decodeEntries_children {items : List Value} {ts : List Draft} (h : decodeList items = .ok ts)
    (kind : Kind)
    (parts : Parts) (rest : List (Value × Value)) :
    decodeEntries kind parts ((.text "children", .list items) :: rest) =
      decodeEntries kind { parts with children := some ts } rest := by
  rw [decodeEntries, h]
  rfl

private theorem decodeEntries_add {key : String} {value : Value}
    (hrow : ∀ items, value = .list items → key ≠ "children")
    (kind : Kind) (parts : Parts) (rest : List (Value × Value)) :
    decodeEntries kind parts ((.text key, value) :: rest) =
      parts.add kind key value >>= fun parts => decodeEntries kind parts rest := by
  rw [decodeEntries]
  exact hrow

private theorem exists_decodeEntries_cons {entry : Value × Value} (h : Passes entry) (kind : Kind) (parts : Parts) :
    ∃ parts', ∀ rest, decodeEntries kind parts (entry :: rest) = decodeEntries kind parts' rest := by
  obtain ⟨key, value⟩ := entry
  cases key with
  | text key =>
    by_cases hrow : ∀ items, value = .list items → key ≠ "children"
    · rcases add_cases hrow kind parts with ⟨⟨parts', hparts⟩, -⟩ | ⟨f, -, -, hnot⟩
      · exact ⟨parts', fun rest => by rw [decodeEntries_add hrow, hparts]; rfl⟩
      · exact absurd h hnot
    · obtain ⟨items, rfl, rfl⟩ : ∃ items, value = .list items ∧ key = "children" := by simpa using hrow
      obtain ⟨_, heq, hitems⟩ := h.1 rfl
      cases heq
      obtain ⟨ts, hts⟩ := exists_decodeList_iff.2 hitems
      exact ⟨_, decodeEntries_children hts kind parts⟩
  | _ => exact h.elim

private theorem decodeEntries_append {before : List (Value × Value)} (h : ∀ entry ∈ before, Passes entry) (kind : Kind)
    (parts : Parts) : ∃ parts', ∀ rest, decodeEntries kind parts (before ++ rest) = decodeEntries kind parts' rest := by
  induction before generalizing parts with
  | nil => exact ⟨parts, fun _ => rfl⟩
  | cons entry before ih =>
    obtain ⟨hentry, hbefore⟩ := List.forall_mem_cons.1 h
    obtain ⟨parts₁, hfirst⟩ := exists_decodeEntries_cons hentry kind parts
    obtain ⟨parts₂, hrest⟩ := ih hbefore parts₁
    exact ⟨parts₂, fun rest => by rw [List.cons_append, hfirst, hrest]⟩

/-! ### Where decoding trips -/

private theorem decodeKind_cases (name : Value) :
    (∃ kind, decodeKind name = .ok kind ∧ name = .text kind.name) ∨
      (∃ f, decodeKind name = .error f ∧ f.isDecoding = true) ∧ name.isKey = true ∨
      decodeKind name = .error .mistyped ∧ name.isKey = false := by
  cases name with
  | text s =>
    cases hkind : Kind.ofName? s with
    | some kind =>
      have hname : kind.name = s := by simpa using List.find?_some hkind
      exact .inl ⟨kind, by simp [decodeKind, kindOf, hkind, Except.mapError], by rw [hname]⟩
    | none =>
      refine .inr (.inl ⟨⟨.decode (.unknownKind (.text s)), ?_, rfl⟩, rfl⟩)
      simp [decodeKind, kindOf, hkind, Except.mapError]
  | list | map => exact .inr (.inr ⟨rfl, rfl⟩)
  | _ => exact .inr (.inl ⟨⟨_, rfl, rfl⟩, rfl⟩)

private theorem isDecoding_of_make {kind : Kind} {parts : Parts} {f : Fault} (h : parts.make kind = .error f) :
    f.isDecoding = true := by
  unfold Parts.make at h
  split at h
  · cases h
    rfl
  · cases hmake : Draft.make kind parts.given parts.place (parts.children.getD []) with
    | ok t =>
      rw [hmake] at h
      cases h
    | error g =>
      rw [hmake] at h
      cases h
      rfl

private theorem decode_eq_bind {entries : List (Value × Value)} {name : Value}
    (h : (Value.map entries).get? "kind" = some name) :
    decode (.map entries) = decodeKind name >>= fun kind =>
      decodeEntries kind ⟨[], none, none⟩ entries >>= fun parts => parts.make kind := by
  rw [decode, h]

/-- Where decoding trips, no fault of decoding is found. -/
private theorem Trips.decode_eq {v : Value} (h : Trips v) : decode v = .error .mistyped := by
  induction h with
  | @here entries name hname hkey =>
    rcases decodeKind_cases name with ⟨kind, -, rfl⟩ | ⟨-, htrue⟩ | ⟨hkind, -⟩
    · cases hkey
    · rw [hkey] at htrue
      cases htrue
    · rw [decode_eq_bind hname, hkind]
      rfl
  | @further kind before after done more item hname hbefore hdone _ ih =>
    have hkind : decodeKind (.text kind.name) = .ok kind := by
      simp [decodeKind, kindOf, Kind.ofName?_name, Except.mapError]
    obtain ⟨parts, hparts⟩ := decodeEntries_append hbefore kind ⟨[], none, none⟩
    have hitems : decodeList (done ++ item :: more) = .error .mistyped :=
      decodeList_append hdone (by rw [decodeList, ih]; rfl)
    rw [decode_eq_bind hname, hkind]
    show (decodeEntries kind ⟨[], none, none⟩ _ >>= _) = _
    rw [hparts, decodeEntries, hitems]
    rfl

mutual

/-- A fault that is none of decoding comes from where decoding trips. -/
private theorem trips_of_decode : ∀ {v : Value} {f : Fault}, decode v = .error f → f.isDecoding = false → Trips v
  | .map entries, f, h, hf => by
    cases hname : (Value.map entries).get? "kind" with
    | none =>
      rw [decode, hname] at h
      cases h
      cases hf
    | some name =>
      rw [decode_eq_bind hname] at h
      rcases decodeKind_cases name with ⟨kind, hkind, rfl⟩ | ⟨⟨g, hkind, hg⟩, -⟩ | ⟨-, hkey⟩
      · have hentries : (decodeEntries kind ⟨[], none, none⟩ entries >>= fun parts => parts.make kind) = .error f := by
          rw [← h, hkind]
          rfl
        cases hparts : decodeEntries kind ⟨[], none, none⟩ entries with
        | ok parts =>
          rw [hparts] at hentries
          rw [isDecoding_of_make hentries] at hf
          cases hf
        | error g =>
          rw [hparts] at hentries
          cases hentries
          obtain ⟨before, done, item, more, after, rfl, hbefore, hdone, hitem⟩ := trips_of_decodeEntries hparts hf
          exact .further hname hbefore hdone hitem
      · rw [hkind] at h
        cases h
        rw [hg] at hf
        cases hf
      · exact .here hname hkey
  | .null, _, h, hf | .bool _, _, h, hf | .int _, _, h, hf | .float _, _, h, hf | .text _, _, h, hf
  | .list _, _, h, hf => by
    rw [decode] at h
    · cases h
      cases hf
    · nofun

private theorem trips_of_decodeEntries : ∀ {entries : List (Value × Value)} {kind : Kind} {parts : Parts} {f : Fault},
    decodeEntries kind parts entries = .error f → f.isDecoding = false →
      ∃ before done item more after, entries = before ++ (.text "children", .list (done ++ item :: more)) :: after ∧
        (∀ entry ∈ before, Passes entry) ∧ (∀ v ∈ done, ∃ t, decode v = .ok t) ∧ Trips item
  | [], _, _, _, h, _ => by
    rw [decodeEntries] at h
    cases h
  | (key, value) :: rest, kind, parts, f, h, hf => by
    by_cases hpass : Passes (key, value)
    · -- What is tripped over comes later.
      obtain ⟨parts', hrest⟩ := exists_decodeEntries_cons hpass kind parts
      rw [hrest] at h
      obtain ⟨before, done, item, more, after, rfl, hbefore, hdone, hitem⟩ := trips_of_decodeEntries h hf
      exact ⟨(key, value) :: before, done, item, more, after, rfl, List.forall_mem_cons.2 ⟨hpass, hbefore⟩, hdone, hitem⟩
    · cases key with
      | text key =>
        by_cases hrow : ∀ items, value = .list items → key ≠ "children"
        · rcases add_cases hrow kind parts with ⟨-, hyes⟩ | ⟨g, hadd, hg, -⟩
          · exact absurd hyes hpass
          · rw [decodeEntries_add hrow, hadd] at h
            cases h
            rw [hg] at hf
            cases hf
        · obtain ⟨items, rfl, rfl⟩ : ∃ items, value = .list items ∧ key = "children" := by simpa using hrow
          cases hitems : decodeList items with
          | ok ts => exact absurd ⟨fun _ => ⟨items, rfl, exists_decodeList_iff.1 ⟨ts, hitems⟩⟩, nofun⟩ hpass
          | error g =>
            rw [decodeEntries, hitems] at h
            cases h
            obtain ⟨done, item, more, rfl, hdone, hitem⟩ := trips_of_decodeList hitems hf
            exact ⟨[], done, item, more, rest, rfl, by simp, hdone, hitem⟩
      | _ =>
        rw [decodeEntries] at h
        · cases h
          cases hf
        · nofun
        · nofun

private theorem trips_of_decodeList : ∀ {vs : List Value} {f : Fault}, decodeList vs = .error f → f.isDecoding = false →
    ∃ done item more, vs = done ++ item :: more ∧ (∀ v ∈ done, ∃ t, decode v = .ok t) ∧ Trips item
  | [], _, h, _ => by
    rw [decodeList] at h
    cases h
  | v :: vs, f, h, hf => by
    rw [decodeList] at h
    cases hv : decode v with
    | error g =>
      rw [hv] at h
      cases h
      exact ⟨[], v, vs, rfl, by simp, trips_of_decode hv hf⟩
    | ok t =>
      rw [hv] at h
      cases hvs : decodeList vs with
      | error g =>
        rw [hvs] at h
        cases h
        obtain ⟨done, item, more, rfl, hdone, hitem⟩ := trips_of_decodeList hvs hf
        exact ⟨v :: done, item, more, rfl, List.forall_mem_cons.2 ⟨⟨t, hv⟩, hdone⟩, hitem⟩
      | ok ts =>
        rw [hvs] at h
        cases h

end

/-! ### Outcomes -/

/-- The outcome is a tree or a fault of decoding. -/
def Concludes (x : Except Fault Draft) : Prop :=
  (∃ t, x = .ok t) ∨ ∃ f, x = .error f ∧ f.isDecoding = true

/-- The map has no version, or the one that is read. -/
def IsCurrent (entries : List (Value × Value)) : Prop :=
  ∀ v, (Value.map entries).get? "schema_version" = some v → v = .null ∨ v.same layoutVersion = true

/-- The text is that of a map of the version that is read, and decoding trips over it. -/
def TripsText (s : String) : Prop :=
  ∃ entries, Value.Json.read? s = some (.map entries) ∧ IsCurrent entries ∧ Trips (.map entries)

private theorem not_concludes_mistyped : ¬Concludes (.error .mistyped) := by
  rintro (⟨t, ht⟩ | ⟨f, hf, hdecoding⟩)
  · cases ht
  · cases hf
    cases hdecoding

theorem decode_cases (v : Value) : Concludes (decode v) ∧ ¬Trips v ∨ decode v = .error .mistyped ∧ Trips v := by
  by_cases htrips : Trips v
  · exact .inr ⟨htrips.decode_eq, htrips⟩
  · refine .inl ⟨?_, htrips⟩
    cases h : decode v with
    | ok t => exact .inl ⟨t, rfl⟩
    | error f =>
      cases hf : f.isDecoding with
      | true => exact .inr ⟨f, rfl, hf⟩
      | false => exact absurd (trips_of_decode h hf) htrips

private theorem ofJson_of_isCurrent {s : String} {entries : List (Value × Value)}
    (hread : Value.Json.read? s = some (.map entries)) (h : IsCurrent entries) : ofJson s = decode (.map entries) := by
  rw [ofJson, hread]
  dsimp only
  split
  · rfl
  · rfl
  · rename_i v hnull hversion
    exact if_pos ((h v hversion).resolve_left hnull)

private theorem ofJson_of_not_isCurrent {s : String} {entries : List (Value × Value)}
    (hread : Value.Json.read? s = some (.map entries)) (h : ¬IsCurrent entries) :
    ∃ v, ofJson s = .error (.decode (.version v)) := by
  obtain ⟨v, hversion, hnull, hsame⟩ :
      ∃ v, (Value.map entries).get? "schema_version" = some v ∧ v ≠ .null ∧ ¬v.same layoutVersion = true := by
    simpa [IsCurrent] using h
  refine ⟨v, ?_⟩
  rw [ofJson, hread]
  dsimp only
  rw [hversion]
  split
  · contradiction
  · rename_i hsome
    exact absurd (Option.some.inj hsome) hnull
  · rename_i hsome
    cases hsome
    exact if_neg hsame

/-- A JSON text decodes like the value that it writes, once its version has been looked at. -/
theorem ofJson_cases (s : String) :
    Concludes (ofJson s) ∧ ¬TripsText s ∨ ofJson s = .error .mistyped ∧ TripsText s := by
  have hrefused {fault : DecodeFault} (h : ofJson s = .error (.decode fault)) : Concludes (ofJson s) :=
    .inr ⟨_, h, rfl⟩
  have htrips {entries : List (Value × Value)} (hread : Value.Json.read? s = some (.map entries)) :
      TripsText s ↔ IsCurrent entries ∧ Trips (.map entries) := by
    rw [TripsText, hread]
    simp
  cases hread : Value.Json.read? s with
  | none => exact .inl ⟨hrefused (by rw [ofJson, hread]), by simp [TripsText, hread]⟩
  | some v =>
    cases v with
    | map entries =>
      rw [htrips hread]
      by_cases hcurrent : IsCurrent entries
      · rw [ofJson_of_isCurrent hread hcurrent, and_iff_right hcurrent]
        exact decode_cases _
      · obtain ⟨v, hv⟩ := ofJson_of_not_isCurrent hread hcurrent
        exact .inl ⟨hrefused hv, fun h => hcurrent h.1⟩
    | _ => exact .inl ⟨hrefused (by rw [ofJson, hread]), by simp [TripsText, hread]⟩

/-- Decoding a value, and reading a JSON text, ends with a tree or a fault of decoding, unless it trips over a node whose
kind is a list or a map. -/
theorem decode_concludes_or_trips (v : Value) (s : String) :
    (Concludes (decode v) ∧ ¬Trips v ∨ decode v = .error .mistyped ∧ Trips v) ∧
      (Concludes (ofJson s) ∧ ¬TripsText s ∨ ofJson s = .error .mistyped ∧ TripsText s) :=
  ⟨decode_cases v, ofJson_cases s⟩

/-- A node whose kind is a list. -/
theorem not_concludes_list : ¬Concludes (decode (.map [(.text "kind", .list [])])) := by
  have htrips : Trips (.map [(.text "kind", .list [])]) := .here rfl rfl
  rw [htrips.decode_eq]
  exact not_concludes_mistyped

end Draft

end MarkdownTree
