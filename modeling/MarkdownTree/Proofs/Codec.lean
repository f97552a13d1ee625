import MarkdownTree.Proofs.Json
import MarkdownTree.Draft.Codec

/-!
# Serialized trees read back

A tree whose nodes have been made by `Draft.make` is what its serialized form describes.  The fields of such a node are
the fields of its kind, and making a node of them again changes nothing (`Settled`), so a node comes back when its
children do (`Built.comesBack`), whether the positions are written or left out.  The whole value is plain, hence the
same holds for JSON texts (`ofJson_toJson`).
-/

namespace MarkdownTree

/-! ### Fields -/

/-- The fields of a node are told by their names. -/
private theorem map_fieldOf {fields : List Field} (hnames : (fields.map (·.1)).Nodup) :
    (fields.map (·.1)).map (fun name => (name, fieldOf fields name)) = fields := by
  induction fields with
  | nil => rfl
  | cons field fields ih =>
    obtain ⟨key, v⟩ := field
    rw [List.map_cons, List.nodup_cons] at hnames
    have hhead : fieldOf ((key, v) :: fields) key = v := by simp [fieldOf, List.lookup]
    have htail : (fields.map (·.1)).map (fun name => (name, fieldOf ((key, v) :: fields) name)) = fields := by
      refine Eq.trans (List.map_congr_left fun name hname => ?_) (ih hnames.2)
      have hne : (name == key) = false := beq_false_of_ne fun heq => hnames.1 (heq ▸ hname)
      simp [fieldOf, List.lookup, hne]
    rw [List.map_cons, List.map_cons, hhead, htail]

private theorem setField_of_notMem {name : String} (v : Value) {fields : List Field} (h : name ∉ fields.map (·.1)) :
    setField name v fields = fields := by
  refine (List.map_congr_left fun field hfield => if_neg fun heq => h ?_).trans (List.map_id fields)
  exact heq ▸ List.mem_map_of_mem hfield

/-- Fields changed one after the other, each in its place. -/
private theorem foldl_setField {fields base : List Field} (before : List Field)
    (hnames : base.map (·.1) = fields.map (·.1)) (hnodup : ((before ++ fields).map (·.1)).Nodup) :
    fields.foldl (fun fields field => setField field.1 field.2 fields) (before ++ base) = before ++ fields := by
  induction fields generalizing before base with
  | nil => rw [List.map_eq_nil_iff.1 hnames, List.foldl_nil]
  | cons field fields ih =>
    obtain ⟨old, base, rfl⟩ := List.exists_cons_of_ne_nil (l := base) (by rintro rfl; cases hnames)
    simp only [List.map_cons, List.cons.injEq] at hnames
    have hcons : before ++ field :: fields = before ++ [field] ++ fields := by simp
    have hbefore : field.1 ∉ before.map (·.1) := by
      rw [List.map_append, List.nodup_append] at hnodup
      exact fun hmem => hnodup.2.2 _ hmem _ (.head _) rfl
    have hafter : field.1 ∉ base.map (·.1) := by
      rw [List.map_append, List.nodup_append] at hnodup
      exact hnames.2 ▸ (List.nodup_cons.1 hnodup.2.1).1
    have hset : setField field.1 field.2 (before ++ old :: base) = before ++ [field] ++ base := by
      have hmap : setField field.1 field.2 (before ++ old :: base) =
          setField field.1 field.2 before ++ setField field.1 field.2 [old] ++ setField field.1 field.2 base := by
        simp [setField]
      rw [hmap, setField_of_notMem field.2 hbefore, setField_of_notMem field.2 hafter]
      simp [setField, hnames.1]
    rw [hcons] at hnodup ⊢
    rw [List.foldl_cons, hset, ih (before ++ [field]) hnames.2 hnodup]

namespace Kind

/-- The fields of a kind, its children apart, stand in the same order everywhere. -/
private theorem defaults_names (k : Kind) : k.defaults.map (·.1) = k.fieldNames.filter (· ≠ "children") := by
  cases k <;> decide

/-- The keys of a serialized node of a kind, of which none comes twice. -/
private theorem nodup_keys (k : Kind) : ("schema_version" :: "kind" :: k.fieldNames ++ ["position"]).Nodup := by
  cases k <;> decide

private theorem data_notMem (k : Kind) : "data" ∉ k.fieldNames := by
  cases k <;> decide

theorem children_mem (k : Kind) : "children" ∈ k.fieldNames ↔ k.isParent = true := by
  cases k <;> decide

private theorem nodup_defaults (k : Kind) : (k.defaults.map (·.1)).Nodup := by
  cases k <;> decide

private theorem isSome_lookup_defaults {k : Kind} {name : String} (h : name ∈ k.defaults.map (·.1)) :
    (k.defaults.lookup name).isSome = true := by
  have hall : ∀ name ∈ k.defaults.map (·.1), (k.defaults.lookup name).isSome = true := by
    cases k <;> decide
  exact hall name h

end Kind

/-! ### Equal values -/

private theorem Value.sameEntries_textEntries {entries all : List (String × Value)} (hall : entries ⊆ all)
    (h : ∀ e ∈ entries, e.2.same e.2 = true) : sameEntries (textEntries entries) (textEntries all) = true := by
  induction entries with
  | nil => rfl
  | cons entry entries ih =>
    have hentry : (textEntries all).any (fun e => same (.text entry.1) e.1 && same entry.2 e.2) = true := by
      refine List.any_eq_true.2 ⟨(.text entry.1, entry.2), List.mem_map_of_mem (hall (.head _)), ?_⟩
      simp [same, h entry (.head _)]
    have hrest := ih (fun e he => hall (.tail _ he)) fun e he => h e (.tail _ he)
    show (_ && sameEntries (textEntries entries) (textEntries all)) = true
    rw [hrest, hentry]
    rfl

theorem Value.sameList_self {vs : List Value} (h : ∀ v ∈ vs, v.same v = true) : sameList vs vs = true := by
  induction vs with
  | nil => rfl
  | cons v vs ih => rw [sameList, h v (.head _), ih fun w hw => h w (.tail _ hw), Bool.and_self]

/-- A plain value is equal to itself. -/
theorem Value.Plain.same_self {v : Value} (h : v.Plain) : v.same v = true := by
  induction h with
  | null => rfl
  | bool b => cases b <;> decide
  | int n => simp [Value.same, Value.sameNumber, Value.size?, Size.same, Size.ofInt]
  | text s => simp [Value.same]
  | list _ ih => exact Value.sameList_self ih
  | @record entries _ _ ih =>
    show (_ && Value.sameEntries (Value.textEntries entries) (Value.textEntries entries)) = true
    rw [Value.sameEntries_textEntries (List.Subset.refl _) ih, BEq.rfl, Bool.and_self]

/-! ### Places -/

/-- The marks of a place that may be given to a node: they do not come in the wrong order. -/
structure Place.Accepted (p : Place) : Prop where
  start : p.start.line.Plain ∧ p.start.column.Plain ∧ p.start.offset.Plain
  stop : p.stop.line.Plain ∧ p.stop.column.Plain ∧ p.stop.offset.Plain
  order : p.stop.offset.before? p.start.offset = some false

theorem Mark.decode?_encode (m : Mark) : Mark.decode? m.encode = some m := rfl

private theorem Place.decode?_encode {p : Place} (h : p.Accepted) : Place.decode? p.encode = some p := by
  have hstart : p.encode.get? "start" = some p.start.encode := rfl
  have hstop : p.encode.get? "end" = some p.stop.encode := rfl
  simp only [Place.decode?, hstart, hstop, Option.bind_eq_bind, Option.bind_some, Mark.decode?_encode, h.order]
  rfl

theorem Mark.encode_plain {m : Mark} (h : m.line.Plain ∧ m.column.Plain ∧ m.offset.Plain) : m.encode.Plain := by
  refine .record (by simp) ?_
  simpa using h

private theorem Place.encode_plain {p : Place} (h : p.Accepted) : p.encode.Plain := by
  refine .record (by simp) ?_
  simpa using ⟨Mark.encode_plain h.start, Mark.encode_plain h.stop⟩

private theorem Place.sameOption_self {place : Option Place} (h : ∀ p ∈ place, p.Accepted) :
    Place.sameOption place place = true := by
  cases place with
  | none => rfl
  | some p =>
    obtain ⟨⟨ha, hb, hc⟩, ⟨hd, he, hf⟩, -⟩ := h p rfl
    simp [Place.sameOption, Mark.same, ha.same_self, hb.same_self, hc.same_self, hd.same_self, he.same_self, hf.same_self]

namespace Draft

/-- The fields of a node that has been made: those of its kind, which making it again leaves as they are. -/
structure Settled (kind : Kind) (fields : List Field) : Prop where
  names : fields.map (·.1) = kind.defaults.map (·.1)
  plain : ∀ field ∈ fields, field.2.Plain
  check : check kind fields = .ok fields

private theorem Settled.nodup {kind : Kind} {fields : List Field} (h : Settled kind fields) :
    (fields.map (·.1)).Nodup :=
  h.names ▸ kind.nodup_defaults

private theorem Settled.fieldsFor {kind : Kind} {fields : List Field} (h : Settled kind fields) :
    fieldsFor kind fields = .ok fields := by
  have hknown : (fields.all fun field => (kind.defaults.lookup field.1).isSome) = true :=
    List.all_eq_true.2 fun field hfield =>
      Kind.isSome_lookup_defaults (h.names ▸ List.mem_map_of_mem hfield)
  rw [Draft.fieldsFor, if_pos hknown]
  have hsame := foldl_setField [] h.names.symm h.nodup
  rw [List.nil_append, List.nil_append] at hsame
  rw [hsame, h.check]

private theorem setField_plain {name : String} {v : Value} (hv : v.Plain) {fields : List Field}
    (h : ∀ field ∈ fields, field.2.Plain) : ∀ field ∈ setField name v fields, field.2.Plain := by
  intro field hfield
  obtain ⟨old, hold, rfl⟩ := List.mem_map.1 hfield
  split
  · exact hv
  · exact h old hold

/-- A start put in where there was none is one that a list may have. -/
private theorem checkStart_setField {fields : List Field} (hstart : "start" ∈ fields.map (·.1))
    (hordered : (fieldOf fields "ordered").truthy = true) :
    checkStart (setField "start" (.int 1) fields) = .ok (setField "start" (.int 1) fields) := by
  have hnew : fieldOf (setField "start" (.int 1) fields) "start" = .int 1 := by
    rw [fieldOf, lookup_setField _ _ hstart, Option.getD_some]
  have hkept : fieldOf (setField "start" (.int 1) fields) "ordered" = fieldOf fields "ordered" := by
    rw [fieldOf, fieldOf, lookup_setField_ne (by decide)]
  rw [checkStart, hnew, hkept, hordered]
  rfl

/-- What a kind insists on holds of what it makes of fields. -/
private theorem settled_check {kind : Kind} {given fields : List Field}
    (hnames : given.map (·.1) = kind.defaults.map (·.1))
    (hplain : ∀ field ∈ given, field.2.Plain) (h : Draft.check kind given = .ok fields) : Settled kind fields := by
  have hsame (heq : given = fields) : Settled kind fields := by
    subst heq
    exact ⟨hnames, hplain, h⟩
  unfold Draft.check at h
  split at h
  · unfold checkDepth at h
    dsimp only at h
    split at h
    · cases h
    · split at h
      · exact hsame (Except.ok.inj h)
      · cases h
  · unfold checkStart at h
    dsimp only at h
    split_ifs at h with hstart hordered
    · obtain rfl := Except.ok.inj h
      refine ⟨(setField_names _ _ _).trans hnames, setField_plain (.int 1) hplain, ?_⟩
      exact checkStart_setField (hnames ▸ by decide) hordered
    · exact hsame (Except.ok.inj h)
    · split at h
      · cases h
      · split_ifs at h
        exact hsame (Except.ok.inj h)
  · exact hsame (Except.ok.inj h)

private theorem defaults_plain (k : Kind) : ∀ field ∈ k.defaults, field.2.Plain := by
  cases k <;> simp [Kind.defaults, Value.Plain.null, Value.Plain.bool, Value.Plain.int, Value.Plain.text]

private theorem settled_fieldsFor {kind : Kind} {given fields : List Field} (hplain : ∀ field ∈ given, field.2.Plain)
    (h : Draft.fieldsFor kind given = .ok fields) : Settled kind fields := by
  unfold Draft.fieldsFor at h
  split_ifs at h
  refine settled_check ?_ ?_ h
  · exact List.foldlRecOn given _ (motive := fun fields : List Field => fields.map (·.1) = kind.defaults.map (·.1)) rfl
      fun fields hfields field _ => (setField_names _ _ _).trans hfields
  · exact List.foldlRecOn given _ (motive := fun fields : List Field => ∀ field ∈ fields, field.2.Plain)
      (defaults_plain kind) fun fields hfields field hfield => setField_plain (hplain field hfield) hfields

/-! ### Trees -/

/-- A tree that nothing but `make` has made, from fields with plain values, be they the ones that its kinds ask for or
not. Only kinds that hold children are given any. -/
inductive Built : Draft → Prop
  | make {kind : Kind} {given : List Field} {place : Option Place} {children : List Draft} {t : Draft}
    (hgiven : ∀ field ∈ given, field.2.Plain) (hplace : ∀ p ∈ place, p.Accepted)
    (hleaf : kind.isParent = false → children = []) (hchildren : ∀ c ∈ children, Built c)
    (h : Draft.make kind given place children = .ok t) : Built t

private theorem make_inv {kind : Kind} {given : List Field} {place : Option Place} {children : List Draft} {t : Draft}
    (hgiven : ∀ field ∈ given, field.2.Plain) (h : make kind given place children = .ok t) :
    ∃ fields, t = node kind fields place children none ∧ Settled kind fields := by
  rw [make] at h
  cases hfields : Draft.fieldsFor kind given with
  | error fault =>
    rw [hfields] at h
    cases h
  | ok fields =>
    rw [hfields] at h
    cases h
    exact ⟨fields, rfl, settled_fieldsFor hgiven hfields⟩

mutual

/-- A tree whose positions have been left out unless they are kept. -/
def kept (places : Bool) : Draft → Draft
  | node kind fields place children id => node kind fields (if places then place else none) (keptList places children) id
  | other v => other v

/-- Trees whose positions have been left out unless they are kept. -/
def keptList (places : Bool) : List Draft → List Draft
  | [] => []
  | t :: ts => kept places t :: keptList places ts

end

mutual

private theorem kept_true : ∀ t : Draft, t.kept true = t
  | node _ _ _ children _ => by rw [kept, keptList_true children, if_pos rfl]
  | other _ => by rw [kept]

private theorem keptList_true : ∀ ts : List Draft, keptList true ts = ts
  | [] => by rw [keptList]
  | t :: ts => by rw [keptList, kept_true t, keptList_true ts]

end

/-- The names of the fields of a kind are none of the keys with a meaning of their own. -/
private theorem add_field {kind : Kind} {name : String} (hname : name ∈ kind.fieldNames) (hne : name ≠ "children")
    (v : Value)
    (parts : Parts) : parts.add kind name v = .ok { parts with given := parts.given ++ [(name, v)] } := by
  have hkeys := kind.nodup_keys
  have hdata : name ≠ "data" := fun h => kind.data_notMem (h ▸ hname)
  have hversion : name ≠ "schema_version" := by
    rintro rfl
    exact (List.nodup_cons.1 hkeys).1 (by simp [hname])
  have hkind : name ≠ "kind" := by
    rintro rfl
    exact (List.nodup_cons.1 (List.nodup_cons.1 hkeys).2).1 (by simp [hname])
  have hposition : name ≠ "position" := by
    rintro rfl
    rw [List.nodup_append] at hkeys
    exact hkeys.2.2 _ (.tail _ (.tail _ hname)) _ (.head _) rfl
  simp [Parts.add, hdata, hversion, hkind, hposition, hne]

/-- The entry of a field of a serialized node. -/
def entryOf (fields : List Field) (inner : List Value) (name : String) : String × Value :=
  (name, if name = "children" then .list inner else fieldOf fields name)

/-- The entries of the fields of a node give the fields and the children back, in whatever order they stand. -/
private theorem decodeEntries_fields {kind : Kind} (fields : List Field) {inner : List Value} {children : List Draft}
    (hinner : decodeList inner = .ok children) {names : List String} (hnames : ∀ name ∈ names, name ∈ kind.fieldNames)
    (parts : Parts) (rest : List (Value × Value)) :
    decodeEntries kind parts (Value.textEntries (names.map (entryOf fields inner)) ++ rest) =
      decodeEntries kind
        { parts with
          given := parts.given ++ (names.filter (· ≠ "children")).map fun name => (name, fieldOf fields name)
          children := if "children" ∈ names then some children else parts.children } rest := by
  induction names generalizing parts with
  | nil => simp [Value.textEntries]
  | cons name names ih =>
    have hrest := ih fun other hother => hnames other (.tail _ hother)
    simp only [Value.textEntries, List.map_cons, List.cons_append] at hrest ⊢
    by_cases hname : name = "children"
    · subst hname
      rw [entryOf, if_pos rfl, decodeEntries, hinner]
      refine (hrest _).trans ?_
      simp
    · rw [entryOf, if_neg hname, decodeEntries, add_field (hnames name (.head _)) hname]
      · refine (hrest _).trans ?_
        simp [hname, Ne.symm hname, List.append_assoc]
      · exact fun items _ hkey => hname hkey

/-- The entries of the position of a node. -/
def placeEntries (place : Option Place) : List (String × Value) :=
  (place.map fun p => ("position", p.encode)).toList

private theorem decodeEntries_place (kind : Kind) {place : Option Place} (hplace : ∀ p ∈ place, p.Accepted)
    (given : List Field)
    (children : Option (List Draft)) :
    decodeEntries kind ⟨given, none, children⟩ (Value.textEntries (placeEntries place)) = .ok ⟨given, place, children⟩ := by
  cases place with
  | none => rfl
  | some p =>
    have hp := Place.decode?_encode (hplace p rfl)
    have hadd : Parts.add kind "position" p.encode ⟨given, none, children⟩ = .ok ⟨given, some p, children⟩ := by
      have hne : p.encode ≠ .null := by rintro ⟨⟩
      simp [Parts.add, hne, hp]
    show decodeEntries kind _ [(.text "position", p.encode)] = _
    rw [decodeEntries, hadd]
    · rfl
    · rintro items ⟨⟩

/-- The entries of a serialized node whose children have the given values. -/
def nodeEntries (kind : Kind) (fields : List Field) (inner : List Value) (place : Option Place) :
    List (String × Value) :=
  ("kind", .text kind.name) :: (kind.fieldNames.map (entryOf fields inner) ++ placeEntries place)

private theorem Settled.stray? {kind : Kind} {fields : List Field} (h : Settled kind fields) :
    stray? kind fields = none := by
  have hnot : fields.lookup "children" = none := by
    refine List.lookup_eq_none_iff.2 fun field hfield => bne_iff_ne.2 fun heq => ?_
    have hmem : "children" ∈ kind.defaults.map (·.1) := by
      rw [← h.names, heq]
      exact List.mem_map_of_mem hfield
    rw [kind.defaults_names] at hmem
    simpa using List.of_mem_filter hmem
  rw [Draft.stray?, hnot, ite_self]

theorem encode_node {kind : Kind} {fields : List Field} (h : stray? kind fields = none) (places : Bool)
    (place : Option Place) {children : List Draft} {inner : List Value}
    (hinner : encodeList (fun p => if places then some p.encode else none) children = .ok inner) (id : Option Nat) :
    encode places (node kind fields place children id) =
      .ok (.record (nodeEntries kind fields inner (if places then place else none))) := by
  have hcheck : checkChildren kind fields = .ok () := by rw [checkChildren, h]
  rw [encode, encodeWith, hcheck, hinner]
  cases places <;> cases place <;> rfl

private theorem decodeEntries_node {kind : Kind} {fields : List Field} (h : Settled kind fields) {place : Option Place}
    (hplace : ∀ p ∈ place, p.Accepted) {children : List Draft} {inner : List Value}
    (hinner : decodeList inner = .ok children) :
    decodeEntries kind ⟨[], none, none⟩ (Value.textEntries (nodeEntries kind fields inner place)) =
      .ok ⟨fields, place, if kind.isParent then some children else none⟩ := by
  have hentries : Value.textEntries (nodeEntries kind fields inner place) =
      (.text "kind", .text kind.name) :: (Value.textEntries (kind.fieldNames.map (entryOf fields inner))
        ++ Value.textEntries (placeEntries place)) := by
    simp [Value.textEntries, nodeEntries]
  have hkind (parts : Parts) : Parts.add kind "kind" (.text kind.name) parts = .ok parts := by simp [Parts.add]
  have hgiven : ((kind.fieldNames.filter (· ≠ "children")).map fun name => (name, fieldOf fields name)) = fields := by
    rw [← kind.defaults_names, ← h.names, map_fieldOf h.nodup]
  rw [hentries, decodeEntries, hkind]
  · refine (decodeEntries_fields fields hinner (fun _ hname => hname) _ _).trans ?_
    rw [hgiven]
    simp only [kind.children_mem, List.nil_append]
    exact decodeEntries_place kind hplace fields _
  · rintro items ⟨⟩

private theorem make_parts {kind : Kind} {fields : List Field} (h : Settled kind fields) (place : Option Place)
    {children : List Draft} (hleaf : kind.isParent = false → children = []) :
    Parts.make kind ⟨fields, place, if kind.isParent then some children else none⟩ =
      .ok (node kind fields place children none) := by
  cases hparent : kind.isParent with
  | true => simp [Parts.make, Draft.make, h.fieldsFor, hparent, Except.mapError]
  | false => simp [Parts.make, Draft.make, h.fieldsFor, hparent, hleaf hparent, Except.mapError]

private theorem decode_parts {kind : Kind} {entries : List (Value × Value)} {parts : Parts}
    (hname : (Value.map entries).get? "kind" = some (.text kind.name))
    (hparts : decodeEntries kind ⟨[], none, none⟩ entries = .ok parts) : decode (.map entries) = parts.make kind := by
  have hkind : decodeKind (.text kind.name) = .ok kind := by
    simp [decodeKind, kindOf, Kind.ofName?_name, Except.mapError]
  rw [decode, hname]
  show (decodeKind (.text kind.name) >>= fun kind =>
    decodeEntries kind ⟨[], none, none⟩ entries >>= fun parts => parts.make kind) = _
  rw [hkind]
  show (decodeEntries kind ⟨[], none, none⟩ entries >>= fun parts => parts.make kind) = _
  rw [hparts]
  rfl

/-- The version that stands before the entries of a node says nothing about the node. -/
private theorem decodeEntries_version (kind : Kind) (parts : Parts) (rest : List (Value × Value)) :
    decodeEntries kind parts ((.text "schema_version", layoutVersion) :: rest) = decodeEntries kind parts rest := by
  have hadd : Parts.add kind "schema_version" layoutVersion parts = .ok parts := by simp [Parts.add]
  rw [decodeEntries, hadd]
  · rfl
  · rintro items ⟨⟩

/-- The entries of a tree as JSON writes them: with the version before them. -/
def versioned (entries : List (String × Value)) : List (String × Value) :=
  ("schema_version", layoutVersion) :: entries

/-- Entries of different keys, with plain values. -/
structure PlainEntries (entries : List (String × Value)) : Prop where
  keys : (entries.map (·.1)).Nodup
  values : ∀ e ∈ entries, e.2.Plain

/-- A tree comes back from a serialized form that is plain, with the version before it or without it. -/
def ComesBack (places : Bool) (t : Draft) : Prop :=
  ∃ entries, t.encode places = .ok (.record entries) ∧ PlainEntries (versioned entries) ∧
    decode (.record entries) = .ok (t.kept places) ∧ decode (.record (versioned entries)) = .ok (t.kept places)

private theorem encodeList_of {places : Bool} {ts : List Draft} (h : ∀ t ∈ ts, ComesBack places t) :
    ∃ inner, encodeList (fun p => if places then some p.encode else none) ts = .ok inner ∧
      (∀ v ∈ inner, v.Plain) ∧ decodeList inner = .ok (keptList places ts) := by
  induction ts with
  | nil => exact ⟨[], rfl, by simp, by rw [decodeList, keptList]⟩
  | cons t ts ih =>
    obtain ⟨entries, hencode, hplain, hdecode, -⟩ := h t (.head _)
    obtain ⟨inner, hinner, hrest, hlist⟩ := ih fun t ht => h t (.tail _ ht)
    have hrecord : (Value.record entries).Plain :=
      .record (List.nodup_cons.1 hplain.keys).2 fun e he => hplain.values e (.tail _ he)
    refine ⟨.record entries :: inner, ?_, List.forall_mem_cons.2 ⟨hrecord, hrest⟩, ?_⟩
    · rw [encode] at hencode
      rw [encodeList, hencode, hinner]
      rfl
    · rw [decodeList, hdecode, hlist, keptList]
      rfl

private theorem Settled.plain_fieldOf {kind : Kind} {fields : List Field} (h : Settled kind fields) (name : String) :
    (fieldOf fields name).Plain := by
  rw [fieldOf]
  cases hlookup : fields.lookup name with
  | none => exact .null
  | some v =>
    obtain ⟨l₁, l₂, hfields, -⟩ := List.lookup_eq_some_iff.1 hlookup
    exact h.plain (name, v) (hfields ▸ by simp)

theorem plain_nodeEntries (kind : Kind) {fields : List Field} (h : ∀ name, (fieldOf fields name).Plain)
    {place : Option Place} (hplace : ∀ p ∈ place, p.encode.Plain) {inner : List Value} (hinner : ∀ v ∈ inner, v.Plain) :
    PlainEntries (versioned (nodeEntries kind fields inner place)) := by
  have hkeys : (versioned (nodeEntries kind fields inner place)).map (·.1) =
      "schema_version" :: "kind" :: (kind.fieldNames ++ (placeEntries place).map (·.1)) := by
    simp [versioned, nodeEntries, entryOf, Function.comp_def]
  have hlast : ((placeEntries place).map (·.1)).Sublist ["position"] := by
    cases place with
    | none => exact List.nil_sublist _
    | some p => exact List.Sublist.refl _
  constructor
  · rw [hkeys]
    refine kind.nodup_keys.sublist ?_
    exact .cons_cons _ (.cons_cons _ (List.Sublist.append_left hlast _))
  · simp only [versioned, nodeEntries, List.forall_mem_cons, List.forall_mem_append, List.forall_mem_map]
    refine ⟨.int 1, .text _, fun name _ => ?_, fun e he => ?_⟩
    · rw [entryOf]
      dsimp only
      split
      · exact .list hinner
      · exact h name
    · cases place with
      | none => cases he
      | some p =>
        obtain rfl := List.mem_singleton.1 he
        exact hplace p rfl

/-- A tree that has been built comes back from its serialized form. -/
theorem Built.comesBack {t : Draft} (h : t.Built) (places : Bool) : ComesBack places t := by
  induction h with
  | @make kind given place children t hgiven hplace hleaf _ hmake ih =>
    obtain ⟨fields, rfl, hsettled⟩ := make_inv hgiven hmake
    obtain ⟨inner, hencode, hplain, hinner⟩ := encodeList_of ih
    have hkept : ∀ p ∈ if places then place else none, p.Accepted := by
      cases places with
      | true => exact hplace
      | false => rintro p ⟨⟩
    have hnone : kind.isParent = false → keptList places children = [] := fun hparent => by rw [hleaf hparent, keptList]
    have hparts := decodeEntries_node hsettled hkept hinner
    have hnode := make_parts hsettled (if places then place else none) hnone
    have hentries :=
      plain_nodeEntries kind hsettled.plain_fieldOf (fun p hp => Place.encode_plain (hkept p hp)) hplain
    refine ⟨_, encode_node hsettled.stray? places place hencode none, hentries, ?_, ?_⟩
    · rw [kept, ← hnode]
      exact decode_parts rfl hparts
    · rw [kept, ← hnode]
      exact decode_parts rfl ((decodeEntries_version kind _ _).trans hparts)

/-! ### Equal trees -/

private theorem Settled.sameList_values {kind : Kind} {fields : List Field} (h : Settled kind fields) :
    Value.sameList (values kind fields) (values kind fields) = true := by
  refine Value.sameList_self fun v hv => Value.Plain.same_self ?_
  rw [values, h.stray?, Option.toList_none, List.append_nil] at hv
  obtain ⟨field, -, rfl⟩ := List.mem_map.1 hv
  exact h.plain_fieldOf field.1

private theorem sameList_keptList {places : Bool} {ts : List Draft} (h : ∀ t ∈ ts, same (t.kept places) t = true) :
    sameList (keptList places ts) ts = true := by
  induction ts with
  | nil => rfl
  | cons t ts ih => rw [keptList, sameList, h t (.head _), ih fun s hs => h s (.tail _ hs), Bool.and_self]

private theorem Built.same_kept {t : Draft} (h : t.Built) (places : Bool) : same (t.kept places) t = true := by
  induction h with
  | make hgiven _ _ _ hmake ih =>
    obtain ⟨fields, rfl, hsettled⟩ := make_inv hgiven hmake
    rw [kept, same, BEq.rfl, hsettled.sameList_values, sameList_keptList ih, Bool.and_self, Bool.and_self]

mutual

/-- No node has a position once positions are left out. -/
private theorem place_kept_false : ∀ t : Draft, ∀ n ∈ (t.kept false).preorder, n.place = none
  | node _ _ _ children _, n, hn => by
    rw [kept, preorder] at hn
    rcases List.mem_cons.1 hn with rfl | hn
    · rfl
    · exact place_keptList_false children n hn
  | other v, n, hn => by
    have hn : n ∈ [other v] := hn
    obtain rfl := List.mem_singleton.1 hn
    rfl

private theorem place_keptList_false : ∀ ts : List Draft, ∀ n ∈ preorderList (keptList false ts), n.place = none
  | [], n, hn => by
    rw [keptList, preorderList] at hn
    cases hn
  | t :: ts, n, hn => by
    rw [keptList, preorderList] at hn
    rcases List.mem_append.1 hn with hn | hn
    · exact place_kept_false t n hn
    · exact place_keptList_false ts n hn

end

private theorem mem_preorderList {ts : List Draft} {n : Draft} : n ∈ preorderList ts ↔ ∃ t ∈ ts, n ∈ t.preorder := by
  induction ts with
  | nil => simp [preorderList]
  | cons t ts ih => simp [preorderList, ih]

/-- All nodes of a tree that has been built have been built. -/
private theorem Built.preorder {t : Draft} (h : t.Built) : ∀ n ∈ t.preorder, n.Built := by
  induction h with
  | make hgiven hplace hleaf hchildren hmake ih =>
    intro n hn
    have hself := Built.make hgiven hplace hleaf hchildren hmake
    obtain ⟨fields, rfl, -⟩ := make_inv hgiven hmake
    rw [Draft.preorder] at hn
    rcases List.mem_cons.1 hn with rfl | hn
    · exact hself
    · obtain ⟨c, hc, hn⟩ := mem_preorderList.1 hn
      exact ih c hc n hn

private theorem samePlaces_self {ts : List Draft} (h : ∀ t ∈ ts, t.Built) : samePlaces ts ts = .ok true := by
  induction ts with
  | nil => rfl
  | cons t ts ih =>
    cases h t (.head _) with
    | make hgiven hplace hleaf hchildren hmake =>
      obtain ⟨fields, rfl, hsettled⟩ := make_inv hgiven hmake
      rw [samePlaces, Place.sameOption_self hplace, checkChildren, hsettled.stray?]
      exact ih fun s hs => h s (.tail _ hs)

private theorem Built.samePlaced_self {t : Draft} (h : t.Built) : t.samePlaced t = .ok true := by
  have hsame := h.same_kept true
  rw [kept_true] at hsame
  rw [samePlaced, if_pos hsame, samePlaces_self h.preorder]

/-! ### Texts -/

private theorem ofJson_toJson_of {t : Draft} {places : Bool} (h : ComesBack places t) {layout : Value.Json.Layout}
    (hlayout : layout.Blank) : t.toJson layout places >>= ofJson = .ok (t.kept places) := by
  obtain ⟨entries, hencode, hplain, -, hdecode⟩ := h
  have hwrite : t.toJson layout places = .ok (Value.Json.write layout (.record (versioned entries))) := by
    rw [toJson, hencode]
    rfl
  have hread := Value.Json.read?_write hlayout (.record hplain.keys hplain.values)
  have hversion : (Value.record (versioned entries)).get? "schema_version" = some layoutVersion := rfl
  have hrecord : Value.record (versioned entries) = .map (Value.textEntries (versioned entries)) := rfl
  rw [hwrite]
  show ofJson (Value.Json.write layout (.record (versioned entries))) = _
  rw [ofJson, hread, ← hdecode]
  rw [hrecord] at hversion ⊢
  simp only [hversion]
  show (if Value.same layoutVersion layoutVersion then _ else _) = _
  rw [if_pos (by decide)]

/-- A tree that has been built comes back with its positions from its serialized form, and equal to itself but without
any position if they have been left out. So it does as a value and as JSON text, on one line or indented by any number of
spaces. -/
theorem ofJson_toJson {t : Draft} (h : t.Built) {indent : Value}
    (hindent : indent = .null ∨ ∃ n : Nat, indent = .int n) :
    ∃ layout, Value.Json.Layout.ofValue? indent = some layout ∧
      (t.toJson layout true >>= ofJson) = .ok t ∧ (t.encode true >>= decode) = .ok t ∧ t.samePlaced t = .ok true ∧
      (t.toJson layout false >>= ofJson) = .ok (t.kept false) ∧ (t.encode false >>= decode) = .ok (t.kept false) ∧
      same (t.kept false) t = true ∧ ∀ n ∈ (t.kept false).preorder, n.place = none := by
  obtain ⟨layout, hlayout, hblank⟩ : ∃ layout, Value.Json.Layout.ofValue? indent = some layout ∧ layout.Blank := by
    obtain rfl | ⟨n, rfl⟩ := hindent
    · exact ⟨_, rfl, Value.Json.Layout.blank_line⟩
    · exact ⟨_, rfl, Value.Json.Layout.blank_spaced n⟩
  have hdict (places : Bool) : t.encode places >>= decode = .ok (t.kept places) := by
    obtain ⟨entries, hencode, -, hdecode, -⟩ := h.comesBack places
    rw [hencode]
    exact hdecode
  have hjson (places : Bool) := ofJson_toJson_of (h.comesBack places) hblank
  refine ⟨layout, hlayout, ?_, ?_, h.samePlaced_self, hjson false, hdict false, h.same_kept false, place_kept_false t⟩
  · rw [hjson true, kept_true]
  · rw [hdict true, kept_true]

/-- An ordered list whose start is the one it has by default, and a text with a control and other letters than English
ones. -/
theorem ofJson_toJson_list :
    let words := node .text [("value", .text "é\x01\"\u2028")] none [] none
    let item := node .listItem [("spread", .bool false), ("checked", .bool true)] none [node .paragraph [] none [words] none]
      none
    let place : Place := ⟨⟨.int 1, .int 1, .int 0⟩, ⟨.int 1, .int 5, .int 4⟩⟩
    let t := node .list [("ordered", .bool true), ("start", .int 1), ("spread", .bool false)] (some place) [item] none
    t.Built ∧ (t.toJson (.spaced 2) true >>= ofJson) = .ok t ∧
      (t.toJson (.spaced 2) false >>= ofJson) = .ok (t.kept false) ∧ same (t.kept false) t = true := by
  intro words item place t
  have hplace : ∀ p ∈ some place, p.Accepted := by
    rintro p ⟨⟩
    exact ⟨⟨.int 1, .int 1, .int 0⟩, ⟨.int 1, .int 5, .int 4⟩, by decide⟩
  have hnone : ∀ p ∈ (none : Option Place), p.Accepted := by rintro p ⟨⟩
  have hwords : words.Built :=
    @Built.make .text [("value", .text "é\x01\"\u2028")] none [] words (by simp [Value.Plain.text]) hnone (fun _ => rfl)
      (by simp) rfl
  have hparagraph : (node .paragraph [] none [words] none).Built :=
    @Built.make .paragraph [] none [words] _ (by simp) hnone (by decide) (by simpa using hwords) rfl
  have hitem : item.Built :=
    @Built.make .listItem [("checked", .bool true)] none [_] item (by simp [Value.Plain.bool]) hnone (by decide)
      (by simpa using hparagraph) rfl
  have ht : t.Built :=
    @Built.make .list [("ordered", .bool true)] (some place) [item] t (by simp [Value.Plain.bool]) hplace (by decide)
      (by simpa using hitem) rfl
  obtain ⟨layout, hlayout, hkept, -, -, hleft, -, hsame, -⟩ := @ofJson_toJson t ht (.int 2) (.inr ⟨2, rfl⟩)
  obtain rfl : Value.Json.Layout.spaced 2 = layout := Option.some.inj hlayout
  exact ⟨ht, hkept, hleft, hsame⟩

end Draft

end MarkdownTree
