import MarkdownTree.Draft.Typed
import MarkdownTree.Proofs.Codec
import MarkdownTree.Proofs.Separator

/-!
# Trees as values

A tree whose fields have the types of their kinds always has a serialized form (`encode_ofTree`), and no other tree has
the same one (`value_injective`).  The form of a tree with one separator for all is that of the tree with one separator
for all (`merged_value`), so the JSON text of two trees has the same lines exactly when they are the same but for
separators (`lines_eq_iff`).
-/

namespace MarkdownTree

open Draft

/-! ### Values of trees -/

namespace Tree

mutual

/-- The serialized form of a tree with positions. -/
def value : Tree (Option Position) → Value
  | node position content children =>
    .record (nodeEntries content.kind content.fields (values children) (position.map .ofPosition))

/-- The serialized forms of a list of trees. -/
def values : List (Tree (Option Position)) → List Value
  | [] => []
  | t :: ts => value t :: values ts

end

/-- The entries of the serialized form. -/
def entries : Tree (Option Position) → List (String × Value)
  | node position content children =>
    nodeEntries content.kind content.fields (values children) (position.map .ofPosition)

private theorem value_eq (t : Tree (Option Position)) : t.value = .record t.entries := by
  obtain ⟨position, content, children⟩ := t
  rw [value, entries]

end Tree

namespace Draft

private theorem stray?_content (c : Content) : stray? c.kind c.fields = none := by
  cases c <;> rfl

mutual

theorem encode_ofTree : ∀ t : Tree (Option Position), (ofTree t).encode true = .ok t.value
  | .node position content children => by
    have hinner := encodeList_ofTrees children
    rw [ofTree, Tree.value]
    exact encode_node (stray?_content content) true _ hinner none

private theorem encodeList_ofTrees : ∀ ts : List (Tree (Option Position)),
    encodeList (fun p => if true then some p.encode else none) (ofTrees ts) = .ok (Tree.values ts)
  | [] => rfl
  | t :: ts => by
    have ht := encode_ofTree t
    rw [encode] at ht
    rw [ofTrees, encodeList, ht, encodeList_ofTrees ts, Tree.values]
    rfl

end

end Draft

namespace Tree

theorem plain_fieldOf (c : Content) (name : String) : (fieldOf c.fields name).Plain := by
  have htext (s : Option String) : (Value.ofText? s).Plain := by
    cases s
    · exact .null
    · exact .text _
  have hfields : ∀ field ∈ c.fields, field.2.Plain := by
    cases c with
    | list ordered start spread =>
      cases start <;> simp [Content.fields, Content.value?, Content.attributes, Value.Plain.bool, Value.Plain.int,
        Value.Plain.null]
    | listItem spread checked =>
      cases checked <;> simp [Content.fields, Content.value?, Content.attributes, Value.Plain.bool, Value.Plain.null]
    | _ => simp [Content.fields, Content.value?, Content.attributes, Value.Plain.text, Value.Plain.int, htext]
  rw [fieldOf]
  cases hlookup : c.fields.lookup name with
  | none => exact .null
  | some v =>
    obtain ⟨l₁, l₂, hsplit, -⟩ := List.lookup_eq_some_iff.1 hlookup
    exact hfields (name, v) (hsplit ▸ by simp)

private theorem plain_place (p : Position) : (Place.ofPosition p).encode.Plain := by
  have hmark (point : Point) : (Mark.ofPoint point).encode.Plain :=
    Mark.encode_plain ⟨.int _, .int _, .int _⟩
  exact .record (by simp) (by simpa using ⟨hmark p.start, hmark p.stop⟩)

mutual

private theorem plain_entries : ∀ t : Tree (Option Position), PlainEntries (versioned t.entries)
  | node position content children => by
    rw [entries]
    refine plain_nodeEntries content.kind (plain_fieldOf content) ?_ (plain_values children)
    rintro p hp
    obtain ⟨position, rfl, rfl⟩ := Option.map_eq_some_iff.1 hp
    exact plain_place position

private theorem plain_values : ∀ ts : List (Tree (Option Position)), ∀ v ∈ values ts, v.Plain
  | [] => by simp [values]
  | t :: ts => by
    have ht := plain_entries t
    rw [values, List.forall_mem_cons, value_eq]
    exact ⟨.record (List.nodup_cons.1 ht.keys).2 fun e he => ht.values e (.tail _ he), plain_values ts⟩

end

end Tree

/-! ### One separator for all -/

/-- The content with one separator for all in its texts. -/
def Content.merged : Content → Content
  | .frontMatter value => .frontMatter (Text.merge value)
  | .codeBlock value lang details => .codeBlock (Text.merge value) (lang.map Text.merge) (details.map Text.merge)
  | .text value => .text (Text.merge value)
  | .inlineCode value => .inlineCode (Text.merge value)
  | .link destination title => .link (Text.merge destination) (title.map Text.merge)
  | .image destination alt title => .image (Text.merge destination) (Text.merge alt) (title.map Text.merge)
  | c => c

namespace Tree

variable {α : Type u}

mutual

/-- The tree with one separator for all in its texts. -/
def merged : Tree α → Tree α
  | node note content children => node note content.merged (mergedList children)

/-- The trees, each with one separator for all. -/
def mergedList : List (Tree α) → List (Tree α)
  | [] => []
  | t :: ts => merged t :: mergedList ts

end

end Tree

namespace Value

private theorem mergedItems_eq_map (vs : List Value) : mergedItems vs = vs.map merged := by
  induction vs with
  | nil => rfl
  | cons v vs ih => rw [mergedItems, ih, List.map_cons]

private theorem merged_record (entries : List (String × Value)) :
    (record entries).merged = record (entries.map fun e => (Text.merge e.1, e.2.merged)) := by
  have hentries (entries : List (String × Value)) :
      mergedEntries (entries.map fun e => (.text e.1, e.2)) =
        (entries.map fun e => (Text.merge e.1, e.2.merged)).map fun e => (.text e.1, e.2) := by
    induction entries with
    | nil => rfl
    | cons e entries ih =>
      rw [List.map_cons, mergedEntries, ih]
      rfl
  exact congrArg Value.map (hentries entries)

end Value

/-- Texts of ASCII characters have no separators. -/
private theorem merge_eq_self {s : String} (h : s.toList.all (fun c => !Text.isSeparator c) = true) :
    Text.merge s = s := by
  have hmap : s.toList.map Text.mergeChar = s.toList.map id :=
    List.map_congr_left fun c hc => if_neg (by simpa using List.all_eq_true.1 h c hc)
  rw [Text.merge, hmap, List.map_id, String.ofList_toList]

private theorem merge_fieldName (k : Kind) : ∀ name ∈ k.fieldNames, Text.merge name = name := by
  have hnames : ∀ name ∈ k.fieldNames, name.toList.all (fun c => !Text.isSeparator c) = true := by
    cases k <;> decide
  exact fun name hname => merge_eq_self (hnames name hname)

private theorem merge_kindName (k : Kind) : Text.merge k.name = k.name := by
  refine merge_eq_self ?_
  cases k <;> decide

private theorem fields_merged (c : Content) :
    c.merged.fields = c.fields.map fun field => (field.1, field.2.merged) := by
  have htext (s : Option String) : Value.ofText? (s.map Text.merge) = (Value.ofText? s).merged := by
    cases s <;> rfl
  cases c with
  | list ordered start spread => cases start <;> rfl
  | listItem spread checked => cases checked <;> rfl
  | _ =>
    simp [Content.merged, Content.fields, Content.value?, Content.attributes, htext, Value.merged]

private theorem fieldOf_merged (c : Content) (name : String) :
    fieldOf c.merged.fields name = (fieldOf c.fields name).merged := by
  have hlookup (fields : List Field) :
      (fields.map fun field => (field.1, field.2.merged)).lookup name = (fields.lookup name).map Value.merged := by
    induction fields with
    | nil => rfl
    | cons field fields ih =>
      rw [List.map_cons, List.lookup_cons, List.lookup_cons, ih]
      split <;> rfl
  rw [fieldOf, fieldOf, fields_merged, hlookup]
  cases c.fields.lookup name <;> rfl

private theorem merged_place (p : Position) : (Place.ofPosition p).encode.merged = (Place.ofPosition p).encode :=
  rfl

namespace Tree

private theorem kind_merged (c : Content) : c.merged.kind = c.kind := by
  cases c <;> rfl

mutual

/-- The serialized form of the tree with one separator for all. -/
theorem merged_value : ∀ t : Tree (Option Position), t.merged.value = t.value.merged
  | node position content children => by
    have hentries : ∀ name ∈ content.kind.fieldNames,
        entryOf content.merged.fields (values (mergedList children)) name =
          (Text.merge (entryOf content.fields (values children) name).1,
            (entryOf content.fields (values children) name).2.merged) := by
      intro name hname
      rw [entryOf, entryOf, merge_fieldName content.kind name hname]
      split
      · rw [merged_values children, Value.merged, Value.mergedItems_eq_map]
      · rw [fieldOf_merged]
    have hplace : (placeEntries (position.map .ofPosition)).map (fun e => (Text.merge e.1, e.2.merged)) =
        placeEntries (position.map .ofPosition) := by
      have hname : Text.merge "position" = "position" := rfl
      cases position with
      | none => rfl
      | some p => simp [placeEntries, hname, merged_place]
    have hkind : Text.merge "kind" = "kind" := rfl
    rw [merged, value, value, Value.merged_record, nodeEntries, nodeEntries, List.map_cons, List.map_append, hplace,
      List.map_map, kind_merged, hkind, Value.merged, merge_kindName]
    exact congrArg (fun es => Value.record (_ :: (es ++ _))) (List.map_congr_left hentries)

private theorem merged_values :
    ∀ ts : List (Tree (Option Position)), values (mergedList ts) = (values ts).map Value.merged
  | [] => rfl
  | t :: ts => by rw [mergedList, values, values, List.map_cons, merged_value t, merged_values ts]

end

end Tree

/-! ### Trees with the same value -/

private theorem ofText?_inj {s t : Option String} : Value.ofText? s = Value.ofText? t ↔ s = t := by
  cases s <;> cases t <;> simp [Value.ofText?]

private theorem getD_null_inj {α : Type} {f : α → Value} (hf : ∀ a b, f a = f b ↔ a = b) (hnull : ∀ a, f a ≠ .null)
    {s t : Option α} : (s.map f).getD .null = (t.map f).getD .null ↔ s = t := by
  cases s <;> cases t <;> simp [hf, hnull, Ne.symm (hnull _)]

/-- Contents of one kind are the same when their fields are. -/
private theorem content_ext {c d : Content} (hkind : c.kind = d.kind)
    (h : ∀ name ∈ c.kind.fieldNames, name ≠ "children" → fieldOf c.fields name = fieldOf d.fields name) : c = d := by
  have hstart (s t : Option Int) : (s.map Value.int).getD .null = (t.map Value.int).getD .null ↔ s = t :=
    getD_null_inj (by simp) (by simp)
  have hchecked (s t : Option Bool) : (s.map Value.bool).getD .null = (t.map Value.bool).getD .null ↔ s = t :=
    getD_null_inj (by simp) (by simp)
  -- Contents of some kinds have no fields.
  cases c <;> cases d <;> cases hkind <;> try rfl
  all_goals
    simpa [Content.kind, Kind.fieldNames, Content.fields, Content.value?, Content.attributes, fieldOf, List.lookup,
      ofText?_inj, hstart, hchecked] using h

namespace Tree

variable {α : Type u}

mutual

/-- Only nodes of kinds that take children have any. -/
def Proper : Tree α → Prop
  | node _ content children => (content.kind.isParent = false → children = []) ∧ ProperList children

/-- The trees are all proper. -/
def ProperList : List (Tree α) → Prop
  | [] => True
  | t :: ts => Proper t ∧ ProperList ts

end

private theorem record_inj {es fs : List (String × Value)} (h : Value.record es = Value.record fs) : es = fs := by
  have hinjective : Function.Injective fun (e : String × Value) => (Value.text e.1, e.2) := by
    rintro ⟨k, v⟩ ⟨l, w⟩ h
    cases h
    rfl
  exact List.map_injective_iff.2 hinjective (Value.map.inj h)

private theorem placeEntries_inj {p q : Option Position}
    (h : placeEntries (p.map .ofPosition) = placeEntries (q.map .ofPosition)) : p = q := by
  have hmark {m n : Point} (h : (Mark.ofPoint m).encode = (Mark.ofPoint n).encode) : m = n := by
    obtain ⟨line, column, offset⟩ := m
    obtain ⟨line', column', offset'⟩ := n
    cases record_inj h
    rfl
  cases p with
  | none => cases q <;> [rfl; cases h]
  | some p =>
    cases q with
    | none => cases h
    | some q =>
      have hplace := record_inj (Prod.mk.inj (List.cons.inj h).1).2
      obtain ⟨hstart, hrest⟩ := List.cons.inj hplace
      obtain ⟨hstop, -⟩ := List.cons.inj hrest
      obtain ⟨start, stop⟩ := p
      obtain ⟨start', stop'⟩ := q
      obtain rfl := hmark (Prod.mk.inj hstart).2
      obtain rfl := hmark (Prod.mk.inj hstop).2
      rfl

mutual

/-- A serialized form is that of one tree only. -/
theorem value_injective : ∀ t u : Tree (Option Position), t.Proper → u.Proper → t.value = u.value → t = u
  | node p c ts, node q d us, ht, hu, h => by
    have hentries := record_inj (by simpa only [value] using h)
    obtain ⟨hname, hrest⟩ := List.cons.inj hentries
    have hkind : c.kind = d.kind := by
      have hsome := congrArg Kind.ofName? (Value.text.inj (Prod.mk.inj hname).2)
      rw [Kind.ofName?_name, Kind.ofName?_name] at hsome
      exact Option.some.inj hsome
    rw [hkind] at hrest
    obtain ⟨hfields, hplace⟩ := List.append_inj hrest (by simp)
    have hentry := List.map_inj_left.1 hfields
    have hcontent : c = d := by
      refine content_ext hkind fun name hname hne => ?_
      have hvalue := (Prod.mk.inj (hentry name (hkind ▸ hname))).2
      rwa [if_neg hne, if_neg hne] at hvalue
    have hchildren : ts = us := by
      cases hparent : d.kind.isParent with
      | true =>
        have hvalue := (Prod.mk.inj (hentry "children" (d.kind.children_mem.2 hparent))).2
        rw [if_pos rfl, if_pos rfl] at hvalue
        exact values_injective ts us ht.2 hu.2 (Value.list.inj hvalue)
      | false => rw [ht.1 (hkind ▸ hparent), hu.1 hparent]
    rw [placeEntries_inj hplace, hcontent, hchildren]

private theorem values_injective : ∀ ts us : List (Tree (Option Position)), ProperList ts → ProperList us →
    values ts = values us → ts = us
  | [], [], _, _, _ => rfl
  | [], u :: us, _, _, h => by cases h
  | t :: ts, [], _, _, h => by cases h
  | t :: ts, u :: us, ht, hu, h => by
    obtain ⟨hhead, hrest⟩ := List.cons.inj h
    rw [value_injective t u ht.1 hu.1 hhead, values_injective ts us ht.2 hu.2 hrest]

end

mutual

private theorem Proper.merged : ∀ {t : Tree α}, t.Proper → t.merged.Proper
  | node note content children, h => by
    rw [Tree.merged, Proper, kind_merged]
    refine ⟨fun hparent => ?_, ProperList.merged h.2⟩
    rw [h.1 hparent]
    rfl

private theorem ProperList.merged : ∀ {ts : List (Tree α)}, ProperList ts → ProperList (mergedList ts)
  | [], _ => trivial
  | _ :: _, h => ⟨Proper.merged h.1, ProperList.merged h.2⟩

end

end Tree

/-! ### Lines of trees -/

/-- The JSON text of a tree. -/
theorem toJson_of_encode {t : Draft} {u : Tree (Option Position)} (h : t.encode true = (Draft.ofTree u).encode true)
    (layout : Value.Json.Layout) :
    t.toJson layout true = .ok (Value.Json.write layout (.record (versioned u.entries))) := by
  rw [encode_ofTree, Tree.value_eq] at h
  rw [toJson, h]
  rfl

private theorem merged_versioned (t : Tree (Option Position)) :
    (Value.record (versioned t.entries)).merged = .record (versioned t.merged.entries) := by
  have hentries := Tree.merged_value t
  rw [Tree.value_eq, Tree.value_eq, Value.merged_record] at hentries
  rw [Value.merged_record, Tree.record_inj hentries]
  rfl

/-- The JSON texts of two trees have the same lines when the trees are the same but for separators. -/
theorem lines_eq_iff {t u : Tree (Option Position)} (ht : t.Proper) (hu : u.Proper) (width : Nat) :
    Text.lines (Value.Json.write (.spaced width) (.record (versioned t.entries))) =
        Text.lines (Value.Json.write (.spaced width) (.record (versioned u.entries))) ↔
      t.merged = u.merged := by
  have hplain (t : Tree (Option Position)) : (Value.record (versioned t.entries)).Plain :=
    .record (Tree.plain_entries t).keys (Tree.plain_entries t).values
  have hmerged (t : Tree (Option Position)) : (Value.record (versioned t.entries)).merged.Plain := by
    rw [merged_versioned]
    exact hplain t.merged
  rw [Value.Json.lines_write_eq_iff (hplain t) (hplain u) (hmerged t) (hmerged u), merged_versioned, merged_versioned]
  constructor
  · intro h
    refine Tree.value_injective _ _ ht.merged hu.merged ?_
    rw [Tree.value_eq, Tree.value_eq, (List.cons.inj (Tree.record_inj h)).2]
  · intro h
    rw [h]

end MarkdownTree
