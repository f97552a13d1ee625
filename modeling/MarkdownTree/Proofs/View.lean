import Mathlib.Data.List.Nodup
import Mathlib.Tactic.SplitIfs
import MarkdownTree.Data.Operation

/-!
# Views of data maps

A key is read back from what it writes (`DataKey.read_eq_ok_iff`), and its owner and its name are told apart by the first
colon (`DataKey.text_eq_joined_iff`).  So the views of a map share out its keys, and what is done through the view of one
owner changes keys of this owner only (`changed_performView`).  On its own view it acts as on a dictionary, except that
the entry taken out without a name is the first and not the last (`actsAs_performView`).  All this holds of every map that
is made from entries and changed in any way since (`Reached.separated`).
-/

namespace MarkdownTree

namespace DataKey

/-! ### Owners and names -/

/-- A text that may own keys. -/
def IsOwner (owner : String) : Prop :=
  owner ≠ "" ∧ ':' ∉ owner.toList

instance (owner : String) : Decidable (IsOwner owner) :=
  inferInstanceAs (Decidable (_ ∧ _))

/-- An owner and a name, joined by a colon. -/
def joined (owner name : String) : String :=
  owner ++ ":" ++ name

private theorem toList_joined (owner name : String) : (joined owner name).toList = owner.toList ++ ':' ::
    name.toList := by
  simp [joined]

variable {k l : DataKey} {owner name s : String}

private theorem takeWhile_append_colon {as : List Char} (ha : ':' ∉ as) (cs : List Char) :
    (as ++ ':' :: cs).takeWhile (· != ':') = as := by
  have hne : ∀ c ∈ as, (c != ':') = true := fun c hc => bne_iff_ne.2 fun heq => ha (heq ▸ hc)
  rw [List.takeWhile_append_of_pos hne]
  simp

/-- A text is taken apart at its first colon in one way. -/
private theorem eq_of_append_colon {as bs cs ds : List Char} (ha : ':' ∉ as) (hb : ':' ∉ bs)
    (h : as ++ ':' :: cs = bs ++ ':' :: ds) : as = bs ∧ cs = ds := by
  have heq : as = bs := by rw [← takeWhile_append_colon ha cs, h, takeWhile_append_colon hb]
  subst heq
  exact ⟨rfl, by simpa using h⟩

private theorem toList_text (k : DataKey) : k.text.toList = k.owner ++ ':' :: k.name := by
  simp [text]

/-- A key is joined from an owner and a name in one way. -/
theorem text_eq_joined_iff (ho : ':' ∉ owner.toList) :
    k.text = joined owner name ↔ k.owner = owner.toList ∧ k.name = name.toList := by
  rw [← String.toList_inj, toList_text, toList_joined]
  constructor
  · exact eq_of_append_colon k.colon_not_mem ho
  · rintro ⟨howner, hname⟩
    rw [howner, hname]

private theorem text_eq (k : DataKey) : k.text = joined (String.ofList k.owner) (String.ofList k.name) := by
  rw [← String.toList_inj, toList_text, toList_joined, String.toList_ofList, String.toList_ofList]

private theorem isOwner_owner (k : DataKey) : IsOwner (String.ofList k.owner) :=
  ⟨fun h => k.owner_ne_nil (by simpa using congrArg String.toList h), by simpa using k.colon_not_mem⟩

private theorem name_ne_empty (k : DataKey) : String.ofList k.name ≠ "" :=
  fun h => k.name_ne_nil (by simpa using congrArg String.toList h)

private theorem text_injective (h : k.text = l.text) : k = l := by
  rw [text_eq l, text_eq_joined_iff l.isOwner_owner.2, String.toList_ofList, String.toList_ofList] at h
  cases k
  cases l
  simpa using h

/-- What comes before the first colon and what comes after it, unless nothing does, make up a text. -/
private theorem append_colon_of_ne_nil {cs : List Char} (h : cs.drop ((cs.takeWhile (· != ':')).length + 1) ≠ []) :
    cs = cs.takeWhile (· != ':') ++ ':' :: cs.drop ((cs.takeWhile (· != ':')).length + 1) := by
  induction cs with
  | nil => simp at h
  | cons c cs ih =>
    rw [List.takeWhile_cons] at h ⊢
    by_cases hc : c = ':'
    · simp [hc]
    · rw [if_pos (bne_iff_ne.2 hc)] at h ⊢
      exact congrArg (c :: ·) (ih h)

private theorem text_of_read (h : read s = .ok k) : s = k.text := by
  unfold read at h
  dsimp only at h
  split at h
  · cases h
  split at h
  · cases h
  rename_i hname
  cases h
  rw [← String.toList_inj, toList_text]
  exact append_colon_of_ne_nil hname

private theorem read_text (k : DataKey) : read k.text = .ok k := by
  have htake : k.text.toList.takeWhile (· != ':') = k.owner := by
    rw [toList_text, takeWhile_append_colon k.colon_not_mem]
  have hdrop : k.text.toList.drop (k.owner.length + 1) = k.name := by
    rw [toList_text, ← List.drop_drop, List.drop_left, List.drop_one, List.tail_cons]
  unfold read
  simp only [htake, hdrop, k.owner_ne_nil, k.name_ne_nil, dite_false]

/-- Reading accepts exactly the texts that keys write. -/
theorem read_eq_ok_iff : read s = .ok k ↔ s = k.text :=
  ⟨text_of_read, fun h => h ▸ read_text k⟩

/-- Joining gives a key exactly for an owner and a name that is not empty. -/
private theorem make_eq_ok (ho : IsOwner owner) (hn : name ≠ "") :
    ∃ k, make owner name = .ok k ∧ k.owner = owner.toList ∧ k.name = name.toList := by
  unfold make
  rw [dif_neg (by simpa [IsOwner] using ho), dif_neg (by simpa using hn)]
  exact ⟨_, rfl, rfl, rfl⟩

private theorem owner_of_make (h : make owner name = .ok k) : k.owner = owner.toList := by
  unfold make at h
  split at h
  · cases h
  · split at h
    · cases h
    · cases h
      rfl

end DataKey

/-- What a dictionary holds: its entries in the order in which their names came. -/
abbrev Dictionary :=
  List (String × Value)

namespace Dictionary

/-- The dictionary with the value of a name: in its place when the name is there, at the end otherwise. -/
def put : Dictionary → String → Value → Dictionary
  | [], name, v => [(name, v)]
  | entry :: d, name, v => if entry.1 = name then (name, v) :: d else entry :: put d name v

/-- The dictionary without a name. -/
def without (d : Dictionary) (name : String) : Dictionary :=
  d.filter fun entry => entry.1 ≠ name

/-- Why a dictionary refuses to take out an entry. -/
inductive Refusal where
  | missing (name : String)
  | empty
deriving DecidableEq, Repr

/-- The entries with a text for a name among those that a value stands for. -/
def named (given : Value) : Dictionary :=
  match given.pairs with
  | .ok pairs => pairs.filterMap fun
    | .ok (.text name, v) => some (name, v)
    | _ => none
  | .error _ => []

/-- The result of a change of a dictionary, and the dictionary after it.  The entry that is taken out without a name is
picked in some way. -/
def perform (pick : Dictionary → Option (String × Value)) (d : Dictionary) :
    DataMap.ViewOperation → Except Refusal Value × Dictionary
  | .set name v => (.ok .null, d.put name v)
  | .remove name =>
    match d.lookup name with
    | some _ => (.ok .null, d.without name)
    | none => (.error (.missing name), d)
  | .pop name default? =>
    match d.lookup name with
    | some v => (.ok v, d.without name)
    | none => (default?.elim (.error (.missing name)) .ok, d)
  | .popFirst =>
    match pick d with
    | some (name, v) => (.ok (.list [.text name, v]), d.without name)
    | none => (.error .empty, d)
  | .setDefault name v =>
    match d.lookup name with
    | some v => (.ok v, d)
    | none => (.ok v, d.put name v)
  | .update given => (.ok .null, (named given).foldl (fun d entry => d.put entry.1 entry.2) d)
  | .clear => (.ok .null, [])

end Dictionary

namespace DataMap

open DataKey (IsOwner joined)

/-- Every name that the change is about is a text and not empty. -/
def ViewOperation.IsNamed : ViewOperation → Prop
  | .set name _ | .remove name | .pop name _ | .setDefault name _ => name ≠ ""
  | .update given =>
    given.pairs = .ok ((Dictionary.named given).map fun entry => .ok (.text entry.1, entry.2)) ∧
      ∀ entry ∈ Dictionary.named given, entry.1 ≠ ""
  | .popFirst | .clear => True

/-- The keys of a map as they are written. -/
def keys (m : DataMap) : List String :=
  m.toList.map Prod.fst

/-- What is left of the keys that start with an owner and a colon. -/
def seen (owner : String) (keys : List String) : List String :=
  keys.filterMap fun key =>
    if (owner.toList ++ [':']).isPrefixOf key.toList then some (String.ofList (key.toList.drop (owner.length + 1)))
    else none

/-- The fault with which a view refuses to take out an entry; it gives the whole key. -/
def viewRefusal (owner : String) : Dictionary.Refusal → Fault
  | .missing name => missing (.text (joined owner name))
  | .empty => .key .emptyView

variable {m n : DataMap} {k : DataKey} {v : Value} {owner other name : String}

/-! ### What views show -/

private theorem view_cons (entry : DataKey × Value) (entries : List (DataKey × Value)) (owner : String) :
    view ⟨entry :: entries⟩ owner =
      if entry.1.owner = owner.toList then (String.ofList entry.1.name, entry.2) :: view ⟨entries⟩ owner
      else view ⟨entries⟩ owner := by
  rw [view, List.filterMap_cons]
  split_ifs with h <;> simp [h, view]

/-- A key of an owner is the one of its name. -/
private theorem eq_of_name (hk : k.owner = owner.toList) {l : DataKey} (hl : l.owner = owner.toList)
    (h : String.ofList k.name = String.ofList l.name) : k = l :=
  DataKey.text_injective (by rw [DataKey.text_eq, DataKey.text_eq, hk, hl, h])

private theorem view_insert_self (hk : k.owner = owner.toList) :
    (m.insert k v).view owner = Dictionary.put (m.view owner) (String.ofList k.name) v := by
  obtain ⟨entries⟩ := m
  rw [insert]
  dsimp only
  induction entries with
  | nil => simp [insertEntry, view, hk, Dictionary.put]
  | cons entry entries ih =>
    rw [insertEntry]
    split_ifs with heq
    · rw [view_cons, view_cons, heq, if_pos hk, if_pos hk, Dictionary.put, if_pos rfl]
    · rw [view_cons, view_cons, ih]
      split_ifs with howner
      · rw [Dictionary.put, if_neg fun hname => heq (eq_of_name howner hk hname)]
      · rfl

private theorem view_insert_other (hk : k.owner ≠ owner.toList) : (m.insert k v).view owner = m.view owner := by
  obtain ⟨entries⟩ := m
  rw [insert]
  dsimp only
  induction entries with
  | nil => simp [insertEntry, view, hk]
  | cons entry entries ih =>
    rw [insertEntry]
    split_ifs with heq
    · rw [view_cons, view_cons, heq, if_neg hk, if_neg hk]
    · rw [view_cons, view_cons, ih]

/-- The entries that are kept are those of the view, if all of its owner are kept. -/
private theorem view_filter_other {p : DataKey → Bool} (hp : ∀ k, k.owner = owner.toList → p k = true) :
    view ⟨m.entries.filter fun entry => p entry.1⟩ owner = m.view owner := by
  obtain ⟨entries⟩ := m
  dsimp only
  induction entries with
  | nil => rfl
  | cons entry entries ih =>
    rw [List.filter_cons, view_cons]
    split_ifs with hkept howner howner
    · rw [view_cons, if_pos howner, ih]
    · rw [view_cons, if_neg howner, ih]
    · exact absurd (hp entry.1 howner) hkept
    · exact ih

private theorem view_erase_self (hk : k.owner = owner.toList) :
    (m.erase k).view owner = Dictionary.without (m.view owner) (String.ofList k.name) := by
  obtain ⟨entries⟩ := m
  rw [erase, Dictionary.without]
  dsimp only
  induction entries with
  | nil => rfl
  | cons entry entries ih =>
    rw [List.filter_cons, view_cons]
    by_cases heq : entry.1 = k
    · rw [if_neg (by simpa using heq), heq, if_pos hk, List.filter_cons_of_neg (by simp), ih]
    · rw [if_pos (by simpa using heq), view_cons]
      split_ifs with howner
      · have hname : String.ofList entry.1.name ≠ String.ofList k.name := fun h => heq (eq_of_name howner hk h)
        rw [List.filter_cons_of_pos (by simpa using hname), ih]
      · exact ih

/-- Looking up a name in a view gives the value of its key. -/
private theorem lookup_view (hk : k.owner = owner.toList) : (m.view owner).lookup
    (String.ofList k.name) = m.get? k := by
  obtain ⟨entries⟩ := m
  rw [get?]
  dsimp only
  induction entries with
  | nil => rfl
  | cons entry entries ih =>
    rw [view_cons, List.lookup_cons]
    by_cases heq : entry.1 = k
    · rw [heq, if_pos hk, List.lookup_cons_self, beq_self_eq_true]
    · rw [show (k == entry.1) = false from beq_eq_false_iff_ne.2 (Ne.symm heq), ← ih]
      split_ifs with howner
      · have hname : (String.ofList k.name == String.ofList entry.1.name) = false :=
          beq_eq_false_iff_ne.2 fun h => heq (eq_of_name hk howner h).symm
        rw [List.lookup_cons, hname]
      · rfl

private theorem view_viewClear (m : DataMap) (owner : String) : (m.viewClear owner).view owner = [] := by
  rw [viewClear, view]
  refine List.filterMap_eq_nil_iff.2 fun entry hentry => if_neg ?_
  simpa using (List.mem_filter.1 hentry).2

/-! ### What changes change -/

/-- A map that comes from another by setting some keys, and leaving out some, all of a certain sort. -/
inductive Changed (own : DataKey → Prop) : DataMap → DataMap → Prop
  | refl {m : DataMap} : Changed own m m
  | insert {m n : DataMap} (h : Changed own m n) {k : DataKey} (hk : own k) (v : Value) : Changed own m (n.insert k v)
  | filter {m n : DataMap} (h : Changed own m n) {p : DataKey → Bool} (hp : ∀ k, ¬own k → p k = true) :
    Changed own m ⟨n.entries.filter fun entry => p entry.1⟩

namespace Changed

variable {own : DataKey → Prop}

private theorem erase (h : Changed own m n) (hk : own k) : Changed own m (n.erase k) :=
  h.filter (p := (· ≠ k)) fun _ hl => decide_eq_true fun heq => hl (heq ▸ hk)

private theorem mono {own' : DataKey → Prop} (hown : ∀ k, own k → own' k) (h : Changed own m n) : Changed own' m n := by
  induction h with
  | refl => exact .refl
  | insert _ hk v ih => exact ih.insert (hown _ hk) v
  | filter _ hp ih => exact ih.filter fun k hk => hp k fun h => hk (hown k h)

private theorem trans {l : DataMap} (h : Changed own l m) (h' : Changed own m n) : Changed own l n := by
  induction h' with
  | refl => exact h
  | insert _ hk v ih => exact ih.insert hk v
  | filter _ hp ih => exact ih.filter hp

/-- Views of other owners stay as they are. -/
private theorem view_eq (hown : ∀ k, own k → k.owner ≠ owner.toList) (h : Changed own m n) :
    n.view owner = m.view owner := by
  induction h with
  | refl => rfl
  | insert _ hk v ih => rw [view_insert_other (hown _ hk), ih]
  | filter _ hp ih => rw [view_filter_other fun k hk => hp k fun h => hown k h hk, ih]

private theorem mem_insertEntry {l : DataKey} {entries : List (DataKey × Value)}
    (h : l ∈ (insertEntry k v entries).map Prod.fst) : l = k ∨ l ∈ entries.map Prod.fst := by
  induction entries with
  | nil => simpa [insertEntry] using h
  | cons entry entries ih =>
    rw [insertEntry] at h
    split_ifs at h with heq
    · exact .inr (by simpa [heq] using h)
    · rw [List.map_cons, List.mem_cons] at h ⊢
      rcases h with h | h
      · exact .inr (.inl h)
      · exact (ih h).imp_right .inr

private theorem nodup_insertEntry {entries : List (DataKey × Value)} (h : (entries.map Prod.fst).Nodup) :
    ((insertEntry k v entries).map Prod.fst).Nodup := by
  induction entries with
  | nil => simp [insertEntry]
  | cons entry entries ih =>
    rw [List.map_cons, List.nodup_cons] at h
    rw [insertEntry]
    split_ifs with heq
    · rw [List.map_cons, List.nodup_cons, ← heq]
      exact h
    · rw [List.map_cons, List.nodup_cons]
      refine ⟨fun hmem => ?_, ih h.2⟩
      rcases mem_insertEntry hmem with hk | hk
      · exact heq hk
      · exact h.1 hk

/-- Every key stays the only one that is written as it is. -/
private theorem nodup (h : Changed own m n) (hm : (m.entries.map Prod.fst).Nodup) : (n.entries.map Prod.fst).Nodup := by
  induction h with
  | refl => exact hm
  | insert _ hk v ih => exact nodup_insertEntry ih
  | filter _ hp ih => exact ih.sublist (List.filter_sublist.map _)

end Changed

section

variable {own : DataKey → Prop}

private theorem changed_changed {r : Except Fault DataMap} (h : ∀ n, r = .ok n → Changed own m n) :
    Changed own m (m.changed r).2 := by
  cases r with
  | ok n => exact h n rfl
  | error fault => exact .refl

private theorem changed_changedWith {r : Except Fault (Value × DataMap)} (h : ∀ v n, r = .ok (v, n) → Changed own m n) :
    Changed own m (m.changedWith r).2 := by
  cases r with
  | ok r => exact h r.1 r.2 rfl
  | error fault => exact .refl

private theorem map_changedPartly (r : DataMap × Option Fault) : (changedPartly r).2 = r.1 := by
  obtain ⟨m, _ | fault⟩ := r <;> rfl

private theorem result_changedPartly {r : DataMap × Option Fault} (h : r.2 = none) :
    (changedPartly r).1 = .ok .null := by
  obtain ⟨m, _ | fault⟩ := r
  · rfl
  · cases h

end

private theorem exists_of_bind {α β : Type} {x : Except Fault α} {f : α → Except Fault β} {r : β}
    (h : (x >>= f) = .ok r) : ∃ a, x = .ok a ∧ f a = .ok r := by
  cases x with
  | ok a => exact ⟨a, rfl, h⟩
  | error fault => cases h

private theorem exists_of_make {α : Type} {f : DataKey → Except Fault α} {r : α}
    (h : (DataKey.make owner name >>= f) = .ok r) : ∃ k : DataKey, k.owner = owner.toList ∧ f k = .ok r := by
  obtain ⟨k, hk, h⟩ := exists_of_bind h
  exact ⟨k, DataKey.owner_of_make hk, h⟩

private theorem changed_viewSet (h : m.viewSet owner name v = .ok n) :
    Changed (fun k => k.owner = owner.toList) m n := by
  obtain ⟨k, hk, h⟩ := exists_of_make h
  cases h
  exact Changed.refl.insert hk v

private theorem changed_viewRemove (h : m.viewRemove owner name = .ok n) :
    Changed (fun k => k.owner = owner.toList) m n := by
  obtain ⟨k, hk, h⟩ := exists_of_make h
  split at h
  · cases h
    exact Changed.refl.erase hk
  · cases h

private theorem changed_viewPopFirst {entry : String × Value} (h : m.viewPopFirst owner = .ok (entry, n)) :
    Changed (fun k => k.owner = owner.toList) m n := by
  unfold viewPopFirst at h
  split at h
  · cases h
  · obtain ⟨_, hremove, h⟩ := exists_of_bind h
    cases h
    exact changed_viewRemove hremove

private theorem changed_viewUpdate (m : DataMap) (owner : String) (pairs : List (Except Fault (Value × Value))) :
    Changed (fun k => k.owner = owner.toList) m (m.viewUpdate owner pairs).1 := by
  induction pairs generalizing m with
  | nil => exact .refl
  | cons pair pairs ih =>
    cases pair with
    | error fault => exact .refl
    | ok pair =>
      obtain ⟨name, v⟩ := pair
      rw [viewUpdate]
      cases hset : m.viewSet owner (DataKey.nameOf name) v with
      | error fault => exact .refl
      | ok n => exact (changed_viewSet hset).trans (ih n)

/-- What is done through a view changes keys of its owner only. -/
theorem changed_performView (m : DataMap) (owner : String) (operation : ViewOperation) :
    Changed (fun k => k.owner = owner.toList) m (m.performView owner operation).2 := by
  cases operation with
  | set name v => exact changed_changed fun n hn => changed_viewSet hn
  | remove name => exact changed_changed fun n hn => changed_viewRemove hn
  | pop name default? =>
    refine changed_changedWith fun v n hn => ?_
    obtain ⟨k, hk, hn⟩ := exists_of_make hn
    split at hn <;> cases hn
    · exact Changed.refl.erase hk
    · exact .refl
  | popFirst =>
    refine changed_changedWith fun v n hn => ?_
    obtain ⟨⟨entry, after⟩, hpop, hn⟩ := exists_of_bind hn
    cases hn
    exact changed_viewPopFirst hpop
  | setDefault name v =>
    refine changed_changedWith fun v n hn => ?_
    obtain ⟨k, hk, hn⟩ := exists_of_make hn
    split at hn <;> cases hn
    · exact .refl
    · exact Changed.refl.insert hk _
  | update given =>
    rw [performView, map_changedPartly, viewUpdateFrom]
    split
    · exact changed_viewUpdate m owner _
    · exact .refl
  | clear => exact Changed.refl.filter fun k hk => decide_eq_true hk

private theorem changed_set {key : Value} (h : m.set key v = .ok n) : Changed (fun _ => True) m n := by
  obtain ⟨k, -, h⟩ := exists_of_bind h
  cases h
  exact Changed.refl.insert trivial v

private theorem changed_update (m : DataMap) (entries : List (Value × Value)) :
    Changed (fun _ => True) m (m.update entries).1 := by
  induction entries generalizing m with
  | nil => exact .refl
  | cons entry entries ih =>
    obtain ⟨key, v⟩ := entry
    rw [update]
    cases hset : m.set key v with
    | error fault => exact .refl
    | ok n => exact (changed_set hset).trans (ih n)

private theorem changed_updateFrom (m : DataMap) (given : Value) :
    Changed (fun _ => True) m (m.updateFrom given).1 := by
  unfold updateFrom
  split
  · exact changed_update m _
  · exact .refl

private theorem changed_perform (m : DataMap) (operation : Operation) :
    Changed (fun _ => True) m (m.perform operation).2 := by
  cases operation with
  | set key v => exact changed_changed fun n hn => changed_set hn
  | remove key =>
    refine changed_changed fun n hn => ?_
    unfold remove at hn
    split at hn
    · split at hn
      · cases hn
        exact Changed.refl.erase trivial
      · cases hn
    · cases hn
  | setDefault key v =>
    refine changed_changedWith fun v n hn => ?_
    obtain ⟨k, -, hn⟩ := exists_of_bind hn
    split at hn <;> cases hn
    · exact .refl
    · exact Changed.refl.insert trivial _
  | update given =>
    rw [perform, map_changedPartly]
    exact changed_updateFrom m given
  | view owner operation => exact (changed_performView m owner operation).mono fun _ _ => trivial

/-! ### Views as dictionaries -/

/-- A change through a view has the result that it has on a dictionary, and leaves the view as it leaves that. -/
def ActsAs (pick : Dictionary → Option (String × Value)) (m : DataMap) (owner : String) (operation : ViewOperation) :
    Prop :=
  (m.performView owner operation).1
      = (Dictionary.perform pick (m.view owner) operation).1.mapError (viewRefusal owner) ∧
    (m.performView owner operation).2.view owner = (Dictionary.perform pick (m.view owner) operation).2

private theorem exists_key (ho : IsOwner owner) (hn : name ≠ "") (m : DataMap) :
    ∃ k : DataKey, DataKey.make owner name = .ok k ∧ k.owner = owner.toList ∧ String.ofList k.name = name ∧
      k.text = joined owner name ∧ (m.view owner).lookup name = m.get? k := by
  obtain ⟨k, hk, howner, hname⟩ := DataKey.make_eq_ok ho hn
  have hlist : String.ofList k.name = name := by rw [hname, String.ofList_toList]
  exact ⟨k, hk, howner, hlist, (DataKey.text_eq_joined_iff ho.2).2 ⟨howner, hname⟩, hlist ▸ lookup_view howner⟩

private theorem name_ne_of_mem_view {entry : String × Value} (h : entry ∈ m.view owner) : entry.1 ≠ "" := by
  obtain ⟨⟨k, v⟩, -, h⟩ := List.mem_filterMap.1 h
  dsimp only at h
  split at h
  · cases h
    exact k.name_ne_empty
  · cases h

private theorem viewSet_eq_ok (ho : IsOwner owner) (hn : name ≠ "") (m : DataMap) (v : Value) :
    ∃ n, m.viewSet owner name v = .ok n ∧ n.view owner = Dictionary.put (m.view owner) name v := by
  obtain ⟨k, hk, howner, hname, -⟩ := exists_key ho hn m
  refine ⟨m.insert k v, ?_, ?_⟩
  · rw [viewSet, hk]
    rfl
  · rw [view_insert_self howner, hname]

private theorem viewRemove_eq (ho : IsOwner owner) (hn : name ≠ "") (m : DataMap) :
    ((m.view owner).lookup name = none ∧ m.viewRemove owner name = .error (missing (.text (joined owner name)))) ∨
      ((m.view owner).lookup name).isSome ∧ ∃ k, k.owner = owner.toList ∧ m.viewRemove owner name = .ok (m.erase k) ∧
        (m.erase k).view owner = Dictionary.without (m.view owner) name := by
  obtain ⟨k, hk, howner, hname, htext, hlookup⟩ := exists_key ho hn m
  rw [hlookup, viewRemove, hk]
  dsimp only [bind, Except.bind]
  cases hget : m.get? k with
  | none => exact .inl ⟨rfl, by rw [← htext]; rfl⟩
  | some v => exact .inr ⟨rfl, k, howner, rfl, by rw [view_erase_self howner, hname]⟩

/-- Taking out the first entry of a view leaves out its key. -/
private theorem viewPopFirst_eq (ho : IsOwner owner) {entry : String × Value} {entries : Dictionary}
    (hview : m.view owner = entry :: entries) :
    ∃ k : DataKey, k.owner = owner.toList ∧ m.viewPopFirst owner = .ok (entry, m.erase k) ∧
      (m.erase k).view owner = Dictionary.without (m.view owner) entry.1 := by
  have hmem : entry ∈ m.view owner := by simp [hview]
  rcases viewRemove_eq ho (name_ne_of_mem_view hmem) m with ⟨hlookup, -⟩ | ⟨-, k, howner, hremove, hrest⟩
  · rw [hview, List.lookup_cons_self] at hlookup
    cases hlookup
  · refine ⟨k, howner, ?_, hrest⟩
    rw [viewPopFirst, hview]
    dsimp only
    rw [hremove]
    rfl

/-- Taking out first entries, one after the other, until there is none. -/
inductive Drained (owner : String) : DataMap → DataMap → Prop
  | done {m : DataMap} (h : m.view owner = []) : Drained owner m m
  | step {m n r : DataMap} {entry : String × Value} (h : m.viewPopFirst owner = .ok (entry, n)) (hrest : Drained owner n r) :
    Drained owner m r

/-- Clearing a view takes out its entries one after the other. -/
private theorem drained_viewClear (ho : IsOwner owner) (m : DataMap) : Drained owner m (m.viewClear owner) := by
  cases hview : m.view owner with
  | nil =>
    have hkept : m.viewClear owner = m := by
      refine congrArg DataMap.mk (List.filter_eq_self.2 fun entry hentry => ?_)
      simpa using List.filterMap_eq_nil_iff.1 hview entry hentry
    rw [hkept]
    exact .done hview
  | cons entry entries =>
    obtain ⟨k, howner, hpop, hrest⟩ := viewPopFirst_eq ho hview
    have hclear : (m.erase k).viewClear owner = m.viewClear owner := by
      rw [viewClear, viewClear, erase, List.filter_filter]
      refine congrArg DataMap.mk (List.filter_congr fun other _ => Bool.and_eq_left_iff_imp.2 fun hother => ?_)
      rw [decide_eq_true_iff] at hother ⊢
      exact fun heq => hother (heq ▸ howner)
    rw [← hclear]
    have hshorter : ((m.erase k).view owner).length < (m.view owner).length := by
      rw [hrest, hview, Dictionary.without, List.filter_cons_of_neg (by simp)]
      exact Nat.lt_succ_of_le (List.length_filter_le _ _)
    exact .step hpop (drained_viewClear ho (m.erase k))
termination_by (m.view owner).length

private theorem viewPop_eq (ho : IsOwner owner) (hn : name ≠ "") (m : DataMap) (default? : Option Value) :
    ActsAs List.head? m owner (.pop name default?) := by
  obtain ⟨k, hk, howner, hname, htext, hlookup⟩ := exists_key ho hn m
  rw [ActsAs, performView, Dictionary.perform, viewPop, hk, hlookup]
  dsimp only [bind, Except.bind]
  cases m.get? k with
  | some v => exact ⟨rfl, by rw [← hname]; exact view_erase_self howner⟩
  | none =>
    cases default? with
    | some v => exact ⟨rfl, rfl⟩
    | none => exact ⟨by rw [htext]; rfl, rfl⟩

private theorem viewSetDefault_eq (ho : IsOwner owner) (hn : name ≠ "") (m : DataMap) (v : Value) :
    ActsAs List.head? m owner (.setDefault name v) := by
  obtain ⟨k, hk, howner, hname, -, hlookup⟩ := exists_key ho hn m
  rw [ActsAs, performView, Dictionary.perform, viewSetDefault, hk, hlookup]
  dsimp only [bind, Except.bind]
  cases m.get? k with
  | some w => exact ⟨rfl, rfl⟩
  | none => exact ⟨rfl, by rw [← hname]; exact view_insert_self howner⟩

/-- Setting entries through a view one after the other never fails, when all of them have names. -/
private theorem viewUpdate_eq (ho : IsOwner owner) (m : DataMap) (entries : Dictionary)
    (hn : ∀ entry ∈ entries, entry.1 ≠ "") :
    (m.viewUpdate owner (entries.map fun entry => .ok (.text entry.1, entry.2))).2 = none ∧
      (m.viewUpdate owner (entries.map fun entry => .ok (.text entry.1, entry.2))).1.view owner =
        entries.foldl (fun d entry => Dictionary.put d entry.1 entry.2) (m.view owner) := by
  induction entries generalizing m with
  | nil => exact ⟨rfl, rfl⟩
  | cons entry entries ih =>
    obtain ⟨hentry, hentries⟩ := List.forall_mem_cons.1 hn
    obtain ⟨n, hset, hview⟩ := viewSet_eq_ok ho hentry m entry.2
    have hname : DataKey.nameOf (.text entry.1) = entry.1 := by
      simp [DataKey.nameOf, Value.truthy, hentry, Value.plainText]
    rw [List.map_cons, viewUpdate, hname, hset, List.foldl_cons, ← hview]
    exact ih n hentries

/-- What is done through a view acts on it as on a dictionary that gives away its first entry. -/
theorem actsAs_performView (ho : IsOwner owner) (m : DataMap) {operation : ViewOperation} (hn : operation.IsNamed) :
    ActsAs List.head? m owner operation := by
  cases operation with
  | set name v =>
    obtain ⟨n, hset, hview⟩ := viewSet_eq_ok ho hn m v
    rw [ActsAs, performView, hset]
    exact ⟨rfl, hview⟩
  | remove name =>
    rw [ActsAs, performView, Dictionary.perform]
    rcases viewRemove_eq ho hn m with ⟨hlookup, hremove⟩ | ⟨hlookup, k, -, hremove, hview⟩
    · rw [hremove, hlookup]
      exact ⟨rfl, rfl⟩
    · obtain ⟨v, hv⟩ := Option.isSome_iff_exists.1 hlookup
      rw [hremove, hv]
      exact ⟨rfl, hview⟩
  | pop name default? => exact viewPop_eq ho hn m default?
  | popFirst =>
    rw [ActsAs, performView, Dictionary.perform]
    cases hview : m.view owner with
    | nil =>
      rw [viewPopFirst, hview]
      exact ⟨rfl, hview⟩
    | cons entry entries =>
      obtain ⟨k, -, hpop, hrest⟩ := viewPopFirst_eq ho hview
      rw [hpop]
      rw [hview] at hrest
      exact ⟨rfl, hrest⟩
  | setDefault name v => exact viewSetDefault_eq ho hn m v
  | update given =>
    obtain ⟨hpairs, hnames⟩ := hn
    obtain ⟨hnone, hview⟩ := viewUpdate_eq ho m _ hnames
    rw [ActsAs, performView, Dictionary.perform, viewUpdateFrom, hpairs]
    dsimp only
    refine ⟨?_, (congrArg (view · owner) (map_changedPartly _)).trans hview⟩
    rw [result_changedPartly hnone]
    rfl
  | clear => exact ⟨rfl, view_viewClear m owner⟩

/-! ### Keys and views -/

/-- Behind an owner and a colon stands the name of each key of this owner. -/
private theorem seen_text (ho : ':' ∉ owner.toList) (k : DataKey) :
    (if (owner.toList ++ [':']).isPrefixOf k.text.toList then
        some (String.ofList (k.text.toList.drop (owner.length + 1)))
      else none) = if k.owner = owner.toList then some (String.ofList k.name) else none := by
  rw [DataKey.toList_text]
  by_cases howner : k.owner = owner.toList
  · have hdrop : (owner.toList ++ ':' :: k.name).drop (owner.length + 1) = k.name := by
      rw [← String.length_toList, ← List.drop_drop, List.drop_left, List.drop_one, List.tail_cons]
    rw [howner, if_pos (List.isPrefixOf_iff_prefix.2 ⟨k.name, by simp⟩), if_pos rfl, hdrop]
  · rw [if_neg howner, if_neg]
    intro hprefix
    obtain ⟨rest, hrest⟩ := List.isPrefixOf_iff_prefix.1 hprefix
    rw [List.append_assoc, List.singleton_append] at hrest
    exact howner (DataKey.eq_of_append_colon ho k.colon_not_mem hrest).1.symm

private theorem names_view (ho : ':' ∉ owner.toList) (m : DataMap) :
    (m.view owner).map Prod.fst = seen owner m.keys := by
  rw [view, keys, toList, seen, List.map_filterMap, List.map_map, List.filterMap_map]
  refine List.filterMap_congr fun entry _ => ?_
  dsimp only [Function.comp_apply]
  rw [seen_text ho]
  split_ifs <;> rfl

private theorem mem_view_iff (ho : ':' ∉ owner.toList) : (name, v) ∈ m.view owner ↔
    (joined owner name, v) ∈ m.toList := by
  rw [view, toList, List.mem_filterMap, List.mem_map]
  refine exists_congr fun entry => and_congr_right fun _ => ?_
  rw [Prod.mk.injEq, DataKey.text_eq_joined_iff ho]
  dsimp only
  split_ifs with howner
  · rw [Option.some_inj, Prod.mk.injEq, and_iff_right howner, ← String.toList_inj, String.toList_ofList]
  · simp [howner]

private theorem exists_of_mem_keys {key : String} (h : key ∈ m.keys) : ∃ k : DataKey, k.text = key := by
  rw [keys, toList, List.map_map] at h
  obtain ⟨entry, -, hentry⟩ := List.mem_map.1 h
  exact ⟨entry.1, hentry⟩

private theorem mem_seen_iff (ho : ':' ∉ owner.toList) (name : String) :
    name ∈ seen owner m.keys ↔ joined owner name ∈ m.keys := by
  rw [← names_view ho, keys]
  simp only [List.mem_map, Prod.exists, exists_and_right, exists_eq_right, mem_view_iff ho]

/-- A map that is made from entries and changed since, whether by one of the operations or by taking out entries. -/
inductive Reached : DataMap → Prop
  | new (given : Value) (h : (empty.updateFrom given).2 = none) : Reached (empty.updateFrom given).1
  | perform {m : DataMap} (h : Reached m) (operation : Operation) : Reached (m.perform operation).2
  | delete {m n : DataMap} (h : Reached m) (hn : n.entries.Sublist m.entries) : Reached n

/-- Every key of a map is written in one way only. -/
private theorem Reached.nodup (h : Reached m) : (m.entries.map Prod.fst).Nodup := by
  induction h with
  | new given _ => exact (changed_updateFrom empty given).nodup List.nodup_nil
  | perform _ operation ih => exact (changed_perform _ operation).nodup ih
  | delete _ hn ih => exact ih.sublist (hn.map _)

/-- The owners of the keys of a map do not get in each other's way. -/
structure Separated (m : DataMap) : Prop where
  keys : ∀ key ∈ m.keys, (∃ k, DataKey.read key = .ok k) ∧
    ∃ owner name, IsOwner owner ∧ name ≠ "" ∧ key = joined owner name
  nodup : m.keys.Nodup
  /-- A view shows the entries whose keys are those of its owner. -/
  view : ∀ owner, IsOwner owner → (m.view owner).map Prod.fst = seen owner m.keys ∧
    ∀ name v, (name, v) ∈ m.view owner ↔ (joined owner name, v) ∈ m.toList
  seen : ∀ owner, IsOwner owner → ∀ name, name ∈ seen owner m.keys ↔ joined owner name ∈ m.keys
  owned : ∀ key ∈ m.keys, ∃! owner, IsOwner owner ∧ ∃ name ∈ DataMap.seen owner m.keys, joined owner name = key
  find : ∀ owner name, IsOwner owner → name ≠ "" → m.viewFind owner name =
    ((m.view owner).lookup name).elim (.error (missing (.text (joined owner name)))) .ok
  acts : ∀ owner operation, IsOwner owner → operation.IsNamed → ActsAs List.head? m owner operation
  clears : ∀ owner, IsOwner owner → Drained owner m (m.viewClear owner)
  apart : ∀ owner other operation, IsOwner owner → IsOwner other → owner ≠ other →
    (m.performView owner operation).2.view other = m.view other

/-- In every map that is made from entries and changed since, the owners of the keys do not get in each other's way. -/
theorem Reached.separated (h : Reached m) : m.Separated where
  keys key hkey := by
    obtain ⟨k, rfl⟩ := exists_of_mem_keys hkey
    exact ⟨⟨k, DataKey.read_eq_ok_iff.2 rfl⟩, _, _, k.isOwner_owner, k.name_ne_empty, k.text_eq⟩
  nodup := by
    have htexts := h.nodup.map (f := DataKey.text) fun _ _ => DataKey.text_injective
    rw [DataMap.keys, toList, List.map_map]
    rwa [List.map_map] at htexts
  view owner ho := ⟨names_view ho.2 m, fun _ _ => mem_view_iff ho.2⟩
  seen owner ho := mem_seen_iff ho.2
  owned key hkey := by
    obtain ⟨k, rfl⟩ := exists_of_mem_keys hkey
    have htext := k.text_eq
    refine ⟨String.ofList k.owner, ⟨k.isOwner_owner, String.ofList k.name, ?_, htext.symm⟩, ?_⟩
    · exact (mem_seen_iff k.isOwner_owner.2 _).2 (htext ▸ hkey)
    · rintro owner ⟨ho, name, -, hname⟩
      rw [((DataKey.text_eq_joined_iff ho.2).1 hname.symm).1, String.ofList_toList]
  find owner name ho hn := by
    obtain ⟨k, hk, -, -, htext, hlookup⟩ := exists_key ho hn m
    rw [hlookup, viewFind, hk, ← htext]
    dsimp only [bind, Except.bind]
    cases m.get? k <;> rfl
  acts owner operation ho hn := actsAs_performView ho m hn
  clears owner ho := drained_viewClear ho m
  apart owner other operation ho hother hne :=
    (changed_performView m owner operation).view_eq fun k hk h => hne (String.toList_inj.1 (hk.symm.trans h))

/-- Entries of owners of which one starts with the other, with a colon in a name. -/
def neighbours : DataMap :=
  (empty.updateFrom (.map [(.text "a:x", .int 1), (.text "a:b:c", .int 2), (.text "ab:x", .int 3)])).1

theorem reached_neighbours_separated : Reached neighbours ∧ neighbours.Separated ∧
    neighbours.view "a" = [("x", .int 1), ("b:c", .int 2)] ∧ neighbours.view "ab" = [("x", .int 3)] := by
  have h : Reached neighbours := .new _ (by decide +kernel)
  exact ⟨h, h.separated, by decide +kernel, by decide +kernel⟩

/-- A dictionary gives away its last entry where a view gives away its first. -/
theorem not_actsAs_last : Reached neighbours ∧ IsOwner "a" ∧ ¬ActsAs List.getLast? neighbours "a" .popFirst :=
  ⟨.new _ (by decide +kernel), by decide +kernel, fun h => absurd h.2 (by decide +kernel)⟩

end DataMap

end MarkdownTree
