import MarkdownTree.Proofs.Event

/-!
# Balanced events

Building succeeds on exactly those rows of events that are one nest of pairs around a root, each of which makes a node,
and then gives the tree of that nest; on all others it fails as reading fails and in no other way (`build_balanced`).
What has been read at any time is a nest that is still open: the frames hold what the pairs that are closed have made
(`Opened`, `Building.holds_step`).
-/

namespace MarkdownTree

/-- A fault of a lookup, of a type or of a value: what making a node can end with. -/
def Fault.IsRefusal : Fault → Prop
  | .type _ | .value _ | .key _ => True
  | _ => False

/-- The fault is one of reading; a node that cannot be made has been refused. -/
def Fault.IsParsing : Fault → Prop
  | .parse _ => True
  | .event _ cause => cause.IsRefusal
  | _ => False

namespace Event

/-! ### Nests -/

/-- The start of a node and the end that belongs to it, with the pairs between them. -/
inductive Nest where
  | pair (kind : String) (start stop : Int) (attributes : List Field) (value : Option Value) (inner : List Nest)

namespace Nest

/-- The kind that both ends of the outermost pair name. -/
def kind : Nest → String
  | pair kind .. => kind

mutual

/-- The row of events that a nest is. -/
def events : Nest → List Event
  | pair kind start stop attributes value inner =>
    .enter kind start attributes value :: eventsOf inner ++ [.leave kind stop]

/-- The events of nests one after the other. -/
def eventsOf : List Nest → List Event
  | [] => []
  | n :: ns => events n ++ eventsOf ns

end

end Nest

/-- The attributes that a node of a kind can be given: its fields, its data, and children where it has its own. -/
def Admits (kind : Kind) (attributes : List Field) : Prop :=
  ∀ field ∈ attributes, field.1 = "data" ∨ (field.1 = "children" ∧ kind.isParent = true) ∨
    field.1 ∈ kind.defaults.map Prod.fst

/-- The fields of a kind as an event gives them: a literal takes its value from the event, and an attribute that is not
given is as usual.  Of two attributes of one name the second counts. -/
def carried (kind : Kind) (attributes : List Field) (value : Option Value) : List Field :=
  kind.defaults.map fun usual =>
    (usual.1, if kind.isLiteral && usual.1 == "value" then (value.filter Value.truthy).getD (.text "")
      else (attributes.reverse.lookup usual.1).getD usual.2)

mutual

/-- A nest makes a node: its kind is known, the kind admits what it carries, it does not end before it starts, and all
that it holds makes nodes. -/
inductive Nest.Makes (l : Locator) : Nest → Draft → Prop where
  | node {name : String} {start stop : Int} {attributes : List Field} {value : Option Value} {inner : List Nest}
      {kind : Kind} {fields : List Field} {children : List Draft}
      (hkind : Kind.ofName? name = some kind) (hadmits : Admits kind attributes)
      (hfields : Draft.check kind (carried kind attributes value) = .ok fields)
      (horder : max 0 (min start l.size) ≤ max 0 (min stop l.size))
      (hinner : Nest.MakesAll l inner children) :
      Nest.Makes l (.pair name start stop attributes value inner)
        (.node kind fields (some (.ofPosition ⟨l.point start, l.point stop⟩)) (if kind.isParent then children else [])
          none)

/-- Nests make nodes one after the other. -/
inductive Nest.MakesAll (l : Locator) : List Nest → List Draft → Prop where
  | nil : Nest.MakesAll l [] []
  | cons {n : Nest} {ns : List Nest} {t : Draft} {ts : List Draft} (hhead : Nest.Makes l n t)
      (htail : Nest.MakesAll l ns ts) : Nest.MakesAll l (n :: ns) (t :: ts)

end

namespace Nest

variable {l : Locator}

private theorem eventsOf_append (ms ns : List Nest) : eventsOf (ms ++ ns) = eventsOf ms ++ eventsOf ns := by
  induction ms with
  | nil => rfl
  | cons m ms ih => rw [List.cons_append, eventsOf, eventsOf, ih, List.append_assoc]

theorem MakesAll.append {ms ns : List Nest} {ss ts : List Draft} (hm : MakesAll l ms ss) (hn : MakesAll l ns ts) :
    MakesAll l (ms ++ ns) (ss ++ ts) := by
  induction ms generalizing ss with
  | nil =>
    cases hm
    exact hn
  | cons m ms ih =>
    cases hm with
    | cons hhead htail => exact .cons hhead (ih htail)

private theorem MakesAll.singleton {n : Nest} {t : Draft} (h : Makes l n t) : MakesAll l [n] [t] :=
  .cons h .nil

private theorem Makes.kind? {n : Nest} {t : Draft} (h : Makes l n t) : t.kind? = Kind.ofName? n.kind := by
  cases h with
  | node hkind => exact hkind.symm

end Nest

/-! ### Making a node -/

section Make

variable {kind : Kind}

private theorem lookup_filter {p : Field → Bool} {name : String} (hp : ∀ v, p (name, v) = true) (fields : List Field) :
    (fields.filter p).lookup name = fields.lookup name := by
  induction fields with
  | nil => rfl
  | cons field fields ih =>
    obtain ⟨key, v⟩ := field
    by_cases hkey : name = key
    · subst hkey
      rw [List.filter_cons_of_pos (hp v), List.lookup_cons_self, List.lookup_cons_self]
    · have hne : (name == key) = false := beq_false_of_ne hkey
      rw [List.lookup_cons, hne]
      by_cases hkeep : p (key, v) = true
      · rw [List.filter_cons_of_pos hkeep, List.lookup_cons, hne]
        exact ih
      · rw [List.filter_cons_of_neg hkeep]
        exact ih

private theorem lookup_append (xs ys : List Field) (name : String) :
    (xs ++ ys).lookup name = (xs.lookup name).or (ys.lookup name) := by
  induction xs with
  | nil => rfl
  | cons field xs ih =>
    rw [List.cons_append, List.lookup_cons, List.lookup_cons, ih]
    cases name == field.1 <;> rfl

private theorem lookup_isSome {fields : List Field} {name : String} :
    (fields.lookup name).isSome = true ↔ name ∈ fields.map Prod.fst := by
  induction fields with
  | nil => simp
  | cons field fields ih =>
    rw [List.lookup_cons, List.map_cons, List.mem_cons, ← ih]
    by_cases h : name = field.1
    · simp [h]
    · rw [beq_false_of_ne h]
      simp [h]

/-- Setting fields one after the other: each has the last value that it is given. -/
private theorem foldl_setField (given fields : List Field) :
    given.foldl (fun fields field => setField field.1 field.2 fields) fields =
      fields.map fun field => (field.1, (given.reverse.lookup field.1).getD field.2) := by
  induction given generalizing fields with
  | nil => exact (List.map_id fields).symm
  | cons given rest ih =>
    obtain ⟨name, v⟩ := given
    rw [List.foldl_cons, ih, setField, List.map_map]
    refine List.map_congr_left fun field _ => ?_
    rw [List.reverse_cons, lookup_append, List.lookup_cons, List.lookup_nil]
    by_cases h : field.1 = name
    · simp [h]
    · have hne : (field.1 == name) = false := beq_false_of_ne h
      simp [h, hne]

private theorem mem_defaults_value : "value" ∈ kind.defaults.map Prod.fst ↔ kind.isLiteral = true := by
  cases kind <;> decide

private theorem ne_of_mem_defaults {name : String} (h : name ∈ kind.defaults.map Prod.fst) :
    name ≠ "data" ∧ name ≠ "children" := by
  have hall : ∀ name ∈ kind.defaults.map Prod.fst, name ≠ "data" ∧ name ≠ "children" := by
    cases kind <;> decide
  exact hall name h

/-- What a frame gives to a node are fields of its kind exactly if the kind admits its attributes. -/
private theorem all_given (f : Frame) :
    (f.given kind).all (fun field => (kind.defaults.lookup field.1).isSome) = true ↔ Admits kind f.attributes := by
  have hvalue : ∀ v, ((if kind.isLiteral then [(("value" : String), (v : Value))] else []).all
      fun field => (kind.defaults.lookup field.1).isSome) = true := by
    intro v
    split
    · rename_i hliteral
      simpa using lookup_isSome.2 (mem_defaults_value.2 hliteral)
    · rfl
  have hsplit : f.given kind = (f.attributes.filter fun field =>
      field.1 ≠ "data" && !(field.1 == "children" && kind.isParent) && !(field.1 == "value" && kind.isLiteral)) ++
      if kind.isLiteral then [("value", (f.value.filter Value.truthy).getD (.text ""))] else [] := by
    unfold Frame.given
    split <;> simp
  rw [hsplit, List.all_append, hvalue, Bool.and_true, List.all_eq_true]
  constructor
  · intro h field hfield
    by_cases hdata : field.1 = "data"
    · exact .inl hdata
    by_cases hchildren : field.1 = "children" ∧ kind.isParent = true
    · exact .inr (.inl hchildren)
    refine .inr (.inr ?_)
    by_cases hliteral : field.1 = "value" ∧ kind.isLiteral = true
    · rw [hliteral.1]
      exact mem_defaults_value.2 hliteral.2
    · refine lookup_isSome.1 (h field (List.mem_filter.2 ⟨hfield, ?_⟩))
      rw [not_and_or, Bool.not_eq_true] at hchildren hliteral
      simpa [hdata] using ⟨hchildren, hliteral⟩
  · intro h field hfield
    obtain ⟨hmem, hkeep⟩ := List.mem_filter.1 hfield
    simp only [Bool.and_eq_true, Bool.not_eq_true', decide_eq_true_eq] at hkeep
    obtain ⟨⟨hdata, hchildren⟩, -⟩ := hkeep
    rcases h field hmem with hname | ⟨hname, hparent⟩ | hname
    · exact absurd hname hdata
    · rw [hname, hparent] at hchildren
      cases hchildren
    · exact lookup_isSome.2 hname

private theorem lookup_given (f : Frame) {name : String} (h : name ∈ kind.defaults.map Prod.fst) :
    (f.given kind).reverse.lookup name =
      if kind.isLiteral && name == "value" then some ((f.value.filter Value.truthy).getD (.text ""))
      else f.attributes.reverse.lookup name := by
  obtain ⟨hdata, hchildren⟩ := ne_of_mem_defaults h
  unfold Frame.given
  by_cases hliteral : kind.isLiteral = true
  · rw [if_pos hliteral, hliteral, Bool.true_and, List.reverse_append, List.reverse_singleton, List.singleton_append,
      List.lookup_cons]
    cases hvalue : name == "value" with
    | true => rfl
    | false =>
      rw [← List.filter_reverse]
      refine lookup_filter (fun v => ?_) _
      simp [hdata, hchildren, ne_of_beq_false hvalue]
  · rw [if_neg hliteral, Bool.eq_false_iff.2 hliteral, Bool.false_and, ← List.filter_reverse]
    refine lookup_filter (fun v => ?_) _
    simp [hdata, hchildren]

private theorem foldl_given (f : Frame) :
    (f.given kind).foldl (fun fields field => setField field.1 field.2 fields) kind.defaults =
      carried kind f.attributes f.value := by
  rw [foldl_setField, carried]
  refine List.map_congr_left fun field hfield => ?_
  rw [lookup_given f (List.mem_map_of_mem hfield)]
  split <;> rfl

/-- The fields of a node that is made of a frame. -/
private theorem fieldsFor_given_eq_ok (f : Frame) {fields : List Field} :
    Draft.fieldsFor kind (f.given kind) = .ok fields ↔
    Admits kind f.attributes ∧ Draft.check kind (carried kind f.attributes f.value) = .ok fields := by
  unfold Draft.fieldsFor
  rw [foldl_given]
  by_cases h : Admits kind f.attributes
  · rw [if_pos ((all_given f).2 h)]
    exact (and_iff_right h).symm
  · rw [if_neg (mt (all_given f).1 h)]
    exact ⟨(fun h => by cases h), fun hok => absurd hok.1 h⟩

/-- A kind that insists on something refuses what does not have it. -/
private theorem isRefusal_check {fields : List Field} {fault : Fault} (h : Draft.check kind fields = .error fault) :
    fault.IsRefusal := by
  unfold Draft.check at h
  split at h
  · unfold Draft.checkDepth at h
    dsimp only at h
    split at h
    · cases h
      trivial
    · split at h
      · cases h
      · cases h
        trivial
  · unfold Draft.checkStart at h
    dsimp only at h
    split at h
    · cases h
    · split at h
      · cases h
        trivial
      · split at h
        · cases h
          trivial
        · split at h
          · cases h
            trivial
          · cases h
  · cases h

private theorem isRefusal_fieldsFor {given : List Field} {fault : Fault}
    (h : Draft.fieldsFor kind given = .error fault) : fault.IsRefusal := by
  unfold Draft.fieldsFor at h
  split at h
  · exact isRefusal_check h
  · cases h
    trivial

private theorem offset_point (l : Locator) (offset : Int) : (l.point offset).offset = max 0 (min offset l.size) := by
  show ((min offset.toNat l.size : Nat) : Int) = _
  omega

/-- Making a node of a frame comes to nothing else than checking what it carries. -/
private theorem make_eq (l : Locator) (f : Frame) (stop : Int) : f.make l stop = (do
    let position ← Position.make (l.point f.start) (l.point stop)
    match Kind.ofName? f.kind with
    | none => throw (.key (.unknownKind (.text f.kind)))
    | some kind => do
      let fields ← Draft.fieldsFor kind (f.given kind)
      return .node kind fields (some (.ofPosition position)) (if kind.isParent then f.children else []) none) := rfl

private theorem make_eq_ok_iff (l : Locator) (f : Frame) (stop : Int) (t : Draft) : f.make l stop = .ok t ↔
    ∃ kind fields, Kind.ofName? f.kind = some kind ∧ Admits kind f.attributes ∧
      Draft.check kind (carried kind f.attributes f.value) = .ok fields ∧
      max 0 (min f.start l.size) ≤ max 0 (min stop l.size) ∧
      t = .node kind fields (some (.ofPosition ⟨l.point f.start, l.point stop⟩)) (if kind.isParent then f.children else [])
        none := by
  rw [make_eq, Position.make, Position.between?, offset_point, offset_point]
  by_cases horder : max 0 (min f.start l.size) ≤ max 0 (min stop l.size)
  · rw [if_pos horder]
    cases hkind : Kind.ofName? f.kind with
    | none => exact ⟨(fun h => by cases h), by rintro ⟨_, _, h, -⟩; cases h⟩
    | some kind =>
      simp only [Option.some.injEq]
      cases hfields : Draft.fieldsFor kind (f.given kind) with
      | error fault =>
        refine ⟨(fun h => by cases h), ?_⟩
        rintro ⟨_, fields, rfl, hadmits, hcheck, -⟩
        have hok := (fieldsFor_given_eq_ok f).2 ⟨hadmits, hcheck⟩
        rw [hfields] at hok
        cases hok
      | ok fields =>
        obtain ⟨hadmits, hcheck⟩ := (fieldsFor_given_eq_ok f).1 hfields
        constructor
        · intro h
          cases h
          exact ⟨kind, fields, rfl, hadmits, hcheck, horder, rfl⟩
        · rintro ⟨_, fields', rfl, -, hcheck', -, rfl⟩
          cases hcheck.symm.trans hcheck'
          rfl
  · rw [if_neg horder]
    exact ⟨(fun h => by cases h), by rintro ⟨_, _, _, _, _, h, -⟩; exact absurd h horder⟩

/-- A node that cannot be made has been refused. -/
private theorem isRefusal_make {l : Locator} {f : Frame} {stop : Int} {fault : Fault}
    (h : f.make l stop = .error fault) :
    fault.IsRefusal := by
  rw [make_eq, Position.make] at h
  cases hposition : Position.between? (l.point f.start) (l.point stop) with
  | none =>
    rw [hposition] at h
    cases h
    trivial
  | some position =>
    rw [hposition] at h
    cases hkind : Kind.ofName? f.kind with
    | none =>
      rw [hkind] at h
      cases h
      trivial
    | some kind =>
      rw [hkind] at h
      cases hfields : Draft.fieldsFor kind (f.given kind) with
      | ok fields =>
        simp only [hfields] at h
        cases h
      | error cause =>
        simp only [hfields] at h
        cases h
        exact isRefusal_fieldsFor hfields

end Make

/-! ### What has been read -/

variable {l : Locator}

/-- The events that have opened some frames, the innermost first, with those of the nests that they hold so far. -/
inductive Opened (l : Locator) : List Frame → List Event → Prop where
  | nil : Opened l [] []
  | cons {f : Frame} {frames : List Frame} {past : List Event} {inner : List Nest} (houter : Opened l frames past)
      (hinner : Nest.MakesAll l inner f.children) :
      Opened l (f :: frames) (past ++ .enter f.kind f.start f.attributes f.value :: Nest.eventsOf inner)

/-- What has been built of the events that have been read: a nest that is still open, or all of one. -/
def Building.Holds (l : Locator) (b : Building) (past : List Event) : Prop :=
  match b.root with
  | none => Opened l b.frames past
  | some t => b.frames = [] ∧ ∃ n : Nest, n.events = past ∧ n.Makes l t

/-- A frame that is left has become a nest that makes its node. -/
private theorem exists_nest_of_make {f : Frame} {stop : Int} {t : Draft} {inner : List Nest} (h : f.make l stop = .ok t)
    (hinner : Nest.MakesAll l inner f.children) :
    ∃ n : Nest, n.Makes l t ∧
      n.events = .enter f.kind f.start f.attributes f.value :: Nest.eventsOf inner ++ [.leave f.kind stop] := by
  obtain ⟨kind, fields, hkind, hadmits, hfields, horder, rfl⟩ := (make_eq_ok_iff l f stop t).1 h
  exact ⟨.pair f.kind f.start stop f.attributes f.value inner, .node hkind hadmits hfields horder hinner, rfl⟩

/-- One more event: what is built holds it too, or it is refused. -/
theorem Building.holds_step {b : Building} {past : List Event} (h : b.Holds l past) (e : Event) :
    match b.step l e with
    | .ok b' => b'.Holds l (past ++ [e])
    | .error fault => fault.IsParsing := by
  obtain ⟨frames, root⟩ := b
  cases e with
  | enter kind offset attributes value =>
    cases root with
    | some t => exact trivial
    | none => exact Opened.cons (f := ⟨kind, offset, attributes, value, []⟩) h .nil
  | leave kind offset =>
    cases frames with
    | nil => exact trivial
    | cons f frames =>
      cases root with
      | some t => cases h.1
      | none =>
        by_cases hkind : f.kind = kind
        · subst hkind
          cases hmake : f.make l offset with
          | error cause =>
            simp only [Building.step, ne_eq, not_true_eq_false, if_false, hmake]
            exact isRefusal_make hmake
          | ok t =>
            cases h with
            | @cons _ _ past inner houter hinner =>
              obtain ⟨n, hn, hevents⟩ := exists_nest_of_make hmake hinner
              have hpast : past ++ .enter f.kind f.start f.attributes f.value :: Nest.eventsOf inner ++
                  [.leave f.kind offset] = past ++ n.events := by
                rw [hevents, List.append_assoc]
              simp only [Building.step, ne_eq, not_true_eq_false, if_false, hmake]
              rw [hpast]
              cases houter with
              | nil => exact ⟨rfl, n, rfl, hn⟩
              | @cons outer frames past siblings houter hsiblings =>
                have hall : Opened l ({ outer with children := outer.children ++ [t] } :: frames)
                    (past ++ .enter outer.kind outer.start outer.attributes outer.value ::
                      Nest.eventsOf (siblings ++ [n])) :=
                  .cons (f := { outer with children := outer.children ++ [t] }) houter
                    (hsiblings.append (Nest.MakesAll.singleton hn))
                rw [Nest.eventsOf_append, Nest.eventsOf, Nest.eventsOf, List.append_nil] at hall
                rw [List.append_assoc, List.cons_append]
                exact hall
        · simp only [Building.step, ne_eq, hkind, not_false_eq_true, if_true]
          trivial

/-- A row of events: what is built holds all of them, or one was refused. -/
private theorem Building.holds_run {b : Building} {past : List Event} (h : b.Holds l past) (es : List Event) :
    match Building.run l b es with
    | .ok b' => b'.Holds l (past ++ es)
    | .error fault => fault.IsParsing := by
  induction es generalizing b past with
  | nil =>
    rw [List.append_nil]
    exact h
  | cons e es ih =>
    have hstep := Building.holds_step h e
    unfold Building.run
    cases hb : b.step l e with
    | error fault =>
      rw [hb] at hstep
      exact hstep
    | ok b' =>
      rw [hb] at hstep
      have hrest := ih hstep
      rw [List.append_assoc, List.singleton_append] at hrest
      exact hrest

/-! ### Nests are built -/

/-- The frame of a pair that is entered, with the nodes that have been made in it. -/
private def openFrame (name : String) (start : Int) (attributes : List Field) (value : Option Value)
    (children : List Draft) : Frame :=
  ⟨name, start, attributes, value, children⟩

mutual

/-- The events of a nest that makes a node add the node to the frame that is open. -/
private theorem run_nest {n : Nest} {t : Draft} : n.Makes l t → ∀ f frames es,
    Building.run l ⟨f :: frames, none⟩ (n.events ++ es) =
      Building.run l ⟨{ f with children := f.children ++ [t] } :: frames, none⟩ es
  | @Nest.Makes.node _ name start stop attributes value inner kind fields children hkind hadmits hfields horder hinner,
      f, frames, es => by
    have hmake : (openFrame name start attributes value children).make l stop = .ok _ :=
      (make_eq_ok_iff l _ stop _).2 ⟨kind, fields, hkind, hadmits, hfields, horder, rfl⟩
    have hrun := run_nests hinner (openFrame name start attributes value []) (f :: frames) (.leave name stop :: es)
    simp only [Nest.events, List.cons_append, List.append_assoc, List.nil_append]
    exact hrun.trans (run_leave l hmake f frames es)

/-- The events of nests that make nodes add the nodes to the frame that is open. -/
private theorem run_nests {ns : List Nest} {ts : List Draft} : Nest.MakesAll l ns ts → ∀ f frames es,
    Building.run l ⟨f :: frames, none⟩ (Nest.eventsOf ns ++ es) =
      Building.run l ⟨{ f with children := f.children ++ ts } :: frames, none⟩ es
  | .nil, f, frames, es => by
    rw [List.append_nil]
    rfl
  | .cons hhead htail, f, frames, es => by
    rw [Nest.eventsOf, List.append_assoc, run_nest hhead, run_nests htail]
    simp only [List.append_assoc, List.singleton_append]

end

/-- The events of a nest that makes a node build the node. -/
private theorem run_outermost {n : Nest} {t : Draft} (h : n.Makes l t) :
    Building.run l ⟨[], none⟩ n.events = .ok ⟨[], some t⟩ := by
  cases h with
  | @node name start stop attributes value inner kind fields children hkind hadmits hfields horder hinner =>
    have hmake : (openFrame name start attributes value children).make l stop = .ok _ :=
      (make_eq_ok_iff l _ stop _).2 ⟨kind, fields, hkind, hadmits, hfields, horder, rfl⟩
    have hrun := run_nests hinner (openFrame name start attributes value []) [] [.leave name stop]
    exact hrun.trans (run_leave_last l hmake)

/-! ### Building -/

private theorem ofName?_eq_root {name : String} : Kind.ofName? name = some .root ↔ name = Kind.root.name := by
  constructor
  · intro h
    have hname := List.find?_some h
    exact (beq_iff_eq.1 hname).symm
  · rintro rfl
    rfl

/-- What is built is the root that a run leaves with no node open; else there is no root, or the run fails. -/
private theorem build_cases (l : Locator) (events : List Event) :
    (∃ t, Building.run l ⟨[], none⟩ events = .ok ⟨[], some t⟩ ∧ t.kind? = some .root ∧ build l events = .ok t) ∨
    (∃ fault : ParseFault, build l events = .error (.parse fault)) ∨
    ∃ fault, Building.run l ⟨[], none⟩ events = .error fault ∧ build l events = .error fault := by
  unfold build
  cases Building.run l ⟨[], none⟩ events with
  | error fault => exact .inr (.inr ⟨fault, rfl, rfl⟩)
  | ok b =>
    obtain ⟨frames, root⟩ := b
    cases frames with
    | cons f frames => exact .inr (.inl ⟨.unclosed f.kind, rfl⟩)
    | nil =>
      cases root with
      | none => exact .inr (.inl ⟨.notRoot, rfl⟩)
      | some t =>
        by_cases hroot : t.kind? = some .root
        · exact .inl ⟨t, rfl, hroot, if_pos hroot⟩
        · exact .inr (.inl ⟨.notRoot, if_neg hroot⟩)

/-- A row of events is built if and only if it is that of one nest around a root which makes a node, and the node that
it makes is built; whatever else comes of it is a fault of reading. -/
theorem build_balanced (text : List Char) (events : List Event) :
    (∀ t, build (.ofText text) events = .ok t ↔
      ∃ n : Nest, n.kind = Kind.root.name ∧ n.events = events ∧ n.Makes (.ofText text) t) ∧
    ∀ fault, build (.ofText text) events = .error fault → fault.IsParsing := by
  have hrun := Building.holds_run (l := .ofText text) (b := ⟨[], none⟩) .nil events
  rw [List.nil_append] at hrun
  refine ⟨fun t => ⟨fun h => ?_, ?_⟩, fun fault h => ?_⟩
  · rcases build_cases (.ofText text) events with ⟨t', hb, hroot, hbuild⟩ | ⟨fault, hbuild⟩ | ⟨fault, -, hbuild⟩
    · cases hbuild.symm.trans h
      rw [hb] at hrun
      obtain ⟨-, n, hevents, hmakes⟩ := hrun
      exact ⟨n, ofName?_eq_root.1 (hmakes.kind?.symm.trans hroot), hevents, hmakes⟩
    · cases hbuild.symm.trans h
    · cases hbuild.symm.trans h
  · rintro ⟨n, hkind, rfl, hmakes⟩
    unfold build
    rw [run_outermost hmakes]
    exact if_pos (hmakes.kind?.trans (ofName?_eq_root.2 hkind))
  · rcases build_cases (.ofText text) events with ⟨t, -, -, hbuild⟩ | ⟨fault', hbuild⟩ | ⟨fault', hb, hbuild⟩
    · cases hbuild.symm.trans h
    · cases hbuild.symm.trans h
      trivial
    · cases hbuild.symm.trans h
      rw [hb] at hrun
      exact hrun

end Event

end MarkdownTree
