import Mathlib.Data.List.Induction
import Mathlib.Data.List.Perm.Basic
import MarkdownTree.Plugin.Builtin

/-!
# When a registry fills itself

A registry fills itself at the first lookup, so what is done before does not see what the catalog has, and what the
entry points have comes over it.  A registry that is filled from the start can give other answers to the same calls
(`answers_ne_of_clear`).  The two give the same exactly when what is done before the first lookup leaves no trace of
that under any name that the catalog has (`answers_eq_iff`).
-/

namespace MarkdownTree

variable {σ : Type}

/-! ### What filling does to one name -/

/-- The spec that is found at an entry point. -/
def EntryPoint.spec? (e : EntryPoint σ) : Option (PluginSpec σ) :=
  match e.load with
  | .ok (.spec s) => some s
  | _ => none

private theorem EntryPoint.spec?_eq_some {e : EntryPoint σ} {s : PluginSpec σ} :
    e.spec? = some s ↔ e.load = .ok (.spec s) := by
  unfold EntryPoint.spec?
  split <;> simp_all

namespace Catalog

/-- The specs that are found at the entry points. -/
def published (c : Catalog σ) : List (PluginSpec σ) :=
  match c.entryPoints with
  | .error _ => []
  | .ok entries => entries.filterMap EntryPoint.spec?

/-- What there is under the name of a spec after a look at an entry point that has it. -/
def overwrite (found : Option (PluginSpec σ)) (s : PluginSpec σ) : Option (PluginSpec σ) :=
  match found with
  | some t => if s.serial.isSome && t.serial == s.serial then some t else some s
  | none => some s

/-- What there is under a name when a registry has filled itself, by what there was before. -/
def fill (c : Catalog σ) (name : String) (found : Option (PluginSpec σ)) : Option (PluginSpec σ) :=
  (c.published.filter (·.name == name)).foldl overwrite (found.or (c.builtins.find? (·.name == name)))

private theorem overwrite_isSome (found : Option (PluginSpec σ)) (s : PluginSpec σ) : (overwrite found s).isSome := by
  unfold overwrite
  split
  · split <;> rfl
  · rfl

private theorem foldl_overwrite_isSome {found : Option (PluginSpec σ)} {specs : List (PluginSpec σ)}
    (h : found.isSome ∨ specs ≠ []) : (specs.foldl overwrite found).isSome := by
  induction specs generalizing found with
  | nil => simpa using h
  | cons s specs ih => exact ih (.inl (overwrite_isSome found s))

private theorem fill_of_absent {c : Catalog σ} {name : String} (h : ¬∃ s ∈ c.builtins ++ c.published, s.name = name)
    (found : Option (PluginSpec σ)) : c.fill name found = found := by
  simp only [List.mem_append, not_exists, not_and] at h
  have hbuiltin : c.builtins.find? (·.name == name) = none :=
    List.find?_eq_none.2 fun s hs => by simpa using h s (.inl hs)
  have hpublished : c.published.filter (·.name == name) = [] :=
    List.filter_eq_nil_iff.2 fun s hs => by simpa using h s (.inr hs)
  simp [fill, hbuiltin, hpublished]

/-- Filling brings the names of the built-in plugins and of those at the entry points, and no others. -/
private theorem fill_none_isSome_iff {c : Catalog σ} {name : String} :
    (c.fill name none).isSome ↔ ∃ s ∈ c.builtins ++ c.published, s.name = name := by
  constructor
  · intro h
    by_contra habsent
    rw [fill_of_absent habsent] at h
    cases h
  · rintro ⟨s, hs, rfl⟩
    rcases List.mem_append.1 hs with hs | hs
    · exact foldl_overwrite_isSome (.inl (by simpa using ⟨s, hs, rfl⟩))
    · exact foldl_overwrite_isSome (.inr (List.ne_nil_of_mem (List.mem_filter.2 ⟨hs, by simp⟩)))

/-- Filling leaves alone what there is under a name that it does not bring. -/
private theorem fill_of_not_isSome {c : Catalog σ} {name : String} (h : ¬(c.fill name none).isSome)
    (found : Option (PluginSpec σ)) : c.fill name found = found :=
  fill_of_absent (fun habsent => h (fill_none_isSome_iff.2 habsent)) found

end Catalog

namespace Registry

/-! ### What there is under a name -/

@[simp] theorem find?_say (r : Registry σ) (level : LogLevel) (text name : String) :
    (r.say level text).find? name = r.find? name :=
  rfl

private theorem find?_cons (s : PluginSpec σ) (specs : List (PluginSpec σ)) (name : String) :
    (s :: specs).find? (·.name == name) = if s.name = name then some s else specs.find? (·.name == name) := by
  by_cases h : s.name = name <;> simp [h]

private theorem find?_insertSpec (s : PluginSpec σ) (specs : List (PluginSpec σ)) (name : String) :
    (insertSpec s specs).find? (·.name == name) = if s.name = name then some s else specs.find? (·.name == name) := by
  induction specs with
  | nil => exact find?_cons s [] name
  | cons t specs ih =>
    unfold insertSpec
    by_cases hname : t.name = s.name
    · rw [if_pos hname, find?_cons, find?_cons, hname]
      split <;> rfl
    · rw [if_neg hname, find?_cons, find?_cons, ih]
      by_cases hs : s.name = name
      · simp [hs, hs ▸ hname]
      · simp [hs]

private theorem find?_register (r : Registry σ) (s : PluginSpec σ) (name : String) :
    (r.register s).find? name = if s.name = name then some s else r.find? name := by
  unfold register
  split <;> exact find?_insertSpec s r.plugins name

private theorem find?_filter (specs : List (PluginSpec σ)) (name name' : String) :
    (specs.filter (·.name != name)).find? (·.name == name') =
      if name = name' then none else specs.find? (·.name == name') := by
  rw [List.find?_filter]
  by_cases h : name = name'
  · simp [h]
  · rw [if_neg h]
    congr 1
    funext s
    by_cases hs : s.name = name'
    · simp [hs, Ne.symm h]
    · simp [hs]

private theorem find?_unregister (r : Registry σ) (name name' : String) :
    (r.unregister name).2.find? name' = if name = name' then none else r.find? name' := by
  unfold unregister
  split
  · exact find?_filter r.plugins name name'
  · rename_i hnone
    split
    · rename_i h
      subst h
      simpa using hnone
    · rfl

private theorem find?_insertNew (r : Registry σ) (s : PluginSpec σ) (name : String) :
    (r.insertNew s).find? name = (r.find? name).or (if s.name = name then some s else none) := by
  unfold insertNew
  by_cases hname : s.name = name
  · subst hname
    cases hfind : r.find? s.name with
    | some t => simp [hfind]
    | none =>
      simp only [find?] at hfind
      simp [find?, List.find?_append, hfind]
  · rw [if_neg hname, Option.or_none]
    split
    · rfl
    · simp [find?, List.find?_append, hname]

private theorem find?_foldl_insertNew (specs : List (PluginSpec σ)) (r : Registry σ) (name : String) :
    (specs.foldl insertNew r).find? name = (r.find? name).or (specs.find? (·.name == name)) := by
  induction specs generalizing r with
  | nil => simp
  | cons s specs ih =>
    rw [List.foldl_cons, ih, find?_insertNew, Option.or_assoc, find?_cons]
    split <;> simp

private theorem find?_visitEntry_spec (r : Registry σ) (e : EntryPoint σ) {s : PluginSpec σ}
    (h : e.spec? = some s) (name : String) :
    (r.visitEntry e).2.find? name = if s.name = name then Catalog.overwrite (r.find? name) s else r.find? name := by
  unfold visitEntry
  rw [EntryPoint.spec?_eq_some.1 h]
  by_cases hname : s.name = name
  · subst hname
    obtain ⟨found, hfind⟩ : ∃ found, r.find? s.name = found := ⟨_, rfl⟩
    rw [if_pos rfl, hfind]
    simp only [holds, hfind]
    cases found with
    | none => simp [find?_register, Catalog.overwrite]
    | some t =>
      simp only [Catalog.overwrite]
      split
      · exact hfind
      · rw [find?_register, if_pos rfl]
  · rw [if_neg hname]
    dsimp only
    split
    · rfl
    · rw [find?_register, if_neg hname]

private theorem find?_visitEntry_other (r : Registry σ) (e : EntryPoint σ) (h : e.spec? = none) (name : String) :
    (r.visitEntry e).2.find? name = r.find? name := by
  unfold visitEntry
  split
  · rfl
  · rename_i s hload
    rw [EntryPoint.spec?_eq_some.2 hload] at h
    cases h
  · rfl

private theorem find?_foldl_visitEntry (entries : List (EntryPoint σ)) (n : Nat) (r : Registry σ) (name : String) :
    (entries.foldl (fun (count, r) e =>
        let (registered, r) := visitEntry r e
        (if registered then count + 1 else count, r)) (n, r)).2.find? name =
      ((entries.filterMap EntryPoint.spec?).filter (·.name == name)).foldl Catalog.overwrite (r.find? name) := by
  induction entries generalizing n r with
  | nil => rfl
  | cons e entries ih =>
    rw [List.foldl_cons, ih, List.filterMap_cons]
    cases hspec : e.spec? with
    | none => rw [find?_visitEntry_other r e hspec]
    | some s =>
      rw [find?_visitEntry_spec r e hspec]
      by_cases hname : s.name = name <;> simp [hname]

private theorem find?_discover (r : Registry σ) (name : String) :
    r.discover.2.find? name =
      (r.catalog.published.filter (·.name == name)).foldl Catalog.overwrite (r.find? name) := by
  unfold discover Catalog.published
  cases r.catalog.entryPoints with
  | error text => rfl
  | ok entries => exact find?_foldl_visitEntry entries 0 r name

private theorem foldl_insertNew_catalog (specs : List (PluginSpec σ)) (r : Registry σ) :
    (specs.foldl insertNew r).catalog = r.catalog := by
  induction specs generalizing r with
  | nil => rfl
  | cons s specs ih =>
    rw [List.foldl_cons, ih, insertNew]
    split <;> rfl

/-- A registry that fills itself has under every name what its catalog makes of what was there. -/
private theorem find?_filled {r : Registry σ} (h : r.initialized = false) (name : String) :
    r.filled.find? name = r.catalog.fill name (r.find? name) := by
  unfold filled
  rw [if_neg (by simp [h]), find?_discover, foldl_insertNew_catalog, find?_foldl_insertNew]
  rfl

/-! ### No name twice -/

/-- No name is there twice. -/
def Distinct (r : Registry σ) : Prop :=
  (r.plugins.map (·.name)).Nodup

private theorem find?_isSome_iff {r : Registry σ} {name : String} :
    (r.find? name).isSome ↔ name ∈ r.plugins.map (·.name) := by
  simp [find?]

private theorem map_name_insertSpec (s : PluginSpec σ) (specs : List (PluginSpec σ)) :
    (insertSpec s specs).map (·.name) =
      if s.name ∈ specs.map (·.name) then specs.map (·.name) else specs.map (·.name) ++ [s.name] := by
  induction specs with
  | nil => simp [insertSpec]
  | cons t specs ih =>
    unfold insertSpec
    by_cases hname : t.name = s.name
    · simp [hname]
    · simp only [if_neg hname, List.map_cons, ih, List.mem_cons, Ne.symm hname, false_or]
      split <;> rfl

private theorem nodup_concat {names : List String} (h : names.Nodup) {name : String} (hnew : name ∉ names) :
    (names ++ [name]).Nodup := by
  refine List.nodup_append.2 ⟨h, by simp, fun a ha b hb => ?_⟩
  rw [List.mem_singleton.1 hb]
  exact ne_of_mem_of_not_mem ha hnew

private theorem Distinct.register {r : Registry σ} (h : r.Distinct) (s : PluginSpec σ) : (r.register s).Distinct := by
  have hinsert : ((insertSpec s r.plugins).map (·.name)).Nodup := by
    rw [map_name_insertSpec]
    split
    · exact h
    · rename_i hnew
      exact nodup_concat h hnew
  unfold Registry.register
  split <;> exact hinsert

private theorem Distinct.unregister {r : Registry σ} (h : r.Distinct) (name : String) :
    (r.unregister name).2.Distinct := by
  unfold Registry.unregister
  split
  · exact List.Nodup.sublist (List.filter_sublist.map _) h
  · exact h

private theorem Distinct.insertNew {r : Registry σ} (h : r.Distinct) (s : PluginSpec σ) :
    (r.insertNew s).Distinct := by
  unfold Registry.insertNew
  split
  · exact h
  · rename_i hnew
    rw [find?_isSome_iff] at hnew
    simp only [Distinct, List.map_append, List.map_cons, List.map_nil]
    exact nodup_concat h hnew

private theorem Distinct.visitEntry {r : Registry σ} (h : r.Distinct) (e : EntryPoint σ) :
    (r.visitEntry e).2.Distinct := by
  unfold Registry.visitEntry
  split
  · exact h
  · split
    · exact h
    · exact h.register _
  · exact h

private theorem Distinct.discover {r : Registry σ} (h : r.Distinct) : r.discover.2.Distinct := by
  have hfold (entries : List (EntryPoint σ)) (n : Nat) : ∀ r : Registry σ, r.Distinct →
      (entries.foldl (fun (count, r) e =>
        let (registered, r) := Registry.visitEntry r e
        (if registered then count + 1 else count, r)) (n, r)).2.Distinct := by
    induction entries generalizing n with
    | nil => exact fun r h => h
    | cons e entries ih => exact fun r h => ih _ _ (h.visitEntry e)
  unfold Registry.discover
  cases r.catalog.entryPoints with
  | error text => exact h
  | ok entries => exact hfold entries 0 r h

private theorem Distinct.filled {r : Registry σ} (h : r.Distinct) : r.filled.Distinct := by
  have hfold (specs : List (PluginSpec σ)) :
      ∀ r : Registry σ, r.Distinct → (specs.foldl Registry.insertNew r).Distinct := by
    induction specs with
    | nil => exact fun r h => h
    | cons s specs ih => exact fun r h => ih _ (h.insertNew s)
  unfold Registry.filled
  split
  · exact h
  · exact (hfold _ { r with initialized := true } h).discover

/-- The sorted names depend on nothing but what there is under each name. -/
private theorem sorted_eq {r r' : Registry σ} (h : r.Distinct) (h' : r'.Distinct)
    (hfind : ∀ name, r.find? name = r'.find? name) :
    (r.plugins.map (·.name)).mergeSort (· ≤ ·) = (r'.plugins.map (·.name)).mergeSort (· ≤ ·) := by
  have hsorted (names : List String) : (names.mergeSort (· ≤ ·)).Pairwise (· ≤ ·) := by
    simpa using @List.pairwise_mergeSort String (fun a b => decide (a ≤ b))
      (fun a b c hab hbc => by simpa using String.le_trans (by simpa using hab) (by simpa using hbc))
      (fun a b => by simpa using String.le_total a b) names
  have hperm : (r.plugins.map (·.name)).Perm (r'.plugins.map (·.name)) :=
    (List.perm_ext_iff_of_nodup h h').2 fun name => by rw [← find?_isSome_iff, ← find?_isSome_iff, hfind]
  refine List.Perm.eq_of_pairwise (fun a b _ _ hab hba => String.le_antisymm hab hba) (hsorted _) (hsorted _) ?_
  exact (List.mergeSort_perm _ _).trans (hperm.trans (List.mergeSort_perm _ _).symm)

/-! ### Calls -/

/-- What puts plugins in a registry or takes them out. -/
inductive Update (σ : Type) where
  | register (c : Candidate σ)
  | unregister (name : String)
  | clear

/-- What asks a registry for plugins. -/
inductive Lookup where
  | get (name : String)
  | has (name : String)
  | names

/-- A call on a registry. -/
inductive Call (σ : Type) where
  | update (u : Update σ)
  | lookup (l : Lookup)

/-- What a call gives. -/
inductive Answer (σ : Type) where
  | nothing
  | flag (b : Bool)
  | spec (s : PluginSpec σ)
  | names (names : List String)
  | fault (fault : Fault)

/-- The answer to an update, and the registry after it. -/
def update (r : Registry σ) : Update σ → Answer σ × Registry σ
  | .register c =>
    match c.published with
    | .ok s => (.nothing, r.register s)
    | .error fault => (.fault fault, r)
  | .unregister name => (.flag (r.unregister name).1, (r.unregister name).2)
  | .clear => (.nothing, r.clear)

/-- The answer to a lookup, and the registry after it. -/
def lookup (r : Registry σ) : Lookup → Answer σ × Registry σ
  | .get name =>
    match r.get name with
    | (.ok s, r) => (.spec s, r)
    | (.error fault, r) => (.fault fault, r)
  | .has name => (.flag (r.has name).1, (r.has name).2)
  | .names => (.names r.names.1, r.names.2)

/-- The answer to a call, and the registry after it. -/
def call (r : Registry σ) : Call σ → Answer σ × Registry σ
  | .update u => r.update u
  | .lookup l => r.lookup l

/-- The answers to calls one after the other. -/
def answers (r : Registry σ) : List (Call σ) → List (Answer σ)
  | [] => []
  | c :: calls => (r.call c).1 :: answers (r.call c).2 calls

private theorem length_answers (r : Registry σ) (calls : List (Call σ)) : (r.answers calls).length = calls.length := by
  induction calls generalizing r with
  | nil => rfl
  | cons c calls ih => simp [answers, ih]

/-! ### Updates -/

/-- The update is about a name. -/
def Update.touches (name : String) : Update σ → Bool
  | .register (.spec s) => s.name == name
  | .register _ => false
  | .unregister name' => name' == name
  | .clear => true

/-- What an update leaves under the names that it is about. -/
def Update.left : Update σ → Option (PluginSpec σ)
  | .register (.spec s) => some s
  | _ => none

/-- The registry after updates. -/
def updated (r : Registry σ) (us : List (Update σ)) : Registry σ :=
  us.foldl (fun r u => (r.update u).2) r

private theorem answers_updates_append (r : Registry σ) (us : List (Update σ)) (calls : List (Call σ)) :
    r.answers (us.map .update ++ calls) = r.answers (us.map .update) ++ (r.updated us).answers calls := by
  induction us generalizing r with
  | nil => rfl
  | cons u us ih => simp [answers, call, updated, ih]

private theorem find?_update (r : Registry σ) (u : Update σ) (name : String) :
    (r.update u).2.find? name = if u.touches name then u.left else r.find? name := by
  cases u with
  | register c =>
    cases c with
    | spec s => simpa [update, Candidate.published, Update.touches, Update.left] using find?_register r s name
    | _ => rfl
  | unregister name' => simpa [update, Update.touches, Update.left] using find?_unregister r name' name
  | clear => rfl

/-- Under each name there is what the last update that is about it left. -/
private theorem find?_updated (r : Registry σ) (us : List (Update σ)) (name : String) :
    (r.updated us).find? name =
      ((us.filter (·.touches name)).getLast?.elim (r.find? name) Update.left) := by
  induction us using List.reverseRecOn with
  | nil => rfl
  | append_singleton us u ih =>
    have hlast : r.updated (us ++ [u]) = ((r.updated us).update u).2 := by simp [updated]
    rw [hlast, find?_update, ih, List.filter_append]
    by_cases hu : u.touches name = true
    · simp [hu]
    · simp [hu]

private theorem update_eq_iff {r r' : Registry σ} {u : Update σ} :
    (r.update u).1 = (r'.update u).1 ↔
      ∀ name, u = .unregister name → (r.find? name).isSome = (r'.find? name).isSome := by
  cases u with
  | register c => cases c <;> simp [update, Candidate.published]
  | clear => simp [update]
  | unregister name =>
    have hflag (r : Registry σ) : (r.unregister name).1 = (r.find? name).isSome := by
      unfold unregister
      split <;> simp_all
    simp [update, hflag]

/-- Two registries answer updates alike when they both have or have not what is unregistered before anything else is
done about it. -/
private theorem answers_updates_eq_iff {r r' : Registry σ} {us : List (Update σ)} :
    r.answers (us.map .update) = r'.answers (us.map .update) ↔
      ∀ name, (us.filter (·.touches name)).head? = some (.unregister name) →
        (r.find? name).isSome = (r'.find? name).isSome := by
  induction us generalizing r r' with
  | nil => simp [answers]
  | cons u us ih =>
    simp only [List.map_cons, answers, call, List.cons.injEq, update_eq_iff, ih, find?_update]
    constructor
    · rintro ⟨hu, hus⟩ name hhead
      by_cases htouch : u.touches name = true
      · rw [List.filter_cons_of_pos htouch, List.head?_cons, Option.some.injEq] at hhead
        exact hu name hhead
      · rw [List.filter_cons_of_neg htouch] at hhead
        simpa [htouch] using hus name hhead
    · intro h
      constructor
      · rintro name rfl
        exact h name (by simp [Update.touches])
      · intro name hhead
        by_cases htouch : u.touches name = true
        · simp [htouch]
        · simpa [htouch] using h name (by rwa [List.filter_cons_of_neg htouch])

/-! ### Lookups -/

private theorem initialized_foldl_insertNew (specs : List (PluginSpec σ)) (r : Registry σ) :
    (specs.foldl insertNew r).initialized = r.initialized := by
  induction specs generalizing r with
  | nil => rfl
  | cons s specs ih =>
    rw [List.foldl_cons, ih, insertNew]
    split <;> rfl

private theorem initialized_register (r : Registry σ) (s : PluginSpec σ) :
    (r.register s).initialized = r.initialized := by
  unfold register
  split <;> rfl

private theorem initialized_discover (r : Registry σ) : r.discover.2.initialized = r.initialized := by
  have hvisit (r : Registry σ) (e : EntryPoint σ) : (r.visitEntry e).2.initialized = r.initialized := by
    unfold visitEntry
    split
    · rfl
    · split
      · rfl
      · exact initialized_register _ _
    · rfl
  have hfold (entries : List (EntryPoint σ)) (n : Nat) (r : Registry σ) :
      (entries.foldl (fun (count, r) e =>
        let (registered, r) := visitEntry r e
        (if registered then count + 1 else count, r)) (n, r)).2.initialized = r.initialized := by
    induction entries generalizing n r with
    | nil => rfl
    | cons e entries ih => rw [List.foldl_cons, ih, hvisit]
  unfold discover
  cases r.catalog.entryPoints with
  | error text => rfl
  | ok entries => exact hfold entries 0 r

private theorem filled_initialized (r : Registry σ) : r.filled.initialized = true := by
  unfold filled
  split
  · assumption
  · rw [initialized_discover, initialized_foldl_insertNew]

private theorem filled_eq_self {r : Registry σ} (h : r.initialized = true) : r.filled = r :=
  if_pos h

private theorem lookup_filled (r : Registry σ) (l : Lookup) : r.filled.lookup l = r.lookup l := by
  have hfilled := filled_eq_self (filled_initialized r)
  cases l <;> simp only [lookup, get, has, names, hfilled]

/-- Two registries that have filled themselves and have the same under every name. -/
structure Level (r r' : Registry σ) : Prop where
  initialized : r.initialized = true
  initialized' : r'.initialized = true
  distinct : r.Distinct
  distinct' : r'.Distinct
  find? (name : String) : r.find? name = r'.find? name

private theorem initialized_update (r : Registry σ) (u : Update σ) : (r.update u).2.initialized = r.initialized := by
  cases u with
  | register c =>
    cases c with
    | spec s => exact initialized_register r s
    | _ => rfl
  | unregister name =>
    simp only [update, unregister]
    split <;> rfl
  | clear => rfl

private theorem Distinct.update {r : Registry σ} (h : r.Distinct) (u : Update σ) : (r.update u).2.Distinct := by
  cases u with
  | register c =>
    cases c with
    | spec s => exact h.register s
    | _ => exact h
  | unregister name => exact h.unregister name
  | clear => exact List.nodup_nil

/-- A call gives the same on both, and leaves them with the same. -/
private theorem Level.call {r r' : Registry σ} (h : r.Level r') (c : Call σ) :
    (r.call c).1 = (r'.call c).1 ∧ (r.call c).2.Level (r'.call c).2 := by
  cases c with
  | update u =>
    refine ⟨update_eq_iff.2 fun name _ => by rw [h.find?], ?_, ?_, h.distinct.update u, h.distinct'.update u, ?_⟩
    · exact (initialized_update r u).trans h.initialized
    · exact (initialized_update r' u).trans h.initialized'
    · intro name
      simp only [Registry.call, find?_update, h.find?]
  | lookup l =>
    have hr := filled_eq_self h.initialized
    have hr' := filled_eq_self h.initialized'
    cases l with
    | get name =>
      simp only [Registry.call, lookup, get, hr, hr', h.find?]
      cases r'.find? name with
      | some s => exact ⟨rfl, h⟩
      | none => exact ⟨rfl, h⟩
    | has name =>
      simp only [Registry.call, lookup, has, hr, hr', h.find?]
      exact ⟨trivial, h⟩
    | names =>
      simp only [Registry.call, lookup, Registry.names, hr, hr']
      exact ⟨congrArg Answer.names (sorted_eq h.distinct h.distinct' h.find?), h⟩

private theorem Level.answers_eq {r r' : Registry σ} (h : r.Level r') (calls : List (Call σ)) :
    r.answers calls = r'.answers calls := by
  induction calls generalizing r r' with
  | nil => rfl
  | cons c calls ih =>
    obtain ⟨hanswer, hlevel⟩ := h.call c
    rw [answers, answers, hanswer, ih hlevel]

/-! ### From the start or at the first lookup -/

/-- A registry that nothing was done with yet. -/
def fresh (c : Catalog σ) : Registry σ :=
  { catalog := c }

/-- Updates leave no trace of when the registry fills itself: the first one about the name does not ask whether there is
a plugin of that name, and the last one leaves a plugin that filling leaves there. -/
def Untraced (c : Catalog σ) (us : List (Update σ)) (name : String) : Prop :=
  (us.filter (·.touches name)).head? ≠ some (.unregister name) ∧
    ∀ u ∈ (us.filter (·.touches name)).getLast?, ∃ s, u = .register (.spec s) ∧ c.fill name (some s) = some s

private theorem updated_initialized (r : Registry σ) (us : List (Update σ)) :
    (r.updated us).initialized = r.initialized := by
  induction us generalizing r with
  | nil => rfl
  | cons u us ih => exact (ih _).trans (initialized_update r u)

private theorem updated_distinct {r : Registry σ} (h : r.Distinct) (us : List (Update σ)) :
    (r.updated us).Distinct := by
  induction us generalizing r with
  | nil => exact h
  | cons u us ih => exact ih (h.update u)

private theorem updated_catalog (r : Registry σ) (us : List (Update σ)) : (r.updated us).catalog = r.catalog := by
  have hupdate (r : Registry σ) (u : Update σ) : (r.update u).2.catalog = r.catalog := by
    cases u with
    | register c =>
      cases c with
      | spec s =>
        simp only [update, Candidate.published, register]
        split <;> rfl
      | _ => rfl
    | unregister name =>
      simp only [update, unregister]
      split <;> rfl
    | clear => rfl
  induction us generalizing r with
  | nil => rfl
  | cons u us ih => exact (ih _).trans (hupdate r u)

/-- Filling at the first lookup comes to the same as filling from the start when it leaves what the updates left. -/
private theorem find?_filled_updated_iff (c : Catalog σ) (us : List (Update σ)) (name : String) :
    ((fresh c).updated us).filled.find? name = ((fresh c).filled.updated us).find? name ↔
      ∀ u ∈ (us.filter (·.touches name)).getLast?, c.fill name u.left = u.left := by
  rw [find?_filled ((updated_initialized _ _).trans rfl), updated_catalog, find?_updated, find?_updated,
    find?_filled rfl]
  cases (us.filter (·.touches name)).getLast? with
  | none => simp [fresh, find?]
  | some u => simp [fresh]

private theorem find?_filled_eq_of_get {r r' : Registry σ} {name : String}
    (h : (r.lookup (.get name)).1 = (r'.lookup (.get name)).1) : r.filled.find? name = r'.filled.find? name := by
  simp only [lookup, get] at h
  cases hr : r.filled.find? name <;> cases hr' : r'.filled.find? name <;> simp_all

private theorem updated_fresh_filled (c : Catalog σ) (us : List (Update σ)) :
    ((fresh c).filled.updated us).initialized = true :=
  (updated_initialized _ us).trans (filled_initialized _)

private theorem untraced_of_answers_eq {c : Catalog σ} {us : List (Update σ)}
    (h : ∀ l calls, (fresh c).answers (us.map .update ++ .lookup l :: calls) =
      (fresh c).filled.answers (us.map .update ++ .lookup l :: calls))
    {s : PluginSpec σ} (hs : s ∈ c.builtins ++ c.published) : Untraced c us s.name := by
  have hfill : (c.fill s.name none).isSome := Catalog.fill_none_isSome_iff.2 ⟨s, hs, rfl⟩
  have hget := h (.get s.name) []
  rw [answers_updates_append, answers_updates_append] at hget
  obtain ⟨hupdates, hlookup⟩ := List.append_inj hget (by simp [length_answers])
  have hfind := find?_filled_eq_of_get (List.cons.inj hlookup).1
  rw [filled_eq_self (updated_fresh_filled c us), find?_filled_updated_iff] at hfind
  refine ⟨fun hhead => ?_, fun u hu => ?_⟩
  · have hsome := answers_updates_eq_iff.1 hupdates s.name hhead
    rw [find?_filled rfl] at hsome
    exact absurd (hsome.trans hfill) (by simp [fresh, find?])
  · have hleft := hfind u hu
    -- Nothing is left only where filling brings nothing.
    cases u with
    | register candidate =>
      cases candidate with
      | spec t => exact ⟨t, rfl, hleft⟩
      | _ => exact absurd hfill (by simp only [Update.left] at hleft; simp [hleft])
    | _ => exact absurd hfill (by simp only [Update.left] at hleft; simp [hleft])

private theorem answers_eq_of_untraced {c : Catalog σ} {us : List (Update σ)}
    (h : ∀ s ∈ c.builtins ++ c.published, Untraced c us s.name) (l : Lookup) (calls : List (Call σ)) :
    (fresh c).answers (us.map .update ++ .lookup l :: calls) =
      (fresh c).filled.answers (us.map .update ++ .lookup l :: calls) := by
  have hname (name : String) : Untraced c us name ∨ ∀ found, c.fill name found = found := by
    by_cases hfill : (c.fill name none).isSome
    · obtain ⟨s, hs, rfl⟩ := Catalog.fill_none_isSome_iff.1 hfill
      exact .inl (h s hs)
    · exact .inr (Catalog.fill_of_not_isSome hfill)
  have hupdates : (fresh c).answers (us.map .update) = (fresh c).filled.answers (us.map .update) := by
    refine answers_updates_eq_iff.2 fun name hhead => ?_
    rcases hname name with huntraced | hfill
    · exact absurd hhead huntraced.1
    · rw [find?_filled rfl]
      exact (congrArg Option.isSome (hfill _)).symm
  have hlevel : ((fresh c).updated us).filled.Level ((fresh c).filled.updated us) := by
    have hfresh : (fresh c).Distinct := List.nodup_nil
    refine ⟨filled_initialized _, updated_fresh_filled c us, (updated_distinct hfresh us).filled,
      updated_distinct hfresh.filled us, fun name => (find?_filled_updated_iff c us name).2 fun u hu => ?_⟩
    rcases hname name with huntraced | hfill
    · obtain ⟨s, rfl, hs⟩ := huntraced.2 u hu
      exact hs
    · exact hfill _
  rw [answers_updates_append, answers_updates_append, hupdates, ← hlevel.answers_eq]
  simp only [answers, call, lookup_filled]

/-- For all calls to be answered alike, it is enough and necessary that the updates before the first lookup leave no
trace under the names of the catalog. -/
theorem answers_eq_iff {c : Catalog σ} {us : List (Update σ)} :
    (∀ l calls, (fresh c).answers (us.map .update ++ .lookup l :: calls) =
        (fresh c).filled.answers (us.map .update ++ .lookup l :: calls)) ↔
      ∀ s ∈ c.builtins ++ c.published, Untraced c us s.name :=
  ⟨fun h _ hs => untraced_of_answers_eq h hs, answers_eq_of_untraced⟩

/-- A registry that is cleared before the first lookup has the built-in plugins after it; one that was filled before has
no plugins. -/
theorem answers_ne_of_clear :
    (fresh (.standard : Catalog Unit)).answers [.update .clear, .lookup (.has "heading-offset")] ≠
      (fresh (.standard : Catalog Unit)).filled.answers [.update .clear, .lookup (.has "heading-offset")] := by
  have hfresh : (fresh (.standard : Catalog Unit)).answers [.update .clear, .lookup (.has "heading-offset")] =
      [.nothing, .flag true] := rfl
  have hfilled : (fresh (.standard : Catalog Unit)).filled.answers [.update .clear, .lookup (.has "heading-offset")] =
      [.nothing, .flag false] := rfl
  rw [hfresh, hfilled]
  simp

end Registry

end MarkdownTree
