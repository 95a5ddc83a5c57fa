import PolicyStore.Schema.Default
import PolicyStore.Proofs.Merge.Names
import PolicyStore.Proofs.Schema.Blame
import PolicyStore.Proofs.Schema.Included

set_option autoImplicit false

namespace PolicyStore

/-!
# Schemas inside schemas

A definition may hold a schema, whose definitions may hold others. What is read out of legal names
has legal names at all these levels, and the defaults of a schema are those of its names.
-/

/-! ## What the contents of trees have in common -/

theorem Tree.rows_content (t : Tree) :
    t.content.rows = t.entries.map fun row => (row.1, row.2.map content) := by
  cases t
  rw [content, Content.rows_node, contentOfRows_eq_map, entries]

theorem Tree.mem_rows_content {t : Tree} {key : String} {values : Values Tree}
    (h : (key, values) ∈ t.entries) : (key, values.map content) ∈ t.content.rows := by
  rw [rows_content]
  exact List.mem_map_of_mem (f := fun row : String × Values Tree => (row.1, row.2.map content)) h

namespace Content

/-- What holds of a content holds of all those in it. -/
def Hereditary (P : Content → Prop) : Prop :=
  ∀ t, P t → ∀ key vs, (key, vs) ∈ t.rows → ∀ c ∈ vs.children, P c

theorem hereditary_named : Hereditary Named := by
  intro t h key vs hrow
  cases h with
  | node _ hchildren => exact hchildren (key, vs) hrow

theorem hereditary_regular : Hereditary Regular := by
  intro t h key vs hrow
  cases h with
  | node _ _ hchildren => exact hchildren (key, vs) hrow

variable {P : Content → Prop} {t c : Tree} {first : String} {values : Values Tree}

theorem Hereditary.child (hP : Hereditary P) (h : P t.content) (hrow : (first, values) ∈ t.entries)
    (hc : c ∈ values.children) : P c.content := by
  refine hP _ h first _ (Tree.mem_rows_content hrow) _ ?_
  rw [Values.children_map]
  exact List.mem_map_of_mem hc

theorem Named.key (h : t.content.Named) (hrow : (first, values) ∈ t.entries) :
    Name.segments first = .ok [first] := by
  have hmapped := Tree.mem_rows_content hrow
  generalize t.content = content at h hmapped
  cases h with
  | node hkeys _ => exact hkeys _ hmapped

end Content

/-! ## Levels -/

namespace Definition

theorem exists_dictionary_of_inline {name : String} {rows : Entries Tree} {sub : Schema}
    (h : sub? name rows = .ok (.inline sub)) : ∃ children t,
      Table.get? dictionaryKey rows = some (.policies children) ∧ t ∈ children ∧
        sub.entries = t.entries := by
  unfold sub? at h
  split at h
  · rename_i block hlast
    obtain ⟨values, hget, hlast⟩ := Option.bind_eq_some_iff.mp hlast
    obtain ⟨children, rfl, hmem⟩ := Values.eq_policies_of_last? hlast
    split at h
    · rename_i inner hinner
      cases h
      exact ⟨children, block, hget, hmem, Schema.entries_of_ofEntries? hinner⟩
    · cases h
  · cases h
  · cases h
  · split at h <;> cases h

theorem children_promote {π : Type} (declared : Option Kind) (vs : Values π) :
    (vs.promote declared).children = vs.children := by
  cases vs <;> simp only [Values.promote]
  split <;> rfl

theorem isEmpty_promote {π : Type} (declared : Option Kind) (vs : Values π) :
    (vs.promote declared).isEmpty = vs.isEmpty := by
  cases vs with
  | ints is =>
    simp only [Values.promote]
    split
    · cases is <;> rfl
    · rfl
  | _ => rfl

theorem exists_of_default {name : String} {rows : Entries Tree} {d : Definition}
    (h : ofBlock? name rows = .ok d) {values : Values Tree} (hdefault : d.default = some values) :
    ∃ written, Table.get? defaultKey rows = some written ∧ values.children = written.children ∧
      values.isEmpty = written.isEmpty := by
  obtain ⟨_, _, _, _, _, _, hread⟩ := fields_of_ofBlock? h
  rw [hdefault] at hread
  obtain ⟨written, hget, rfl⟩ := Option.map_eq_some_iff.mp hread.symm
  exact ⟨written, hget, children_promote _ _, isEmpty_promote _ _⟩

end Definition

namespace Schema

/-- All policies of a schema have a property. -/
def Over (P : Content → Prop) (s : Schema) : Prop :=
  ∀ key values, (key, values) ∈ s.entries → ∀ t ∈ values.children, P t.content

/-- The schema is the other one, or holds it inside its definitions at some depth. -/
inductive Inside : Schema → Schema → Prop
  | here (s : Schema) : Inside s s
  | inner {s sub t : Schema} {name : String} {d : Definition} :
      Name.segments name = .ok [name] → s.Defines name d → d.sub = .inline sub → Inside sub t →
      Inside s t

/-- A path leads through the dictionaries inside definitions to a definition. -/
inductive Leads : Schema → List String → Definition → Prop
  | last {s : Schema} {name : String} {d : Definition} : s.Defines name d → Leads s [name] d
  | step {s inner : Schema} {name next : String} {rest : List String} {d e : Definition} :
      s.Defines name d → d.sub = .inline inner → Leads inner (next :: rest) e →
      Leads s (name :: next :: rest) e

variable {s inner : Schema} {name : String} {d : Definition}

theorem Leads.cons {path : List String} {e : Definition} (hd : s.Defines name d)
    (hsub : d.sub = .inline inner) (h : inner.Leads path e) : s.Leads (name :: path) e := by
  cases h with
  | last he => exact .step hd hsub (.last he)
  | step he hinline h => exact .step hd hsub (.step he hinline h)

theorem Defines.unique {e : Definition} (hd : s.Defines name d) (he : s.Defines name e) : d = e := by
  cases (definition?_eq_ok_iff.mpr hd).symm.trans (definition?_eq_ok_iff.mpr he)
  rfl

theorem definitionFor_eq_ok_iff {full : String} :
    s.definitionFor full name = .ok d ↔ s.Defines name d := by
  rw [← definition?_eq_ok_iff, definitionFor]
  split <;> simp_all

theorem enter_eq_ok_iff {full : String} {done : List String} :
    enter d full done = .ok inner ↔ d.sub = .inline inner := by
  unfold enter
  split <;> simp_all

/-- Following a path ends at the definition that it leads to. -/
theorem follow_eq_ok_iff {full : String} {path : List String} : ∀ {done : List String} {s : Schema},
    follow full done s path = .ok d ↔ s.Leads path d := by
  induction path with
  | nil => exact fun {_ _} => ⟨nofun, nofun⟩
  | cons name rest ih =>
    intro done s
    cases rest with
    | nil =>
      rw [follow, definitionFor_eq_ok_iff]
      exact ⟨.last, fun h => by cases h; assumption⟩
    | cons next rest =>
      constructor
      · intro h
        obtain ⟨e, he, h⟩ := Except.bind_eq_ok h
        obtain ⟨sub, hsub, h⟩ := Except.bind_eq_ok h
        exact .step (definitionFor_eq_ok_iff.mp he) (enter_eq_ok_iff.mp hsub) (ih.mp h)
      · intro h
        cases h with
        | step he hsub h =>
          simp only [follow, definitionFor_eq_ok_iff.mpr he, enter_eq_ok_iff.mpr hsub, bind,
            Except.bind]
          exact ih.mpr h

theorem lookup_eq_ok_iff {path : List String} (hname : Name.segments name = .ok path) :
    s.lookup name = .ok d ↔ s.Leads path d := by
  rw [lookup, hname]
  exact follow_eq_ok_iff

section Over

variable {P : Content → Prop} (h : s.Over P)

include h

theorem Over.of_child? {key : String} {t : Tree} (hchild : Entries.child? key s.entries = some t) :
    P t.content := by
  unfold Entries.child? at hchild
  split at hchild
  · rename_i children hget
    exact h key _ (Table.mem_of_get? hget) t (List.mem_of_getLast? hchild)
  · cases hchild

omit h in
theorem own?_of_definitions? {block : Tree} (hblock : s.definitions? = some block)
    (hname : Name.segments name = .ok [name]) : s.own? name = Table.get? name block.entries := by
  rw [own?, hblock, Option.bind_some, Tree.find?, Entries.find?, Entries.lookup, hname]
  rfl

variable (hP : Content.Hereditary P) (hname : Name.segments name = .ok [name])

include hP hname

theorem Over.describes {block : Tree} (hblock : s.Describes name block) : P block.content := by
  cases hblock with
  | own hown hlast =>
    obtain ⟨definitions, hdefinitions, _⟩ := Option.bind_eq_some_iff.mp hown
    rw [own?_of_definitions? hdefinitions hname] at hown
    exact hP.child (h.of_child? hdefinitions) (Table.mem_of_get? hown) (List.mem_of_getLast? hlast)
  | child _ hchild => exact h.of_child? hchild

theorem Over.sub (hd : s.Defines name d) (hsub : d.sub = .inline inner) : inner.Over P := by
  obtain ⟨block, hblock, hread⟩ := hd
  have hinline := Definition.sub?_of_ofBlock? hread
  rw [hsub] at hinline
  obtain ⟨children, t, hget, ht, hentries⟩ := Definition.exists_dictionary_of_inline hinline
  have hdictionary := hP.child (h.describes hP hname hblock) (Table.mem_of_get? hget) ht
  intro key values hrow c hc
  rw [hentries] at hrow
  exact hP.child hdictionary hrow hc

theorem Over.default (hd : s.Defines name d) {values : Values Tree}
    (hdefault : d.default = some values) : ∀ t ∈ values.children, P t.content := by
  obtain ⟨block, hblock, hread⟩ := hd
  obtain ⟨written, hget, hchildren, -⟩ := Definition.exists_of_default hread hdefault
  intro t ht
  rw [hchildren] at ht
  exact hP.child (h.describes hP hname hblock) (Table.mem_of_get? hget) ht

end Over

theorem Over.definedNames (h : s.Over Content.Named) (hname : name ∈ s.definedNames) :
    Name.segments name = .ok [name] ∧ s.own? name ≠ none := by
  unfold Schema.definedNames at hname
  split at hname
  · rename_i block hblock
    obtain ⟨⟨key, values⟩, hrow, rfl⟩ := List.mem_map.mp hname
    have hkey := (h.of_child? hblock).key hrow
    refine ⟨hkey, ?_⟩
    rw [own?_of_definitions? hblock hkey, Ne, Table.get?_eq_none_iff]
    exact fun hnot => hnot hname
  · cases hname

theorem mem_definedNames_of_own? (hname : Name.segments name = .ok [name])
    (hown : s.own? name ≠ none) : name ∈ s.definedNames := by
  unfold Schema.definedNames
  cases hblock : s.definitions? with
  | none => simp [own?, hblock] at hown
  | some block =>
    rw [own?_of_definitions? hblock hname, Ne, Table.get?_eq_none_iff, not_not] at hown
    exact hown

end Schema

theorem Store.schema_over {s : Store} {P : Content → Prop} (h : ∀ q, P (s.tree q).content)
    (d : Dictionary) : (s.schema d).Over P := by
  intro key values hrow t ht
  obtain ⟨old, _, heq⟩ := List.mem_map.mp hrow
  cases heq
  rw [Values.children_map] at ht
  obtain ⟨c, _, rfl⟩ := List.mem_map.mp ht
  exact h c

theorem Store.Legal.named_schema {s : Store} (h : s.Legal) (d : Dictionary) :
    (s.schema d).Over Content.Named :=
  schema_over h.named_tree d

/-! ## Defaults of names -/

namespace Schema

/-- What a schema has to say of the default of one of its names. -/
def defaultOf (s : Schema) (name : String) : Defaults :=
  match s.definition? name with
  | none => {}
  | some (.error _) => ⟨[], [(name, Code.badDefinition)]⟩
  | some (.ok d) =>
    match d.default with
    | some values => d.ownDefault name values
    | none =>
      match d.sub with
      | .inline sub => Defaults.under name sub.defaults
      | .unloaded _ => ⟨[], [(name, Code.notLoaded)]⟩
      | .none => {}

theorem defaults_eq (s : Schema) :
    s.defaults = (s.definedNames.map s.defaultOf).foldr Defaults.append {} := by
  rw [defaults]
  refine congrArg (List.foldr Defaults.append {}) (List.map_congr_left fun name _ => ?_)
  unfold defaultOf
  split <;> rename_i h <;> simp only [h]
  rename_i d
  cases hdefault : d.default with
  | some values => rfl
  | none => cases hsub : d.sub <;> rfl

theorem foldr_append (parts : List Defaults) : parts.foldr Defaults.append {} =
    ⟨parts.flatMap (·.entries), parts.flatMap (·.findings)⟩ := by
  induction parts with
  | nil => rfl
  | cons part parts ih =>
    rw [List.foldr_cons, ih]
    rfl

theorem entries_defaults (s : Schema) :
    s.defaults.entries = s.definedNames.flatMap fun name => (s.defaultOf name).entries := by
  rw [defaults_eq, foldr_append, List.flatMap_map]

theorem findings_defaults (s : Schema) :
    s.defaults.findings = s.definedNames.flatMap fun name => (s.defaultOf name).findings := by
  rw [defaults_eq, foldr_append]
  exact List.flatMap_map _ _ _

theorem defaults_of_single {s : Schema} {name : String} (h : s.definedNames = [name]) :
    s.defaults = s.defaultOf name := by
  rw [defaults_eq, h, List.map_singleton]
  simp [Defaults.append]

end Schema

theorem settle_eq_ok_none_iff {found : List Finding} :
    settle found none = .ok none ↔ ∀ f ∈ found, f.2 = .none := by
  rw [← Report.isEmpty_record_iff, settle]
  cases (Report.empty.record found).isEmpty <;> simp

theorem settle_of_none {found : List Finding} (h : ∀ f ∈ found, f.2 = .none) (r : Report) :
    settle found (some r) = .ok (some r) := by
  rw [settle, Report.record_of_none h]
  rfl

/-- The defaults of a dictionary are planted, and what was found is settled. -/
theorem Policy.ofDefaults_eq {s : Store} {d : Dictionary} {acc acc' : Option Report}
    (h : settle (s.schema d).defaults.findings acc = .ok acc') (attached : Bool) :
    ofDefaults d attached acc s =
      let planted := (Tree.fresh (s.schema d).defaults.entries).plant s
      .ok (planted.1, acc')
        (if attached then planted.2.setDictionary planted.1 d else planted.2) := by
  have hlift : StoreM.lift (settle (s.schema d).defaults.findings acc) s = .ok acc' s := by
    rw [StoreM.lift, StoreM.ask, h]
  show EStateM.bind (StoreM.lift _) _ s = _
  rw [EStateM.bind, hlift]
  cases attached <;> rfl

theorem Policy.ofDefaults_of_defaults {s : Store} {d : Dictionary} {entries : Entries Tree}
    (h : (s.schema d).defaults = ⟨entries, []⟩) (acc : Option Report) :
    ofDefaults d false acc s =
      .ok (((Tree.fresh entries).plant s).1, acc) ((Tree.fresh entries).plant s).2 := by
  have hsettle : settle (s.schema d).defaults.findings acc = .ok acc := by
    rw [h]
    cases acc with
    | none => rfl
    | some r => exact settle_of_none (fun _ hf => absurd hf List.not_mem_nil) r
  rw [ofDefaults_eq hsettle, h]
  rfl

end PolicyStore
