import PolicyStore.Schema.Definition

set_option autoImplicit false

namespace PolicyStore

/-!
# Finding definitions

The definition of a name is the one written for it, or else the child definition. A dotted name is
followed through the dictionaries inside the definitions of its segments.
-/

theorem sizeOf_lt_of_mem_children {key : String} {children : List Tree} {t : Tree}
    {rows : Entries Tree} (h : (key, Values.policies children) ∈ rows) (ht : t ∈ children) :
    sizeOf t < sizeOf rows := by
  have h1 := List.sizeOf_lt_of_mem h
  have h2 := List.sizeOf_lt_of_mem ht
  simp only [Prod.mk.sizeOf_spec, Values.policies.sizeOf_spec] at h1
  omega

theorem sizeOf_entries_lt (t : Tree) : sizeOf t.entries < sizeOf t := by
  cases t
  simp only [Tree.entries, Tree.node.sizeOf_spec]
  omega

theorem Entries.sizeOf_child?_lt {key : String} {rows : Entries Tree} {t : Tree}
    (h : Entries.child? key rows = some t) : sizeOf t < sizeOf rows := by
  unfold Entries.child? at h
  split at h
  · rename_i children hget
    exact sizeOf_lt_of_mem_children (Table.mem_of_get? hget) (List.mem_of_getLast? h)
  · simp at h

theorem Tree.sizeOf_lt_of_descend {full : String} {segments : List String} :
    ∀ {done : List String} {rows : Entries Tree} {children : List Tree} {t : Tree},
      Entries.descend Tree.entries full done rows segments = .ok (some (.policies children)) →
      t ∈ children → sizeOf t < sizeOf rows := by
  induction segments with
  | nil =>
    intro done rows children t h
    simp [Entries.descend] at h
  | cons segment rest ih =>
    intro done rows children t h ht
    cases rest with
    | nil =>
      simp only [Entries.descend, Except.ok.injEq] at h
      exact sizeOf_lt_of_mem_children (Table.mem_of_get? h) ht
    | cons next rest =>
      simp only [Entries.descend] at h
      split at h
      · simp at h
      · rename_i siblings hget
        split at h
        · simp at h
        · rename_i child hlast
          have h1 := ih h ht
          have h2 := sizeOf_entries_lt child
          have h3 := sizeOf_lt_of_mem_children (Table.mem_of_get? hget) (List.mem_of_getLast? hlast)
          omega
      · simp at h

theorem Tree.sizeOf_lt_of_find? {block : Tree} {name : String} {children : List Tree} {t : Tree}
    (h : block.find? name = some (.policies children)) (ht : t ∈ children) :
    sizeOf t < sizeOf block.entries := by
  unfold Tree.find? Entries.find? at h
  split at h
  · rename_i found hfound
    subst h
    unfold Entries.lookup at hfound
    cases hseg : Name.segments name with
    | error e => simp [hseg, bind, Except.bind] at hfound
    | ok segments =>
      simp only [hseg, bind, Except.bind] at hfound
      exact Tree.sizeOf_lt_of_descend hfound ht
  · simp at h

theorem Values.eq_policies_of_last? {values : Values Tree} {t : Tree}
    (h : values.last? = some (.policy t)) :
    ∃ children, values = .policies children ∧ t ∈ children := by
  have hmem := List.mem_of_getLast? h
  cases values <;> simp_all [Values.toList]

theorem Schema.entries_of_ofEntries? {rows : Entries Tree} {schema : Schema}
    (h : Schema.ofEntries? rows = .ok schema) : schema.entries = rows := by
  unfold Schema.ofEntries? at h
  cases hl : Schema.requireLayout rows with
  | error fault => simp [hl, bind, Except.bind] at h
  | ok u =>
    simp only [hl, bind, Except.bind, pure, Except.pure, Except.ok.injEq] at h
    rw [← h]

theorem Definition.sizeOf_sub?_lt {name : String} {rows : Entries Tree} {schema : Schema}
    (h : Definition.sub? name rows = .ok (.inline schema)) :
    sizeOf schema.entries + 1 < sizeOf rows := by
  unfold Definition.sub? at h
  split at h
  · rename_i block hlast
    obtain ⟨values, hget, hlast⟩ := Option.bind_eq_some_iff.mp hlast
    obtain ⟨children, rfl, ht⟩ := Values.eq_policies_of_last? hlast
    split at h
    · rename_i inner hinner
      simp only [Except.ok.injEq, SubDictionary.inline.injEq] at h
      have h1 := sizeOf_lt_of_mem_children (Table.mem_of_get? hget) ht
      have h2 := sizeOf_entries_lt block
      rw [← h, Schema.entries_of_ofEntries? hinner]
      omega
    · simp at h
  · simp at h
  · simp at h
  · split at h <;> simp at h

theorem Definition.sub?_of_ofBlock? {name : String} {rows : Entries Tree} {d : Definition}
    (h : Definition.ofBlock? name rows = .ok d) : Definition.sub? name rows = .ok d.sub := by
  unfold Definition.ofBlock? at h
  simp only [bind, Except.bind, pure, Except.pure] at h
  repeat' split at h
  all_goals simp_all
  rw [← h]

namespace Schema

def definitions? (s : Schema) : Option Tree := Entries.child? definitionsKey s.entries

/-- The block that defines every name without a definition of its own, if there is one. -/
def childBlock? (s : Schema) : Option Tree := Entries.child? childKey s.entries

/-- The label of the policies that are described. -/
def target? (s : Schema) : Option String :=
  match Table.get? targetKey s.entries with
  | some (.strings texts) => texts.getLast?
  | _ => none

/-- The names that have a definition of their own. -/
def definedNames (s : Schema) : List String :=
  match s.definitions? with
  | some block => Table.keys block.entries
  | none => []

def hasChildDefinition (s : Schema) : Bool :=
  (Table.get? childKey s.entries).map Values.kind = some .policy

/-- The block that defines a name; nothing if the name is unknown, and a fault if the place of
the definition holds something else. -/
def block? (s : Schema) (name : String) : Option (Except DictionaryFault Tree) :=
  match s.definitions?.bind (·.find? name) with
  | some (.policies blocks) =>
    match blocks.getLast? with
    | some block => some (.ok block)
    | none => some (.error (.definition name .notABlock))
  | some _ => some (.error (.definition name .notABlock))
  | none => s.childBlock?.map .ok

/-- The definition of a name; nothing if the name is unknown. -/
def definition? (s : Schema) (name : String) : Option (Except DictionaryFault Definition) :=
  (s.block? name).map fun found => found.bind fun block => Definition.ofBlock? name block.entries

/-- The definition of a name that is part of a longer one. -/
def definitionFor (s : Schema) (full name : String) : Except PolicyError Definition :=
  match s.definition? name with
  | none => .error (.nameNotFound full)
  | some (.error fault) => .error (.dictionary fault)
  | some (.ok d) => .ok d

def definition (s : Schema) (name : String) : Except PolicyError Definition :=
  s.definitionFor name name

/-- The schema below a definition, on the way along the segments `done` of a name. -/
def enter (d : Definition) (full : String) (done : List String) : Except PolicyError Schema :=
  match d.sub with
  | .inline schema => .ok schema
  | .unloaded path => .error (.dictionaryNotLoaded (Name.join done) path)
  | .none => .error (.nameNotFound full)

def follow (full : String) : List String → Schema → List String → Except PolicyError Definition
  | _, _, [] => .error (.nameNotFound full)
  | _, s, [segment] => s.definitionFor full segment
  | done, s, segment :: rest => do
    let d ← s.definitionFor full segment
    follow full (done ++ [segment]) (← enter d full (done ++ [segment])) rest

def lookup (s : Schema) (name : String) : Except PolicyError Definition := do
  follow name [] s (← Name.segments name)

/-- The schema of the policies under a dotted name, if its definition has one. -/
def subSchema? (s : Schema) (name : String) : Except PolicyError (Option Schema) := do
  match (← s.lookup name).sub with
  | .inline schema => return some schema
  | .unloaded path => .error (.dictionaryNotLoaded name path)
  | .none => return none

/-- The names whose definitions make up a dictionary: those defined, and the child definition
under the name of its key. -/
def ownNames (s : Schema) : List String :=
  s.definedNames ++ if s.hasChildDefinition then [childKey] else []

theorem sizeOf_block?_lt {s : Schema} {name : String} {block : Tree}
    (h : s.block? name = some (.ok block)) : sizeOf block < sizeOf s := by
  have hs : sizeOf s.entries < sizeOf s := by
    cases s
    simp
  unfold block? at h
  split at h
  · rename_i blocks hfind
    obtain ⟨definitions, hdef, hfind⟩ := Option.bind_eq_some_iff.mp hfind
    split at h
    · rename_i last hlast
      simp only [Option.some.injEq, Except.ok.injEq] at h
      subst h
      have h1 := Tree.sizeOf_lt_of_find? hfind (List.mem_of_getLast? hlast)
      have h2 := Entries.sizeOf_child?_lt hdef
      have h3 := sizeOf_entries_lt definitions
      omega
    · simp at h
  · simp at h
  · obtain ⟨child, hchild, hblock⟩ := Option.map_eq_some_iff.mp h
    have h1 := Entries.sizeOf_child?_lt hchild
    cases hblock
    omega

/-- The schema inside a definition is smaller than the one that the definition is part of. -/
theorem sizeOf_sub_lt {s sub : Schema} {name : String} {d : Definition}
    (h : s.definition? name = some (.ok d)) (hsub : d.sub = .inline sub) :
    sizeOf sub < sizeOf s := by
  obtain ⟨found, hfound, hread⟩ := Option.map_eq_some_iff.mp h
  cases found with
  | error fault => simp [Except.bind] at hread
  | ok block =>
    have h1 := sizeOf_block?_lt hfound
    have h2 := sizeOf_entries_lt block
    have hread' := Definition.sub?_of_ofBlock? hread
    rw [hsub] at hread'
    have h3 := Definition.sizeOf_sub?_lt hread'
    cases sub
    simp only [mk.sizeOf_spec]
    simp only at h3
    omega

/-- Reads every definition, then those of the schemas inside them; the first fault is the answer. -/
def check (s : Schema) : Except DictionaryFault Unit := do
  s.ownNames.forM fun name =>
    match s.definition? name with
    | some (.error fault) => .error fault
    | _ => .ok ()
  s.ownNames.forM fun name =>
    match _h : s.definition? name with
    | some (.ok d) =>
      match _hsub : d.sub with
      | .inline sub => (check sub).mapError (.inside name)
      | _ => .ok ()
    | _ => .ok ()
termination_by sizeOf s
decreasing_by exact sizeOf_sub_lt _h _hsub

end Schema

end PolicyStore
