import PolicyStore.Schema.Validation
import PolicyStore.Proofs.Store.Trees

set_option autoImplicit false

namespace PolicyStore

/-!
# The spelling of file names

The name of a dictionary file is written as a string or as a reference. A schema in which all of
these names are references has the same definitions, and finds the same faults in a policy.
-/

/-! ## Rows -/

section Rows

variable {π : Type}

/-- A path as a reference to the file there. -/
def Value.asFile : Value π → Value π
  | .string path => .file ⟨path, none⟩
  | v => v

def Values.asFiles : Values π → Values π
  | .strings paths => .files (paths.map fun path => ⟨path, none⟩)
  | vs => vs

/-- The array under a key, with references in the place of names of dictionary files. -/
def Values.respell (key : String) (vs : Values π) : Values π :=
  if key = Definition.dictionaryFileKey then vs.asFiles else vs

def Entries.respell (rows : Entries π) : Entries π :=
  rows.map fun row => (row.1, row.2.respell row.1)

namespace Values

variable {key : String}

theorem toList_asFiles (vs : Values π) : vs.asFiles.toList = vs.toList.map Value.asFile := by
  cases vs <;> simp [asFiles, toList, Value.asFile, Function.comp_def]

theorem last?_asFiles (vs : Values π) : vs.asFiles.last? = vs.last?.map Value.asFile := by
  rw [last?, toList_asFiles, List.getLast?_map, last?]

theorem respell_of_ne (h : key ≠ Definition.dictionaryFileKey) (vs : Values π) :
    vs.respell key = vs :=
  if_neg h

theorem respell_self (vs : Values π) : vs.respell Definition.dictionaryFileKey = vs.asFiles :=
  if_pos rfl

@[simp] theorem respell_policies (key : String) (ps : List π) :
    (policies ps).respell key = policies ps := by
  unfold respell
  split <;> rfl

theorem respell_eq_policies_iff {vs : Values π} {ps : List π} :
    vs.respell key = policies ps ↔ vs = policies ps := by
  unfold respell
  split
  · cases vs <;> simp [asFiles]
  · rfl

theorem kind_respell_eq_policy_iff (key : String) (vs : Values π) :
    (vs.respell key).kind = .policy ↔ vs.kind = .policy := by
  unfold respell
  split
  · cases vs <;> simp [asFiles, kind]
  · rfl

theorem children_respell (key : String) (vs : Values π) :
    (vs.respell key).children = vs.children := by
  unfold respell
  split
  · cases vs <;> rfl
  · rfl

theorem respell_map_respell {ρ : Type} (key : String) (f : π → ρ) (vs : Values π) :
    ((vs.respell key).map f).respell key = (vs.map f).respell key := by
  unfold respell
  split
  · cases vs <;> rfl
  · rfl

end Values

namespace Entries

@[simp] theorem respell_nil : respell ([] : Entries π) = [] := rfl

@[simp] theorem respell_cons (key : String) (vs : Values π) (rows : Entries π) :
    respell ((key, vs) :: rows) = (key, vs.respell key) :: respell rows := rfl

theorem get?_respell (key : String) (rows : Entries π) :
    Table.get? key (respell rows) = (Table.get? key rows).map (Values.respell key) := by
  induction rows with
  | nil => rfl
  | cons row rows ih =>
    obtain ⟨k, vs⟩ := row
    rw [respell_cons, Table.get?, Table.get?]
    split
    · rename_i heq
      rw [Option.map_some, heq]
    · exact ih

theorem get?_respell_of_ne {key : String} (h : key ≠ Definition.dictionaryFileKey)
    (rows : Entries π) : Table.get? key (respell rows) = Table.get? key rows := by
  rw [get?_respell, funext (Values.respell_of_ne h), Option.map_id']

theorem child?_respell (key : String) (rows : Entries π) :
    child? key (respell rows) = child? key rows := by
  ext c
  simp only [child?_eq_some_iff, get?_respell, Option.map_eq_some_iff,
    Values.respell_eq_policies_iff, exists_eq_right]

theorem respell_of_get?_eq_none {rows : Entries π}
    (h : Table.get? Definition.dictionaryFileKey rows = none) : respell rows = rows := by
  induction rows with
  | nil => rfl
  | cons row rows ih =>
    obtain ⟨k, vs⟩ := row
    rw [Table.get?] at h
    split at h
    · cases h
    · rename_i hne
      rw [respell_cons, Values.respell_of_ne hne, ih h]

theorem erase_respell (rows : Entries π) :
    Table.erase Definition.dictionaryFileKey (respell rows) =
      Table.erase Definition.dictionaryFileKey rows := by
  induction rows with
  | nil => rfl
  | cons row rows ih =>
    obtain ⟨k, vs⟩ := row
    rw [respell_cons, Table.erase, Table.erase]
    split
    · exact ih
    · rename_i hne
      rw [Values.respell_of_ne hne, ih]

theorem insert_respell {key : String} (h : key ≠ Definition.dictionaryFileKey) (vs : Values π)
    (rows : Entries π) :
    Table.insert key vs (respell rows) = respell (Table.insert key vs rows) := by
  induction rows with
  | nil => rw [respell_nil, Table.insert, respell_cons, Values.respell_of_ne h, respell_nil]
  | cons row rows ih =>
    obtain ⟨k, ws⟩ := row
    simp only [respell_cons, Table.insert]
    split
    · rw [respell_cons, respell_cons, Values.respell_of_ne h]
    · split
      · rw [respell_cons, Values.respell_of_ne h]
      · rw [respell_cons, ih]

theorem respell_map_respell {ρ : Type} (f : π → ρ) (rows : Entries π) :
    respell ((respell rows).map fun row => (row.1, row.2.map f)) =
      respell (rows.map fun row => (row.1, row.2.map f)) := by
  simp only [respell, List.map_map, Function.comp_def, Values.respell_map_respell]

end Entries

end Rows

/-! ## Trees -/

namespace Tree

mutual

/-- The tree with references in the place of all names of dictionary files. -/
def respell : Tree → Tree
  | node p d rows => node p d (respellRows rows)

def respellRows : List (String × Values Tree) → List (String × Values Tree)
  | [] => []
  | (key, .policies children) :: rows => (key, .policies (respellAll children)) :: respellRows rows
  | (key, values) :: rows => (key, values.respell key) :: respellRows rows

def respellAll : List Tree → List Tree
  | [] => []
  | t :: ts => respell t :: respellAll ts

end

theorem respellAll_eq_map (ts : List Tree) : respellAll ts = ts.map respell := by
  induction ts with
  | nil => rfl
  | cons t ts ih => rw [respellAll, ih, List.map_cons]

theorem respellRows_eq (rows : List (String × Values Tree)) :
    respellRows rows = Entries.respell (rows.map fun row => (row.1, row.2.map respell)) := by
  induction rows with
  | nil => rfl
  | cons row rows ih =>
    obtain ⟨key, values⟩ := row
    cases values <;> simp [respellRows, respellAll_eq_map, Entries.respell, Values.map, ih]

theorem entries_respell (t : Tree) : t.respell.entries = respellRows t.entries := by
  cases t
  rw [respell, entries, entries]

theorem handle_respell (t : Tree) : t.respell.handle = t.handle := by
  cases t
  rw [respell, handle, handle]

theorem get?_respellRows (key : String) (rows : Entries Tree) :
    Table.get? key (respellRows rows) =
      (Table.get? key rows).map fun vs => (vs.map respell).respell key := by
  rw [respellRows_eq, Entries.get?_respell, Table.get?_map, Option.map_map, Function.comp_def]

theorem get?_respellRows_of_ne {key : String} (h : key ≠ Definition.dictionaryFileKey)
    (rows : Entries Tree) :
    Table.get? key (respellRows rows) = (Table.get? key rows).map (Values.map respell) := by
  simp only [get?_respellRows, Values.respell_of_ne h]

theorem child?_respellRows (key : String) (rows : Entries Tree) :
    Entries.child? key (respellRows rows) = (Entries.child? key rows).map respell := by
  rw [respellRows_eq, Entries.child?_respell]
  unfold Entries.child?
  rw [Table.get?_map]
  cases Table.get? key rows with
  | none => rfl
  | some values =>
    cases values with
    | policies ts => exact List.getLast?_map
    | _ => rfl

theorem descend_of_kind_ne {full segment next : String} {done rest : List String}
    {rows : Entries Tree} {vs : Values Tree} (hget : Table.get? segment rows = some vs)
    (hkind : vs.kind ≠ .policy) :
    Entries.descend entries full done rows (segment :: next :: rest) =
      .error (.notAPolicy full (Name.join (done ++ [segment])) vs.kind) := by
  unfold Entries.descend
  rw [hget]
  cases vs with
  | policies children => exact (hkind rfl).elim
  | _ => rfl

/-- A name leads to the array of the same row, or meets values that are not policies. -/
theorem descend_respellRows (full : String) (segments : List String) :
    ∃ key, ∀ (done : List String) (rows : Entries Tree),
      (∃ found, Entries.descend entries full done rows segments = .ok found ∧
        Entries.descend entries full done (respellRows rows) segments =
          .ok (found.map fun vs => (vs.map respell).respell key)) ∨
      ∃ e e', Entries.descend entries full done rows segments = .error e ∧
        Entries.descend entries full done (respellRows rows) segments = .error e' := by
  induction segments with
  | nil => exact ⟨full, fun done rows => Or.inl ⟨none, rfl, rfl⟩⟩
  | cons segment rest ih =>
    cases rest with
    | nil =>
      refine ⟨segment, fun done rows => Or.inl ⟨_, rfl, ?_⟩⟩
      rw [Entries.descend, get?_respellRows]
    | cons next rest =>
      obtain ⟨key, ih⟩ := ih
      refine ⟨key, fun done rows => ?_⟩
      have hget' := get?_respellRows segment rows
      cases hget : Table.get? segment rows with
      | none =>
        rw [hget] at hget'
        refine Or.inl ⟨none, ?_, ?_⟩ <;> simp [Entries.descend, hget, hget']
      | some vs =>
        rw [hget, Option.map_some] at hget'
        by_cases hkind : vs.kind = .policy
        · cases vs with
          | policies children =>
            rw [Values.map, Values.respell_policies] at hget'
            simp only [Entries.descend, hget, hget', List.getLast?_map]
            cases children.getLast? with
            | none => exact Or.inl ⟨none, rfl, rfl⟩
            | some child =>
              simp only [Option.map_some, entries_respell]
              exact ih (done ++ [segment]) child.entries
          | _ => cases hkind
        · have hkind' : ((vs.map respell).respell segment).kind ≠ .policy := by
            rwa [Ne, Values.kind_respell_eq_policy_iff, Values.kind_map]
          exact Or.inr ⟨_, _, descend_of_kind_ne hget hkind, descend_of_kind_ne hget' hkind'⟩

theorem find?_respell (t : Tree) (name : String) : ∃ key, t.respell.find? name =
    (t.find? name).map fun vs => (vs.map respell).respell key := by
  simp only [find?, Entries.find?, Entries.lookup]
  cases Name.segments name with
  | error e => exact ⟨name, rfl⟩
  | ok segments =>
    obtain ⟨key, h⟩ := descend_respellRows name segments
    refine ⟨key, ?_⟩
    simp only [bind, Except.bind, entries_respell]
    rcases h [] t.entries with ⟨found, h, h'⟩ | ⟨e, e', h, h'⟩
    · rw [h, h']
    · rw [h, h']
      rfl

end Tree

/-! ## Definitions -/

def Schema.respell (s : Schema) : Schema := ⟨Tree.respellRows s.entries⟩

def Allowed.respell (a : Allowed) : Allowed where
  values := a.values.map (Value.map Tree.respell)
  min := a.min.map (Value.map Tree.respell)
  max := a.max.map (Value.map Tree.respell)

def SubDictionary.respell : SubDictionary → SubDictionary
  | .none => .none
  | .inline s => .inline s.respell
  | .unloaded path => .unloaded path

/-- The definition with references for names of files in its default and its dictionary. -/
def Definition.respell (d : Definition) : Definition where
  name := d.name
  kind := d.kind
  description := d.description
  minOccurs := d.minOccurs
  maxOccurs := d.maxOccurs
  default := d.default.map (Values.map Tree.respell)
  allowed := d.allowed.respell
  sub := d.sub.respell

section Promote

variable {π ρ : Type} (f : π → ρ) (declared : Option Kind)

theorem Values.map_promote (vs : Values π) :
    (vs.promote declared).map f = (vs.map f).promote declared := by
  by_cases h : declared = some .double <;> cases vs <;> simp [promote, map, h]

theorem Value.map_promote (v : Value π) :
    (v.promote declared).map f = (v.map f).promote declared := by
  by_cases h : declared = some .double <;> cases v <;> simp [promote, map, h]

theorem Values.last?_map (vs : Values π) : (vs.map f).last? = vs.last?.map (Value.map f) := by
  rw [last?, toList_map, List.getLast?_map, last?]

end Promote

namespace Definition

variable {key : String} (rows : Entries Tree)

theorem text?_respellRows (h : key ≠ dictionaryFileKey) :
    text? (Tree.respellRows rows) key = text? rows key := by
  unfold text?
  rw [Tree.get?_respellRows_of_ne h]
  cases Table.get? key rows with
  | none => rfl
  | some vs => cases vs <;> rfl

theorem int?_respellRows (h : key ≠ dictionaryFileKey) :
    int? (Tree.respellRows rows) key = int? rows key := by
  unfold int?
  rw [Tree.get?_respellRows_of_ne h]
  cases Table.get? key rows with
  | none => rfl
  | some vs => cases vs <;> rfl

theorem bound_respellRows (declared : Option Kind) (h : key ≠ dictionaryFileKey)
    (earlier : Option (Value Tree)) :
    bound declared (Tree.respellRows rows) key (earlier.map (Value.map Tree.respell)) =
      (bound declared rows key earlier).map (Value.map Tree.respell) := by
  unfold bound
  rw [Tree.get?_respellRows_of_ne h]
  cases Table.get? key rows with
  | none => rfl
  | some vs =>
    rw [Option.map_some, Option.bind_some, Option.bind_some, Values.last?_map]
    cases vs.last? with
    | none => rfl
    | some v => exact congrArg some (Value.map_promote _ _ v).symm

theorem readAllowed_respell (declared : Option Kind) (a : Allowed) (t : Tree) :
    readAllowed declared a.respell t.respell = (readAllowed declared a t).respell := by
  unfold readAllowed Allowed.respell
  rw [Tree.entries_respell, bound_respellRows _ _ (by decide), bound_respellRows _ _ (by decide),
    Tree.get?_respellRows_of_ne (by decide)]
  congr 1
  rw [List.map_append]
  congr 1
  cases Table.get? valueKey t.entries with
  | none => rfl
  | some vs => simp [Values.toList_map, Value.map_promote, Function.comp_def]

theorem foldl_readAllowed_respell (declared : Option Kind) (ts : List Tree) :
    ∀ a : Allowed, (ts.map Tree.respell).foldl (readAllowed declared) a.respell =
      (ts.foldl (readAllowed declared) a).respell := by
  induction ts with
  | nil => exact fun _ => rfl
  | cons t ts ih =>
    intro a
    rw [List.map_cons, List.foldl_cons, List.foldl_cons, readAllowed_respell, ih]

theorem allowed?_respellRows (declared : Option Kind) :
    allowed? declared (Tree.respellRows rows) = (allowed? declared rows).map Allowed.respell := by
  unfold allowed?
  rw [Tree.get?_respellRows_of_ne (by decide)]
  cases Table.get? allowedKey rows with
  | none => rfl
  | some vs =>
    cases vs with
    | policies blocks => exact congrArg Except.ok (foldl_readAllowed_respell declared blocks {})
    | _ => rfl

end Definition

theorem Except.bind_map_eq {ε α β γ : Type} {x : Except ε α} {f : α → Except ε β}
    {f' : α → Except ε γ} (g : β → γ) (h : ∀ a, f' a = (f a).map g) :
    (x >>= f') = (x >>= f).map g := by
  cases x with
  | error e => rfl
  | ok a => exact h a

theorem Schema.requireLayout_respellRows (rows : Entries Tree) :
    Schema.requireLayout (Tree.respellRows rows) = Schema.requireLayout rows := by
  have hblock (key : String) (h : key ≠ Definition.dictionaryFileKey) :
      Schema.requireBlock (Tree.respellRows rows) key = Schema.requireBlock rows key := by
    rw [Schema.requireBlock, Schema.requireBlock, Tree.get?_respellRows_of_ne h]
    cases Table.get? key rows <;> simp
  simp only [Schema.requireLayout, hblock Schema.definitionsKey (by decide),
    hblock Schema.childKey (by decide), Tree.get?_respellRows, Option.isNone_map]

theorem Schema.ofEntries?_respellRows (rows : Entries Tree) :
    Schema.ofEntries? (Tree.respellRows rows) = (Schema.ofEntries? rows).map Schema.respell := by
  rw [Schema.ofEntries?, Schema.ofEntries?, requireLayout_respellRows]
  cases Schema.requireLayout rows <;> rfl

namespace Definition

variable (name : String) (rows : Entries Tree)

theorem sub?_respellRows :
    sub? name (Tree.respellRows rows) = (sub? name rows).map SubDictionary.respell := by
  have hfile : (Table.get? dictionaryFileKey (Tree.respellRows rows)).bind Values.last? =
      ((Table.get? dictionaryFileKey rows).bind Values.last?).map
        (Value.asFile ∘ Value.map Tree.respell) := by
    rw [Tree.get?_respellRows]
    cases Table.get? dictionaryFileKey rows with
    | none => rfl
    | some vs =>
      rw [Option.map_some, Option.bind_some, Option.bind_some, Values.respell_self,
        Values.last?_asFiles, Values.last?_map, Option.map_map]
  have hdictionary : (Table.get? dictionaryKey (Tree.respellRows rows)).bind Values.last? =
      ((Table.get? dictionaryKey rows).bind Values.last?).map (Value.map Tree.respell) := by
    rw [Tree.get?_respellRows_of_ne (by decide)]
    cases Table.get? dictionaryKey rows with
    | none => rfl
    | some vs => rw [Option.map_some, Option.bind_some, Option.bind_some, Values.last?_map]
  unfold sub?
  rw [hdictionary, hfile]
  cases (Table.get? dictionaryKey rows).bind Values.last? with
  | none =>
    cases (Table.get? dictionaryFileKey rows).bind Values.last? with
    | none => rfl
    | some v => cases v <;> rfl
  | some v =>
    cases v with
    | policy block =>
      simp only [Option.map_some, Value.map, Tree.entries_respell, Schema.ofEntries?_respellRows]
      cases Schema.ofEntries? block.entries <;> rfl
    | _ => rfl

/-- Reading a block and spelling its names of files as references can be exchanged. -/
theorem ofBlock?_respellRows :
    ofBlock? name (Tree.respellRows rows) = (ofBlock? name rows).map Definition.respell := by
  have hkind : kind? (Tree.respellRows rows) = kind? rows := by
    rw [kind?, kind?, text?_respellRows rows (by decide)]
  have hmin : minimum? (Tree.respellRows rows) = minimum? rows := by
    rw [minimum?, minimum?, int?_respellRows rows (by decide)]
  have hmax : maximum? (Tree.respellRows rows) = maximum? rows := by
    rw [maximum?, maximum?, int?_respellRows rows (by decide)]
  unfold ofBlock?
  simp only [hkind, hmin, hmax, @text?_respellRows descriptionKey rows (by decide),
    @Tree.get?_respellRows_of_ne defaultKey (by decide), allowed?_respellRows,
    sub?_respellRows]
  refine Except.bind_map_eq _ fun kind => ?_
  refine Except.bind_map_eq _ fun description => ?_
  refine Except.bind_map_eq _ fun minOccurs => ?_
  refine Except.bind_map_eq _ fun maxOccurs => ?_
  cases allowed? kind rows with
  | error fault => rfl
  | ok allowed =>
    cases sub? name rows with
    | error fault => rfl
    | ok sub =>
      simp only [Except.mapError, bind, Except.bind, pure, Except.pure, Except.map, respell,
        Option.map_map, Function.comp_def, Values.map_promote]

end Definition

/-! ## Schemas -/

namespace Schema

variable (s : Schema)

theorem definitions?_respell : s.respell.definitions? = s.definitions?.map Tree.respell :=
  Tree.child?_respellRows _ _

theorem childBlock?_respell : s.respell.childBlock? = s.childBlock?.map Tree.respell :=
  Tree.child?_respellRows _ _

theorem block?_of_kind_ne {s : Schema} {name : String} {vs : Values Tree}
    (hfind : s.definitions?.bind (·.find? name) = some vs) (hkind : vs.kind ≠ .policy) :
    s.block? name = some (.error (.definition name .notABlock)) := by
  unfold block?
  rw [hfind]
  cases vs with
  | policies blocks => exact (hkind rfl).elim
  | _ => rfl

theorem block?_respell (name : String) :
    s.respell.block? name = (s.block? name).map (Except.map Tree.respell) := by
  have hown : ∃ key, s.respell.definitions?.bind (·.find? name) =
      (s.definitions?.bind (·.find? name)).map fun vs => (vs.map Tree.respell).respell key := by
    rw [definitions?_respell]
    cases s.definitions? with
    | none => exact ⟨name, rfl⟩
    | some definitions => exact definitions.find?_respell name
  obtain ⟨key, hown⟩ := hown
  cases hfind : s.definitions?.bind (·.find? name) with
  | none =>
    rw [hfind] at hown
    simp only [block?, hown, hfind, Option.map_none, childBlock?_respell, Option.map_map]
    rfl
  | some vs =>
    rw [hfind, Option.map_some] at hown
    by_cases hkind : vs.kind = .policy
    · cases vs with
      | policies blocks =>
        simp only [block?, hown, hfind, Values.map, Values.respell_policies, List.getLast?_map]
        cases blocks.getLast? <;> rfl
      | _ => cases hkind
    · rw [block?_of_kind_ne hfind hkind, block?_of_kind_ne hown]
      · rfl
      · rwa [Ne, Values.kind_respell_eq_policy_iff, Values.kind_map]

theorem definition?_respell (name : String) :
    s.respell.definition? name = (s.definition? name).map (Except.map Definition.respell) := by
  rw [definition?, definition?, block?_respell]
  cases s.block? name with
  | none => rfl
  | some found =>
    cases found with
    | error fault => rfl
    | ok block =>
      refine congrArg some ?_
      show Definition.ofBlock? name block.respell.entries = _
      rw [Tree.entries_respell, Definition.ofBlock?_respellRows]
      rfl

theorem definitionFor_respell (full name : String) :
    s.respell.definitionFor full name = (s.definitionFor full name).map Definition.respell := by
  rw [definitionFor, definitionFor, definition?_respell]
  cases s.definition? name with
  | none => rfl
  | some found => cases found <;> rfl

theorem enter_respell (d : Definition) (full : String) (done : List String) :
    enter d.respell full done = (enter d full done).map Schema.respell := by
  unfold enter Definition.respell
  cases d.sub <;> rfl

theorem follow_respell (full : String) (segments : List String) : ∀ (done : List String)
    (s : Schema), follow full done s.respell segments =
      (follow full done s segments).map Definition.respell := by
  induction segments with
  | nil => exact fun _ _ => rfl
  | cons segment rest ih =>
    intro done s
    cases rest with
    | nil => exact s.definitionFor_respell full segment
    | cons next rest =>
      rw [follow, follow, definitionFor_respell]
      · cases s.definitionFor full segment with
        | error e => rfl
        | ok d =>
          show (enter d.respell full _ >>= fun s => follow full _ s _) =
            (enter d full _ >>= fun s => follow full _ s _).map _
          rw [enter_respell]
          cases enter d full (done ++ [segment]) with
          | error e => rfl
          | ok inner => exact ih _ inner
      · exact List.cons_ne_nil _ _
      · exact List.cons_ne_nil _ _

/-- Whatever is looked up, the same is found, with references in the place of names of files. -/
theorem lookup_respell (name : String) :
    s.respell.lookup name = (s.lookup name).map Definition.respell := by
  unfold lookup
  cases Name.segments name with
  | error e => rfl
  | ok segments => exact follow_respell name segments [] s

end Schema

/-! ## Findings -/

theorem Value.less_respell (v w : Value Tree) :
    v.less (w.map Tree.respell) = v.less w ∧ (w.map Tree.respell).less v = w.less v := by
  cases v <;> cases w <;> exact ⟨rfl, rfl⟩

/-- Policies are told by their handles. -/
theorem Value.sameNumber_respell (v w : Value Tree) :
    v.sameNumber (w.map Tree.respell) = v.sameNumber w := by
  cases v <;> cases w <;>
    simp [Value.sameNumber, Value.map, Value.number?, Value.same, Tree.handle_respell]

theorem Allowed.judge_respell (a : Allowed) (v : Value Tree) : a.respell.judge v = a.judge v := by
  have hbelow (o : Option (Value Tree)) :
      (o.map (Value.map Tree.respell)).any (fun w => v.less w) = o.any fun w => v.less w := by
    cases o with
    | none => rfl
    | some w => exact (v.less_respell w).1
  have habove (o : Option (Value Tree)) :
      (o.map (Value.map Tree.respell)).any (fun w => w.less v) = o.any fun w => w.less v := by
    cases o with
    | none => rfl
    | some w => exact (v.less_respell w).2
  have hlisted : (a.values.map (Value.map Tree.respell)).any (fun w => v.sameNumber w) =
      a.values.any fun w => v.sameNumber w := by
    simp only [List.any_map, Function.comp_def, Value.sameNumber_respell]
  simp only [judge, respell, hbelow, habove, hlisted, List.isEmpty_map]

namespace Definition

variable (d : Definition)

theorem judgeLoaded_respell (v : Value Tree) : d.respell.judgeLoaded v = d.judgeLoaded v := by
  unfold judgeLoaded respell
  cases v <;> cases d.sub <;> rfl

theorem judgeValue_respell (v : Value Tree) (count : Option Nat) :
    d.respell.judgeValue v count = d.judgeValue v count := by
  have hkind (kind : Kind) : d.respell.kindFault? kind = d.kindFault? kind := rfl
  have hexcess (n : Nat) : d.respell.excess n = d.excess n := rfl
  have hallowed : d.respell.allowed.judge v = d.allowed.judge v := d.allowed.judge_respell v
  simp only [judgeValue, hkind, hexcess, hallowed]

theorem judgeArray_respell (values : Values Tree) :
    d.respell.judgeArray values = d.judgeArray values := by
  have hcount (n : Nat) : d.respell.judgeCount n = d.judgeCount n := rfl
  have hkind (kind : Kind) : d.respell.kindFault? kind = d.kindFault? kind := rfl
  have hallowed (v : Value Tree) : d.respell.allowed.judge v = d.allowed.judge v :=
    d.allowed.judge_respell v
  simp only [judgeArray, hcount, hkind, hallowed, judgeLoaded_respell]

theorem below?_respell : d.respell.below? = d.below?.map Schema.respell := by
  have hkind : d.respell.kindFault? .policy = d.kindFault? .policy := rfl
  have hsub : d.respell.sub = d.sub.respell := rfl
  unfold below?
  rw [hkind, hsub]
  cases d.kindFault? .policy <;> cases d.sub <;> rfl

end Definition

namespace Schema

variable (s : Schema) (name : String)

theorem judgeRow_respell (values : Values Tree) :
    s.respell.judgeRow name values = s.judgeRow name values := by
  unfold judgeRow
  rw [definition?_respell]
  cases s.definition? name with
  | none => rfl
  | some found =>
    cases found with
    | error fault => rfl
    | ok d => exact d.judgeArray_respell values

theorem judgeAbsent_respell : s.respell.judgeAbsent name = s.judgeAbsent name := by
  unfold judgeAbsent
  rw [definition?_respell]
  cases s.definition? name with
  | none => rfl
  | some found => cases found <;> rfl

theorem below?_respell : s.respell.below? name = (s.below? name).map Schema.respell := by
  unfold below?
  rw [definition?_respell]
  cases s.definition? name with
  | none => rfl
  | some found =>
    cases found with
    | error fault => rfl
    | ok d => exact d.below?_respell

omit name in
theorem definedNames_respell : s.respell.definedNames = s.definedNames := by
  unfold definedNames
  rw [definitions?_respell]
  cases s.definitions? with
  | none => rfl
  | some block =>
    simp [Table.keys, Tree.entries_respell, Tree.respellRows_eq, Entries.respell,
      Function.comp_def]

omit name in
theorem absences_respell (rows : Entries Tree) : s.respell.absences rows = s.absences rows := by
  simp only [absences, definedNames_respell, judgeAbsent_respell]

mutual

/-- The spelling of names of files makes no difference to the findings about a policy. -/
theorem findings_respell : ∀ (t : Tree) (s : Schema), s.respell.findings t = s.findings t
  | .node _ _ rows, s => by
    rw [findings, findings, findingsOfRows_respell rows s, absences_respell]

theorem findingsOfRows_respell : ∀ (rows : List (String × Values Tree)) (s : Schema),
    s.respell.findingsOfRows rows = s.findingsOfRows rows
  | [], _ => rfl
  | (key, vs) :: rows, s => by
    have hrest := findingsOfRows_respell rows s
    cases vs with
    | policies children =>
      have hbelow := findingsBelow_respell key children (s.below? key)
      rw [findingsOfRows, findingsOfRows, judgeRow_respell, below?_respell, hbelow, hrest]
    | _ => simp only [findingsOfRows, judgeRow_respell, hrest]

theorem findingsBelow_respell (name : String) : ∀ (ts : List Tree) (s : Option Schema),
    findingsBelow (s.map respell) name ts = findingsBelow s name ts
  | [], _ => rfl
  | t :: ts, s => by
    have hrest := findingsBelow_respell name ts s
    cases s with
    | none => exact hrest
    | some schema =>
      have hfirst := findings_respell t schema
      rw [Option.map_some] at hrest ⊢
      simp only [findingsBelow, hfirst, hrest]

end

theorem validate_respell (t : Tree) : s.respell.validate t = s.validate t := by
  rw [validate, validate, findings_respell]

end Schema

end PolicyStore
