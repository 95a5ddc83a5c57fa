import PolicyStore.Proofs.Dictionary.Editing
import PolicyStore.Proofs.Update.Runs

set_option autoImplicit false

namespace PolicyStore

/-!
# What all runs of operations preserve

A caller holds policies, dictionaries and definitions, all of them made by operations. Whatever is
done with them, and whether it succeeds or fails, rows stay as they have to be.
-/

variable {zone : Policy → Prop} {s : Store} {p : Policy}

/-! ## What is done to a policy -/

/-- The policies that a write puts into the store. -/
def Write.inserted : Write → List Policy
  | set (.policy q) => [q]
  | add (.policy q) => [q]
  | setValues vs => vs.children
  | _ => []

theorem Write.edits_run (w : Write) (h : s.Zoned zone) (hp : zone p)
    (hw : ∀ c ∈ w.inserted, s.Inner zone c) (name : String) :
    (w.run p name).Edits zone s fun _ _ => True := by
  cases w with
  | set v =>
    refine Policy.edits_set h hp ?_ name
    rintro c rfl
    exact hw c List.mem_cons_self
  | add v =>
    refine Policy.edits_add h hp ?_ name
    rintro c rfl
    exact hw c List.mem_cons_self
  | setValues vs => exact .update h fun _ hset => h.setValues hp hw hset
  | remove =>
    refine (Policy.edits_remove h hp name).bind fun _ s₁ h₁ _ => ?_
    exact Confined.pure h₁.toZoned trivial

/-- An operation on a policy, with all that it is given. -/
inductive Action where
  | write (name : String) (w : Write)
  | parse (parser : Paf.Parser) (lines : List Paf.Line)
  | loadText (strict : Bool) (text : String)
  | loadFile (files : FileSystem) (strict : Bool) (f : FileRef)
  | includeFiles (cfg : Include.Settings)
  | mergeDefaults (source : DefaultSource) (keep : Bool) (acc : Option Report)
  | applyDefault (d : Definition) (name : String) (acc : Option Report)
  | attach (d : Dictionary)

namespace Action

/-- The store after an action, whether it succeeds or fails. -/
def after (p : Policy) (s : Store) : Action → Store
  | write name w => (w.run p name).after s
  | parse parser lines => (Paf.after (Paf.parse p lines) ⟨s, parser⟩).store
  | loadText strict text => (p.loadText strict text).after s
  | loadFile files strict f => (p.loadFile files strict f).after s
  | includeFiles cfg => (p.includeFiles cfg).after s
  | mergeDefaults source keep acc => (p.mergeDefaults source keep acc).after s
  | applyDefault d name acc => (d.applyDefault p name acc).after s
  | attach d => (p.attach d).after s

/-- The policies that an action puts into the store; those that it copies are not among them. -/
def inserted : Action → List Policy
  | write _ w => w.inserted
  | _ => []

/-- A default that is applied has rows as they have to be. -/
def Sound : Action → Prop
  | applyDefault d _ _ => d.Sound
  | _ => True

/-- An action changes the zone of its policy alone, if what it inserts is in the zone as well. -/
theorem edits (a : Action) (h : s.Zoned zone) (hp : zone p)
    (hinserted : ∀ c ∈ a.inserted, s.Inner zone c) (hsound : a.Sound) :
    Store.Edits zone s (a.after p s) := by
  cases a with
  | write name w => exact (w.edits_run h hp hinserted name).after
  | parse parser lines => exact Paf.ParseM.Edits.after (Paf.edits_parse (t := ⟨s, parser⟩) h hp lines)
  | loadText strict text => exact (Policy.edits_loadText h hp strict text).after
  | loadFile files strict f => exact (Policy.edits_loadFile h hp files strict f).after
  | includeFiles cfg => exact (Policy.edits_includeFiles h hp cfg).after
  | mergeDefaults source keep acc => exact (Policy.edits_mergeDefaults h hp source keep acc).after
  | applyDefault d name acc => exact (Definition.edits_applyDefault hsound h hp name acc).after
  | attach d => exact (Policy.edits_attach h hp d).after

end Action

/-! ## Worlds -/

/-- What callers hold: the policies of a store, and dictionaries and definitions. -/
structure World where
  store : Store
  dictionaries : List Dictionary
  definitions : List Definition

namespace World

def empty : World := ⟨.empty, [], []⟩

def setStore (w : World) (s : Store) : World := ⟨s, w.dictionaries, w.definitions⟩

def addDictionary (w : World) (d : Dictionary) : World := ⟨w.store, d :: w.dictionaries, w.definitions⟩

def addDefinition (w : World) (e : Definition) : World := ⟨w.store, w.dictionaries, e :: w.definitions⟩

/-- The policies, the dictionary and the definition that an action is given are held. -/
def Provides (w : World) (a : Action) : Prop :=
  (∀ c ∈ a.inserted, c.id < w.store.size) ∧
    match a with
    | .mergeDefaults (.dictionary d) _ _ => d ∈ w.dictionaries
    | .applyDefault e _ _ => e ∈ w.definitions
    | .attach d => d ∈ w.dictionaries
    | _ => True

/-- An operation, which may fail, on what is held. -/
inductive Step (w : World) : World → Prop
  | create : Step w (w.setStore ((Policy.create []).after w.store))
  | act {p : Policy} {a : Action} : p.id < w.store.size → w.Provides a →
      Step w (w.setStore (a.after p w.store))
  | shallowCopy {p : Policy} : p.id < w.store.size →
      Step w (w.setStore (p.shallowCopy.after w.store))
  | deepCopy {p : Policy} : p.id < w.store.size → Step w (w.setStore (p.deepCopy.after w.store))
  | copyValues {vs : Values Policy} : (∀ c ∈ vs.children, c.id < w.store.size) →
      Step w (w.setStore (vs.deepCopy.after w.store))
  | extractDefaults {d : Dictionary} {attached : Bool} {acc : Option Report} :
      d ∈ w.dictionaries → Step w (w.setStore ((Policy.ofDefaults d attached acc).after w.store))
  | readDictionary {p : Policy} {d : Dictionary} : p.id < w.store.size →
      Dictionary.ofEntries? (w.store.entries p) = .ok d → Step w (w.addDictionary d)
  | loadDictionary {d loaded : Dictionary} {cfg : Include.Settings}
      {result : Except PolicyError Nat} {s : Store} : d ∈ w.dictionaries →
      d.loadFiles cfg w.store = .ok (loaded, result) s → Step w ((w.setStore s).addDictionary loaded)
  | readDefinition {d : Dictionary} {name : String} {e : Definition} : d ∈ w.dictionaries →
      (w.store.schema d).definition name = .ok e → Step w (w.addDefinition e)
  | lookUp {d : Dictionary} {name : String} {e : Definition} : d ∈ w.dictionaries →
      (w.store.schema d).lookup name = .ok e → Step w (w.addDefinition e)
  | readBlock {p : Policy} {name : String} {e : Definition} : p.id < w.store.size →
      Definition.ofBlock? name (w.store.tree p).entries = .ok e → Step w (w.addDefinition e)
  | define (name : String) : Step w (w.addDefinition { name })
  | enter {e : Definition} {inner : Schema} : e ∈ w.definitions → e.sub = .inline inner →
      Step w (w.addDictionary (Dictionary.ofSchema inner))

/-- A number of operations lead to a world, from one where nothing has been made. -/
def Reached (w : World) : Prop := Relation.ReflTransGen Step empty w

/-- What every operation preserves. -/
structure Proper (w : World) : Prop where
  store : w.store.Proper
  dictionaries : ∀ d ∈ w.dictionaries, w.store.Bound d
  defaults : ∀ e ∈ w.definitions, e.Sound
  filled : ∀ e ∈ w.definitions, e.Filled
  schemas : ∀ e ∈ w.definitions, ∀ inner, e.sub = .inline inner →
    w.store.Bound (Dictionary.ofSchema inner)

variable {w w' : World}

theorem proper_empty : Proper empty where
  store := ⟨fun _ => .nil, Store.tidy_empty.closed⟩
  dictionaries _ hd := (List.not_mem_nil hd).elim
  defaults _ he := (List.not_mem_nil he).elim
  filled _ he := (List.not_mem_nil he).elim
  schemas _ he := (List.not_mem_nil he).elim

namespace Proper

variable (h : w.Proper)

include h

theorem setStore (hedits : Store.Edits (fun _ => True) w.store s) : (w.setStore s).Proper where
  store := hedits.toProper
  dictionaries d hd := (h.dictionaries d hd).mono hedits.size_le
  defaults := h.defaults
  filled := h.filled
  schemas e he inner hsub := (h.schemas e he inner hsub).mono hedits.size_le

theorem addDictionary {d : Dictionary} (hd : w.store.Bound d) : (w.addDictionary d).Proper where
  store := h.store
  dictionaries := List.forall_mem_cons.mpr ⟨hd, h.dictionaries⟩
  defaults := h.defaults
  filled := h.filled
  schemas := h.schemas

theorem addDefinition {e : Definition} (hdefault : e.Sound) (hfilled : e.Filled)
    (hschema : ∀ inner, e.sub = .inline inner → w.store.Bound (Dictionary.ofSchema inner)) :
    (w.addDefinition e).Proper where
  store := h.store
  dictionaries := h.dictionaries
  defaults := List.forall_mem_cons.mpr ⟨hdefault, h.defaults⟩
  filled := List.forall_mem_cons.mpr ⟨hfilled, h.filled⟩
  schemas := List.forall_mem_cons.mpr ⟨hschema, h.schemas⟩

theorem addStored {e : Definition} (he : e.Stored w.store) : (w.addDefinition e).Proper :=
  h.addDefinition he.default he.filled he.bound

theorem act {a : Action} (hgiven : w.Provides a) (p : Policy) :
    (w.setStore (a.after p w.store)).Proper := by
  refine h.setStore (a.edits h.store.zoned trivial (fun c hc => ⟨trivial, hgiven.1 c hc⟩) ?_)
  cases a with
  | applyDefault e name acc => exact h.defaults e hgiven.2
  | _ => trivial

theorem step (hstep : Step w w') : w'.Proper := by
  have hzone := h.store.zoned
  cases hstep with
  | create => exact h.setStore (Policy.edits_create_nil hzone).after
  | act hp hgiven => exact h.act hgiven _
  | shallowCopy hp => exact h.setStore (Policy.edits_shallowCopy hzone trivial).after
  | deepCopy hp => exact h.setStore (Policy.edits_deepCopy hzone _).after
  | copyValues hvs => exact h.setStore (Values.edits_deepCopy hzone _).after
  | extractDefaults hd => exact h.setStore (Policy.edits_ofDefaults hzone _ _ _).after
  | readDictionary hp hread =>
    unfold Dictionary.ofEntries? at hread
    split at hread
    · cases hread
      exact h.addDictionary (h.store.bound _)
    · cases hread
  | loadDictionary hd hload =>
    obtain ⟨hedits, hbound, -⟩ := (Dictionary.edits_loadFiles hzone (h.dictionaries _ hd)
      (fun _ _ => trivial) _).of_ok hload
    exact (h.setStore hedits).addDictionary hbound
  | readDefinition hd hread =>
    have hstored := (h.dictionaries _ hd).stored
    exact h.addStored (hstored.defines h.store (Schema.definitionFor_eq_ok_iff.mp hread))
  | lookUp hd hread => exact h.addStored ((h.dictionaries _ hd).stored.lookup h.store hread)
  | readBlock hp hread =>
    exact h.addStored (Definition.stored_of_ofBlock? h.store ⟨_, _, hp, rfl⟩ hread)
  | define name =>
    exact h.addDefinition (fun _ hdefault => by cases hdefault) (fun _ hdefault => by cases hdefault)
      nofun
  | enter he hsub => exact h.addDictionary (h.schemas _ he _ hsub)

end Proper

theorem Reached.proper (h : w.Reached) : w.Proper := by
  induction h with
  | refl => exact proper_empty
  | tail _ hstep ih => exact ih.step hstep

end World

/-! ## Rows and what is read out of them -/

/-- A row under characters that names are stored with, with one value at least. -/
structure IsRow (row : String × Values Policy) : Prop where
  nonempty : row.1 ≠ ""
  stored : ∀ c ∈ row.1.toList, Text.isNameChar c = true
  undotted : '.' ∉ row.1.toList
  full : row.2.toList ≠ []

theorem Entries.Proper.isRow {rows : Entries Policy} (h : Entries.Proper rows)
    {row : String × Values Policy} (hrow : row ∈ rows) : IsRow row := by
  have hsegment := Name.isSegment_of_segments_self (h.legal row hrow)
  obtain ⟨hne, hchars⟩ := Bool.and_eq_true_iff.mp hsegment
  refine ⟨?_, List.all_eq_true.mp hchars, Name.dot_not_mem_of_isSegment hsegment, ?_⟩
  · intro hempty
    rw [hempty] at hne
    cases hne
  · intro hnil
    have hfull := h.full row hrow
    rw [Values.isEmpty, hnil] at hfull
    cases hfull

namespace Store

variable {name : String}

theorem value_eq_ok_iff {v : Value Policy} :
    s.value p name = .ok v ↔ ∃ vs, s.find? p name = some vs ∧ vs.last? = some v := by
  unfold value Entries.value Entries.values find? Entries.find?
  cases Entries.lookup s.entries (s.entries p) name with
  | error e => exact ⟨nofun, nofun⟩
  | ok found =>
    cases found with
    | none => exact ⟨nofun, nofun⟩
    | some vs =>
      show Entries.lastOf name vs = .ok v ↔ ∃ ws, some vs = some ws ∧ ws.last? = some v
      rw [Entries.lastOf]
      cases hlast : vs.last? <;> simp [hlast]

/-- What is found holds a value. -/
theorem Proper.toList_ne_nil (h : s.Proper) {vs : Values Policy} (hfind : s.find? p name = some vs) :
    vs.toList ≠ [] := by
  obtain ⟨front, key, r, -, -, hget⟩ := way_of_find? hfind
  exact ((h.rows r).isRow (Table.mem_of_get? hget)).full

theorem Proper.exists_iff_count (h : s.Proper) :
    s.exists? p name = true ↔ 0 < s.count p name := by
  rw [exists?, count]
  cases hfind : s.find? p name with
  | none => exact iff_of_false Bool.false_ne_true (Nat.not_lt_zero 0)
  | some vs => exact iff_of_true rfl (List.length_pos_of_ne_nil (h.toList_ne_nil hfind))

theorem Proper.count_iff_value (h : s.Proper) :
    0 < s.count p name ↔ ∃ v, s.value p name = .ok v := by
  rw [← h.exists_iff_count, exists?]
  simp only [value_eq_ok_iff]
  constructor
  · intro hsome
    obtain ⟨vs, hfind⟩ := Option.isSome_iff_exists.mp hsome
    obtain ⟨v, hlast⟩ := Option.isSome_iff_exists.mp
      (List.getLast?_isSome.mpr (h.toList_ne_nil hfind))
    exact ⟨v, vs, hfind, hlast⟩
  · rintro ⟨_, vs, hfind, _⟩
    rw [hfind]
    rfl

end Store

namespace World

variable {w : World}

/-- Whatever operations have led to it, and whether they succeeded or failed, a world has rows under
single segments alone, each with a value. Hence a name that holds an array can be read. -/
theorem reached_rows_readable (h : w.Reached) :
    (∀ p, ∀ row ∈ w.store.entries p, IsRow row) ∧
      (∀ d ∈ w.dictionaries, ∀ row ∈ d.entries, IsRow row) ∧
      ∀ p name, (w.store.exists? p name = true ↔ 0 < w.store.count p name) ∧
        (0 < w.store.count p name ↔ ∃ v, w.store.value p name = .ok v) := by
  have hproper := h.proper
  refine ⟨fun p row hrow => (hproper.store.rows p).isRow hrow, fun d hd row hrow => ?_,
    fun p name => ⟨hproper.store.exists_iff_count, hproper.store.count_iff_value⟩⟩
  exact (hproper.dictionaries d hd).1.isRow hrow

/-- A policy that has been written to, with a new one below it, and a copy of it. -/
theorem reached_rows_readable_of_copy :
    ∃ w : World, w.Reached ∧ w.store.entries ⟨2⟩ = [("a", .policies [⟨1⟩])] ∧
      w.store.count ⟨2⟩ "a.b" = 1 ∧ ∃ v, w.store.value ⟨2⟩ "a.b" = .ok v := by
  let created := empty.setStore ((Policy.create []).after empty.store)
  let written := created.setStore
    ((Action.write "a.b" (.set (.int 1))).after ⟨0⟩ created.store)
  let copied := written.setStore ((Policy.shallowCopy ⟨0⟩).after written.store)
  have hreached : copied.Reached :=
    ((Relation.ReflTransGen.single .create).tail
      (.act (p := ⟨0⟩) (a := .write "a.b" (.set (.int 1))) (by cbv) ⟨nofun, trivial⟩)).tail
      (.shallowCopy (p := ⟨0⟩) (by cbv))
  have hcount : copied.store.count ⟨2⟩ "a.b" = 1 := by cbv
  have hread := ((reached_rows_readable hreached).2.2 ⟨2⟩ "a.b").2.mp (by rw [hcount]; decide)
  exact ⟨copied, hreached, by cbv, hcount, hread⟩

end World

end PolicyStore
