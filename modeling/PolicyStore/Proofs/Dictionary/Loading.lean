import Mathlib
import PolicyStore.Proofs.Dictionary.Rounds

set_option autoImplicit false

namespace PolicyStore.Dictionary

/-!
# Loaded dictionaries

After loading, a lookup meets no dictionary that is still in a file, if some definition named a file
at the start or no file was tried. Otherwise there was one inclusion only, and the names of files in
what it read are left.
-/

open Include (Settings)

variable {cfg : Settings} {s s' : Store} {rows : Entries Policy} {d d' : Dictionary} {p b : Policy}
  {tried : Nat}

/-! ## Lookups -/

/-- No definition that is read from the rows has its dictionary in a file yet to be loaded. -/
def Loaded (s : Store) (rows : Entries Policy) : Prop :=
  ∀ name path, Definition.sub? name (s.treesOf rows) ≠ .ok (.unloaded path)

theorem loaded_of_references_eq_nil (hfull : ∀ row ∈ rows, row.2.isEmpty = false)
    (hpending : ¬Pending rows) (hclean : Include.references rows = []) : Loaded s rows := by
  intro name path h
  unfold Definition.sub? at h
  rw [last?_map_tree, last?_map_tree] at h
  cases hget : Table.get? Definition.dictionaryKey rows with
  | none =>
    have hfile : Table.get? Definition.dictionaryFileKey rows = none := by
      cases hnames : Table.get? Definition.dictionaryFileKey rows with
      | none => rfl
      | some names => exact (hpending ⟨by rw [hnames]; rfl, hget⟩).elim
    rw [hget, hfile] at h
    cases h
  | some values =>
    rw [hget] at h
    have hrow := Table.mem_of_get? hget
    have hne := hfull _ hrow
    cases hlast : values.last? with
    | none =>
      rw [Values.last?, List.getLast?_eq_none_iff] at hlast
      rw [Values.isEmpty, hlast] at hne
      cases hne
    | some v =>
      rw [Option.bind_some, hlast] at h
      cases v with
      | file f =>
        have hkind := Values.kind_of_mem_toList (List.mem_of_getLast? hlast)
        cases values with
        | files fs =>
          have hmem := Include.mem_references_iff.mpr hrow
          rw [hclean] at hmem
          cases hmem
        | _ => cases hkind
      | policy c =>
        simp only [Option.map_some, Value.map] at h
        split at h <;> cases h
      | _ => cases h

/-- The answer of a lookup does not depend on a file yet to be loaded. -/
def Answered : Except PolicyError Definition → Prop
  | .ok d => ∀ path, d.sub ≠ .unloaded path
  | .error e => ∀ other path, e ≠ .dictionaryNotLoaded other path

theorem definition?_of_definitionFor {schema : Schema} {full name : String} {d : Definition}
    (h : schema.definitionFor full name = .ok d) : schema.definition? name = some (.ok d) := by
  unfold Schema.definitionFor at h
  split at h
  · cases h
  · cases h
  · rename_i hd
    cases h
    exact hd

section Reading

variable (hs : s.WellFormed) (hrows : s.Bears rows)

include hs hrows

theorem exists_block_of_definitionFor {full name : String} {d : Definition}
    (hname : Name.segments name = .ok [name])
    (h : (⟨s.treesOf rows⟩ : Schema).definitionFor full name = .ok d) :
    ∃ b, Describes s rows name b ∧ b ∈ blocks s rows ∧ s.Bears (s.entries b) ∧
      Definition.ofBlock? name (s.treesOf (s.entries b)) = .ok d := by
  obtain ⟨b, hb, hread⟩ :=
    exists_describes_of_definition? hs hrows hname (definition?_of_definitionFor h)
  exact ⟨b, hb, hb.mem_blocks hs, bears_of_mem_blocks hs hrows (hb.mem_blocks hs), hread⟩

theorem definitionFor_answered {full name : String} (hname : Name.segments name = .ok [name])
    (hloaded : ∀ b, IsBlock s rows b → Loaded s (s.entries b)) :
    Answered ((⟨s.treesOf rows⟩ : Schema).definitionFor full name) := by
  cases hd : (⟨s.treesOf rows⟩ : Schema).definitionFor full name with
  | error e =>
    intro other path he
    subst he
    unfold Schema.definitionFor at hd
    split at hd <;> cases hd
  | ok d =>
    intro path hsub
    obtain ⟨b, _, hb, _, hread⟩ := exists_block_of_definitionFor hs hrows hname hd
    have hread := Definition.sub?_of_ofBlock? hread
    rw [hsub] at hread
    exact hloaded b (.own hb) _ _ hread

omit hrows in
/-- A lookup goes from block to block, and is answered if all of them are loaded. -/
theorem follow_answered {full : String} {segments : List String} :
    ∀ {done : List String} {rows : Entries Policy},
      (∀ segment ∈ segments, Name.segments segment = .ok [segment]) → s.Bears rows →
      (∀ b, IsBlock s rows b → Loaded s (s.entries b)) →
      Answered (Schema.follow full done ⟨s.treesOf rows⟩ segments) := by
  induction segments with
  | nil =>
    intro done rows _ _ _ other path h
    cases h
  | cons segment rest ih =>
    intro done rows hsegments hrows hloaded
    have hname := hsegments segment List.mem_cons_self
    have hfirst : Answered ((⟨s.treesOf rows⟩ : Schema).definitionFor full segment) :=
      definitionFor_answered hs hrows hname hloaded
    cases rest with
    | nil => exact hfirst
    | cons next rest =>
      unfold Schema.follow
      cases hd : (⟨s.treesOf rows⟩ : Schema).definitionFor full segment with
      | error e =>
        rw [hd] at hfirst
        exact hfirst
      | ok d =>
        rw [hd] at hfirst
        obtain ⟨b, _, hb, hbears, hread⟩ := exists_block_of_definitionFor hs hrows hname hd
        have hread := Definition.sub?_of_ofBlock? hread
        simp only [bind, Except.bind, Schema.enter]
        cases hsub : d.sub with
        | none =>
          intro other path h
          cases h
        | unloaded path => exact (hfirst path hsub).elim
        | inline schema =>
          rw [hsub] at hread
          obtain ⟨c, hc, _, rfl⟩ := exists_child?_of_inline hs hbears hread
          exact ih (fun seg hseg => hsegments seg (List.mem_cons_of_mem _ hseg))
            (hbears.below hs (Entries.mem_of_child? hc))
            fun b' hb' => hloaded b' (.inside hb hc hb')

end Reading

theorem lookup_answered (hs : s.WellFormed) (hd : s.Bears d.entries)
    (hloaded : ∀ b, IsBlock s d.entries b → Loaded s (s.entries b)) (name : String) :
    Answered ((s.schema d).lookup name) := by
  unfold Schema.lookup
  cases hsegments : Name.segments name with
  | error e =>
    intro other path he
    unfold Name.segments at hsegments
    split at hsegments
    · cases hsegments
    · cases hsegments
      cases he
  | ok segments => exact follow_answered hs (fun _ => Name.segments_of_mem hsegments) hd hloaded

theorem Answered.subSchema?_ne {schema : Schema} {name : String} (h : Answered (schema.lookup name))
    (other path : String) : schema.subSchema? name ≠ .error (.dictionaryNotLoaded other path) := by
  unfold Schema.subSchema?
  cases hd : schema.lookup name with
  | error e =>
    rw [hd] at h
    exact fun he => h other path (Except.error.inj he)
  | ok d =>
    rw [hd] at h
    simp only [bind, Except.bind]
    cases hsub : d.sub with
    | unloaded path => exact (h path hsub).elim
    | _ => exact fun he => by cases he

theorem Answered.lookup_ne {schema : Schema} {name : String} (h : Answered (schema.lookup name))
    (other path : String) : schema.lookup name ≠ .error (.dictionaryNotLoaded other path) := by
  intro hd
  rw [hd] at h
  exact h other path rfl

/-! ## Loading -/

theorem loadFiles_eq (d : Dictionary) (cfg : Settings) (s : Store) : d.loadFiles cfg s =
    match loadRounds cfg ⟨s.size⟩ (maxDepth + 1) (s.alloc { entries := d.entries }).2 with
    | .ok tried s' => .ok (⟨s'.entries ⟨s.size⟩⟩, .ok tried) s'
    | .error e s' => .ok (⟨s'.entries ⟨s.size⟩⟩, .error e) s' := rfl

theorem loadFiles_ok (h : d.loadFiles cfg s = .ok (d', .ok tried) s') :
    loadRounds cfg ⟨s.size⟩ (maxDepth + 1) (s.alloc { entries := d.entries }).2 = .ok tried s' ∧
      d' = ⟨s'.entries ⟨s.size⟩⟩ := by
  rw [loadFiles_eq] at h
  cases hrun : loadRounds cfg ⟨s.size⟩ (maxDepth + 1) (s.alloc { entries := d.entries }).2 with
  | ok n s₁ =>
    rw [hrun] at h
    cases h
    exact ⟨rfl, rfl⟩
  | error e s₁ =>
    rw [hrun] at h
    cases h

theorem loaded_of_clean (hs : s.Grounded p) (hclean : s.Clean p)
    (hpending : ∀ b, IsBlock s (s.entries p) b → ¬Pending (s.entries b)) :
    ∀ b, IsBlock s (s.entries p) b → Loaded s (s.entries b) := by
  intro b hb
  obtain ⟨c, hc, hreach⟩ := reaches_of_isBlock hs.toWellFormed hb
  exact loaded_of_references_eq_nil (hs.full b) (hpending b hb) (hclean b (hreach.head hc))

/-- Loading leaves nothing unloaded where some definition names a file at the start. -/
theorem loadFiles_leaves_nothing_unloaded (cfg : Settings) (h : d.Sound s)
    (hrun : d.loadFiles cfg s = .ok (d', .ok tried) s')
    (hnames : (∃ b, IsBlock s d.entries b ∧ Pending (s.entries b)) ∨ tried = 0)
    (name other path : String) :
    (s'.schema d').lookup name ≠ .error (.dictionaryNotLoaded other path) ∧
      (s'.schema d').subSchema? name ≠ .error (.dictionaryNotLoaded other path) := by
  obtain ⟨hrounds, rfl⟩ := loadFiles_ok hrun
  have hground := h.grounded
  obtain ⟨s₁, last, hs₁, hlast, hpending, hfirst⟩ :=
    loadRounds_ok (I := (Store.Grounded · ⟨s.size⟩)) (fun _ => id)
      (fun hs hturns => (hturns.turned hs.toWellFormed).grounded hs)
      (fun hs hincludes => hincludes.grounded hs) hground hrounds
  have hclean : s₁.Clean ⟨s.size⟩ := by
    rcases hfirst with hclean | ⟨rfl, rfl⟩
    · exact hclean
    · rcases hnames with ⟨b, hb, hb'⟩ | rfl
      · obtain ⟨c, hc, hreach⟩ := reaches_of_isBlock h.toWellFormed hb
        have hlt := h.toWellFormed.lt_of_reaches (h.lt_size c hc) hreach
        rw [← Sound.entries_alloc s { entries := d.entries } hlt] at hb'
        refine (hpending b ?_ hb').elim
        rwa [Sound.entries_alloc_self, h.isBlock_alloc_iff]
      · exact Include.clean_of_includeFiles_eq_zero hground hlast
  rw [Include.includeFiles_of_clean hclean] at hlast
  cases hlast
  have hbears : s'.Bears (s'.entries ⟨s.size⟩) :=
    (levels_of_grounded hs₁).bears
  have hanswered := lookup_answered (d := ⟨s'.entries ⟨s.size⟩⟩) hs₁.toWellFormed hbears
    (loaded_of_clean hs₁ hclean hpending) name
  exact ⟨hanswered.lookup_ne other path, hanswered.subSchema?_ne other path⟩

/-- The name of a file that holds a dictionary. -/
theorem loadFiles_leaves_nothing_of_one_file_unloaded :
    let s : Store := ⟨#[{ entries := [("a", .policies [⟨1⟩])] },
      { entries := [("dictionaryFile", .strings ["a.paf"])] }]⟩
    let d : Dictionary := ⟨[("definitions", .policies [⟨0⟩])]⟩
    let cfg : Settings := ⟨⟨fun _ => .ok "childDefinition: \x7b\n\x7d".toUTF8, id⟩, "", true⟩
    ∃ d' s', d.loadFiles cfg s = .ok (d', .ok 1) s' ∧ ∀ name other path : String,
      (s'.schema d').lookup name ≠ .error (.dictionaryNotLoaded other path) ∧
        (s'.schema d').subSchema? name ≠ .error (.dictionaryNotLoaded other path) := by
  intro s d cfg
  have hd : d.Sound s := {
    toWellFormed := .of_lt (by decide) (by decide)
    lt_size := by decide
    founded := fun c hc => ⟨2, by
      cases List.mem_singleton.mp hc
      decide⟩
    full := .of_lt (by decide)
    sorted_entries := by decide
    full_entries := by decide }
  have hrun : d.loadFiles cfg s = .ok (d, .ok 1) ⟨#[{ entries := [("a", .policies [⟨1⟩])] },
      { entries := [("dictionary", .policies [⟨3⟩])] },
      { entries := [("definitions", .policies [⟨0⟩])] },
      { entries := [("childDefinition", .policies [⟨4⟩])] }, {}]⟩ := by
    cbv
  have hnames : ∃ b, IsBlock s d.entries b ∧ Pending (s.entries b) :=
    ⟨⟨1⟩, .own (by decide), rfl, rfl⟩
  exact ⟨_, _, hrun, loadFiles_leaves_nothing_unloaded cfg hd hrun (Or.inl hnames)⟩

set_option maxRecDepth 4000 in
/-- A reference to a file that names another one. The name is not turned, although a file has been
tried. -/
theorem loadFiles_leaves_name_in_included_file :
    let files : FileSystem := ⟨fun path =>
      if path = "a.paf" then .ok "definitions: \x7b\n b: \x7b\n dictionaryFile: b.paf\n\x7d\n\x7d".toUTF8
      else .ok "definitions: \x7b\n c: \x7b\n type: int\n\x7d\n\x7d".toUTF8, id⟩
    ∃ d s d' s', ofText "definitions: \x7b\n a: \x7b\n dictionary: @a.paf\n\x7d\n\x7d" .empty = .ok d s ∧
      d.loadFiles ⟨files, "", true⟩ s = .ok (d', .ok 1) s' ∧
      (s'.schema d').lookup "a.b.c" = .error (.dictionaryNotLoaded "a.b" "b.paf") := by
  intro files
  refine ⟨⟨[("definitions", .policies [⟨1⟩])]⟩,
    ⟨#[{ entries := [("definitions", .policies [⟨1⟩])] }, { entries := [("a", .policies [⟨2⟩])] },
      { entries := [("dictionary", .files [⟨"a.paf", none⟩])] }]⟩,
    ⟨[("definitions", .policies [⟨1⟩])]⟩,
    ⟨#[{ entries := [("definitions", .policies [⟨1⟩])] }, { entries := [("a", .policies [⟨2⟩])] },
      { entries := [("dictionary", .policies [⟨4⟩])] },
      { entries := [("definitions", .policies [⟨1⟩])] },
      { entries := [("definitions", .policies [⟨5⟩])] }, { entries := [("b", .policies [⟨6⟩])] },
      { entries := [("dictionaryFile", .strings ["b.paf"])] }]⟩, ?_, ?_, ?_⟩
  · cbv
  · cbv
  · cbv

end PolicyStore.Dictionary
