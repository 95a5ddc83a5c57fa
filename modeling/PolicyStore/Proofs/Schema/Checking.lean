import Mathlib
import PolicyStore.DictionaryFiles
import PolicyStore.Proofs.Schema.Inside
import PolicyStore.Proofs.Store.Trees

set_option autoImplicit false

namespace PolicyStore

/-!
# Checked schemas

A check reads the definitions of a schema by their names, and the child definition by the name of
its key. Where no definition is written under that name, all definitions that any name can have are
read, and neither a validation nor a lookup nor an extraction meets a malformed one afterwards.
-/

theorem Except.forM_eq_ok_iff {ε α : Type} {f : α → Except ε Unit} {xs : List α} :
    xs.forM f = .ok () ↔ ∀ x ∈ xs, f x = .ok () := by
  induction xs with
  | nil => exact ⟨fun _ x hx => (List.not_mem_nil hx).elim, fun _ => rfl⟩
  | cons x xs ih =>
    rw [List.forall_mem_cons, ← ih]
    show (f x >>= fun _ => xs.forM f) = .ok () ↔ _
    cases f x <;> simp [bind, Except.bind]

/-- Whether a block can be read as a definition does not depend on the name that it defines. -/
theorem Definition.ofBlock?_rename {name other : String} {rows : Entries Tree} {d : Definition}
    (h : ofBlock? name rows = .ok d) : ofBlock? other rows = .ok { d with name := other } := by
  obtain ⟨hkind, hdescription, hmin, hmax, hallowed, _, hdefault⟩ := fields_of_ofBlock? h
  have hsub : sub? other rows = .ok d.sub := by
    have hsub := sub?_of_ofBlock? h
    unfold sub? at hsub ⊢
    split at hsub
    · split at hsub
      · exact hsub
      · cases hsub
    · exact hsub
    · cases hsub
    · split at hsub <;> first | exact hsub | cases hsub
  rw [ofBlock?_eq hkind hdescription hmin hmax hallowed, hsub, hdefault]
  rfl

namespace Schema

variable {s inner : Schema} {name : String} {d : Definition}

/-! ## What a check reads -/

/-- A check passes if the definitions of all names that have one can be read, and the schemas inside
of them pass. -/
theorem check_eq_ok_iff : s.check = .ok () ↔ ∀ name ∈ s.ownNames,
    (∀ fault, s.definition? name ≠ some (.error fault)) ∧
      ∀ d inner, s.definition? name = some (.ok d) → d.sub = .inline inner →
        inner.check = .ok () := by
  rw [check]
  have hboth {x y : Except DictionaryFault Unit} :
      (x >>= fun _ => y) = .ok () ↔ x = .ok () ∧ y = .ok () := by
    cases x <;> simp [bind, Except.bind]
  rw [hboth, Except.forM_eq_ok_iff, Except.forM_eq_ok_iff, ← forall₂_and]
  refine forall₂_congr fun name _ => and_congr ?_ ?_
  · split <;> simp_all
  · constructor
    · intro h d inner hd hsub
      split at h
      · rename_i other hother
        cases hd.symm.trans hother
        split at h
        · rename_i sub hsub'
          cases hsub.symm.trans hsub'
          exact Except.of_mapError h
        · rename_i hnot
          exact (hnot inner hsub).elim
      · rename_i hnot
        exact (hnot d hd).elim
    · intro h
      split
      · rename_i d hd
        split
        · rename_i inner hsub
          rw [h d inner hd hsub]
          rfl
        · rfl
      · rfl

theorem definition?_of_describes {block : Tree} (h : s.Describes name block) :
    s.definition? name = some (Definition.ofBlock? name block.entries) := by
  rw [definition?, block?_eq_ok_iff.mpr h]
  rfl

theorem childKey_mem_ownNames {block : Tree} (h : s.childBlock? = some block) :
    childKey ∈ s.ownNames := by
  obtain ⟨children, hget, _⟩ := Entries.child?_eq_some_iff.mp h
  have hchild : s.hasChildDefinition = true := by
    rw [hasChildDefinition, hget]
    rfl
  rw [ownNames, hchild]
  exact List.mem_append_right _ List.mem_cons_self

/-- A check reads the definition of every name, if it gets to the child definition at all. -/
theorem of_check_of_unshadowed (h : s.check = .ok ())
    (hchild : s.own? childKey = none ∨ s.childBlock? = none)
    (hname : Name.segments name = .ok [name]) :
    (∀ fault, s.definition? name ≠ some (.error fault)) ∧
      ∀ d inner, s.definition? name = some (.ok d) → d.sub = .inline inner →
        inner.check = .ok () := by
  by_cases hown : s.own? name = none
  · cases hblock : s.childBlock? with
    | none =>
      have hunknown := definition?_eq_none_iff.mpr ⟨hown, hblock⟩
      refine ⟨fun fault hfault => ?_, fun d inner hd _ => ?_⟩
      · cases hunknown.symm.trans hfault
      · cases hunknown.symm.trans hd
    | some block =>
      -- The check has read the block under the key of the child definition.
      have hkey : s.own? childKey = none := hchild.resolve_right (by simp [hblock])
      have hread := definition?_of_describes (.child hown hblock)
      have hread' := definition?_of_describes (.child hkey hblock)
      obtain ⟨hsound, hinner⟩ := check_eq_ok_iff.mp h _ (childKey_mem_ownNames hblock)
      cases hd : Definition.ofBlock? childKey block.entries with
      | error fault =>
        rw [hd] at hread'
        exact (hsound fault hread').elim
      | ok d =>
        rw [hd] at hread'
        rw [Definition.ofBlock?_rename hd] at hread
        refine ⟨fun fault hfault => ?_, fun other inner hother hsub => ?_⟩
        · cases hread.symm.trans hfault
        · cases hread.symm.trans hother
          exact hinner d inner hread' hsub
  · exact check_eq_ok_iff.mp h name (List.mem_append_left _ (mem_definedNames_of_own? hname hown))

/-! ## Sound schemas -/

/-- No name has a malformed definition, at any level. -/
def Sound (s : Schema) : Prop :=
  ∀ t, s.Inside t → ∀ name, Name.segments name = .ok [name] →
    ∀ fault, t.definition? name ≠ some (.error fault)

theorem sound_of_check (h : s.check = .ok ())
    (hchild : ∀ t, s.Inside t → t.own? childKey = none ∨ t.childBlock? = none) : s.Sound := by
  intro t ht
  induction ht with
  | here => exact fun _ hname => (of_check_of_unshadowed h (hchild _ (.here _)) hname).1
  | inner hname hd hsub _ ih =>
    have hinner := (of_check_of_unshadowed h (hchild _ (.here _)) hname).2 _ _
      (definition?_eq_ok_iff.mpr hd) hsub
    exact ih hinner fun t ht => hchild t (.inner hname hd hsub ht)

theorem Sound.sub (h : s.Sound) (hname : Name.segments name = .ok [name]) (hd : s.Defines name d)
    (hsub : d.sub = .inline inner) : inner.Sound :=
  fun t ht => h t (.inner hname hd hsub ht)

theorem Sound.exists_defines (h : s.Sound) (hname : Name.segments name = .ok [name])
    (hknown : ¬s.Unknown name) : ∃ d, s.Defines name d := by
  rw [← definition?_eq_none_iff] at hknown
  obtain ⟨found, hfound⟩ := Option.ne_none_iff_exists'.mp hknown
  cases found with
  | error fault => exact (h s (.here s) name hname fault hfound).elim
  | ok d => exact ⟨d, definition?_eq_ok_iff.mp hfound⟩

/-- A sound schema has no malformed definition for any policy. -/
theorem Sound.blames_le {t : Tree} {code : Code} (hblames : s.Blames t name code) (h : s.Sound)
    (hs : s.Over Content.Named) (ht : t.content.Named) : code ≤ .allBut .badDefinition := by
  induction hblames with
  | unknown _ _ => decide
  | malformed hrow hknown hnone =>
    obtain ⟨d, hd⟩ := h.exists_defines (ht.key hrow) hknown
    exact (hnone d hd).elim
  | array _ _ hblame => exact hblame.le_allBut (Or.inr rfl)
  | absent _ _ _ _ => decide
  | malformedAbsent hdefined _ hnone =>
    obtain ⟨hname, hown⟩ := hs.definedNames hdefined
    obtain ⟨d, hd⟩ := h.exists_defines hname fun hunknown => hown hunknown.1
    exact (hnone d hd).elim
  | inside hrow hd _ hsub hchild _ ih =>
    have hname := ht.key hrow
    exact ih (h.sub hname hd hsub) (hs.sub Content.hereditary_named hname hd hsub)
      (Content.hereditary_named.child ht hrow hchild)

theorem Sound.findings_le {t : Tree} (h : s.Sound) (hs : s.Over Content.Named) (ht : t.content.Named) :
    ∀ f ∈ s.findings t, f.2 ≤ .allBut .badDefinition :=
  fun (_, code) hf => findings_le_of_blames_le (fun _ hblames => blames_le hblames h hs ht) code hf

theorem Sound.follow_ne {full : String} {segments : List String} (fault : DictionaryFault) :
    ∀ {done : List String} {s : Schema}, s.Sound →
      (∀ segment ∈ segments, Name.segments segment = .ok [segment]) →
      follow full done s segments ≠ .error (.dictionary fault) := by
  have hread {s : Schema} {segment : String} (h : s.Sound)
      (hsegment : Name.segments segment = .ok [segment]) :
      s.definitionFor full segment = .error (.nameNotFound full) ∨
        ∃ d, s.definitionFor full segment = .ok d ∧ s.Defines segment d := by
    unfold definitionFor
    split
    · exact Or.inl rfl
    · rename_i other hother
      exact (h s (.here s) segment hsegment other hother).elim
    · rename_i d hd
      exact Or.inr ⟨d, rfl, definition?_eq_ok_iff.mp hd⟩
  induction segments with
  | nil => simp [follow]
  | cons segment rest ih =>
    intro done s h hsegments
    have hsegment := hsegments segment List.mem_cons_self
    cases rest with
    | nil => rcases hread h hsegment with hnone | ⟨d, hd, _⟩ <;> simp [follow, *]
    | cons next rest =>
      rcases hread h hsegment with hnone | ⟨d, hd, hdefines⟩
      · simp [follow, hnone, bind, Except.bind]
      · simp only [follow, hd, bind, Except.bind, enter]
        cases hsub : d.sub with
        | inline inner =>
          exact ih (h.sub hsegment hdefines hsub) fun seg hseg =>
            hsegments seg (List.mem_cons_of_mem _ hseg)
        | _ => simp

theorem Sound.lookup_ne (h : s.Sound) (name : String) (fault : DictionaryFault) :
    s.lookup name ≠ .error (.dictionary fault) := by
  unfold lookup
  cases hname : Name.segments name with
  | error e =>
    have he : e = .badName name := by
      unfold Name.segments at hname
      split at hname <;> cases hname
      rfl
    simp [he, bind, Except.bind]
  | ok segments => exact follow_ne fault h fun _ => Name.segments_of_mem hname

/-! ## Defaults -/

/-- Whatever is wrong with a default, it is not a malformed definition. -/
theorem Sound.ownDefault_le (h : s.Sound) (hs : s.Over Content.Named)
    (hname : Name.segments name = .ok [name]) (hd : s.Defines name d) {values : Values Tree} (hdefault : d.default = some values) :
    ∀ f ∈ (d.ownDefault name values).findings, f.2 ≤ .allBut .badDefinition := by
  have hfound : ∀ f ∈ d.findings name values, f.2 ≤ .allBut .badDefinition := by
    intro f hf
    rcases List.mem_cons.mp hf with rfl | hf
    · exact d.judgeArray_le_allBut values (Or.inr rfl)
    · obtain ⟨inner, child, rest, hbelow, hchild, hinside, _⟩ := mem_findingsBelow_iff.mp hf
      have hsub := (Definition.below?_eq_some_iff.mp hbelow).2
      exact (h.sub hname hd hsub).findings_le (hs.sub Content.hereditary_named hname hd hsub)
        (hs.default Content.hereditary_named hname hd hdefault child hchild) (rest, f.2) hinside
  intro f hf
  unfold Definition.ownDefault at hf
  split at hf
  · cases hf
  · exact hfound f (List.mem_filter.mp hf).1

theorem Sound.defaults_le : ∀ {s : Schema}, s.Sound → s.Over Content.Named →
    ∀ f ∈ s.defaults.findings, f.2 ≤ .allBut .badDefinition := by
  intro s
  induction hsize : sizeOf s using Nat.strongRecOn generalizing s with
  | ind size ih =>
    intro h hs f hf
    rw [findings_defaults] at hf
    obtain ⟨name, hdefined, hf⟩ := List.mem_flatMap.mp hf
    obtain ⟨hname, _⟩ := hs.definedNames hdefined
    unfold defaultOf at hf
    split at hf
    · cases hf
    · rename_i fault hfault
      exact (h s (.here s) name hname fault hfault).elim
    · rename_i d hd
      have hdefines := definition?_eq_ok_iff.mp hd
      split at hf
      · rename_i values hdefault
        exact h.ownDefault_le hs hname hdefines hdefault f hf
      · split at hf
        · rename_i inner hsub
          obtain ⟨found, hfound, rfl⟩ := List.mem_map.mp hf
          exact ih _ (hsize ▸ sizeOf_sub_lt hd hsub) rfl (h.sub hname hdefines hsub)
            (hs.sub Content.hereditary_named hname hdefines hsub) found hfound
        · cases List.mem_singleton.mp hf
          show Code.notLoaded ≤ _
          decide
        · cases hf

end Schema

/-- What is recorded of sound findings is sound. -/
theorem Report.contains_record_eq_false {found : List Finding} {code : Code}
    (hcode : code.isNone = false) (h : ∀ f ∈ found, f.2 ≤ .allBut code) (name : String) :
    ((empty.record found).codeAt name).contains code = false :=
  Code.contains_eq_false_of_le_allBut hcode <|
    codeAt_record_le_iff.mpr ⟨bot_le, fun _ hmem => h _ hmem⟩

/-- If no definition is written under the key of a child definition, then a dictionary that passes
its check has no malformed definition for a policy, for a name or for its own defaults. -/
theorem Store.check_leaves_no_malformed_definition {s : Store} (hlegal : s.Legal) (d : Dictionary)
    (hcheck : (s.schema d).check = .ok ())
    (hchild : ∀ t, (s.schema d).Inside t →
      t.own? Schema.childKey = none ∨ t.childBlock? = none) :
    (∀ p, ∃ report, s.validateBy d p (some .empty) = .ok (some report) ∧
      ∀ name, (report.codeAt name).contains .badDefinition = false) ∧
    (∀ name fault, (s.schema d).lookup name ≠ .error (.dictionary fault)) ∧
    ∀ attached, ∃ q report s',
      Policy.ofDefaults d attached (some .empty) s = .ok (q, some report) s' ∧
      ∀ name, (report.codeAt name).contains .badDefinition = false := by
  have hsound := Schema.sound_of_check hcheck hchild
  have hnamed := hlegal.named_schema d
  have hsettle (found : List Finding) :
      settle found (some .empty) = .ok (some (Report.empty.record found)) := by
    rw [settle, Report.empty_absorb]
  refine ⟨fun p => ⟨_, hsettle _, ?_⟩, hsound.lookup_ne, fun attached => ?_⟩
  · exact Report.contains_record_eq_false rfl (hsound.findings_le hnamed (hlegal.named_tree p))
  · exact ⟨_, _, _, Policy.ofDefaults_eq (hsettle _) attached,
      Report.contains_record_eq_false rfl (hsound.defaults_le hnamed)⟩

/-- A child definition inside the child definition. -/
theorem Store.check_leaves_no_malformed_child_definition :
    let s : Store := ⟨#[{ entries := [("dictionary", .policies [⟨1⟩])] },
      { entries := [("childDefinition", .policies [⟨2⟩])] }, { entries := [("type", .strings ["int"])] },
      { entries := [("a", .policies [⟨4⟩])] }, { entries := [("x", .strings [""])] }]⟩
    let d : Dictionary := ⟨[("childDefinition", .policies [⟨0⟩])]⟩
    (s.schema d).check = .ok () ∧
      (∃ report, s.validateBy d ⟨3⟩ (some .empty) = .ok (some report) ∧
        (report.codeAt "a.x").contains .badDefinition = false) ∧
      (∀ fault, (s.schema d).lookup "a.x" ≠ .error (.dictionary fault)) ∧
      ∃ q report s', Policy.ofDefaults d false (some .empty) s = .ok (q, some report) s' ∧
        (report.codeAt "a.x").contains .badDefinition = false := by
  intro s d
  let inner := s.schema ⟨s.entries ⟨1⟩⟩
  have hlegal : s.Legal := .of_lt (by decide +kernel)
  have htop : (s.schema d).definitions? = none ∧
      ∀ name, (s.schema d).definition? name = some (.ok { name, sub := .inline inner }) := by
    refine ⟨?_, fun name => ?_⟩ <;> cbv
  have hinner : inner.definitions? = none ∧
      ∀ name, inner.definition? name = some (.ok { name, kind := some .int }) := by
    refine ⟨?_, fun name => ?_⟩ <;> cbv
  have hcheck : (s.schema d).check = .ok () := by
    refine Schema.check_eq_ok_iff.mpr fun name _ => ?_
    rw [htop.2 name]
    refine ⟨fun _ h => (by cases h), fun _ sub hd hsub => ?_⟩
    cases hd
    cases hsub
    refine Schema.check_eq_ok_iff.mpr fun other _ => ?_
    rw [hinner.2 other]
    refine ⟨fun _ h => (by cases h), fun _ sub hd hsub => ?_⟩
    cases hd
    cases hsub
  have hchild : ∀ t, (s.schema d).Inside t →
      t.own? Schema.childKey = none ∨ t.childBlock? = none := by
    intro t ht
    cases ht with
    | here => exact Or.inl (by rw [Schema.own?, htop.1]; rfl)
    | @inner _ _ _ name _ _ hd hsub ht =>
      cases (htop.2 name).symm.trans (Schema.definition?_eq_ok_iff.mpr hd)
      cases hsub
      cases ht with
      | here => exact Or.inl (by rw [Schema.own?, hinner.1]; rfl)
      | @inner _ _ _ other _ _ hd hsub _ =>
        cases (hinner.2 other).symm.trans (Schema.definition?_eq_ok_iff.mpr hd)
        cases hsub
  obtain ⟨hvalid, hlookup, hdefaults⟩ := check_leaves_no_malformed_definition hlegal d hcheck hchild
  obtain ⟨report, hrun, hreport⟩ := hvalid ⟨3⟩
  obtain ⟨q, found, s', hrun', hfound⟩ := hdefaults false
  exact ⟨hcheck, ⟨report, hrun, hreport _⟩, hlookup _, q, found, s', hrun', hfound _⟩

/-- A definition under the key of the child definition hides the child definition from a check, and
all other names still have the child definition. -/
theorem Store.check_misses_shadowed_child_definition :
    ∃ d s, Dictionary.ofText ("definitions: \x7b\n childDefinition: \x7b\n type: int\n\x7d\n\x7d\n" ++
        "childDefinition: \x7b\n type: nonsense\n\x7d") .empty = .ok d s ∧
      (s.schema d).check = .ok () ∧
      (s.schema d).lookup "x" =
        .error (.dictionary (.definition "x" (.unknownType "nonsense"))) ∧
      ∃ p s' report, Policy.ofText true "x: 1" s = .ok p s' ∧
        s'.validateBy d p (some .empty) = .ok (some report) ∧
        report.codeAt "x" = .badDefinition := by
  refine ⟨⟨[("childDefinition", .policies [⟨3⟩]), ("definitions", .policies [⟨1⟩])]⟩,
    ⟨#[{ entries := [("childDefinition", .policies [⟨3⟩]), ("definitions", .policies [⟨1⟩])] },
      { entries := [("childDefinition", .policies [⟨2⟩])] }, { entries := [("type", .strings ["int"])] },
      { entries := [("type", .strings ["nonsense"])] }]⟩, ?_, ?_, ?_, ⟨4⟩,
    ⟨#[{ entries := [("childDefinition", .policies [⟨3⟩]), ("definitions", .policies [⟨1⟩])] },
      { entries := [("childDefinition", .policies [⟨2⟩])] }, { entries := [("type", .strings ["int"])] },
      { entries := [("type", .strings ["nonsense"])] }, { entries := [("x", .ints [1])] }]⟩,
    Report.empty.add "x" .badDefinition, ?_, ?_, ?_⟩
  · cbv
  · refine Schema.check_eq_ok_iff.mpr fun name hname => ?_
    rw [show Schema.ownNames _ = ["childDefinition", "childDefinition"] by cbv] at hname
    obtain rfl : name = "childDefinition" := by simpa using hname
    rw [show Schema.definition? _ _ =
      some (.ok { name := "childDefinition", kind := some .int }) by cbv]
    refine ⟨fun _ h => (by cases h), fun _ _ hd hsub => ?_⟩
    cases hd
    cases hsub
  all_goals cbv

end PolicyStore
