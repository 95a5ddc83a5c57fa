import PolicyStore.Proofs.Merge.Editing
import PolicyStore.Proofs.Schema.Extracting

set_option autoImplicit false

namespace PolicyStore

/-!
# Extracted defaults

The defaults of a dictionary are extracted into a new policy, which the dictionary can validate. All
that it may find missing are values without a default.
-/

namespace Policy

variable {s s' : Store} {d : Dictionary} {q : Policy} {acc : Option Report}

/-- The policy that is extracted is a copy of the defaults; all else is as it was. -/
theorem copy_of_ofDefaults (hs : s.Proper) (hd : s.Bears d.entries)
    (h : ofDefaults d false none s = .ok (q, acc) s') :
    (s.schema d).Clean ∧ s.Planted s' [q] ∧ s'.schema d = s.schema d ∧
      s'.content q = (Tree.fresh (s.schema d).defaults.entries).content := by
  obtain ⟨hclean, hplant⟩ := of_ofDefaults h
  have hregular := Schema.regular_defaults (hs.wellFormed.regular_schema hs.full d)
    (hs.legal.named_schema d)
  have hnamed := Schema.named_defaults (hs.legal.named_schema d)
  obtain ⟨hplanted, hcontent⟩ :=
    (Tree.fresh (s.schema d).defaults.entries).planted_plant hs.wellFormed hregular
  obtain ⟨hedits, -⟩ := (Tree.fresh (s.schema d).defaults.entries).edits_plant hs.zoned_new
    ⟨hregular, hnamed⟩
  rw [hplant] at hplanted hcontent hedits
  refine ⟨hclean, hplanted, hd.schema_eq hs.wellFormed hedits.toProper.wellFormed hedits.size_le
    fun c hc r hr => ?_, hcontent⟩
  have hr := hs.wellFormed.lt_of_reaches (hd.lt_size c hc) hr
  exact hedits.node_eq r hr (Nat.not_le.mpr hr)

/-- An extraction that succeeds without a report answers a policy with every default that is
declared. Its own dictionary has nothing against it but that values are too few, as long as no
policy in a default is listed where the schema inside the definition holds it: the copy of a listed
policy is not listed. -/
theorem ofDefaults_satisfies_dictionary (hs : s.Proper) (hd : s.Bears d.entries)
    (hdefinitions : (s.schema d).Everywhere fun e => e.Collectable ∧ e.Apart)
    (h : ofDefaults d false none s = .ok (q, acc) s') :
    (∀ name path values, Name.segments name = .ok path → (s.schema d).Declares path values →
      ∃ vs, s'.values q name = .ok vs ∧ vs.map s'.content = values.map Tree.content) ∧
    ∃ report, s'.validateBy d q (some .empty) = .ok (some report) ∧
      ∀ name, report.codeAt name ≤ .tooFewValues := by
  obtain ⟨hclean, hplanted, hschema, hcontent⟩ := copy_of_ofDefaults hs hd h
  have hnamed := hs.legal.named_schema d
  have hq := List.mem_singleton_self q
  constructor
  · intro name path values hname hdeclares
    have hfind := hdeclares.find?_eq hclean (hs.wellFormed.regular_schema hs.full d) hnamed
    rw [← hcontent] at hfind
    obtain ⟨n, hn⟩ := hplanted.forest.founded q hq
    obtain ⟨vs, hvalues, hcopy, -⟩ := Store.exists_values hplanted.adds.wellFormed
      (hplanted.lt_size q hq) hn hname hfind
    exact ⟨vs, hvalues, hcopy⟩
  · refine ⟨_, rfl, fun name => ?_⟩
    rw [Report.empty_absorb, hschema]
    refine Report.codeAt_record_le_iff.mpr ⟨bot_le, ?_⟩
    exact Schema.findings_le_of_blames_le fun code hblames =>
      hblames.le_of_defaults hcontent hclean hnamed hdefinitions

/-- A policy that has to be held twice, with a default for what is in it. -/
theorem ofDefaults_satisfies_dictionary_short :
    let s : Store := ⟨#[{ entries := [("default", .ints [5])] },
      { entries := [("b", .policies [⟨0⟩])] }, { entries := [("definitions", .policies [⟨1⟩])] },
      { entries := [("dictionary", .policies [⟨2⟩]), ("minOccurs", .ints [2])] },
      { entries := [("a", .policies [⟨3⟩])] }]⟩
    let d : Dictionary := ⟨[("definitions", .policies [⟨4⟩])]⟩
    ∃ q s' vs report, ofDefaults d false none s = .ok (q, none) s' ∧
      s'.values q "a.b" = .ok vs ∧ vs.map s'.content = .ints [5] ∧
      s'.validateBy d q (some .empty) = .ok (some report) ∧
      (∀ name, report.codeAt name ≤ .tooFewValues) ∧ report.codeAt "a" = .notAnArray := by
  intro s d
  let inner := s.schema ⟨s.entries ⟨2⟩⟩
  have hs : s.Proper := .of_parts (.of_lt (by decide) (by decide)) (.of_lt (by decide))
    (.of_lt (by decide +kernel))
  have hwithin : s.Within 5 ⟨4⟩ := by decide
  have hd : s.Bears d.entries := ⟨by decide, fun c hc => by
    cases List.mem_singleton.mp hc
    exact ⟨5, hwithin⟩⟩
  have htop : (s.schema d).childBlock? = none ∧ (s.schema d).definedNames = ["a"] ∧
      (s.schema d).definition? "a" =
        some (.ok { name := "a", minOccurs := 2, sub := .inline inner }) := by
    refine ⟨?_, ?_, ?_⟩ <;> cbv
  have hinner : inner.childBlock? = none ∧ inner.definedNames = ["b"] ∧
      inner.definition? "b" = some (.ok { name := "b", default := some (.ints [5]) }) := by
    refine ⟨?_, ?_, ?_⟩ <;> cbv
  have hdefinitions : (s.schema d).Everywhere fun e => e.Collectable ∧ e.Apart := by
    refine .of_single htop.1 htop.2.1 htop.2.2 ⟨⟨?_, ?_, ?_, ?_⟩, ?_⟩ fun _ hsub => ?_
    · exact fun _ _ => Or.inl rfl
    · exact fun _ _ _ hmax => by cases hmax
    · exact fun _ _ => rfl
    · exact fun _ hdefault => by cases hdefault
    · exact fun _ _ _ hdefault => by cases hdefault
    · cases hsub
      refine .of_single hinner.1 hinner.2.1 hinner.2.2 ⟨⟨?_, ?_, ?_, ?_⟩, ?_⟩ fun _ hsub => ?_
      · exact fun _ hsub => by cases hsub
      · exact fun _ _ hsub => by cases hsub
      · exact fun _ hsub => by cases hsub
      · exact fun _ hdefault => by cases hdefault
      · exact fun _ _ hsub => by cases hsub
      · cases hsub
  have hall : (s.schema d).defaults = ⟨[("a", .policies [.fresh [("b", .ints [5])]])], []⟩ := by
    rw [Schema.defaults_of_single htop.2.1, Schema.defaultOf, htop.2.2]
    simp only [Schema.defaults_of_single hinner.2.1, Schema.defaultOf, hinner.2.2]
    cbv
  let s' : Store := ⟨s.nodes ++
    #[{ entries := [("b", .ints [5])] }, { entries := [("a", .policies [⟨5⟩])] }]⟩
  have hextract : ofDefaults d false none s = .ok (⟨6⟩, none) s' := by
    rw [ofDefaults_of_defaults hall]
    rfl
  obtain ⟨hdeclared, report, hvalidate, hreport⟩ :=
    ofDefaults_satisfies_dictionary hs hd hdefinitions hextract
  have hdeclares : (s.schema d).Declares ["a", "b"] (.ints [5]) :=
    .inside (by rw [htop.2.1]; exact List.mem_singleton_self _)
      (Schema.definition?_eq_ok_iff.mp htop.2.2) rfl rfl
      (.here (by rw [hinner.2.1]; exact List.mem_singleton_self _)
        (Schema.definition?_eq_ok_iff.mp hinner.2.2) rfl)
  obtain ⟨vs, hvalues, hcopy⟩ := hdeclared "a.b" _ _ (by cbv) hdeclares
  have hcode : (s'.validateBy d ⟨6⟩ (some .empty)).map (Option.map (·.codeAt "a")) =
      .ok (some .notAnArray) := by
    decide +kernel
  rw [hvalidate] at hcode
  refine ⟨_, _, vs, report, hextract, hvalues, hcopy, hvalidate, hreport, ?_⟩
  exact Option.some.inj (Except.ok.inj hcode)

/-- The policy in a default is a value that is allowed where it is held; its copy is none. -/
theorem ofDefaults_disallows_copy :
    let s : Store := ⟨#[{}, { entries := [("x", .policies [⟨0⟩])] },
      { entries := [("value", .policies [⟨0⟩])] }, { entries := [("allowed", .policies [⟨2⟩])] },
      { entries := [("x", .policies [⟨3⟩])] }, { entries := [("definitions", .policies [⟨4⟩])] },
      { entries := [("default", .policies [⟨1⟩]), ("dictionary", .policies [⟨5⟩]),
        ("type", .strings ["Policy"])] }, { entries := [("a", .policies [⟨6⟩])] }]⟩
    let d : Dictionary := ⟨[("definitions", .policies [⟨7⟩])]⟩
    s.Proper ∧ s.Bears d.entries ∧ (s.schema d).Everywhere Definition.Collectable ∧
      ∃ q s' report, ofDefaults d false none s = .ok (q, none) s' ∧
        s'.validateBy d q (some .empty) = .ok (some report) ∧
        report.codeAt "a.x" = .valueDisallowed := by
  intro s d
  let inner := s.schema ⟨s.entries ⟨5⟩⟩
  let listed : Tree := .node ⟨0⟩ none []
  let held : Tree := .node ⟨1⟩ none [("x", .policies [listed])]
  have hs : s.Proper := .of_parts (.of_lt (by decide) (by decide)) (.of_lt (by decide))
    (.of_lt (by decide +kernel))
  have hwithin : s.Within 8 ⟨7⟩ := by decide
  have hd : s.Bears d.entries := ⟨by decide, fun c hc => by
    cases List.mem_singleton.mp hc
    exact ⟨8, hwithin⟩⟩
  have htop : (s.schema d).childBlock? = none ∧ (s.schema d).definedNames = ["a"] ∧
      (s.schema d).definition? "a" = some (.ok
        { name := "a", kind := some .policy, default := some (.policies [held]),
          sub := .inline inner }) := by
    refine ⟨?_, ?_, ?_⟩ <;> cbv
  have hinner : inner.childBlock? = none ∧ inner.definedNames = ["x"] ∧
      inner.definition? "x" =
        some (.ok { name := "x", allowed := { values := [.policy listed] } }) := by
    refine ⟨?_, ?_, ?_⟩ <;> cbv
  have hdefinitions : (s.schema d).Everywhere Definition.Collectable := by
    refine .of_single htop.1 htop.2.1 htop.2.2 ⟨?_, ?_, ?_, ?_⟩ fun _ hsub => ?_
    · exact fun _ _ => Or.inr rfl
    · exact fun _ _ _ hmax => by cases hmax
    · exact fun _ _ => rfl
    · exact fun _ _ => rfl
    · cases hsub
      refine .of_single hinner.1 hinner.2.1 hinner.2.2 ⟨?_, ?_, ?_, ?_⟩ fun _ hsub => ?_
      · exact fun _ hsub => by cases hsub
      · exact fun _ _ hsub => by cases hsub
      · exact fun _ hsub => by cases hsub
      · exact fun _ hdefault => by cases hdefault
      · cases hsub
  let s' : Store := ⟨s.nodes ++ #[{ entries := [] }, { entries := [("x", .policies [⟨8⟩])] },
    { entries := [("a", .policies [⟨9⟩])] }]⟩
  have hextract : ofDefaults d false none s = .ok (⟨10⟩, none) s' := by
    have hall : (s.schema d).defaults = ⟨[("a", .policies [held])], []⟩ := by
      rw [Schema.defaults_of_single htop.2.1, Schema.defaultOf, htop.2.2]
      cbv
    rw [ofDefaults_of_defaults hall]
    rfl
  have hcode : ∃ report, s'.validateBy d ⟨10⟩ (some .empty) = .ok (some report) ∧
      report.codeAt "a.x" = .valueDisallowed := by
    refine ⟨_, rfl, ?_⟩
    decide +kernel
  obtain ⟨report, hvalidate, hreport⟩ := hcode
  exact ⟨hs, hd, hdefinitions, _, _, report, hextract, hvalidate, hreport⟩

end Policy

end PolicyStore
