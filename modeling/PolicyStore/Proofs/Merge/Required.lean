import Mathlib
import PolicyStore.Proofs.Dictionary.Blocks
import PolicyStore.Proofs.Merge.Filling
import PolicyStore.Proofs.Schema.Missing

set_option autoImplicit false

namespace PolicyStore

/-!
# Required names with defaults

A policy is completed with the defaults of a dictionary and validated by it. A name with a default is
not missing then, as long as the policies on the way to it are alone in their arrays and can be
reached under no other name, and the default is among those that are copied.
-/

namespace Store

variable {s s₀ : Store} {p r : Policy} {path : List String} {n : Nat}

/-- The conditions on the way to a path under which its default cannot be missed. -/
structure Supplied (s : Store) (p : Policy) (source : Content) (path : List String) : Prop where
  single : ∀ front key rest r children, path = front ++ key :: rest → rest ≠ [] →
    s.Way p front r → Table.get? key (s.entries r) = some (.policies children) →
    ∃ c, children = [c] ∧ ∀ other, s.Way p other c → other = front ++ [key]
  held : ∀ front key r, path = front ++ [key] → s.Way p front r → path ∈ source.paths

/-- All arrays of a source have been copied, those below a policy that one path leads to unchanged. -/
structure Filled (s₀ s : Store) (p : Policy) (source : Content) : Prop extends s₀.Filling s p where
  settled : ∀ path ∈ source.paths, s.Settled p path
  copied : ∀ r front key, r.id < s₀.size → (∀ other, s₀.Way p other r → other = front) →
    Table.get? key (s₀.entries r) = none →
    s₀.Copied s r key (Content.find? (front ++ [key]) source)

section Filled

variable {source : Content} {S : Schema} (h : s₀.Filled s p source) (hs₀ : s₀.WellFormed)
  (hsupplied : s₀.Supplied p source path) (hsource : ¬S.Misses source path)

include h hs₀ hsupplied hsource

/-- Nothing is missed below a policy that one path alone leads to. -/
theorem Filled.not_misses_below {T : Schema} {c : Content} {rest : List String} (hmisses : T.Misses c rest) :
    ∀ {front : List String} {r : Policy}, path = front ++ rest → S.Passage front T →
      s₀.Way p front r → (∀ other, s₀.Way p other r → other = front) → c = s.content r → False := by
  obtain ⟨n, hn⟩ := h.founded
  have hp := h.target_lt.trans_le h.size_le
  induction hmisses with
  | @absent T c name d hd hmin habsent =>
    rintro front r hpath hpassage hway hunique rfl
    have hreach := (h.keeps.way hway).reaches
    rw [h.toWellFormed.get?_content (h.toWellFormed.lt_of_reaches hp hreach) (hn.of_reaches hreach),
      Option.map_eq_none_iff] at habsent
    have hmem := hsupplied.held front name r hpath hway
    rw [hpath] at hmem
    exact (h.keeps.way hway).not_settled habsent (h.settled _ hmem)
  | @inside T inner c child name children d rest hd haccept hsub hrow hchild hmisses ih =>
    rintro front r hpath hpassage hway hunique rfl
    have hreach := (h.keeps.way hway).reaches
    have hr := h.toWellFormed.lt_of_reaches hp hreach
    have hnr := hn.of_reaches hreach
    have hsorted := (h.toWellFormed.regular_content h.full r).sorted
    have hget := Table.get?_of_mem hsorted hrow
    rw [h.toWellFormed.get?_content hr hnr] at hget
    obtain ⟨vs, hvs, hmap⟩ := Option.map_eq_some_iff.mp hget
    cases vs with
    | policies ps =>
      cases hmap
      obtain ⟨c, hc, rfl⟩ := List.mem_map.mp hchild
      cases hold : Table.get? name (s₀.entries r) with
      | none =>
        have hr₀ := hs₀.lt_of_reaches h.target_lt hway.reaches
        obtain hnone | ⟨s₁, inside, ws, hcopy, hws⟩ := h.copied r front name hr₀ hunique hold
        · cases hvs.symm.trans hnone
        · cases hvs.symm.trans hcopy.row
          obtain ⟨hinside, k, hk⟩ := hcopy.children c hc
          rw [hcopy.isSealed.content_eq hcopy.wellFormed h.toWellFormed hinside hk] at hmisses
          have hlonger := (hpassage.snoc hd haccept hsub).misses hws (List.mem_map_of_mem hc) hmisses
          rw [List.append_assoc] at hlonger
          exact hsource (hpath ▸ hlonger)
      | some old =>
        -- The policy has held the array from the start, and it is alone in it.
        cases (h.keeps r name old hold).symm.trans hvs
        obtain ⟨only, rfl, honly⟩ :=
          hsupplied.single front name rest r ps hpath hmisses.ne_nil hway hold
        cases List.mem_singleton.mp hc
        exact ih (hpath.trans (by simp)) (hpassage.snoc hd haccept hsub)
          (hway.snoc hold rfl) honly rfl
    | _ => cases hmap

end Filled

/-! ## Names on the way -/

theorem Way.segments (h : s.Way p path r) (hlegal : s.Legal) :
    ∀ segment ∈ path, Name.segments segment = .ok [segment] := by
  induction h with
  | here => exact fun _ hsegment => by cases hsegment
  | @step p c r key path children hget _ _ ih =>
    intro segment hsegment
    rcases List.mem_cons.mp hsegment with rfl | hsegment
    · exact hlegal p _ (List.mem_map_of_mem (Table.mem_of_get? hget))
    · exact ih segment hsegment

/-- A policy that a way leads to is the last one under the name of the way. -/
theorem Way.policy?_eq (h : s.Way p path r) {name : String} (hname : Name.segments name = .ok path) :
    s.policy? p name = some r := by
  obtain ⟨front, key, q, children, rfl, hway, hget, hlast⟩ :=
    h.exists_last (Name.segments_ne_nil hname)
  have hfind := hway.find?_eq hname
  rw [hget] at hfind
  unfold find? at hfind
  rw [policy?, Entries.policy?, hfind]
  exact hlast

/-- The conditions on a path are those on its name. -/
theorem supplied_of_names (hlegal : s.Legal) (hn : s.Within n p) {source : Content} {name : String}
    (hname : Name.segments name = .ok path)
    (hsingle : ∀ left right, name = left ++ "." ++ right → ∀ children,
      s.find? p left = some (.policies children) →
      ∃ c, children = [c] ∧ ∀ other, s.policy? p other = some c → other = left)
    (hheld : ∀ left key, name = left ++ "." ++ key → '.' ∉ key.toList → s.policy? p left ≠ none →
      path ∈ source.paths)
    (htop : ∀ key, path = [key] → path ∈ source.paths) : s.Supplied p source path where
  single front key rest r children hpath hrest hway hget := by
    rw [hpath, List.append_cons] at hname
    obtain ⟨left, right, hsplit, hleft, _⟩ :=
      Name.exists_of_segments_eq_append (by simp) hrest hname
    obtain ⟨c, rfl, honly⟩ := hsingle left right hsplit children (by rw [hway.find?_eq hleft, hget])
    refine ⟨c, rfl, fun other hother => ?_⟩
    have hne : other ≠ [] := by
      rintro rfl
      cases hother
      exact List.append_ne_nil_of_right_ne_nil _ (List.cons_ne_nil _ _)
        ((hway.snoc hget rfl).eq_nil hn)
    obtain ⟨otherName, hsegments⟩ := Name.exists_of_segments hne (hother.segments hlegal)
    rw [honly otherName (hother.policy?_eq hsegments)] at hsegments
    exact Except.ok.inj (hsegments.symm.trans hleft)
  held front key r hpath hway := by
    by_cases hfront : front = []
    · exact htop key (by rw [hpath, hfront, List.nil_append])
    · rw [hpath] at hname
      obtain ⟨left, right, hsplit, hleft, hright⟩ :=
        Name.exists_of_segments_eq_append hfront (List.cons_ne_nil _ _) hname
      refine hheld left right hsplit (Name.dot_not_mem_of_segments hright) ?_
      rw [hway.policy?_eq hleft]
      exact Option.some_ne_none r

/-! ## Merging the defaults of a dictionary -/

theorem WellFormed.regular_schema (hs : s.WellFormed) (hfull : s.Full) (d : Dictionary) :
    (s.schema d).Over Content.Regular :=
  schema_over (hs.regular_content hfull) d

/-- A dictionary that shares no policy with the one that is filled in reads as before. -/
theorem Filling.schema_setDictionary (h : s₀.Filling s p) (hs₀ : s₀.WellFormed) {d : Dictionary}
    (hd : s₀.Bears d.entries)
    (hapart : ∀ c ∈ d.entries.flatMap fun row => row.2.children, s₀.Disjoint p c) :
    (s.setDictionary p d).schema d = s₀.schema d := by
  refine hd.schema_eq hs₀ (wellFormed_setDictionary h.toWellFormed p d) ?_ fun c hmem r hr => ?_
  · rw [size_setDictionary]
    exact h.size_le
  · -- What the dictionary reaches is out of reach of the policy, so no copy has been put there.
    have hnot : ¬s₀.Reaches p r := fun hpr => hapart c hmem r hpr hr
    have hne : r ≠ p := by
      rintro rfl
      exact hnot .refl
    rw [node_setDictionary_of_ne hne, h.frame r (hs₀.lt_of_reaches (hd.lt_size c hmem) hr) hnot]

end Store

namespace Policy

variable {s s₁ s' : Store} {p q : Policy} {d : Dictionary}

/-- An extraction that succeeds without a report has found nothing wrong. -/
theorem of_ofDefaults {acc : Option Report} (h : ofDefaults d false none s = .ok (q, acc) s₁) :
    (s.schema d).Clean ∧ (Tree.fresh (s.schema d).defaults.entries).plant s = (q, s₁) := by
  cases hsettle : settle (s.schema d).defaults.findings none with
  | error e =>
    simp [ofDefaults, bind, EStateM.bind, get, getThe, MonadStateOf.get, EStateM.get, StoreM.lift,
      StoreM.ask, hsettle] at h
  | ok settled =>
    have hnone : settled = none := by
      simp only [settle] at hsettle
      split at hsettle
      · exact (Except.ok.inj hsettle).symm
      · cases hsettle
    subst hnone
    rw [ofDefaults_eq hsettle false] at h
    cases h
    exact ⟨settle_eq_ok_none_iff.mp hsettle, rfl⟩

/-- Merging a dictionary without faulty defaults attaches it and validates by it. -/
theorem mergeDefaults_dictionary (hclean : (s.schema d).Clean)
    (hplant : (Tree.fresh (s.schema d).defaults.entries).plant s = (q, s₁)) {copied : Nat}
    (hrun : p.mergeNames q (s₁.names q .all false) s₁ = .ok copied s') (hp : p.id < s'.size)
    (report : Report) :
    let attached := s'.setDictionary p d
    p.mergeDefaults (.dictionary d) true (some report) s = .ok (copied, some (report.absorb ""
      (Report.empty.record ((attached.schema d).findings (attached.tree p))))) attached := by
  have hextract : ofDefaults d false (some report) s = .ok (q, some report) s₁ := by
    rw [ofDefaults_eq (settle_of_none hclean report) false, hplant]
    rfl
  have hdictionary := Store.dictionary?_setDictionary_self hp d
  simp only [mergeDefaults, bind, EStateM.bind, hextract, pure, EStateM.pure, get, getThe,
    MonadStateOf.get, EStateM.get, hrun, if_true, attach, modify, modifyGet, MonadStateOf.modifyGet,
    EStateM.modifyGet, hdictionary, StoreM.ask, Store.validate, Store.validateBy, settle]

/-- The defaults of a dictionary are a new tree, whose names are copied one after the other. -/
theorem mergeNames_defaults (hs : s.WellFormed) (hfull : s.Full) (hlegal : s.Legal)
    (hp : p.id < s.size) {n : Nat} (hn : s.Within n p)
    (hplant : (Tree.fresh (s.schema d).defaults.entries).plant s = (q, s₁)) :
    s.Planted s₁ [q] ∧ s₁.content q = (Tree.fresh (s.schema d).defaults.entries).content ∧
      ∃ copied s', p.mergeNames q (s₁.names q .all false) s₁ = .ok copied s' ∧
        s.Filled s' p (s₁.content q) := by
  have hregular := Schema.regular_defaults (hs.regular_schema hfull d) (hlegal.named_schema d)
  have hnamed := Schema.named_defaults (hlegal.named_schema d)
  obtain ⟨hplanted, hcontent⟩ := Tree.planted_plant (.fresh (s.schema d).defaults.entries) hs hregular
  rw [hplant] at hplanted hcontent
  change s.Planted s₁ [q] at hplanted
  change s₁.content q = _ at hcontent
  have hq := List.mem_singleton_self q
  obtain ⟨m, hm⟩ := hplanted.forest.founded q hq
  have hfilling := (Store.Filling.refl hs hfull hlegal hp hn).adds hplanted.adds
  rw [← hcontent] at hregular hnamed
  obtain ⟨copied, s', hrun, hfills⟩ := mergeNames_fills hplanted.adds.wellFormed hregular hnamed
    ⟨hplanted.low_le q hq, hplanted.lt_size q hq⟩ hm (fun hinner => Nat.not_lt_of_le hinner.1 hp)
    (Tree.names_spell_paths (s₁.tree q) hnamed) hfilling
    (.of_planted hs hplanted fun _ _ => False) (List.nil_append _).symm nofun
  refine ⟨hplanted, hcontent, copied, s', hrun, hfills.filling hnamed hfilling, hfills.settled, ?_⟩
  intro r front key hr hunique hfree
  refine hfills.copied hnamed hfilling hr hunique (Or.inl ?_)
  rw [hplanted.adds.entries_eq hr]
  exact hfree

/-- A name with a default is not missing after the defaults of a dictionary have been merged into a
policy, if each policy on the way to it is alone in its array and under no other name, and if the
default is among those that are extracted wherever the policy holds something above it. -/
theorem mergeDefaults_supplies_required (hs : s.WellFormed) (hfull : s.Full) (hlegal : s.Legal)
    (hp : p.id < s.size) {n : Nat} (hn : s.Within n p) (hd : s.Bears d.entries)
    (hapart : ∀ c ∈ d.entries.flatMap fun row => row.2.children, s.Disjoint p c)
    (hexplicit : (s.schema d).Explicit) (hdefaults : ofDefaults d false none s = .ok (q, none) s₁) :
    ∃ copied report s',
      p.mergeDefaults (.dictionary d) true (some .empty) s = .ok (copied, some report) s' ∧
      ∀ name definition, (s.schema d).lookup name = .ok definition → definition.default ≠ none →
        (∀ left right, name = left ++ "." ++ right → ∀ children,
          s.find? p left = some (.policies children) →
          ∃ c, children = [c] ∧ ∀ other, s.policy? p other = some c → other = left) →
        (∀ left key, name = left ++ "." ++ key → '.' ∉ key.toList → s.policy? p left ≠ none →
          s₁.exists? q name = true) →
        (report.codeAt name).contains .missingRequired = false := by
  obtain ⟨hclean, hplant⟩ := of_ofDefaults hdefaults
  obtain ⟨hplanted, hcontent, copied, s', hrun, hfilled⟩ :=
    mergeNames_defaults hs hfull hlegal hp hn hplant
  have hp' := hp.trans_le hfilled.size_le
  refine ⟨copied, _, _, mergeDefaults_dictionary hclean hplant hrun hp' .empty, ?_⟩
  intro name definition hlookup hdefault hsingle hheld
  rw [Report.empty_absorb, hfilled.schema_setDictionary hs hd hapart]
  obtain ⟨path, hpath, _⟩ := Except.bind_eq_ok hlookup
  have hleads := (Schema.lookup_eq_ok_iff hpath).mp hlookup
  have hsegments : ∀ segment ∈ path, Name.segments segment = .ok [segment] :=
    fun _ => Name.segments_of_mem hpath
  have hsupplied : s.Supplied p (s₁.content q) path := by
    refine Store.supplied_of_names hlegal hn hpath hsingle (fun left key hsplit hkey hleft => ?_)
      fun key hkey => ?_
    · have hq := List.mem_singleton_self q
      obtain ⟨m, hm⟩ := hplanted.forest.founded q hq
      have hexists := hheld left key hsplit hkey hleft
      rw [Store.exists?_eq hplanted.adds.wellFormed (hplanted.lt_size q hq) hm hpath] at hexists
      obtain ⟨vs, hvs⟩ := Option.isSome_iff_exists.mp hexists
      exact Content.mem_paths_of_find? hvs
    · subst hkey
      cases hleads with
      | last hdefines =>
        obtain ⟨values, hvalues⟩ := Option.ne_none_iff_exists'.mp hdefault
        have hdefined := hexplicit.mem_definedNames (hsegments key List.mem_cons_self) hdefines
        rw [hcontent]
        exact Content.mem_paths_of_mem_rows (Tree.mem_rows_content (t := .fresh _)
          (hclean.mem_defaults hdefined hdefines hvalues))
  refine Code.contains_eq_false_of_le_allBut rfl (Report.codeAt_record_le_iff.mpr ⟨bot_le, ?_⟩)
  refine Schema.findings_le_of_blames_le fun code hblames => ?_
  -- A missing name is missed at its path; no other blame has the bit of missing names.
  obtain rfl | hle := hblames.eq_or_le
  · have hsame : ((s'.setDictionary p d).tree p).content = s'.content p :=
      Store.content_setDictionary s' p p d
    obtain ⟨path', hpath', hmisses⟩ := Schema.misses_of_blames hblames (hlegal.named_schema d)
      (hsame ▸ Store.named_of_reaches hfilled.legal)
      (hsame ▸ hfilled.toWellFormed.regular_content hfilled.full p) rfl
    cases hpath.symm.trans hpath'
    rw [hsame] at hmisses
    have hsource : ¬(s.schema d).Misses (s₁.content q) path := by
      rw [hcontent]
      exact hclean.not_misses hleads hdefault hexplicit hsegments
    exact (hfilled.not_misses_below hs hsupplied hsource hmisses (List.nil_append _).symm (.here _)
      (.here p) (fun other hway => hway.eq_nil hn) rfl).elim
  · exact hle

/-- A block that is there, and a default below it that is not. -/
theorem mergeDefaults_supplies_required_block :
    let s : Store := ⟨#[{ entries := [("a", .policies [⟨1⟩])] },
      { entries := [("dictionary", .policies [⟨2⟩]), ("type", .strings ["Policy"])] },
      { entries := [("definitions", .policies [⟨3⟩])] }, { entries := [("b", .policies [⟨4⟩])] },
      { entries := [("default", .ints [5]), ("minOccurs", .ints [1]), ("type", .strings ["int"])] },
      { entries := [("a", .policies [⟨6⟩])] }, {}]⟩
    ∃ copied report s', (⟨5⟩ : Policy).mergeDefaults
        (.dictionary ⟨[("definitions", .policies [⟨0⟩])]⟩) true (some .empty) s =
          .ok (copied, some report) s' ∧
      (report.codeAt "a.b").contains .missingRequired = false := by
  intro s
  let d : Dictionary := ⟨[("definitions", .policies [⟨0⟩])]⟩
  let inner := s.schema ⟨s.entries ⟨2⟩⟩
  have hs : s.WellFormed := .of_lt (by decide) (by decide)
  have htarget : s.Within 2 ⟨5⟩ := by decide
  have hdictionary : s.Within 5 ⟨0⟩ := by decide
  have hforest : s.Forest [⟨5⟩, ⟨0⟩] := by
    refine .of_held_once (fun p hp => ⟨5, ?_⟩) (by decide) (by decide) (by decide) (by decide)
    rcases List.mem_pair.mp hp with rfl | rfl
    · exact htarget.mono (by decide)
    · exact hdictionary
  have hd : s.Bears d.entries := ⟨by decide, fun c hc => by
    cases List.mem_singleton.mp hc
    exact ⟨5, hdictionary⟩⟩
  have htop : (s.schema d).childBlock? = none ∧ (s.schema d).definedNames = ["a"] ∧
      (s.schema d).definition? "a" =
        some (.ok { name := "a", kind := some .policy, sub := .inline inner }) := by
    refine ⟨?_, ?_, ?_⟩ <;> cbv
  have hinner : inner.childBlock? = none ∧ inner.definedNames = ["b"] ∧
      inner.definition? "b" = some (.ok
        { name := "b", kind := some .int, minOccurs := 1, default := some (.ints [5]) }) := by
    refine ⟨?_, ?_, ?_⟩ <;> cbv
  have hexplicit : (s.schema d).Explicit := by
    refine .of_single htop.1 htop.2.1 htop.2.2 fun _ hsub => ?_
    cases hsub
    exact .of_single hinner.1 hinner.2.1 hinner.2.2 fun _ hsub => by cases hsub
  have hpath : Name.segments "a.b" = .ok ["a", "b"] := by
    cbv
  have hlookup : (s.schema d).lookup "a.b" = .ok
      { name := "b", kind := some .int, minOccurs := 1, default := some (.ints [5]) } :=
    (Schema.lookup_eq_ok_iff hpath).mpr <|
      .step (Schema.definition?_eq_ok_iff.mp htop.2.2) rfl
        (.last (Schema.definition?_eq_ok_iff.mp hinner.2.2))
  have hdefaults : ofDefaults d false none s = .ok (⟨8⟩, none) ⟨s.nodes ++
      #[{ entries := [("b", .ints [5])] }, { entries := [("a", .policies [⟨7⟩])] }]⟩ := by
    have hall : (s.schema d).defaults =
        ⟨[("a", .policies [.fresh [("b", .ints [5])]])], []⟩ := by
      rw [Schema.defaults_of_single htop.2.1, Schema.defaultOf, htop.2.2]
      simp only [Schema.defaults_of_single hinner.2.1, Schema.defaultOf, hinner.2.2]
      cbv
    have hsettle : settle (s.schema d).defaults.findings none = .ok none := by
      rw [hall]
      rfl
    rw [ofDefaults_eq hsettle, hall]
    rfl
  have hrow (key : String) (vs : Values Policy) (hget : Table.get? key (s.entries ⟨5⟩) = some vs) :
      key = "a" ∧ vs = .policies [⟨6⟩] := by
    have hmem : (key, vs) ∈ [("a", Values.policies [(⟨6⟩ : Policy)])] := Table.mem_of_get? hget
    simpa using hmem
  -- The block is the only policy below the one that is completed, and has the name of its row.
  have hblock : ∀ other, s.policy? ⟨5⟩ other = some ⟨6⟩ → other = "a" := by
    intro other hother
    unfold Store.policy? Entries.policy? at hother
    split at hother
    · rename_i children hfind
      obtain ⟨front, key, r, hsegments, hway, hget⟩ := Store.way_of_find? hfind
      cases hway with
      | here => exact (Name.eq_of_segments hsegments).trans (hrow key _ hget).1
      | step hfirst hlast hway =>
        cases (hrow _ _ hfirst).2
        cases hlast
        cases hway with
        | here => cases hget
        | step hnext => cases hnext
    · cases hother
  obtain ⟨copied, report, s', hrun, hreport⟩ := mergeDefaults_supplies_required hs (.of_lt (by decide))
    (.of_lt (by decide +kernel)) (by decide) htarget hd (fun c hc => by
      cases List.mem_singleton.mp hc
      exact (List.pairwise_cons.mp hforest.disjoint).1 ⟨0⟩ (List.mem_singleton_self _))
    hexplicit hdefaults
  refine ⟨copied, report, s', hrun, hreport "a.b" _ hlookup (Option.some_ne_none _) ?_
    fun _ _ _ _ _ => by cbv⟩
  intro left right hname children hchildren
  obtain rfl : left = "a" := by
    rw [hname] at hpath
    obtain ⟨front, back, hfront, hback, hparts⟩ := Name.segments_concat_iff.mp hpath
    obtain ⟨first, front, rfl⟩ := List.exists_cons_of_ne_nil (Name.segments_ne_nil hfront)
    obtain ⟨last, back, rfl⟩ := List.exists_cons_of_ne_nil (Name.segments_ne_nil hback)
    cases front with
    | nil =>
      cases hparts
      exact Name.eq_of_segments hfront
    | cons next front => simp at hparts
  have hfound : s.find? ⟨5⟩ "a" = some (.policies [⟨6⟩]) := by
    cbv
  cases hfound.symm.trans hchildren
  exact ⟨⟨6⟩, rfl, hblock⟩

/-- Only the last of two blocks under a name is completed, and both are validated. -/
theorem mergeDefaults_leaves_default_missing : ∃ d s p s₁ q s₂ copied report s₃ definition,
    Dictionary.ofText ("definitions: \x7b\na: \x7b\ndictionary: \x7b\ndefinitions: \x7b\n" ++
        "b: \x7b\nminOccurs: 1\ndefault: 5\n\x7d\n\x7d\n\x7d\n\x7d\n\x7d") .empty = .ok d s ∧
      ofText true "a: \x7b\n\x7d\na: \x7b\n\x7d" s = .ok p s₁ ∧ (s₁.schema d).Explicit ∧
      ofDefaults d false none s₁ = .ok (q, none) s₂ ∧
      p.mergeDefaults (.dictionary d) true (some .empty) s₁ = .ok (copied, some report) s₃ ∧
      (s₁.schema d).lookup "a.b" = .ok definition ∧ definition.default = some (.ints [5]) ∧
      report.codeAt "a.b" = .missingRequired := by
  let read : List Node := [{ entries := [("definitions", .policies [⟨1⟩])] },
    { entries := [("a", .policies [⟨2⟩])] }, { entries := [("dictionary", .policies [⟨3⟩])] },
    { entries := [("definitions", .policies [⟨4⟩])] }, { entries := [("b", .policies [⟨5⟩])] },
    { entries := [("default", .ints [5]), ("minOccurs", .ints [1])] }]
  let blocks : Node := { entries := [("a", .policies [⟨7⟩, ⟨8⟩])] }
  let filled : Node := { entries := [("b", .ints [5])] }
  let extracted : List Node := [filled, { entries := [("a", .policies [⟨9⟩])] }]
  let d : Dictionary := ⟨[("definitions", .policies [⟨1⟩])]⟩
  let s₁ : Store := ⟨⟨read ++ [blocks, {}, {}]⟩⟩
  let s₂ : Store := ⟨⟨read ++ [blocks, {}, {}] ++ extracted⟩⟩
  let s₃ : Store := ⟨⟨read ++ [blocks, {}, filled] ++ extracted⟩⟩
  let inner := s₁.schema ⟨s₁.entries ⟨3⟩⟩
  have htop : (s₁.schema d).childBlock? = none ∧ (s₁.schema d).definedNames = ["a"] ∧
      (s₁.schema d).definition? "a" = some (.ok { name := "a", sub := .inline inner }) := by
    refine ⟨?_, ?_, ?_⟩ <;> cbv
  have hinner : inner.childBlock? = none ∧ inner.definedNames = ["b"] ∧
      inner.definition? "b" = some (.ok
        { name := "b", minOccurs := 1, default := some (.ints [5]) }) := by
    refine ⟨?_, ?_, ?_⟩ <;> cbv
  have hdefaults : (s₁.schema d).defaults =
      ⟨[("a", .policies [.fresh [("b", .ints [5])]])], []⟩ := by
    rw [Schema.defaults_of_single htop.2.1, Schema.defaultOf, htop.2.2]
    simp only [Schema.defaults_of_single hinner.2.1, Schema.defaultOf, hinner.2.2]
    cbv
  have hextract : ofDefaults d false none s₁ = .ok (⟨10⟩, none) s₂ := by
    have hsettle : settle (s₁.schema d).defaults.findings none = .ok none := by
      rw [hdefaults]
      rfl
    rw [ofDefaults_eq hsettle, hdefaults]
    rfl
  obtain ⟨hclean, hplant⟩ := of_ofDefaults hextract
  have hrun : (⟨6⟩ : Policy).mergeNames ⟨10⟩ (s₂.names ⟨10⟩ .all false) s₂ = .ok 1 s₃ := by
    cbv
  have hpath : Name.segments "a.b" = .ok ["a", "b"] := by
    cbv
  have hlookup : (s₁.schema d).lookup "a.b" = .ok
      { name := "b", minOccurs := 1, default := some (.ints [5]) } :=
    (Schema.lookup_eq_ok_iff hpath).mpr <|
      .step (Schema.definition?_eq_ok_iff.mp htop.2.2) rfl
        (.last (Schema.definition?_eq_ok_iff.mp hinner.2.2))
  refine ⟨d, ⟨⟨read⟩⟩, ⟨6⟩, s₁, ⟨10⟩, s₂, 1, _, _, _, ?_, ?_, ?_, hextract,
    mergeDefaults_dictionary hclean hplant hrun (by decide) .empty, hlookup, rfl, ?_⟩
  · cbv
  · cbv
  · refine .of_single htop.1 htop.2.1 htop.2.2 fun _ hsub => ?_
    cases hsub
    exact .of_single hinner.1 hinner.2.1 hinner.2.2 fun _ hsub => by cases hsub
  · cbv

end Policy

end PolicyStore
