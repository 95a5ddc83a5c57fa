import Mathlib
import PolicyStore.Merge
import PolicyStore.Proofs.Merge.Names
import PolicyStore.Proofs.Merge.Places

set_option autoImplicit false

namespace PolicyStore

/-!
# Merging policies

Names that are missing are copied one after the other. Each copy is a step on the content of the
policy that is completed, and all of them together are the merging of contents by recursion. Nothing
that was there is changed, and nothing is shared.
-/

namespace Store

variable {s s' s'' : Store} {p q : Policy} {m n : Nat}

/-- The source shares nothing with the target, both are trees, and the source has legal names. -/
structure Mergeable (s : Store) (p q : Policy) : Prop extends s.WellFormed where
  full : s.Full
  target_lt : p.id < s.size
  source_lt : q.id < s.size
  forest : s.Forest [p, q]
  named : (s.content q).Named

/-- The target has been given a number of arrays at free places. -/
structure Merged (p q : Policy) (s : Store) (n : Nat) (s' : Store) : Prop where
  mergeable : s'.Mergeable p q
  size_le : s.size ≤ s'.size
  source : s'.content q = s.content q
  rows : ∀ r : Policy, r.id < s.size → ∀ key vs, Table.get? key (s.entries r) = some vs →
    Table.get? key (s'.entries r) = some vs
  frame : ∀ r : Policy, r.id < s.size → ¬s.Reaches p r → s'.node r = s.node r
  reaches : ∀ r : Policy, r.id < s.size → s'.Reaches p r → s.Reaches p r
  dictionary : ∀ r : Policy, r.id < s.size → s'.dictionary? r = s.dictionary? r
  idle : n = 0 → ∀ r : Policy, r.id < s.size → s'.node r = s.node r

namespace Mergeable

variable (h : s.Mergeable p q)

include h

theorem target_tree : s.Forest [p] := h.forest.of_mem List.mem_cons_self

theorem source_tree : s.Forest [q] := h.forest.of_mem (List.mem_cons_of_mem _ List.mem_cons_self)

theorem lt_size (r : Policy) (hr : r ∈ [p, q]) : r.id < s.size := by
  rcases List.mem_cons.mp hr with rfl | hr
  · exact h.target_lt
  · rw [List.mem_singleton.mp hr]
    exact h.source_lt

theorem disjoint : s.Disjoint p q :=
  (List.pairwise_cons.mp h.forest.disjoint).1 q List.mem_cons_self

theorem adds (hadds : s.Adds s') : s'.Mergeable p q where
  toWellFormed := hadds.wellFormed
  full := Extends.full hadds h.full
  target_lt := h.target_lt.trans_le hadds.size_le
  source_lt := h.source_lt.trans_le hadds.size_le
  forest := hadds.forest h.toWellFormed h.lt_size h.forest
  named := by
    obtain ⟨n, hn⟩ := h.source_tree.founded q List.mem_cons_self
    rw [hadds.content_eq h.toWellFormed h.source_lt hn]
    exact h.named

theorem merged_of_adds (hadds : s.Adds s') (n : Nat) : Merged p q s n s' where
  mergeable := h.adds hadds
  size_le := hadds.size_le
  source := by
    obtain ⟨n, hn⟩ := h.source_tree.founded q List.mem_cons_self
    exact hadds.content_eq h.toWellFormed h.source_lt hn
  rows r hr key vs hget := by
    rw [hadds.entries_eq hr]
    exact hget
  frame r hr _ := hadds.frame r hr id
  reaches r _ hreach := (hadds.reaches_iff h.toWellFormed h.target_lt).mp hreach
  dictionary := hadds.dictionary
  idle _ r hr := hadds.frame r hr id

end Mergeable

theorem Merged.trans (h : Merged p q s m s') (h' : Merged p q s' n s'') :
    Merged p q s (m + n) s'' where
  mergeable := h'.mergeable
  size_le := h.size_le.trans h'.size_le
  source := h'.source.trans h.source
  rows r hr key vs hget := h'.rows r (hr.trans_le h.size_le) key vs (h.rows r hr key vs hget)
  frame r hr hreach := by
    have hreach' : ¬s'.Reaches p r := fun hback => hreach (h.reaches r hr hback)
    rw [h'.frame r (hr.trans_le h.size_le) hreach', h.frame r hr hreach]
  reaches r hr hreach := h.reaches r hr (h'.reaches r (hr.trans_le h.size_le) hreach)
  dictionary r hr := by
    rw [h'.dictionary r (hr.trans_le h.size_le), h.dictionary r hr]
  idle hzero r hr := by
    obtain ⟨hm, hn⟩ := Nat.add_eq_zero_iff.mp hzero
    rw [h'.idle hn r (hr.trans_le h.size_le), h.idle hm r hr]

/-! ## Putting an array -/

section Linking

variable {owner : Policy} {key : String} {vs : Values Policy}

theorem Mergeable.linkable (h : s.Mergeable p q) (hplanted : Planted s s' vs.children)
    (howner : s.Reaches p owner) (hfree : Table.get? key (s.entries owner) = none) :
    s'.Linkable [p, q] owner key vs :=
  hplanted.linkable h.toWellFormed h.lt_size h.forest List.mem_cons_self howner fun old hold => by
    cases hfree.symm.trans hold

theorem Mergeable.content_source_link (h : s.Mergeable p q) (howner : s.Reaches p owner) :
    (s.link owner key vs).content q = s.content q :=
  Linkable.content_of_not_reaches fun hback => h.disjoint owner howner hback

theorem Mergeable.link (h : s.Mergeable p q) (hlink : s.Linkable [p, q] owner key vs)
    (howner : s.Reaches p owner) (hne : vs.isEmpty = false) :
    (s.link owner key vs).Mergeable p q where
  toWellFormed := hlink.wellFormed_link
  full := h.full.setEntries fun row hrow => by
    rcases Table.mem_of_mem_insert hrow with rfl | hrow
    · exact hne
    · exact h.full owner row hrow
  target_lt := by
    rw [size_link]
    exact h.target_lt
  source_lt := by
    rw [size_link]
    exact h.source_lt
  forest := hlink.forest_link
  named := by
    rw [h.content_source_link howner]
    exact h.named

theorem Mergeable.merged_link (h : s.Mergeable p q) (hplanted : Planted s s' vs.children)
    (hne : vs.isEmpty = false) (howner : s.Reaches p owner)
    (hfree : Table.get? key (s.entries owner) = none) :
    Merged p q s 1 (s'.link owner key vs) := by
  have hadds := hplanted.adds
  have hlink := h.linkable hplanted howner hfree
  have hreach : s'.Reaches p owner := (hadds.reaches_iff h.toWellFormed h.target_lt).mpr howner
  exact {
    mergeable := (h.adds hadds).link hlink hreach hne
    size_le := by
      rw [size_link]
      exact hadds.size_le
    source := ((h.adds hadds).content_source_link hreach).trans (h.merged_of_adds hadds 0).source
    rows := fun r hr other ws hget => by
      by_cases heq : r = owner
      · subst heq
        have hother : other ≠ key := by
          rintro rfl
          rw [hfree] at hget
          cases hget
        rw [hlink.entries_self, Table.get?_insert_of_ne hother, hadds.entries_eq hr]
        exact hget
      · rw [Linkable.entries_of_ne heq, hadds.entries_eq hr]
        exact hget
    frame := fun r hr hnot => by
      have hr' : r ≠ owner := by
        rintro rfl
        exact hnot howner
      rw [Store.link, node_setEntries_of_ne hr']
      exact hadds.frame r hr id
    reaches := fun r hr hback => by
      rcases hlink.reaches_cases hback with hback | ⟨_, c, hc, hcr⟩
      · exact (hadds.reaches_iff h.toWellFormed h.target_lt).mp hback
      · exact (Nat.not_lt_of_le (hadds.low_le_of_reaches (hplanted.low_le c hc) hcr) hr).elim
    dictionary := fun r hr => by
      rw [Store.link, dictionary?_setEntries]
      exact hadds.dictionary r hr
    idle := fun hone => by cases hone }

/-- Putting an array of new trees under a name that holds nothing. -/
theorem Mergeable.put (h : s.Mergeable p q) (hplanted : Planted s s' vs.children)
    (hne : vs.isEmpty = false) {name : String} {path : List String}
    (hname : Name.segments name = .ok path) (hpath : path ≠ [])
    (hfind : Content.find? path (s.content p) = none) :
    match s'.put p name vs with
    | .ok s'' => Merged p q s 1 s'' ∧
      Content.put? (vs.map s'.content) path (s.content p) = some (s''.content p)
    | .error e => e.isTypeError = true ∧
      Content.put? (vs.map s'.content) path (s.content p) = none := by
  obtain ⟨n, hn⟩ := h.target_tree.founded p List.mem_cons_self
  have hadds := hplanted.adds
  rw [put_eq_map hname]
  cases hspot : s'.placeFrom name [] p path with
  | error e =>
    have hblocked := put?_of_placeFrom hadds.wellFormed hpath (vs.map s'.content)
      (h.target_lt.trans_le hadds.size_le) (hadds.within h.toWellFormed h.target_lt hn) hspot
    rw [hadds.content_eq h.toWellFormed h.target_lt hn] at hblocked
    exact hblocked
  | ok spot =>
    -- The policies on the way were there before, so the place is the same in all three stores.
    obtain ⟨hnested, hwrap⟩ := planted_nest hplanted hne spot.below
    have hentries (r : Policy) (hr : r.id < s.size) : s.entries r = s'.entries r :=
      (hadds.entries_eq hr).symm
    have hfinds : s.Finds p path spot := by
      refine (finds_of_placeFrom hspot).congr (P := fun r => r.id < s.size) (fun r hr c hc => ?_)
        hentries h.target_lt
      rw [below_congr (hentries r hr).symm] at hc
      exact h.closed r c hc
    have hfinds' : (s'.nest vs spot.below).2.Finds p path spot :=
      hfinds.congr (P := fun r => r.id < s.size) (fun r _ => h.closed r)
        (fun r => hnested.adds.entries_eq) h.target_lt
    have hfree := hfinds.get?_eq_none h.toWellFormed h.target_lt hn hfind
    have hcontent := hfinds'.content_link (h.linkable hnested hfinds.reaches hfree)
      (h.target_lt.trans_le hnested.adds.size_le) (h.adds hnested.adds).target_tree hwrap
    rw [hnested.adds.content_eq h.toWellFormed h.target_lt hn] at hcontent
    have hmerged := h.merged_link hnested (isEmpty_nest hne spot.below) hfinds.reaches hfree
    simp only [Except.map]
    rw [write_eq hne]
    exact ⟨hmerged, hcontent⟩

end Linking

end Store

/-! ## One name -/

namespace Policy

open Store (Mergeable Merged Planted)

variable {s : Store} {p q : Policy} {name : String} {path : List String}

theorem mergeName_of_exists (h : s.exists? p name = true) : p.mergeName q name s = .ok 0 s := by
  simp [mergeName, bind, EStateM.bind, get, getThe, MonadStateOf.get, EStateM.get, h, pure,
    EStateM.pure]

theorem mergeName_of_missing {s₁ : Store} {values copy : Values Policy}
    (h : s.exists? p name = false) (hvalues : s.values q name = .ok values)
    (hcopy : values.deepCopy s = .ok copy s₁) : p.mergeName q name s =
      match s₁.put p name copy with
      | .ok s' => .ok 1 s'
      | .error e => if e.isTypeError then .ok 0 s₁ else .error e s₁ := by
  have hask : StoreM.ask (·.values q name) s = .ok values s := by
    simp only [StoreM.ask, hvalues]
  simp only [mergeName, bind, EStateM.bind, get, getThe, MonadStateOf.get, EStateM.get, h,
    Bool.false_eq_true, if_false, hask, hcopy]
  cases s₁.put p name copy with
  | ok s' => rfl
  | error e =>
    show (if e.isTypeError = true then pure 0 else throw e : StoreM Nat) s₁ =
      if e.isTypeError = true then .ok 0 s₁ else .error e s₁
    split <;> rfl

/-- Copying a name comes to copying its path in the contents. -/
theorem mergeName_meets (h : s.Mergeable p q) (hname : Name.segments name = .ok path)
    {found : Values Content} (hfound : Content.find? path (s.content q) = some found) :
    ∃ s', p.mergeName q name s =
        .ok (Content.mergePath (s.content q) path (s.content p)).2 s' ∧
      Merged p q s (Content.mergePath (s.content q) path (s.content p)).2 s' ∧
      s'.content p = (Content.mergePath (s.content q) path (s.content p)).1 := by
  obtain ⟨n, hn⟩ := h.target_tree.founded p List.mem_cons_self
  obtain ⟨m, hm⟩ := h.source_tree.founded q List.mem_cons_self
  have hexists := Store.exists?_eq h.toWellFormed h.target_lt hn hname
  cases hfind : Content.find? path (s.content p) with
  | some taken =>
    have hpath : Content.mergePath (s.content q) path (s.content p) = (s.content p, 0) := by
      rw [Content.mergePath, hfind]
    rw [hpath]
    rw [hfind] at hexists
    exact ⟨s, mergeName_of_exists hexists, h.merged_of_adds (.refl h.toWellFormed) 0, rfl⟩
  | none =>
    rw [hfind] at hexists
    have hpath : path ≠ [] := by
      rintro rfl
      cases hfound
    obtain ⟨values, hvalues, hcontent, r, key, hreach, hget⟩ :=
      Store.exists_values h.toWellFormed h.source_lt hm hname hfound
    have hmem (c : Policy) (hc : c ∈ values.children) : s.Reaches q c :=
      hreach.tail (Store.mem_below_of_get? hget hc)
    have hold : ∀ c ∈ values.children, c.id < s.size ∧ ∃ n, s.Within n c := fun c hc =>
      ⟨h.toWellFormed.lt_of_reaches h.source_lt (hmem c hc), m, hm.of_reaches (hmem c hc)⟩
    obtain ⟨copy, s₁, hcopy, hplanted, hsame⟩ := Store.deepCopy_planted h.toWellFormed h.full hold
    have hne : copy.isEmpty = false := by
      rw [← Values.isEmpty_map s₁.content, hsame, Values.isEmpty_map]
      exact h.full r _ (Table.mem_of_get? hget)
    -- The copy stays in the store when it cannot be put anywhere, but nothing holds it then.
    have hput := h.put hplanted hne hname hpath hfind
    rw [hsame, hcontent] at hput
    rw [mergeName_of_missing hexists hvalues hcopy, Content.mergePath, hfind, hfound,
      Option.bind_some]
    generalize s₁.put p name copy = result at hput ⊢
    cases result with
    | ok s' =>
      simp only [hput.2]
      exact ⟨s', rfl, hput.1, rfl⟩
    | error e =>
      simp only [hput.1, hput.2, if_true]
      exact ⟨s₁, rfl, h.merged_of_adds hplanted.adds 0,
        hplanted.adds.content_eq h.toWellFormed h.target_lt hn⟩

/-! ## All names -/

theorem mergeNames_meets {names : List String} {paths : List (List String)}
    (hnames : List.Forall₂ Tree.Spells names paths) : ∀ {s : Store}, s.Mergeable p q →
      (∀ path ∈ paths, ∃ found, Content.find? path (s.content q) = some found) →
      ∃ s', p.mergeNames q names s =
          .ok (Content.mergePaths (s.content q) paths (s.content p)).2 s' ∧
        Merged p q s (Content.mergePaths (s.content q) paths (s.content p)).2 s' ∧
        s'.content p = (Content.mergePaths (s.content q) paths (s.content p)).1 := by
  induction hnames with
  | nil => exact fun h _ => ⟨_, rfl, h.merged_of_adds (.refl h.toWellFormed) 0, rfl⟩
  | @cons name path names paths hname _ ih =>
    intro s h hfound
    obtain ⟨found, hfirst⟩ := hfound path List.mem_cons_self
    obtain ⟨s₁, hrun, hmerged, hcontent⟩ := mergeName_meets h hname hfirst
    obtain ⟨s₂, hrest, hmerged', hcontent'⟩ := ih hmerged.mergeable fun other hother => by
      rw [hmerged.source]
      exact hfound other (List.mem_cons_of_mem _ hother)
    rw [hmerged.source, hcontent] at hrest hmerged' hcontent'
    refine ⟨s₂, ?_, hmerged.trans hmerged', hcontent'⟩
    simp only [mergeNames, bind, EStateM.bind, hrun, hrest, pure, EStateM.pure]
    rfl

/-- Copying all names comes to merging the contents. -/
theorem mergeNames_all (h : s.Mergeable p q) :
    ∃ s', p.mergeNames q (s.names q .all false) s =
        .ok (Content.missing (s.content p) (s.content q)) s' ∧
      Merged p q s (Content.missing (s.content p) (s.content q)) s' ∧
      s'.content p = (s.content p).merge (s.content q) := by
  have hsource := h.toWellFormed.regular_content h.full q
  have htarget := h.toWellFormed.regular_content h.full p
  have hspell : List.Forall₂ Tree.Spells (s.names q .all false) (s.content q).paths :=
    Tree.names_spell_paths (s.tree q) h.named
  obtain ⟨s', hrun, hmerged, hcontent⟩ := mergeNames_meets hspell h
    (Content.exists_find?_of_mem_paths hsource)
  rw [Content.mergePaths_paths hsource htarget] at hrun hmerged hcontent
  exact ⟨s', hrun, hmerged, hcontent⟩

theorem mergeDefaults_of_plain {s' : Store} {n : Nat}
    (hrun : p.mergeNames q (s.names q .all false) s = .ok n s')
    (hplain' : s'.dictionary? p = none) (acc : Option Report) :
    p.mergeDefaults (.policy q) false acc s = .ok (n, acc) s' := by
  unfold mergeDefaults
  simp only [bind, EStateM.bind, get, getThe, MonadStateOf.get, EStateM.get, pure, EStateM.pure,
    hrun]
  cases s.dictionary? q <;> simp [EStateM.bind, EStateM.get, hplain', EStateM.pure]

/-- Merging the defaults of a policy is merging the contents of trees. -/
theorem mergeDefaults_merges_trees (h : s.Mergeable p q) (hplain : s.dictionary? p = none)
    (acc : Option Report) :
    ∃ s', p.mergeDefaults (.policy q) false acc s =
        .ok (Content.missing (s.content p) (s.content q), acc) s' ∧
      s'.content p = (s.content p).merge (s.content q) ∧ s'.content q = s.content q ∧
      (∀ r : Policy, r.id < s.size → ∀ key vs, Table.get? key (s.entries r) = some vs →
        Table.get? key (s'.entries r) = some vs) ∧
      s'.Forest [p, q] ∧
      ∃ s'', p.mergeDefaults (.policy q) false acc s' = .ok (0, acc) s'' ∧
        ∀ r : Policy, r.id < s'.size → s''.node r = s'.node r := by
  have hsource := h.toWellFormed.regular_content h.full q
  have htarget := h.toWellFormed.regular_content h.full p
  obtain ⟨s', hrun, hmerged, hcontent⟩ := mergeNames_all h
  obtain ⟨s'', hrun', hmerged', _⟩ := mergeNames_all hmerged.mergeable
  have hzero := (Content.merge_merge hsource htarget).2
  rw [hcontent, hmerged.source, hzero] at hrun' hmerged'
  have hplain' : s'.dictionary? p = none := by
    rw [hmerged.dictionary p h.target_lt, hplain]
  have hplain'' : s''.dictionary? p = none := by
    rw [hmerged'.dictionary p hmerged.mergeable.target_lt, hplain']
  exact ⟨s', mergeDefaults_of_plain hrun hplain' acc, hcontent, hmerged.source, hmerged.rows,
    hmerged.mergeable.forest, s'', mergeDefaults_of_plain hrun' hplain'' acc,
    hmerged'.idle rfl⟩

/-- A name at the top that is taken, and one below that is missing. -/
theorem mergeDefaults_merges_two_trees :
    let s : Store := ⟨#[{ entries := [("a", .ints [10]), ("b", .policies [⟨1⟩])] },
      { entries := [("c", .ints [20])] },
      { entries := [("a", .ints [1]), ("b", .policies [⟨3⟩]), ("e", .policies [⟨4⟩])] },
      { entries := [("c", .ints [2]), ("d", .ints [3])] }, {}]⟩
    ∃ s', (⟨0⟩ : Policy).mergeDefaults (.policy ⟨2⟩) false none s = .ok (2, none) s' ∧
      s'.content ⟨0⟩ = .node [("a", .ints [10]),
        ("b", .policies [.node [("c", .ints [20]), ("d", .ints [3])]]), ("e", .policies [.node []])] ∧
      s'.Forest [⟨0⟩, ⟨2⟩] ∧
      ∃ s'', (⟨0⟩ : Policy).mergeDefaults (.policy ⟨2⟩) false none s' = .ok (0, none) s'' := by
  intro s
  have hs : s.WellFormed := .of_lt (by decide) (by decide)
  have htarget : s.Within 2 ⟨0⟩ := by decide
  have hsource : s.Within 2 ⟨2⟩ := by decide
  have hforest : s.Forest [⟨0⟩, ⟨2⟩] := by
    refine .of_held_once (fun p hp => ⟨2, ?_⟩) (by decide) (by decide) (by decide) (by decide)
    rcases List.mem_pair.mp hp with rfl | rfl
    · exact htarget
    · exact hsource
  have h : s.Mergeable ⟨0⟩ ⟨2⟩ :=
    ⟨hs, .of_lt (by decide), by decide, by decide, hforest,
      Store.Legal.named_tree (.of_lt (by decide)) ⟨2⟩⟩
  obtain ⟨s', hrun, hcontent, _, _, hforest', s'', hrun', _⟩ :=
    mergeDefaults_merges_trees h rfl none
  have hcount : Content.missing (s.content ⟨0⟩) (s.content ⟨2⟩) = 2 := by cbv
  have hmerge : (s.content ⟨0⟩).merge (s.content ⟨2⟩) = .node [("a", .ints [10]),
      ("b", .policies [.node [("c", .ints [20]), ("d", .ints [3])]]),
      ("e", .policies [.node []])] := by
    cbv
  rw [hcount] at hrun
  rw [hmerge] at hcontent
  exact ⟨s', hrun, hcontent, hforest', s'', hrun'⟩

end Policy

end PolicyStore
