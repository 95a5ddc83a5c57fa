import PolicyStore.Proofs.Store.Copying

set_option autoImplicit false

namespace PolicyStore

/-!
# Trees put below a tree

New trees are put under a free key of a policy that is part of a tree. It stays a tree, and holds
more at one place only.
-/

namespace Store

/-- The store with an array under a key of a policy. -/
def link (s : Store) (owner : Policy) (key : String) (vs : Values Policy) : Store :=
  s.setEntries owner (Table.insert key vs (s.entries owner))

/-- The key holds no policies, its policy is part of trees, and the array holds trees apart from
these. -/
structure Linkable (s : Store) (ps : List Policy) (owner : Policy) (key : String)
    (vs : Values Policy) : Prop extends s.WellFormed where
  lt_size : ∀ c ∈ vs.children, c.id < s.size
  owner_lt : owner.id < s.size
  childless : ∀ old, Table.get? key (s.entries owner) = some old → old.children = []
  forest : s.Forest (ps ++ vs.children)
  reached : ∃ p ∈ ps, s.Reaches p owner

variable {s : Store} {ps : List Policy} {owner p q r : Policy} {key : String} {vs : Values Policy}

@[simp] theorem size_link (s : Store) (owner : Policy) (key : String) (vs : Values Policy) :
    (s.link owner key vs).size = s.size :=
  size_setEntries _ _ _

theorem not_reaches_below (q : Policy) (hq : ¬s.Reaches q p) (c : Policy) (hc : c ∈ s.below q) :
    ¬s.Reaches c p :=
  fun hreach => hq (hreach.head hc)

theorem entries_setEntries_of_not_reaches (rows : Entries Policy) (hq : ¬s.Reaches q p) :
    (s.setEntries p rows).entries q = s.entries q := by
  apply entries_setEntries_of_ne
  rintro rfl
  exact hq .refl

theorem get?_link (howner : owner.id < s.size) : Table.get? key ((s.link owner key vs).entries owner) =
    some vs := by
  rw [link, entries_setEntries_self howner, Table.get?_insert_self]

theorem get?_link_of_ne (howner : owner.id < s.size) {other : String}
    (hne : ¬(r = owner ∧ other = key)) : Table.get? other ((s.link owner key vs).entries r) =
      Table.get? other (s.entries r) := by
  by_cases hr : r = owner
  · subst hr
    rw [link, entries_setEntries_self howner,
      Table.get?_insert_of_ne fun hother => hne ⟨rfl, hother⟩]
  · rw [link, entries_setEntries_of_ne hr]

theorem mem_below_link (howner : owner.id < s.size) (hq : q ∈ (s.link owner key vs).below p) :
    q ∈ s.below p ∨ p = owner ∧ q ∈ vs.children := by
  by_cases hp : p = owner
  · subst hp
    rw [below, link, entries_setEntries_self howner] at hq
    obtain ⟨row, hrow, hq⟩ := List.mem_flatMap.mp hq
    rcases Table.mem_of_mem_insert hrow with rfl | hrow
    · exact Or.inr ⟨rfl, hq⟩
    · exact Or.inl (List.mem_flatMap.mpr ⟨row, hrow, hq⟩)
  · rw [below, link, entries_setEntries_of_ne hp] at hq
    exact Or.inl hq

/-- What can be reached after an array has been put could be reached before, or out of the array. -/
theorem reaches_link_cases (howner : owner.id < s.size) (hq : (s.link owner key vs).Reaches p q) :
    s.Reaches p q ∨ s.Reaches p owner ∧ ∃ c ∈ vs.children, s.Reaches c q := by
  induction hq with
  | refl => exact Or.inl .refl
  | @tail b d _ hstep ih =>
    rcases mem_below_link howner hstep with hstep | ⟨rfl, hd⟩
    · rcases ih with ih | ⟨howner, c, hc, hreach⟩
      · exact Or.inl (ih.tail hstep)
      · exact Or.inr ⟨howner, c, hc, hreach.tail hstep⟩
    · rcases ih with ih | ⟨howner, _⟩
      · exact Or.inr ⟨ih, d, hd, .refl⟩
      · exact Or.inr ⟨howner, d, hd, .refl⟩

namespace Linkable

variable (h : s.Linkable ps owner key vs)

include h

/-! ## What is below a policy -/

theorem entries_self : (s.link owner key vs).entries owner =
    Table.insert key vs (s.entries owner) :=
  entries_setEntries_self h.owner_lt _

omit h in
theorem entries_of_ne (hq : q ≠ owner) : (s.link owner key vs).entries q = s.entries q :=
  entries_setEntries_of_ne hq _ _

theorem below_self : ((s.link owner key vs).below owner).Perm (vs.children ++ s.below owner) := by
  rw [below, h.entries_self]
  exact Table.flatMap_insert_perm h.childless vs

omit h in
theorem below_of_ne (hq : q ≠ owner) : (s.link owner key vs).below q = s.below q :=
  below_congr (entries_of_ne hq)

theorem mem_below_iff : p ∈ (s.link owner key vs).below q ↔
    p ∈ s.below q ∨ q = owner ∧ p ∈ vs.children := by
  by_cases hq : q = owner
  · rw [hq, h.below_self.mem_iff, List.mem_append]
    simp [or_comm]
  · rw [below_of_ne hq]
    simp [hq]

theorem reaches_of_reaches (hq : s.Reaches p q) : (s.link owner key vs).Reaches p q := by
  induction hq with
  | refl => exact .refl
  | tail _ hstep ih => exact ih.tail (h.mem_below_iff.mpr (Or.inl hstep))

theorem reaches_cases (hq : (s.link owner key vs).Reaches p q) :
    s.Reaches p q ∨ s.Reaches p owner ∧ ∃ c ∈ vs.children, s.Reaches c q :=
  reaches_link_cases h.owner_lt hq

theorem not_reaches_owner {c : Policy} (hc : c ∈ vs.children) : ¬s.Reaches c owner := by
  obtain ⟨p, hp, hreach⟩ := h.reached
  have hdisjoint := (forest_append_iff.mp h.forest).2.2 p hp c hc
  exact hdisjoint owner hreach

/-- Below a policy that does not lead to the owner nothing happens. -/
theorem reaches_iff_of_not_reaches (hp : ¬s.Reaches p owner) :
    (s.link owner key vs).Reaches p q ↔ s.Reaches p q :=
  ⟨fun hq => (h.reaches_cases hq).resolve_right fun hq => hp hq.1, h.reaches_of_reaches⟩

omit h in
theorem entries_of_not_reaches (hq : ¬s.Reaches q owner) :
    (s.link owner key vs).entries q = s.entries q :=
  entries_setEntries_of_not_reaches _ hq

omit h in
theorem content_of_not_reaches (hq : ¬s.Reaches q owner) :
    (s.link owner key vs).content q = s.content q := by
  rw [content_eq, content_eq, size_link]
  exact contentTo_congr not_reaches_below (fun _ => entries_of_not_reaches) hq

/-! ## Trees -/

theorem exists_within {n : Nat} (hn : s.Within n p) : ∃ n, (s.link owner key vs).Within n p := by
  have hchildren : ∀ c ∈ vs.children, ∃ n, (s.link owner key vs).Within n c := by
    intro c hc
    obtain ⟨n, hn⟩ := (forest_append_iff.mp h.forest).2.1.founded c hc
    exact ⟨n, within_congr not_reaches_below (fun _ => entries_of_not_reaches)
      (h.not_reaches_owner hc) hn⟩
  obtain ⟨k, hk⟩ := exists_within_of_forall hchildren
  refine ⟨n + k, within_of_links (fun a c hc => ?_) hn⟩
  exact (h.mem_below_iff.mp hc).imp_right fun hc => hk c hc.2

theorem disjoint_of_not_reaches (hp : ¬s.Reaches p owner) (hq : ¬s.Reaches q owner)
    (hpq : s.Disjoint p q) : (s.link owner key vs).Disjoint p q :=
  fun r hr hr' => hpq r ((h.reaches_iff_of_not_reaches hp).mp hr)
    ((h.reaches_iff_of_not_reaches hq).mp hr')

theorem disjoint (hpq : s.Disjoint p q) (hp : ∀ c ∈ vs.children, s.Disjoint p c)
    (hq : ∀ c ∈ vs.children, s.Disjoint q c) : (s.link owner key vs).Disjoint p q := by
  intro r hr hr'
  rcases h.reaches_cases hr with hr | ⟨howner, c, hc, hcr⟩
  · rcases h.reaches_cases hr' with hr' | ⟨_, c, hc, hcr⟩
    · exact hpq r hr hr'
    · exact hp c hc r hr hcr
  · rcases h.reaches_cases hr' with hr' | ⟨howner', _⟩
    · exact hq c hc r hr' hcr
    · exact hpq owner howner howner'

theorem branches_self (hp : p ∈ ps) (hreach : s.Reaches p owner) :
    ((s.link owner key vs).below owner).Pairwise (s.link owner key vs).Disjoint := by
  obtain ⟨htrees, hnew, hcross⟩ := forest_append_iff.mp h.forest
  obtain ⟨n, hn⟩ := htrees.founded p hp
  have hback {c : Policy} (hc : c ∈ s.below owner) : ¬s.Reaches c owner :=
    (hn.of_reaches hreach).not_reaches hc
  refine h.below_self.pairwise_iff (fun hab => hab.symm) |>.mpr ?_
  refine List.pairwise_append.mpr ⟨?_, ?_, fun a ha b hb => ?_⟩
  · exact hnew.disjoint.imp_of_mem fun ha hb =>
      h.disjoint_of_not_reaches (h.not_reaches_owner ha) (h.not_reaches_owner hb)
  · exact (htrees.branches p hp owner hreach).imp_of_mem fun ha hb =>
      h.disjoint_of_not_reaches (hback ha) (hback hb)
  · exact h.disjoint_of_not_reaches (h.not_reaches_owner ha) (hback hb)
      ((hcross p hp a ha).of_reaches (hreach.tail hb) .refl).symm

theorem forest_link : (s.link owner key vs).Forest ps := by
  obtain ⟨htrees, hnew, hcross⟩ := forest_append_iff.mp h.forest
  refine ⟨fun p hp => ?_, ?_, fun p hp q hq => ?_⟩
  · obtain ⟨n, hn⟩ := htrees.founded p hp
    exact h.exists_within hn
  · exact htrees.disjoint.imp_of_mem fun ha hb hab => h.disjoint hab (hcross _ ha) (hcross _ hb)
  · by_cases howner : q = owner
    · subst howner
      rcases h.reaches_cases hq with hq | ⟨hreach, _⟩
      · exact h.branches_self hp hq
      · exact h.branches_self hp hreach
    · rw [below_of_ne howner]
      -- A policy that was below one of the trees, or one below the policies that were put there.
      rcases h.reaches_cases hq with hq | ⟨_, c, hc, hcq⟩
      · have hapart {a : Policy} (ha : a ∈ s.below q) (c) (hc : c ∈ vs.children) : s.Disjoint a c :=
          (hcross p hp c hc).of_reaches (hq.tail ha) .refl
        exact (htrees.branches p hp q hq).imp_of_mem fun ha hb hab =>
          h.disjoint hab (hapart ha) (hapart hb)
      · have haway {a : Policy} (ha : a ∈ s.below q) : ¬s.Reaches a owner := fun hback =>
          h.not_reaches_owner hc ((hcq.tail ha).trans hback)
        exact (hnew.branches c hc q hcq).imp_of_mem fun ha hb =>
          h.disjoint_of_not_reaches (haway ha) (haway hb)

/-! ## Contents -/

theorem wellFormed_link : (s.link owner key vs).WellFormed := by
  refine h.toWellFormed.setEntries (Table.sorted_insert (h.sorted owner) _ _) fun c hc => ?_
  obtain ⟨row, hrow, hc⟩ := List.mem_flatMap.mp hc
  rcases Table.mem_of_mem_insert hrow with rfl | hrow
  · exact h.lt_size c hc
  · exact h.closed owner c (List.mem_flatMap.mpr ⟨row, hrow, hc⟩)

theorem content_self : (s.link owner key vs).content owner =
    .node (Table.insert key (vs.map s.content) (s.content owner).rows) := by
  obtain ⟨p, hp, hreach⟩ := h.reached
  obtain ⟨n, hn⟩ := (forest_append_iff.mp h.forest).1.founded p hp
  have hn := hn.of_reaches hreach
  obtain ⟨m, hm⟩ := h.exists_within hn
  have hlt : owner.id < (s.link owner key vs).size := by
    rw [size_link]
    exact h.owner_lt
  rw [h.wellFormed_link.content_eq_node hlt hm, h.entries_self, Table.map_insert,
    h.toWellFormed.content_eq_node h.owner_lt hn, Content.rows_node]
  have hvs : vs.map (s.link owner key vs).content = vs.map s.content :=
    Values.map_congr fun c hc => content_of_not_reaches (h.not_reaches_owner hc)
  have hrows : ((s.entries owner).map fun row => (row.1, row.2.map (s.link owner key vs).content)) =
      (s.entries owner).map fun row => (row.1, row.2.map s.content) := by
    refine List.map_congr_left fun row hrow => ?_
    refine congrArg (Prod.mk row.1) (Values.map_congr fun c hc => ?_)
    exact content_of_not_reaches (hn.not_reaches (List.mem_flatMap.mpr ⟨row, hrow, hc⟩))
  rw [hvs, hrows]

end Linkable

/-- New trees can be put below trees that were there before. -/
theorem Planted.linkable {s' : Store} (h : Planted s s' vs.children) (hs : s.WellFormed)
    (hlt : ∀ p ∈ ps, p.id < s.size) (hforest : s.Forest ps) (hp : p ∈ ps) (howner : s.Reaches p owner)
    (hchildless : ∀ old, Table.get? key (s.entries owner) = some old → old.children = []) :
    s'.Linkable ps owner key vs where
  toWellFormed := h.adds.wellFormed
  lt_size := h.lt_size
  owner_lt := (hs.lt_of_reaches (hlt p hp) howner).trans_le h.adds.size_le
  childless old hold := by
    rw [h.adds.entries_eq (hs.lt_of_reaches (hlt p hp) howner)] at hold
    exact hchildless old hold
  forest := forest_append_iff.mpr ⟨h.adds.forest hs hlt hforest, h.forest, fun a ha c hc =>
    h.adds.disjoint hs (hlt a ha) (h.low_le c hc)⟩
  reached := ⟨p, hp, (h.adds.reaches_iff hs (hlt p hp)).mpr howner⟩

/-! ## Attaching a dictionary -/

theorem node_setDictionary_of_ne (h : r ≠ p) (s : Store) (d : Dictionary) :
    (s.setDictionary p d).node r = s.node r :=
  node_modify_of_ne h _ _

@[simp] theorem size_setDictionary (s : Store) (p : Policy) (d : Dictionary) :
    (s.setDictionary p d).size = s.size :=
  size_modify _ _ _

theorem dictionary?_setDictionary_self (h : p.id < s.size) (d : Dictionary) :
    (s.setDictionary p d).dictionary? p = some d := by
  rw [dictionary?, setDictionary, node_modify_self h]

@[simp] theorem entries_setDictionary (s : Store) (p r : Policy) (d : Dictionary) :
    (s.setDictionary p d).entries r = s.entries r := by
  by_cases h : r = p
  · subst h
    by_cases hr : r.id < s.size
    · rw [entries, setDictionary, node_modify_self hr, entries]
    · have hr' := Nat.le_of_not_lt hr
      rw [entries_of_size_le hr', entries_of_size_le (by rwa [size_setDictionary])]
  · rw [entries, node_setDictionary_of_ne h, entries]

theorem wellFormed_setDictionary (hs : s.WellFormed) (p : Policy) (d : Dictionary) :
    (s.setDictionary p d).WellFormed where
  sorted r := by
    rw [entries_setDictionary]
    exact hs.sorted r
  closed r c hc := by
    rw [below_congr (entries_setDictionary s p r d)] at hc
    rw [size_setDictionary]
    exact hs.closed r c hc

theorem content_setDictionary (s : Store) (p r : Policy) (d : Dictionary) :
    (s.setDictionary p d).content r = s.content r := by
  rw [content_eq, content_eq, size_setDictionary]
  exact contentTo_congr (P := fun _ => True) (fun _ _ _ _ => trivial)
    (fun q _ => entries_setDictionary s p q d) trivial

end Store

end PolicyStore
