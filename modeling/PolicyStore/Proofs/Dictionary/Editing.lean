import PolicyStore.DictionaryFiles
import PolicyStore.Proofs.Include.Editing
import PolicyStore.Proofs.Merge.Editing

set_option autoImplicit false

namespace PolicyStore

/-!
# Dictionaries of a store

The rows of a dictionary and the definitions that are read out of it are those of policies in the
store. This holds of the dictionaries inside definitions as well, and of those that are loaded.
-/

variable {zone : Policy → Prop} {s : Store} {p : Policy}

/-- The rows of a dictionary are as they have to be, and the policies in them have been given out. -/
def Store.Bound (s : Store) (d : Dictionary) : Prop :=
  Entries.Proper d.entries ∧ ∀ c ∈ d.entries.flatMap fun row => row.2.children, c.id < s.size

theorem Store.Bound.mono {s' : Store} {d : Dictionary} (h : s.Bound d) (hle : s.size ≤ s'.size) :
    s'.Bound d :=
  ⟨h.1, fun c hc => (h.2 c hc).trans_le hle⟩

/-- The dictionary that a policy holds has the rows of the policy. -/
theorem Store.Proper.bound (h : s.Proper) (p : Policy) : s.Bound ⟨s.entries p⟩ :=
  ⟨h.rows p, h.closed p⟩

/-! ## Trees -/

/-- The tree is what a policy of the store unfolds to, down to some level. -/
def Tree.Stored (t : Tree) (s : Store) : Prop := ∃ n q, q.id < s.size ∧ t = s.unfold n q

/-- All policies of a schema are those of the store. -/
def Schema.Stored (S : Schema) (s : Store) : Prop :=
  ∀ row ∈ S.entries, ∀ t ∈ row.2.children, t.Stored s

/-- The default of a definition has rows as they have to be, and so has the dictionary inside it,
whose policies are those of the store. -/
structure Definition.Stored (d : Definition) (s : Store) : Prop where
  default : d.Sound
  filled : d.Filled
  schema : ∀ inner, d.sub = .inline inner → inner.Stored s
  bound : ∀ inner, d.sub = .inline inner → s.Bound (Dictionary.ofSchema inner)

namespace Tree.Stored

variable {t : Tree} (h : t.Stored s) (hs : s.Proper)

include h hs

theorem below {row : String × Values Tree} (hrow : row ∈ t.entries) : ∀ c ∈ row.2.children, c.Stored s := by
  intro c hc
  obtain ⟨n, q, hq, rfl⟩ := h
  cases n with
  | zero => cases hrow
  | succ n =>
    obtain ⟨old, hold, rfl⟩ := List.mem_map.mp hrow
    rw [Values.children_map] at hc
    obtain ⟨r, hr, rfl⟩ := List.mem_map.mp hc
    exact ⟨n, r, hs.closed q r (List.mem_flatMap.mpr ⟨old, hold, hr⟩), rfl⟩

theorem sound : t.content.Sound := by
  obtain ⟨n, q, hq, rfl⟩ := h
  rw [Store.content_unfold]
  exact ⟨hs.wellFormed.regular_contentTo hs.full n q, Store.named_contentTo n fun r _ => hs.legal r⟩

/-- Read back as rows of handles, a tree is a policy of the store, or cut off. -/
theorem bound : s.Bound ⟨t.entries.map fun row => (row.1, row.2.map handle)⟩ := by
  obtain ⟨n, q, hq, rfl⟩ := h
  cases n with
  | zero => exact ⟨.nil, nofun⟩
  | succ n =>
    have hrows : ((s.unfold (n + 1) q).entries.map fun row => (row.1, row.2.map handle)) =
        s.entries q := by
      show List.map _ (List.map _ (s.entries q)) = _
      rw [List.map_map]
      refine (List.map_congr_left fun row _ => ?_).trans (List.map_id _)
      refine Prod.ext rfl ?_
      show (row.2.map (s.unfold n)).map handle = row.2
      rw [Values.map_map]
      refine (Values.map_congr fun c _ => s.handle_unfold n c).trans ?_
      cases row.2 <;> simp [Values.map]
    rw [hrows]
    exact hs.bound q

end Tree.Stored

/-! ## Schemas -/

namespace Schema

variable {S : Schema} {name full : String} {d : Definition}

/-- What is found among rows by following segments is in the store, as the rows are. -/
theorem stored_of_descend (hs : s.Proper) {segments : List String} :
    ∀ {done : List String} {rows : Entries Tree} {vs : Values Tree},
      (∀ row ∈ rows, ∀ t ∈ row.2.children, t.Stored s) →
      Entries.descend Tree.entries full done rows segments = .ok (some vs) →
      ∀ t ∈ vs.children, t.Stored s := by
  induction segments with
  | nil => exact fun _ h => by cases h
  | cons segment rest ih =>
    intro done rows vs hrows h
    cases rest with
    | nil => exact hrows _ (Table.mem_of_get? (Except.ok.inj h))
    | cons next rest =>
      simp only [Entries.descend] at h
      split at h
      · cases h
      · rename_i children hget
        split at h
        · cases h
        · rename_i child hlast
          have hchild := hrows _ (Table.mem_of_get? hget) child (List.mem_of_getLast? hlast)
          exact ih (fun _ hrow => hchild.below hs hrow) h
      · cases h

theorem Stored.of_child? (h : S.Stored s) {key : String} {t : Tree}
    (hchild : Entries.child? key S.entries = some t) : t.Stored s := by
  unfold Entries.child? at hchild
  split at hchild
  · rename_i children hget
    exact h _ (Table.mem_of_get? hget) t (List.mem_of_getLast? hchild)
  · cases hchild

theorem Stored.describes (h : S.Stored s) (hs : s.Proper) {block : Tree}
    (hblock : S.Describes name block) : block.Stored s := by
  cases hblock with
  | own hown hlast =>
    obtain ⟨definitions, hdefinitions, hfind⟩ := Option.bind_eq_some_iff.mp hown
    unfold Tree.find? Entries.find? at hfind
    split at hfind
    · rename_i found hfound
      subst hfind
      obtain ⟨segments, -, hfound⟩ := Except.bind_eq_ok hfound
      have hdefinitions := h.of_child? hdefinitions
      exact stored_of_descend hs (fun _ hrow => hdefinitions.below hs hrow) hfound _
        (List.mem_of_getLast? hlast)
    · cases hfind
  | child _ hchild => exact h.of_child? hchild

end Schema

theorem Definition.stored_of_ofBlock? (hs : s.Proper) {name : String} {block : Tree} {d : Definition}
    (hblock : block.Stored s) (h : ofBlock? name block.entries = .ok d) : d.Stored s := by
  have hinline {inner : Schema} (hsub : d.sub = .inline inner) :
      ∃ t : Tree, t.Stored s ∧ inner.entries = t.entries := by
    have hread := sub?_of_ofBlock? h
    rw [hsub] at hread
    obtain ⟨children, t, hget, ht, hentries⟩ := exists_dictionary_of_inline hread
    exact ⟨t, hblock.below hs (Table.mem_of_get? hget) t ht, hentries⟩
  refine ⟨fun values hdefault t ht => ?_, fun values hdefault => ?_, fun inner hsub => ?_,
    fun inner hsub => ?_⟩
  · obtain ⟨written, hget, hchildren, -⟩ := exists_of_default h hdefault
    rw [hchildren] at ht
    exact (hblock.below hs (Table.mem_of_get? hget) t ht).sound hs
  · obtain ⟨written, hget, -, hempty⟩ := exists_of_default h hdefault
    rw [hempty, ← Values.isEmpty_map Tree.handle]
    exact (hblock.bound hs).1.full _ (List.mem_map_of_mem (Table.mem_of_get? hget))
  · obtain ⟨t, ht, hentries⟩ := hinline hsub
    intro row hrow
    rw [hentries] at hrow
    exact ht.below hs hrow
  · obtain ⟨t, ht, hentries⟩ := hinline hsub
    rw [Dictionary.ofSchema, hentries]
    exact ht.bound hs

namespace Schema.Stored

variable {S : Schema} {d : Definition} {name : String}

theorem defines (h : S.Stored s) (hs : s.Proper) (hd : S.Defines name d) : d.Stored s := by
  obtain ⟨block, hblock, hread⟩ := hd
  exact Definition.stored_of_ofBlock? hs (h.describes hs hblock) hread

theorem leads (h : S.Stored s) (hs : s.Proper) {path : List String} (hd : S.Leads path d) :
    d.Stored s := by
  induction hd with
  | last hd => exact h.defines hs hd
  | step he hsub _ ih => exact ih ((h.defines hs he).schema _ hsub)

theorem lookup (h : S.Stored s) (hs : s.Proper) (hd : S.lookup name = .ok d) : d.Stored s := by
  obtain ⟨path, -, hd⟩ := Except.bind_eq_ok hd
  exact h.leads hs (follow_eq_ok_iff.mp hd)

end Schema.Stored

theorem Store.Bound.stored {d : Dictionary} (h : s.Bound d) : (s.schema d).Stored s := by
  intro row hrow t ht
  obtain ⟨old, hold, rfl⟩ := List.mem_map.mp hrow
  rw [Values.children_map] at ht
  obtain ⟨c, hc, rfl⟩ := List.mem_map.mp ht
  exact ⟨s.size, c, h.2 c (List.mem_flatMap.mpr ⟨old, hold, hc⟩), rfl⟩

/-! ## Loading -/

namespace Dictionary

/-- The rows hold policies of the zone alone. -/
def Within (zone : Policy → Prop) (rows : Entries Policy) : Prop :=
  ∀ c ∈ rows.flatMap fun row => row.2.children, zone c

theorem zone_of_mem_blocks (h : s.Zoned zone) {rows : Entries Policy} (hrows : Within zone rows)
    {block : Policy} (hblock : block ∈ blocks s rows) : zone block := by
  rcases List.mem_append.mp hblock with hown | hchild
  · split at hown
    · rename_i definitions hdefinitions
      obtain ⟨row, hrow, hlast⟩ := List.mem_filterMap.mp hown
      exact h.inside definitions (hrows _ (Entries.mem_of_child? hdefinitions)) block
        (List.mem_flatMap.mpr ⟨row, hrow, List.mem_of_getLast? hlast⟩)
    · cases hown
  · exact hrows _ (Entries.mem_of_child? (Option.mem_toList.mp hchild))

theorem edits_turnBlock {inside : Entries Policy → StoreM Nat}
    (hinside : ∀ rows s, s.Zoned zone → Within zone rows →
      (inside rows).Edits zone s fun _ _ => True) {block : Policy} (hblock : zone block)
    (h : s.Zoned zone) : (turnBlock inside block).Edits zone s fun _ _ => True := by
  refine Confined.get_bind ?_
  simp only
  split
  · refine (StoreM.Edits.lift h).bind fun v s₁ h₁ _ => ?_
    refine (StoreM.Edits.lift h₁.toZoned).bind fun f s₂ h₂ _ => ?_
    refine (Policy.edits_remove h₂.toZoned hblock _).bind fun _ s₃ h₃ _ => ?_
    refine (Policy.edits_set h₃.toZoned hblock (fun c hc => by cases hc) _).bind
      fun _ s₄ h₄ _ => ?_
    exact Confined.pure h₄.toZoned trivial
  · split
    · rename_i sub hsub
      have hsub := h.inside block hblock sub (Entries.mem_of_child? hsub)
      exact Confined.get_bind (hinside _ s h (h.inside sub hsub))
    · exact Confined.pure h trivial

theorem edits_turnFiles (depth : Nat) : ∀ (rows : Entries Policy) (s : Store), s.Zoned zone →
    Within zone rows → (turnFiles depth rows).Edits zone s fun _ _ => True := by
  induction depth with
  | zero => exact fun _ _ h _ => Confined.pure h trivial
  | succ depth ih =>
    intro rows s h hrows
    exact Confined.get_bind (Include.edits_sumOver
      (fun _ hblock _ hs => edits_turnBlock ih (zone_of_mem_blocks h hrows hblock) hs) h)

theorem edits_loadRounds (cfg : Include.Settings) {p : Policy} (hp : zone p) (rounds : Nat) :
    ∀ {s : Store}, s.Zoned zone → (loadRounds cfg p rounds).Edits zone s fun _ _ => True := by
  induction rounds with
  | zero => exact fun h => Confined.throw h _
  | succ rounds ih =>
    intro s h
    refine Confined.get_bind (Confined.get_bind ?_)
    refine (edits_turnFiles _ _ s h (h.inside p hp)).bind fun turned s₁ h₁ _ => ?_
    refine (Policy.edits_includeFiles h₁.toZoned hp cfg).bind fun tried s₂ h₂ _ => ?_
    split
    · exact Confined.pure h₂.toZoned trivial
    · refine (ih h₂.toZoned).bind fun _ s₃ h₃ _ => ?_
      exact Confined.pure h₃.toZoned trivial

/-- Loading answers the rows of a policy that was made for it. -/
theorem edits_loadFiles (h : s.Zoned zone) {d : Dictionary} (hd : s.Bound d)
    (hrows : Within zone d.entries) (cfg : Include.Settings) :
    (d.loadFiles cfg).Edits zone s fun found s' =>
      s'.Bound found.1 ∧ Within zone found.1.entries := by
  have halloc := h.alloc (n := { entries := d.entries }) hd.1 fun c hc => ⟨hrows c hc, hd.2 c hc⟩
  have hp : zone ⟨s.size⟩ := h.fresh _ (Nat.le_refl _)
  have hrounds := edits_loadRounds cfg hp (maxDepth + 1) halloc.toZoned
  have hbound {t : Store} (ht : t.Zoned zone) :
      t.Bound ⟨t.entries ⟨s.size⟩⟩ ∧ Within zone (t.entries ⟨s.size⟩) :=
    ⟨⟨ht.rows _, ht.closed _⟩, ht.inside _ hp⟩
  cases hrun : loadRounds cfg ⟨s.size⟩ (maxDepth + 1) (s.alloc { entries := d.entries }).2 with
  | ok tried s' =>
    obtain ⟨hedits, -⟩ := hrounds.of_ok hrun
    have hload : d.loadFiles cfg s = .ok (⟨s'.entries ⟨s.size⟩⟩, .ok tried) s' := by
      simp only [loadFiles, show (s.alloc { entries := d.entries }).1 = ⟨s.size⟩ from rfl, hrun]
    exact Confined.ok hload (halloc.trans hedits) (hbound hedits.toZoned)
  | error e s' =>
    have hedits := hrounds.of_error hrun
    have hload : d.loadFiles cfg s = .ok (⟨s'.entries ⟨s.size⟩⟩, .error e) s' := by
      simp only [loadFiles, show (s.alloc { entries := d.entries }).1 = ⟨s.size⟩ from rfl, hrun]
    exact Confined.ok hload (halloc.trans hedits) (hbound hedits.toZoned)

end Dictionary

end PolicyStore
