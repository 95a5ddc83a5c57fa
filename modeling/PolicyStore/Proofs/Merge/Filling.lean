import PolicyStore.Proofs.Merge.Defaults
import PolicyStore.Proofs.Merge.Paths
import PolicyStore.Proofs.Merge.Settling

set_option autoImplicit false

namespace PolicyStore

/-!
# Filling in a policy

The names of a source are copied one after the other into a policy, whose parts may be held in
several places. No array is changed that was there, each copied name is settled in the end, and below
a policy that one name alone leads to there are copies of what the source holds under that name.
-/

namespace Store

variable {s s₀ s₁ s' s'' : Store} {p q r owner : Policy} {key : String} {path : List String}
  {vs : Values Policy} {found : Values Content} {n : Nat}

/-! ## One name -/

/-- What may become of a store when an array is copied: the path is settled already, perhaps after
some policies have been added in vain, or the copy is put under a free key at the end of a way. -/
inductive Copies (s : Store) (p : Policy) (path : List String) (found : Values Content) :
    Store → Prop
  | settled {s' : Store} : s.Adds s' → s'.Settled p path → Copies s p path found s'
  | linked {s₁ : Store} {front : List String} {key : String} {owner : Policy}
      {vs : Values Policy} : path = front ++ [key] → s.Way p front owner →
      Table.get? key (s.entries owner) = none → Planted s s₁ vs.children → vs.isEmpty = false →
      vs.map s₁.content = found → owner.id < s.size → Copies s p path found (s₁.link owner key vs)

theorem Copies.keeps (h : s.Copies p path found s') : s.Keeps s' := by
  cases h with
  | settled hadds _ => exact hadds.keeps
  | linked _ _ hfree hplanted _ _ howner =>
    refine hplanted.adds.keeps.trans (keeps_link (howner.trans_le hplanted.adds.size_le) ?_ _)
    rw [hplanted.adds.entries_eq howner]
    exact hfree

theorem Copies.path_settled (h : s.Copies p path found s') : s'.Settled p path := by
  have hkeeps := h.keeps
  cases h with
  | settled _ hsettled => exact hsettled
  | linked hpath hway _ hplanted _ _ howner =>
    rw [hpath]
    exact (hkeeps.way hway).settled (get?_link (howner.trans_le hplanted.adds.size_le))

/-! ## What no copy changes -/

theorem WellFormed.named_child (hs : s.WellFormed) (hp : p.id < s.size) (hn : s.Within n p)
    (h : (s.content p).Named) (hq : q ∈ s.below p) : (s.content q).Named := by
  rw [hs.content_eq_node hp hn] at h
  cases h with
  | node _ hchildren =>
    obtain ⟨row, hrow, hq⟩ := List.mem_flatMap.mp hq
    refine hchildren _ (List.mem_map_of_mem hrow) _ ?_
    rw [Values.children_map]
    exact List.mem_map_of_mem hq

/-- The keys of all policies below one whose content has legal names are legal. -/
theorem WellFormed.legal_of_reaches (hs : s.WellFormed) (hp : p.id < s.size) (hn : s.Within n p)
    (h : (s.content p).Named) (hreach : s.Reaches p r) :
    ∀ key ∈ Table.keys (s.entries r), Name.segments key = .ok [key] := by
  have hr : (s.content r).Named := by
    induction hreach with
    | refl => exact h
    | tail hway hstep ih =>
      exact hs.named_child (hs.lt_of_reaches hp hway) (hn.of_reaches hway) ih hstep
  rw [hs.content_eq_node (hs.lt_of_reaches hp hreach) (hn.of_reaches hreach)] at hr
  cases hr with
  | node hkeys _ =>
    intro key hkey
    obtain ⟨row, hrow, rfl⟩ := List.mem_map.mp hkey
    exact hkeys _ (List.mem_map_of_mem hrow)

/-- The policy has been given arrays at free keys, all of them out of new policies. -/
structure Filling (s₀ s : Store) (p : Policy) : Prop extends s.WellFormed where
  full : s.Full
  target_lt : p.id < s₀.size
  size_le : s₀.size ≤ s.size
  founded : ∃ n, s.Within n p
  keeps : s₀.Keeps s
  fresh : ∀ r key vs, Table.get? key (s.entries r) = some vs →
    Table.get? key (s₀.entries r) = none → ∀ c ∈ vs.children, s₀.size ≤ c.id
  frame : ∀ r : Policy, r.id < s₀.size → ¬s₀.Reaches p r → s.node r = s₀.node r
  dictionary : ∀ r : Policy, r.id < s₀.size → s.dictionary? r = s₀.dictionary? r
  legal : ∀ r, s.Reaches p r → ∀ key ∈ Table.keys (s.entries r), Name.segments key = .ok [key]

namespace Filling

theorem refl (hs : s.WellFormed) (hfull : s.Full) (hlegal : s.Legal) (hp : p.id < s.size)
    (hn : s.Within n p) : s.Filling s p where
  toWellFormed := hs
  full := hfull
  target_lt := hp
  size_le := Nat.le_refl _
  founded := ⟨n, hn⟩
  keeps := .refl s
  fresh _ _ _ hget hnone := by cases hget.symm.trans hnone
  frame _ _ _ := rfl
  dictionary _ _ := rfl
  legal r _ := hlegal r

variable (h : s₀.Filling s p)

include h

theorem le_of_way (hway : s.Way r path q) (hr : s₀.size ≤ r.id) : s₀.size ≤ q.id := by
  induction hway with
  | here => exact hr
  | step hget hlast _ ih =>
    refine ih (h.fresh _ _ _ hget ?_ _ (List.mem_of_getLast? hlast))
    rw [entries_of_size_le hr]
    rfl

/-- A way to a policy that was there at the start was there, too. -/
theorem way_start (hway : s.Way r path q) (hq : q.id < s₀.size) : s₀.Way r path q := by
  induction hway with
  | here => exact .here _
  | @step r c q key path children hget hlast hway ih =>
    cases hold : Table.get? key (s₀.entries r) with
    | none =>
      have hc := h.fresh r key _ hget hold c (List.mem_of_getLast? hlast)
      exact (Nat.not_lt_of_le (h.le_of_way hway hc) hq).elim
    | some vs =>
      cases (h.keeps r key vs hold).symm.trans hget
      exact .step hold hlast (ih hq)

theorem adds (hadds : s.Adds s') : s₀.Filling s' p where
  toWellFormed := hadds.wellFormed
  full := hadds.full h.full
  target_lt := h.target_lt
  size_le := h.size_le.trans hadds.size_le
  founded := by
    obtain ⟨n, hn⟩ := h.founded
    exact ⟨n, hadds.within h.toWellFormed (h.target_lt.trans_le h.size_le) hn⟩
  keeps := h.keeps.trans hadds.keeps
  fresh r key vs hget hnone c hc := by
    by_cases hr : r.id < s.size
    · rw [hadds.entries_eq hr] at hget
      exact h.fresh r key vs hget hnone c hc
    · exact h.size_le.trans (hadds.apart r (Nat.le_of_not_lt hr) c (mem_below_of_get? hget hc))
  frame r hr hreach := by
    rw [hadds.frame r (hr.trans_le h.size_le) id, h.frame r hr hreach]
  dictionary r hr := by
    rw [hadds.dictionary r (hr.trans_le h.size_le), h.dictionary r hr]
  legal r hreach := by
    have hp := h.target_lt.trans_le h.size_le
    have hreach := (hadds.reaches_iff h.toWellFormed hp).mp hreach
    rw [hadds.entries_eq (h.toWellFormed.lt_of_reaches hp hreach)]
    exact h.legal r hreach

theorem link (hplanted : Planted s s₁ vs.children) (hne : vs.isEmpty = false)
    (howner : owner.id < s.size) (hfree : Table.get? key (s.entries owner) = none)
    {front : List String} (hway : s.Way p front owner) (hkey : Name.segments key = .ok [key])
    (hnamed : ∀ c ∈ vs.children, (s₁.content c).Named) :
    s₀.Filling (s₁.link owner key vs) p := by
  have h₁ := h.adds hplanted.adds
  have howner₁ := howner.trans_le hplanted.adds.size_le
  have hfree₁ : Table.get? key (s₁.entries owner) = none := by
    rw [hplanted.adds.entries_eq howner]
    exact hfree
  have hrows {r : Policy} {other : String} {ws : Values Policy}
      (hget : Table.get? other ((s₁.link owner key vs).entries r) = some ws) :
      r = owner ∧ ws = vs ∨ Table.get? other (s₁.entries r) = some ws := by
    by_cases heq : r = owner ∧ other = key
    · obtain ⟨rfl, rfl⟩ := heq
      exact Or.inl ⟨rfl, (Option.some.inj ((get?_link howner₁).symm.trans hget)).symm⟩
    · rw [get?_link_of_ne howner₁ heq] at hget
      exact Or.inr hget
  exact {
    toWellFormed := by
      refine h₁.toWellFormed.setEntries (Table.sorted_insert (h₁.sorted owner) _ _) fun c hc => ?_
      have hbelow : c ∈ (s₁.link owner key vs).below owner := by
        rwa [below, Store.link, entries_setEntries_self howner₁]
      exact (mem_below_link howner₁ hbelow).elim (h₁.closed owner c) fun hc =>
        hplanted.lt_size c hc.2
    full := h₁.full.setEntries fun row hrow => by
      rcases Table.mem_of_mem_insert hrow with rfl | hrow
      · exact hne
      · exact h₁.full owner row hrow
    target_lt := h.target_lt
    size_le := by
      rw [size_link]
      exact h₁.size_le
    founded := by
      obtain ⟨n, hn⟩ := h₁.founded
      obtain ⟨k, hk⟩ := exists_within_of_forall hplanted.forest.founded
      refine ⟨n + k, within_of_links (fun r c hc => ?_) hn⟩
      refine (mem_below_link howner₁ hc).imp_right fun hc => ?_
      -- Below the copies everything is new, so they do not lead back to the owner.
      exact within_congr (P := fun r => s.size ≤ r.id) hplanted.adds.apart (fun r hr =>
        Linkable.entries_of_ne fun heq => Nat.not_lt_of_le hr (heq ▸ howner))
        (hplanted.low_le c hc.2) (hk c hc.2)
    keeps := h₁.keeps.trans (keeps_link howner₁ hfree₁ vs)
    fresh := fun r other ws hget hnone c hc => by
      rcases hrows hget with ⟨_, rfl⟩ | hget
      · exact h.size_le.trans (hplanted.low_le c hc)
      · exact h₁.fresh r other ws hget hnone c hc
    frame := fun r hr hreach => by
      have hne : r ≠ owner := by
        rintro rfl
        exact hreach (h.way_start hway hr).reaches
      rw [Store.link, node_setEntries_of_ne hne]
      exact h₁.frame r hr hreach
    dictionary := fun r hr => by
      rw [Store.link, dictionary?_setEntries]
      exact h₁.dictionary r hr
    legal := fun r hreach other hother => by
      have hcases : other = key ∨ other ∈ Table.keys (s₁.entries r) := by
        by_cases heq : r = owner
        · subst heq
          rw [Store.link, entries_setEntries_self howner₁] at hother
          exact Table.mem_keys_insert.mp hother
        · rw [Linkable.entries_of_ne heq] at hother
          exact Or.inr hother
      rcases hcases with rfl | hother
      · exact hkey
      · rcases reaches_link_cases howner₁ hreach with hreach | ⟨_, c, hc, hreach⟩
        · exact h₁.legal r hreach other hother
        · obtain ⟨n, hn⟩ := hplanted.forest.founded c hc
          exact h₁.toWellFormed.legal_of_reaches (hplanted.lt_size c hc) hn (hnamed c hc) hreach
            other hother }

theorem copies {source : Content} (hsource : source.Named)
    (hfound : Content.find? path source = some found) (hstep : s.Copies p path found s') :
    s₀.Filling s' p := by
  obtain ⟨hsegments, hnamed⟩ := hsource.find? hfound
  cases hstep with
  | settled hadds _ => exact h.adds hadds
  | linked hpath hway hfree hplanted hne hcontent howner =>
    refine h.link hplanted hne howner hfree hway (hsegments _ ?_) fun c hc => hnamed _ ?_
    · rw [hpath]
      exact List.mem_append_right _ List.mem_cons_self
    · rw [← hcontent, Values.children_map]
      exact List.mem_map_of_mem hc

end Filling

/-! ## Sealed policies -/

/-- Some policies are as they were in a store before, and other policies hold them only in the rows
of a door. -/
structure Sealed (s₁ s : Store) (inner : Policy → Prop) (door : Policy → String → Prop) : Prop where
  size_le : s₁.size ≤ s.size
  lt_size : ∀ r, inner r → r.id < s₁.size
  closed : ∀ r, inner r → ∀ c ∈ s₁.below r, inner c
  entries_eq : ∀ r, inner r → s.entries r = s₁.entries r
  doors : ∀ r key vs, Table.get? key (s.entries r) = some vs → ¬inner r → ¬door r key →
    ∀ c ∈ vs.children, ¬inner c

namespace Sealed

variable {inner : Policy → Prop} {door : Policy → String → Prop}

/-- What has been added is sealed. -/
theorem of_planted {ps : List Policy} (hs : s.WellFormed) (h : Planted s s₁ ps)
    (door : Policy → String → Prop) :
    s₁.Sealed s₁ (fun r => s.size ≤ r.id ∧ r.id < s₁.size) door where
  size_le := Nat.le_refl _
  lt_size _ hr := hr.2
  closed r hr c hc := ⟨h.adds.apart r hr.1 c hc, h.adds.wellFormed.closed r c hc⟩
  entries_eq _ _ := rfl
  doors r key vs hget hr _ c hc hinner := by
    have hlt : r.id < s.size := Nat.lt_of_not_le fun hle => hr ⟨hle, lt_size_of_get? hget⟩
    rw [h.adds.entries_eq hlt] at hget
    exact Nat.not_lt_of_le hinner.1 (hs.closed r c (mem_below_of_get? hget hc))

variable (h : s₁.Sealed s inner door)

include h

theorem adds (hadds : s.Adds s') : s₁.Sealed s' inner door where
  size_le := h.size_le.trans hadds.size_le
  lt_size := h.lt_size
  closed := h.closed
  entries_eq r hr := by
    rw [hadds.entries_eq ((h.lt_size r hr).trans_le h.size_le), h.entries_eq r hr]
  doors r key vs hget hr hdoor c hc hinner := by
    by_cases hlt : r.id < s.size
    · rw [hadds.entries_eq hlt] at hget
      exact h.doors r key vs hget hr hdoor c hc hinner
    · have hle := hadds.apart r (Nat.le_of_not_lt hlt) c (mem_below_of_get? hget hc)
      exact Nat.not_lt_of_le hle ((h.lt_size c hinner).trans_le h.size_le)

theorem link (howner : owner.id < s.size) (hout : ¬inner owner)
    (hvs : door owner key ∨ ∀ c ∈ vs.children, ¬inner c) :
    s₁.Sealed (s.link owner key vs) inner door where
  size_le := by
    rw [size_link]
    exact h.size_le
  lt_size := h.lt_size
  closed := h.closed
  entries_eq r hr := by
    have hne : r ≠ owner := by
      rintro rfl
      exact hout hr
    rw [Linkable.entries_of_ne hne, h.entries_eq r hr]
  doors r other ws hget hr hdoor c hc := by
    by_cases heq : r = owner ∧ other = key
    · obtain ⟨rfl, rfl⟩ := heq
      cases (get?_link howner).symm.trans hget
      exact hvs.resolve_left hdoor c hc
    · rw [get?_link_of_ne howner heq] at hget
      exact h.doors r other ws hget hr hdoor c hc

theorem within (hr : inner r) (hn : s₁.Within n r) : s.Within n r :=
  within_congr h.closed h.entries_eq hr hn

theorem content_eq (hs₁ : s₁.WellFormed) (hs : s.WellFormed) (hr : inner r) (hn : s₁.Within n r) :
    s.content r = s₁.content r :=
  hs₁.content_congr hs h.closed h.entries_eq hr (h.lt_size r hr)
    ((h.lt_size r hr).trans_le h.size_le) hn

/-- A way to sealed policies goes through a door. -/
theorem exists_door (hway : s.Way r path q) (hr : ¬inner r) (hq : inner q) :
    ∃ front key back a c children, path = front ++ key :: back ∧ s.Way r front a ∧ door a key ∧
      Table.get? key (s.entries a) = some (.policies children) ∧ children.getLast? = some c ∧
      s.Way c back q := by
  induction hway with
  | here => exact (hr hq).elim
  | @step r c q key path children hget hlast hway ih =>
    by_cases hc : inner c
    · have hdoor : door r key := by
        by_contra hnot
        exact h.doors r key _ hget hr hnot c (List.mem_of_getLast? hlast) hc
      exact ⟨[], key, path, r, c, children, rfl, .here r, hdoor, hget, hlast, hway⟩
    · obtain ⟨front, last, back, a, d, others, hpath, hfront, hrest⟩ := ih hc hq
      exact ⟨key :: front, last, back, a, d, others, by rw [hpath, List.cons_append],
        .step hget hlast hfront, hrest⟩

end Sealed

/-! ## Rows that are copied -/

/-- A row holds an array out of sealed policies. -/
structure Copy (s₀ s₁ s : Store) (inner : Policy → Prop) (r : Policy) (key : String)
    (vs : Values Policy) : Prop where
  wellFormed : s₁.WellFormed
  row : Table.get? key (s.entries r) = some vs
  children : ∀ c ∈ vs.children, inner c ∧ ∃ n, s₁.Within n c
  size_le : ∀ c, inner c → s₀.size ≤ c.id
  isSealed : s₁.Sealed s inner fun a other => a = r ∧ other = key

/-- A row is free, or holds a copy of an array. -/
def Copied (s₀ s : Store) (r : Policy) (key : String) (source : Option (Values Content)) : Prop :=
  Table.get? key (s.entries r) = none ∨
    ∃ s₁ inner vs, s₀.Copy s₁ s inner r key vs ∧ source = some (vs.map s₁.content)

section Copied

variable {front : List String} {source : Content} (h : s₀.Filling s p) (hr : r.id < s₀.size)
  (hunique : ∀ other, s₀.Way p other r → other = front)
  (hfound : Content.find? path source = some found)

include h hr hunique hfound

/-- An array that is found in the source does not belong inside of a copy: it has been copied with
it. -/
theorem Copy.not_inner {inner : Policy → Prop} (hcopy : s₀.Copy s₁ s inner r key vs)
    (hsource : Content.find? (front ++ [key]) source = some (vs.map s₁.content))
    {before : List String} {last : String} (hpath : path = before ++ [last])
    (hway : s.Way p before owner) (hfree : Table.get? last (s.entries owner) = none) :
    ¬inner owner := by
  intro hinner
  have hp : ¬inner p := fun hp => Nat.not_lt_of_le (hcopy.size_le p hp) h.target_lt
  obtain ⟨way, key, back, r, c, children, rfl, hentry, ⟨rfl, rfl⟩, hget, hlast, hrest⟩ :=
    hcopy.isSealed.exists_door hway hp hinner
  cases hget.symm.trans hcopy.row
  have hc := List.mem_of_getLast? hlast
  obtain ⟨hmem, n, hn⟩ := hcopy.children c hc
  obtain rfl := hunique way (h.way_start hentry hr)
  -- The source has the rest of the path inside of the array, and so has the copy.
  rw [hpath, List.append_assoc, List.cons_append, List.append_cons way,
    Content.find?_append (by simp) (by simp), hsource, Option.bind_some, Values.children_map,
    Values.children, List.getLast?_map, hlast, Option.map_some, Option.bind_some,
    ← hcopy.isSealed.content_eq hcopy.wellFormed h.toWellFormed hmem hn,
    hrest.find?_content h.toWellFormed (h.closed _ _ (mem_below_of_get? hget hc))
      (hcopy.isSealed.within hmem hn), hfree] at hfound
  cases hfound

/-- Below a policy that one path alone leads to, a copy is not touched by those that follow. -/
theorem Copied.copies (hcopied : s₀.Copied s r key (Content.find? (front ++ [key]) source))
    (hstep : s.Copies p path found s') :
    s₀.Copied s' r key (Content.find? (front ++ [key]) source) := by
  have hr' := hr.trans_le h.size_le
  cases hstep with
  | settled hadds _ =>
    refine hcopied.imp (fun hnone => ?_) ?_
    · rwa [hadds.entries_eq hr']
    · rintro ⟨s₁, inner, vs, hcopy, hsource⟩
      refine ⟨s₁, inner, vs, ⟨hcopy.wellFormed, ?_, hcopy.children, hcopy.size_le,
        hcopy.isSealed.adds hadds⟩, hsource⟩
      rw [hadds.entries_eq hr']
      exact hcopy.row
  | @linked s₂ before last owner ws hpath hway hfree hplanted _ hcontent howner =>
    have howner' := howner.trans_le hplanted.adds.size_le
    by_cases hhere : r = owner ∧ key = last
    · obtain ⟨rfl, rfl⟩ := hhere
      obtain rfl := hunique before (h.way_start hway hr)
      have hsealed := Sealed.of_planted h.toWellFormed hplanted fun a other => a = r ∧ other = key
      refine Or.inr ⟨s₂, _, ws, ⟨hplanted.adds.wellFormed, get?_link howner', fun c hc => ?_,
        fun c hc => h.size_le.trans hc.1, hsealed.link howner'
          (fun hinner => Nat.not_lt_of_le hinner.1 howner) (Or.inl ⟨rfl, rfl⟩)⟩, ?_⟩
      · exact ⟨⟨hplanted.low_le c hc, hplanted.lt_size c hc⟩, hplanted.forest.founded c hc⟩
      · rw [hcontent, ← hpath, hfound]
    · have hsame : Table.get? key ((s₂.link owner last ws).entries r) =
          Table.get? key (s.entries r) := by
        rw [get?_link_of_ne howner' hhere, hplanted.adds.entries_eq hr']
      refine hcopied.imp (fun hnone => hsame.trans hnone) ?_
      rintro ⟨s₁, inner, vs, hcopy, hsource⟩
      have hout := hcopy.not_inner h hr hunique hfound hsource hpath hway hfree
      refine ⟨s₁, inner, vs, ⟨hcopy.wellFormed, hsame.trans hcopy.row, hcopy.children,
        hcopy.size_le, ?_⟩, hsource⟩
      refine (hcopy.isSealed.adds hplanted.adds).link howner' hout (Or.inr fun c hc hinner => ?_)
      have hlt := (hcopy.isSealed.lt_size c hinner).trans_le hcopy.isSealed.size_le
      exact Nat.not_lt_of_le (hplanted.low_le c hc) hlt

end Copied

/-! ## All names -/

/-- One after the other the arrays at some paths of a source have been copied. -/
inductive Fills (p : Policy) (source : Content) : Store → List (List String) → Store → Prop
  | nil (s : Store) : Fills p source s [] s
  | cons {s s' s'' : Store} {path : List String} {paths : List (List String)}
      {found : Values Content} : Content.find? path source = some found →
      s.Copies p path found s' → Fills p source s' paths s'' → Fills p source s (path :: paths) s''

section Fills

variable {source : Content} {paths : List (List String)} (hfills : Fills p source s paths s')

include hfills

theorem Fills.keeps : s.Keeps s' := by
  induction hfills with
  | nil => exact .refl _
  | cons _ hstep _ ih => exact hstep.keeps.trans ih

theorem Fills.filling (hsource : source.Named) (h : s₀.Filling s p) : s₀.Filling s' p := by
  induction hfills with
  | nil => exact h
  | cons hfound hstep _ ih => exact ih (h.copies hsource hfound hstep)

/-- All copied paths are settled. -/
theorem Fills.settled : ∀ path ∈ paths, s'.Settled p path := by
  induction hfills with
  | nil => exact fun _ hpath => by cases hpath
  | cons _ hstep hrest ih =>
    intro path hpath
    rcases List.mem_cons.mp hpath with rfl | hpath
    · exact hrest.keeps.settled hstep.path_settled
    · exact ih path hpath

/-- Below a policy that one path alone leads to there are copies. -/
theorem Fills.copied {front : List String} (hsource : source.Named) (h : s₀.Filling s p)
    (hr : r.id < s₀.size) (hunique : ∀ other, s₀.Way p other r → other = front)
    (hcopied : s₀.Copied s r key (Content.find? (front ++ [key]) source)) :
    s₀.Copied s' r key (Content.find? (front ++ [key]) source) := by
  induction hfills with
  | nil => exact hcopied
  | cons hfound hstep _ ih =>
    exact ih (h.copies hsource hfound hstep) (hcopied.copies h hr hunique hfound hstep)

end Fills

end Store

namespace Policy

open Store

variable {s : Store} {p q : Policy} {path : List String} {found : Values Content} {n : Nat}

/-- Copying a name succeeds if all of the name but its last segment is settled. -/
theorem mergeName_copies (hs : s.WellFormed) (hfull : s.Full) (hp : p.id < s.size)
    (hq : q.id < s.size) (hn : s.Within n q) {name : String}
    (hname : Name.segments name = .ok path)
    (hfound : Content.find? path (s.content q) = some found)
    (hfront : ∀ front key, path = front ++ [key] → front ≠ [] → s.Settled p front) :
    ∃ copied s', p.mergeName q name s = .ok copied s' ∧ s.Copies p path found s' := by
  have hne := Name.segments_ne_nil hname
  cases hexists : s.exists? p name with
  | true =>
    obtain ⟨vs, hvs⟩ := Option.isSome_iff_exists.mp hexists
    obtain ⟨front, key, r, hpath, hway, hget⟩ := way_of_find? hvs
    cases hname.symm.trans hpath
    exact ⟨0, s, mergeName_of_exists hexists, .settled (.refl hs) (hway.settled hget)⟩
  | false =>
    obtain ⟨values, hvalues, hcontent, r, key, hreach, hget⟩ :=
      exists_values hs hq hn hname hfound
    have hold : ∀ c ∈ values.children, c.id < s.size ∧ ∃ n, s.Within n c := fun c hc =>
      have hbelow := hreach.tail (mem_below_of_get? hget hc)
      ⟨hs.lt_of_reaches hq hbelow, n, hn.of_reaches hbelow⟩
    obtain ⟨copy, s₁, hcopy, hplanted, hsame⟩ := deepCopy_planted hs hfull hold
    have hnonempty : copy.isEmpty = false := by
      rw [← Values.isEmpty_map s₁.content, hsame, Values.isEmpty_map]
      exact hfull r _ (Table.mem_of_get? hget)
    rw [mergeName_of_missing hexists hvalues hcopy, put_eq_map hname]
    cases hspot : s₁.placeFrom name [] p path with
    | error e =>
      obtain ⟨herror, hsettled⟩ := settled_of_placeFrom hne hspot
      refine ⟨0, s₁, ?_, .settled hplanted.adds hsettled⟩
      simp only [Except.map, herror, if_true]
    | ok spot =>
      -- The policies on the way were there before the copy was made.
      have hentries (r : Policy) (hr : r.id < s.size) : s.entries r = s₁.entries r :=
        (hplanted.adds.entries_eq hr).symm
      have hfinds : s.Finds p path spot :=
        (finds_of_placeFrom hspot).congr (P := fun r => r.id < s.size)
          (fun r hr c hc => hs.closed r c (by rwa [below_congr (hentries r hr)])) hentries hp
      obtain ⟨owner, key, below⟩ := spot
      obtain ⟨front, hpath, hway, hfree⟩ := hfinds.way
      have hbelow : below = [] := by
        by_contra hne'
        obtain ⟨rest, last, rfl⟩ := (List.eq_nil_or_concat' below).resolve_left hne'
        have hsettled := hfront (front ++ key :: rest) last (by simpa using hpath) (by simp)
        exact hway.not_settled (hfree hne') hsettled
      subst hbelow
      have howner := hs.lt_of_reaches hp hway.reaches
      have hnone : Table.get? key (s.entries owner) = none := by
        rw [← hway.find?_eq (hpath ▸ hname)]
        simpa [exists?] using hexists
      refine ⟨1, s₁.link owner key copy, ?_,
        .linked hpath hway hnone hplanted hnonempty (hsame.trans hcontent) howner⟩
      simp only [Except.map]
      rw [write_eq hnonempty]
      rfl

/-- Copying all names of a sealed source fills in the policy. -/
theorem mergeNames_fills {s₀ s₁ : Store} {inner : Policy → Prop} {names : List String}
    {paths : List (List String)} (hs₁ : s₁.WellFormed) (hregular : (s₁.content q).Regular)
    (hnamed : (s₁.content q).Named) (hq : inner q) (hn : s₁.Within n q) (hp : ¬inner p)
    (hnames : List.Forall₂ Tree.Spells names paths) :
    ∀ {s : Store} {pre : List (List String)}, s₀.Filling s p →
      s₁.Sealed s inner (fun _ _ => False) → (s₁.content q).paths = pre ++ paths →
      (∀ path ∈ pre, s.Settled p path) →
      ∃ copied s', p.mergeNames q names s = .ok copied s' ∧
        s.Fills p (s₁.content q) paths s' := by
  induction hnames with
  | nil => exact fun {s} _ _ _ _ _ => ⟨0, s, rfl, .nil s⟩
  | @cons name path names paths hname _ ih =>
    intro s pre h hsealed hpaths hsettled
    obtain ⟨found, hfound⟩ := Content.exists_find?_of_mem_paths hregular path (by
      rw [hpaths]
      exact List.mem_append_right pre List.mem_cons_self)
    have hlt : q.id < s.size := (hsealed.lt_size q hq).trans_le hsealed.size_le
    have hsource := hsealed.content_eq hs₁ h.toWellFormed hq hn
    obtain ⟨copied, s', hrun, hstep⟩ := mergeName_copies h.toWellFormed h.full
      (h.target_lt.trans_le h.size_le) hlt (hsealed.within hq hn) hname (hsource ▸ hfound)
      fun front key hpath hne =>
        hsettled front (hregular.ordered_paths pre path paths hpaths front key hpath hne)
    have hsealed' : s₁.Sealed s' inner (fun _ _ => False) := by
      cases hstep with
      | settled hadds _ => exact hsealed.adds hadds
      | linked _ hway _ hplanted _ _ howner =>
        refine (hsealed.adds hplanted.adds).link (howner.trans_le hplanted.adds.size_le)
          (fun hinner => ?_) (Or.inr fun c hc hinner => ?_)
        · obtain ⟨_, _, _, _, _, _, _, _, hdoor, _⟩ := hsealed.exists_door hway hp hinner
          exact hdoor
        · have hlt := (hsealed.lt_size c hinner).trans_le hsealed.size_le
          exact Nat.not_lt_of_le (hplanted.low_le c hc) hlt
    obtain ⟨more, s'', hrest, hfills⟩ := ih (h.copies hnamed hfound hstep) hsealed'
      (hpaths.trans (List.append_cons pre path paths)) fun other hother => by
        rcases List.mem_append.mp hother with hother | hother
        · exact hstep.keeps.settled (hsettled other hother)
        · rw [List.mem_singleton.mp hother]
          exact hstep.path_settled
    refine ⟨copied + more, s'', ?_, .cons hfound hstep hfills⟩
    simp only [mergeNames, bind, EStateM.bind, hrun, hrest, pure, EStateM.pure]

end Policy

end PolicyStore
