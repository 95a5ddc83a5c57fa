import PolicyStore.Proofs.Dictionary.Gathering

set_option autoImplicit false

namespace PolicyStore

/-!
# Dictionaries in the place of references

A block whose reference is included holds the dictionary that the file holds. The blocks of that
dictionary come on top of those that there were, and with them the names in the file.
-/

namespace Dictionary

open Include (Settings)

variable {cfg : Settings} {P : String → Prop} {s s' own : Store} {rows rows' : Entries Policy}
  {p b c q : Policy} {f : FileRef} {n : Nat}

/-! ## Raised blocks -/

theorem child?_raise (k : Nat) (key : String) (rows : Entries Policy) :
    Entries.child? key (rows.raise k) = (Entries.child? key rows).map (Policy.raise k) := by
  unfold Entries.child?
  rw [Entries.get?_raise]
  cases Table.get? key rows with
  | none => rfl
  | some values =>
    cases values with
    | policies children => exact List.getLast?_map
    | _ => rfl

/-- The policies of a store are found again in another one, with their handles raised. -/
def Raised (k : Nat) (own s : Store) : Prop :=
  ∀ q, s.entries (q.raise k) = (own.entries q).raise k

section Raised

variable {k : Nat} (h : Raised k own s) (hown : own.WellFormed) (hs : s.WellFormed)

include h hown hs

theorem mem_blocks_raise_iff :
    c ∈ blocks s (rows.raise k) ↔ ∃ b, c = b.raise k ∧ b ∈ blocks own rows := by
  simp only [mem_blocks_iff hs, mem_blocks_iff hown, child?_raise, Option.map_eq_some_iff]
  constructor
  · rintro (⟨_, key, ⟨definitions, hdefinitions, rfl⟩, hc⟩ | ⟨b, hb, rfl⟩)
    · rw [h, child?_raise] at hc
      obtain ⟨b, hb, rfl⟩ := Option.map_eq_some_iff.mp hc
      exact ⟨b, rfl, Or.inl ⟨definitions, key, hdefinitions, hb⟩⟩
    · exact ⟨b, rfl, Or.inr hb⟩
  · rintro ⟨b, rfl, ⟨definitions, key, hdefinitions, hb⟩ | hb⟩
    · refine Or.inl ⟨_, key, ⟨definitions, hdefinitions, rfl⟩, ?_⟩
      rw [h, child?_raise, hb]
      rfl
    · exact Or.inr ⟨b, hb, rfl⟩

theorem isBlock_raise_iff :
    IsBlock s (rows.raise k) c ↔ ∃ b, c = b.raise k ∧ IsBlock own rows b := by
  constructor
  · intro hc
    generalize hraised : rows.raise k = raised at hc
    induction hc generalizing rows with
    | own hc =>
      rw [← hraised] at hc
      obtain ⟨b, rfl, hb⟩ := (mem_blocks_raise_iff h hown hs).mp hc
      exact ⟨b, rfl, .own hb⟩
    | @inside raised a sub c ha hsub _ ih =>
      rw [← hraised] at ha
      obtain ⟨b, rfl, hb⟩ := (mem_blocks_raise_iff h hown hs).mp ha
      rw [h, child?_raise] at hsub
      obtain ⟨inner, hinner, rfl⟩ := Option.map_eq_some_iff.mp hsub
      obtain ⟨c, rfl, hc⟩ := ih (h inner).symm
      exact ⟨c, rfl, .inside hb hinner hc⟩
  · rintro ⟨b, rfl, hb⟩
    induction hb with
    | own hb => exact .own ((mem_blocks_raise_iff h hown hs).mpr ⟨_, rfl, hb⟩)
    | @inside rows b sub c hb hsub _ ih =>
      have hsub' : Entries.child? Definition.dictionaryKey (s.entries (b.raise k)) =
          some (sub.raise k) := by
        rw [h, child?_raise, hsub]
        rfl
      refine .inside ((mem_blocks_raise_iff h hown hs).mpr ⟨_, rfl, hb⟩) hsub' ?_
      rw [h]
      exact ih

end Raised

/-- What is inside the dictionary of a block is inside that of the block's own dictionary. -/
theorem IsBlock.of_sub {sub : Policy} (hb : IsBlock s rows b)
    (hsub : Entries.child? Definition.dictionaryKey (s.entries b) = some sub)
    (hc : IsBlock s (s.entries sub) c) : IsBlock s rows c := by
  induction hb with
  | own hb => exact .inside hb hsub hc
  | inside hb hsub' _ ih => exact .inside hb hsub' (ih hsub)

theorem named_raise (k : Nat) (rows : Entries Policy) :
    named cfg (rows.raise k) = named cfg rows := by
  unfold named
  rw [Entries.get?_raise, Entries.get?_raise]
  cases Table.get? Definition.dictionaryFileKey rows with
  | none => rfl
  | some names =>
    cases Table.get? Definition.dictionaryKey rows with
    | none => cases names <;> rfl
    | some values => cases names <;> rfl

/-! ## The store after an inclusion -/

/-- The policies of a file are put on top of a store, and the first of them in a block. -/
def fed (s own : Store) (b : Policy) : Store :=
  (s.above own).setEntries b
    (Table.insert Definition.dictionaryKey (.policies [⟨s.size⟩]) (s.entries b))

/-- A block that waits for a file, and the file. -/
structure Meal (s : Store) (p b : Policy) (own : Store) : Prop where
  wellFormed : s.WellFormed
  full : s.Full
  lt_size : p.id < s.size
  isBlock : IsBlock s (s.entries p) b
  waits : ∃ f, Table.get? Definition.dictionaryKey (s.entries b) = some (.files [f])
  /-- The block is not the policy that holds the definitions by name. -/
  apart : ∀ inner, Inner s (s.entries p) inner →
    Entries.child? Schema.definitionsKey inner ≠ some b
  tidy : own.Tidy
  size_pos : 0 < own.size

namespace Meal

variable (h : Meal s p b own)

include h

theorem lt_of_isBlock (hc : IsBlock s (s.entries p) c) : c.id < s.size := by
  obtain ⟨d, hd, hreach⟩ := reaches_of_isBlock h.wellFormed hc
  exact h.wellFormed.lt_of_reaches h.lt_size (hreach.head hd)

theorem block_lt : b.id < s.size := h.lt_of_isBlock h.isBlock

theorem child?_eq_none : Entries.child? Definition.dictionaryKey (s.entries b) = none := by
  obtain ⟨f, hget⟩ := h.waits
  rw [Entries.child?, hget]

theorem entries_self : (fed s own b).entries b =
    Table.insert Definition.dictionaryKey (.policies [⟨s.size⟩]) (s.entries b) := by
  refine Store.entries_setEntries_self ?_ _
  rw [Store.size_above]
  exact Nat.lt_add_right _ h.block_lt

omit h in
theorem entries_of_ne (hq : q.id < s.size) (hne : q ≠ b) :
    (fed s own b).entries q = s.entries q := by
  rw [fed, Store.entries_setEntries_of_ne hne, Store.entries, Store.node_above_of_lt hq,
    Store.entries]

theorem raise_ne (q : Policy) : q.raise s.size ≠ b := by
  rintro rfl
  exact Nat.not_lt_of_le (Nat.le_add_left _ _) h.block_lt

theorem raised : Raised s.size own (fed s own b) := fun q => by
  rw [fed, Store.entries_setEntries_of_ne (h.raise_ne q), Store.entries_above_raise]

omit h in
theorem size_eq : (fed s own b).size = s.size + own.size := by
  rw [fed, Store.size_setEntries, Store.size_above]

/-- Apart from its dictionary, a block is as it was. -/
theorem get?_eq (hq : q.id < s.size) {key : String} (hkey : key ≠ Definition.dictionaryKey) :
    Table.get? key ((fed s own b).entries q) = Table.get? key (s.entries q) := by
  by_cases hne : q = b
  · rw [hne, h.entries_self, Table.get?_insert_of_ne hkey]
  · rw [entries_of_ne hq hne]

theorem child?_eq (hq : q.id < s.size) {key : String} (hkey : key ≠ Definition.dictionaryKey) :
    Entries.child? key ((fed s own b).entries q) = Entries.child? key (s.entries q) := by
  rw [Entries.child?, h.get?_eq hq hkey, Entries.child?]

theorem child?_self : Entries.child? Definition.dictionaryKey ((fed s own b).entries b) =
    some ⟨s.size⟩ := by
  rw [h.entries_self, Entries.child?, Table.get?_insert_self]
  rfl

theorem fed_wellFormed : (fed s own b).WellFormed := by
  refine (h.wellFormed.above h.tidy.toWellFormed).setEntries
    (Table.sorted_insert (h.wellFormed.sorted b) _ _) fun c hc => ?_
  rw [Store.size_above]
  obtain ⟨row, hrow, hc⟩ := List.mem_flatMap.mp hc
  rcases Table.mem_of_mem_insert hrow with rfl | hrow
  · cases List.mem_singleton.mp hc
    exact Nat.lt_add_of_pos_right h.size_pos
  · exact Nat.lt_add_right _ (h.wellFormed.closed b c (List.mem_flatMap.mpr ⟨row, hrow, hc⟩))

theorem fed_full : (fed s own b).Full := by
  refine (h.full.above h.tidy.full).setEntries fun row hrow => ?_
  rcases Table.mem_of_mem_insert hrow with rfl | hrow
  · rfl
  · exact h.full b row hrow

/-! ## What is reached -/

theorem below_cases (hq : q.id < s.size) (hc : c ∈ (fed s own b).below q) :
    c ∈ s.below q ∨ c = (⟨0⟩ : Policy).raise s.size := by
  by_cases hne : q = b
  · subst hne
    rw [Store.below, h.entries_self] at hc
    obtain ⟨row, hrow, hc⟩ := List.mem_flatMap.mp hc
    rcases Table.mem_of_mem_insert hrow with rfl | hrow
    · right
      rw [List.mem_singleton.mp hc, root_eq_raise]
    · exact Or.inl (List.mem_flatMap.mpr ⟨row, hrow, hc⟩)
  · rw [Store.below, entries_of_ne hq hne] at hc
    exact Or.inl hc

theorem below_raise (q : Policy) : (fed s own b).below (q.raise s.size) =
    (own.below q).map (Policy.raise s.size) := by
  rw [← Store.below_above_raise s own q]
  exact Store.below_congr ((h.raised q).trans (Store.entries_above_raise s own q).symm)

theorem mem_below (hq : q.id < s.size) (hc : c ∈ s.below q) : c ∈ (fed s own b).below q := by
  obtain ⟨key, children, hrow, hc⟩ := Store.mem_below_iff.mp hc
  refine Store.mem_below_iff.mpr ⟨key, children, Table.mem_of_get? ?_, hc⟩
  have hget := Table.get?_of_mem (h.wellFormed.sorted q) hrow
  by_cases hne : q = b
  · rw [h.get?_eq hq, hget]
    rintro rfl
    obtain ⟨f, hfiles⟩ := h.waits
    rw [← hne, hget] at hfiles
    cases hfiles
  · rw [entries_of_ne hq hne, hget]

/-- Nothing that was reached is lost. -/
theorem reaches_fed (hq : s.Reaches p q) : (fed s own b).Reaches p q := by
  induction hq with
  | refl => exact .refl
  | tail hreach hstep ih =>
    exact ih.tail (h.mem_below (h.wellFormed.lt_of_reaches h.lt_size hreach) hstep)

theorem reaches_cases (hq : (fed s own b).Reaches p q) :
    s.Reaches p q ∨ ∃ r, q = r.raise s.size ∧ own.Reaches ⟨0⟩ r := by
  induction hq with
  | refl => exact Or.inl .refl
  | tail _ hstep ih =>
    rcases ih with hreach | ⟨r, rfl, hreach⟩
    · rcases h.below_cases (h.wellFormed.lt_of_reaches h.lt_size hreach) hstep with hc | rfl
      · exact Or.inl (hreach.tail hc)
      · exact Or.inr ⟨⟨0⟩, rfl, .refl⟩
    · rw [h.below_raise] at hstep
      obtain ⟨c, hc, rfl⟩ := List.mem_map.mp hstep
      exact Or.inr ⟨c, rfl, hreach.tail hc⟩

/-! ## Blocks -/

theorem mem_blocks_fed_iff (hq : q.id < s.size) (hinner : Inner s (s.entries p) (s.entries q)) :
    c ∈ blocks (fed s own b) ((fed s own b).entries q) ↔ c ∈ blocks s (s.entries q) := by
  rw [mem_blocks_iff h.fed_wellFormed, mem_blocks_iff h.wellFormed, h.child?_eq hq (by decide),
    h.child?_eq hq (by decide)]
  refine or_congr_left (exists_congr fun definitions => exists_congr fun key =>
    and_congr_right fun hdefinitions => ?_)
  have hne : definitions ≠ b := by
    rintro rfl
    exact h.apart _ hinner hdefinitions
  rw [entries_of_ne (h.wellFormed.closed q _ (Entries.mem_of_child? hdefinitions)) hne]

theorem isBlock_cases_of_inner {rows' : Entries Policy} (hc : IsBlock (fed s own b) rows' c) :
    ∀ {q : Policy}, q.id < s.size → Inner s (s.entries p) (s.entries q) →
      rows' = (fed s own b).entries q → IsBlock s (s.entries q) c ∨
        ∃ r, c = r.raise s.size ∧ IsBlock own (own.entries ⟨0⟩) r := by
  induction hc with
  | own hc =>
    rintro q hq hinner rfl
    exact Or.inl (.own ((h.mem_blocks_fed_iff hq hinner).mp hc))
  | @inside _ a sub c ha hsub hc ih =>
    rintro q hq hinner rfl
    have ha := (h.mem_blocks_fed_iff hq hinner).mp ha
    have hblock := hinner.isBlock ha
    by_cases hab : a = b
    · -- The dictionary that has come from the file.
      subst hab
      rw [h.child?_self] at hsub
      cases hsub
      rw [root_eq_raise, h.raised] at hc
      exact Or.inr ((isBlock_raise_iff h.raised h.tidy.toWellFormed h.fed_wellFormed).mp hc)
    · have hlt : a.id < s.size := h.lt_of_isBlock hblock
      rw [entries_of_ne hlt hab] at hsub
      have hsub_lt := h.wellFormed.closed a sub (Entries.mem_of_child? hsub)
      refine (ih hsub_lt (Or.inr ⟨a, sub, hblock, hsub, rfl⟩) rfl).imp_left fun hc => ?_
      exact .inside ha hsub hc

theorem isBlock_of_inner {rows : Entries Policy} (hc : IsBlock s rows c) :
    ∀ {q : Policy}, q.id < s.size → Inner s (s.entries p) (s.entries q) →
      rows = s.entries q → IsBlock (fed s own b) ((fed s own b).entries q) c := by
  induction hc with
  | own hc =>
    rintro q hq hinner rfl
    exact .own ((h.mem_blocks_fed_iff hq hinner).mpr hc)
  | @inside _ a sub c ha hsub _ ih =>
    rintro q hq hinner rfl
    have hblock := hinner.isBlock ha
    have hab : a ≠ b := by
      rintro rfl
      rw [h.child?_eq_none] at hsub
      cases hsub
    have hsub_lt := h.wellFormed.closed a sub (Entries.mem_of_child? hsub)
    refine .inside ((h.mem_blocks_fed_iff hq hinner).mpr ha) ?_
      (ih hsub_lt (Or.inr ⟨a, sub, hblock, hsub, rfl⟩) rfl)
    rw [entries_of_ne (h.lt_of_isBlock hblock) hab, hsub]

theorem isBlock_fed (hc : IsBlock s (s.entries p) c) :
    IsBlock (fed s own b) ((fed s own b).entries p) c :=
  h.isBlock_of_inner hc h.lt_size (Or.inl rfl) rfl

theorem isBlock_fed_raise (hc : IsBlock own (own.entries ⟨0⟩) c) :
    IsBlock (fed s own b) ((fed s own b).entries p) (c.raise s.size) := by
  refine (h.isBlock_fed h.isBlock).of_sub h.child?_self ?_
  rw [root_eq_raise, h.raised]
  exact (isBlock_raise_iff h.raised h.tidy.toWellFormed h.fed_wellFormed).mpr ⟨c, rfl, hc⟩

/-- The blocks are those that there were, and those of the file. -/
theorem isBlock_fed_iff : IsBlock (fed s own b) ((fed s own b).entries p) c ↔
    IsBlock s (s.entries p) c ∨ ∃ r, c = r.raise s.size ∧ IsBlock own (own.entries ⟨0⟩) r := by
  constructor
  · exact fun hc => h.isBlock_cases_of_inner hc h.lt_size (Or.inl rfl) rfl
  · rintro (hc | ⟨r, rfl, hr⟩)
    · exact h.isBlock_fed hc
    · exact h.isBlock_fed_raise hr

theorem own_lt (hc : IsBlock own (own.entries ⟨0⟩) c) : c.id < own.size := by
  obtain ⟨d, hd, hreach⟩ := reaches_of_isBlock h.tidy.toWellFormed hc
  exact h.tidy.toWellFormed.lt_of_reaches h.size_pos (hreach.head hd)

theorem blocksBelow_fed : blocksBelow (fed s own b) ((fed s own b).entries p) =
    blocksBelow s (s.entries p) ∪
      (blocksBelow own (own.entries ⟨0⟩)).image (Policy.raise s.size) := by
  ext c
  rw [Finset.mem_union, Finset.mem_image, mem_blocksBelow_iff, mem_blocksBelow_iff,
    h.isBlock_fed_iff, size_eq]
  constructor
  · rintro ⟨_, hc | ⟨r, rfl, hr⟩⟩
    · exact Or.inl ⟨h.lt_of_isBlock hc, hc⟩
    · exact Or.inr ⟨r, mem_blocksBelow_iff.mpr ⟨h.own_lt hr, hr⟩, rfl⟩
  · rintro (⟨hlt, hc⟩ | ⟨r, hr, rfl⟩)
    · exact ⟨Nat.lt_add_right _ hlt, Or.inl hc⟩
    · obtain ⟨hlt, hr⟩ := mem_blocksBelow_iff.mp hr
      refine ⟨?_, Or.inr ⟨r, rfl, hr⟩⟩
      show r.id + s.size < s.size + own.size
      omega

/-- What the blocks add up to, with those of the file. -/
theorem gather_fed (mark : Entries Policy → Multiset String)
    (hmark : ∀ k rows, mark (Entries.raise k rows) = mark rows) :
    gather mark (fed s own b) ((fed s own b).entries p) + mark (s.entries b) =
      gather mark s (s.entries p) + mark ((fed s own b).entries b) +
        gather mark own (own.entries ⟨0⟩) := by
  have hdisjoint : Disjoint (blocksBelow s (s.entries p))
      ((blocksBelow own (own.entries ⟨0⟩)).image (Policy.raise s.size)) := by
    rw [Finset.disjoint_left]
    intro c hc hraised
    obtain ⟨r, _, rfl⟩ := Finset.mem_image.mp hraised
    exact Nat.not_lt_of_le (Nat.le_add_left _ _) (mem_blocksBelow_iff.mp hc).1
  have hinj : ∀ q ∈ blocksBelow own (own.entries ⟨0⟩),
      ∀ r ∈ blocksBelow own (own.entries ⟨0⟩), q.raise s.size = r.raise s.size → q = r := by
    rintro ⟨q⟩ _ ⟨r⟩ _ heq
    exact congrArg Policy.mk (Nat.add_right_cancel (congrArg Policy.id heq))
  have hold : ∑ q ∈ blocksBelow s (s.entries p), mark (s.entries q) +
      mark ((fed s own b).entries b) =
        ∑ q ∈ blocksBelow s (s.entries p), mark ((fed s own b).entries q) + mark (s.entries b) :=
    sum_mark_of_one (mem_blocksBelow_iff.mpr ⟨h.block_lt, h.isBlock⟩)
      fun q hq hne => entries_of_ne (mem_blocksBelow_iff.mp hq).1 hne
  rw [gather, h.blocksBelow_fed, Finset.sum_union hdisjoint, Finset.sum_image hinj, gather, gather]
  simp only [h.raised _, hmark]
  rw [hold, add_right_comm]

/-- The names in a file come on top of the others. -/
theorem names_fed : names cfg (fed s own b) ((fed s own b).entries p) =
    names cfg s (s.entries p) + names cfg own (own.entries ⟨0⟩) := by
  have hbefore : ¬Pending (s.entries b) := fun hpending => by
    obtain ⟨f, hget⟩ := h.waits
    cases hget.symm.trans hpending.2
  have hafter : ¬Pending ((fed s own b).entries b) := fun hpending => by
    have hget := hpending.2
    rw [h.entries_self, Table.get?_insert_self] at hget
    cases hget
  have hsum := h.gather_fed (named cfg) fun k rows => named_raise k rows
  rwa [named_of_not_pending hbefore, named_of_not_pending hafter, add_zero, add_zero] at hsum

omit h in
theorem dictionary?_fed_of_lt (hq : q.id < s.size) :
    (fed s own b).dictionary? q = s.dictionary? q := by
  rw [fed, Store.dictionary?_setEntries, Store.dictionary?, Store.node_above_of_lt hq,
    Store.dictionary?]

theorem dictionary?_fed_raise (q : Policy) :
    (fed s own b).dictionary? (q.raise s.size) = none := by
  rw [fed, Store.dictionary?_setEntries, Store.dictionary?_above_raise, h.tidy.plain]

/-- The dictionaries are those that there were, apart from the block, and those of the file. -/
theorem inner_cases {inner : Entries Policy}
    (hinner : Inner (fed s own b) ((fed s own b).entries p) inner) :
    (∃ q, q.id < s.size ∧ Inner s (s.entries p) (s.entries q) ∧ inner = (fed s own b).entries q) ∨
      ∃ before, inner = Entries.raise s.size before ∧ Inner own (own.entries ⟨0⟩) before := by
  rcases hinner with rfl | ⟨a, sub, ha, hsub, rfl⟩
  · exact Or.inl ⟨p, h.lt_size, Or.inl rfl, rfl⟩
  rcases h.isBlock_fed_iff.mp ha with ha | ⟨r, rfl, hr⟩
  · by_cases hab : a = b
    · subst hab
      rw [h.child?_self] at hsub
      cases hsub
      refine Or.inr ⟨own.entries ⟨0⟩, ?_, Or.inl rfl⟩
      rw [root_eq_raise, h.raised]
    · have hlt := h.lt_of_isBlock ha
      rw [entries_of_ne hlt hab] at hsub
      exact Or.inl ⟨sub, h.wellFormed.closed a sub (Entries.mem_of_child? hsub),
        Or.inr ⟨a, sub, ha, hsub, rfl⟩, rfl⟩
  · rw [h.raised, child?_raise] at hsub
    obtain ⟨inner, hinner, rfl⟩ := Option.map_eq_some_iff.mp hsub
    exact Or.inr ⟨own.entries inner, h.raised inner, Or.inr ⟨r, inner, hr, hinner, rfl⟩⟩

end Meal

theorem Inner.reaches {inner : Entries Policy} (h : Inner s (s.entries p) inner) (hs : s.WellFormed)
    (hc : c ∈ inner.flatMap fun row => row.2.children) : s.Reaches p c := by
  rcases h with rfl | ⟨a, sub, ha, hsub, rfl⟩
  · exact .single hc
  · obtain ⟨d, hd, hreach⟩ := reaches_of_isBlock hs ha
    exact ((hreach.head hd).tail (Entries.mem_of_child? hsub)).tail hc

/-! ## A dictionary during a round -/

theorem OnlyNames.clean_root (h : OnlyNames own (own.entries p)) : own.Clean p := by
  intro q hq
  rcases Relation.ReflTransGen.cases_head hq with rfl | ⟨c, hc, hreach⟩
  · exact h.references
  · exact h.clean c hc q hreach

namespace Prepared

variable (h : Prepared cfg P p s)

include h

theorem meal {key : String} {fs : List FileRef} (hb : s.Reaches p b)
    (hrow : (key, Values.files fs) ∈ s.entries b) (htidy : own.Tidy) (hsize : 0 < own.size) :
    Meal s p b own where
  wellFormed := h.toWellFormed
  full := h.full
  lt_size := h.lt_size
  isBlock := (h.references b hb key fs hrow).1
  waits := by
    obtain ⟨_, rfl, f, rfl, _⟩ := h.references b hb key fs hrow
    exact ⟨f, Table.get?_of_mem (h.sorted b) hrow⟩
  apart inner hinner hchild := by
    have hmem := Include.mem_references_iff.mpr hrow
    rw [(h.definitions inner b hinner hchild).1] at hmem
    cases hmem
  tidy := htidy
  size_pos := hsize

section Feed

variable (hmeal : Meal s p b own)

include hmeal

theorem references_fed : Include.references ((fed s own b).entries b) = [] := by
  rw [List.eq_nil_iff_forall_not_mem]
  rintro ⟨key, fs⟩ hmem
  have hrow := Include.mem_references_iff.mp hmem
  have hfound := Table.get?_of_mem (hmeal.fed_wellFormed.sorted b) hrow
  rw [hmeal.entries_self] at hrow hfound
  rcases Table.mem_of_mem_insert hrow with heq | hrow
  · cases heq
  · obtain ⟨_, rfl, _⟩ := h.references b (h.reaches hmeal.isBlock) key fs hrow
    rw [Table.get?_insert_self] at hfound
    cases hfound

omit hmeal in
theorem references_waiting (hb : s.Reaches p b)
    (hget : Table.get? Definition.dictionaryKey (s.entries b) = some (.files [f])) :
    Include.references (s.entries b) = [(Definition.dictionaryKey, [f])] :=
  Include.references_eq_singleton (h.sorted b) hget fun _ _ hrow => (h.references b hb _ _ hrow).2.1

variable (hown : OnlyNames own (own.entries ⟨0⟩))

include hown

/-- One reference less is left. -/
theorem awaited_fed (hget : Table.get? Definition.dictionaryKey (s.entries b) = some (.files [f])) :
    gather (awaited cfg) s (s.entries p) = {f.resolve cfg.repository} +
      gather (awaited cfg) (fed s own b) ((fed s own b).entries p) := by
  have hinside : gather (awaited cfg) own (own.entries ⟨0⟩) = 0 := gather_eq_zero fun c hc => by
    obtain ⟨d, hd, hreach⟩ := reaches_of_isBlock hmeal.tidy.toWellFormed hc
    exact awaited_of_references_eq_nil (hown.clean_root c (hreach.head hd))
  have hsum := hmeal.gather_fed (awaited cfg) fun k rows => by
    rw [awaited, Store.references_raise, awaited]
  rw [awaited_of_references_eq_nil (h.references_fed hmeal),
    awaited_of_references (h.references_waiting (h.reaches hmeal.isBlock) hget), hinside, add_zero,
    add_zero, add_comm] at hsum
  exact hsum.symm

theorem references_of_reaches_fed (hq : (fed s own b).Reaches p q) {key : String}
    {fs : List FileRef} (hrow : (key, Values.files fs) ∈ (fed s own b).entries q) :
    IsBlock (fed s own b) ((fed s own b).entries p) q ∧ key = Definition.dictionaryKey ∧
      ∃ f, fs = [f] ∧ P (f.resolve cfg.repository) := by
  have hmem := Include.mem_references_iff.mpr hrow
  rcases hmeal.reaches_cases hq with hq | ⟨r, rfl, hr⟩
  · by_cases hqb : q = b
    · subst hqb
      rw [h.references_fed hmeal] at hmem
      cases hmem
    · rw [Meal.entries_of_ne (h.lt_of_reaches h.lt_size hq) hqb] at hrow
      exact (h.references q hq key fs hrow).imp_left hmeal.isBlock_fed
  · rw [hmeal.raised, Store.references_raise, hown.clean_root r hr] at hmem
    cases hmem

theorem texts_fed (hc : IsBlock (fed s own b) ((fed s own b).entries p) c) {names : Values Policy}
    (hnames : Table.get? Definition.dictionaryFileKey ((fed s own b).entries c) = some names) :
    names.kind = .string := by
  rcases hmeal.isBlock_fed_iff.mp hc with hc | ⟨r, rfl, hr⟩
  · rw [hmeal.get?_eq (hmeal.lt_of_isBlock hc) (by decide)] at hnames
    exact h.texts c hc names hnames
  · rw [hmeal.raised, Entries.get?_raise] at hnames
    obtain ⟨before, hbefore, rfl⟩ := Option.map_eq_some_iff.mp hnames
    rw [Values.kind_map]
    exact hown.texts r hr before hbefore

theorem definitions_fed {inner : Entries Policy}
    (hinner : Inner (fed s own b) ((fed s own b).entries p) inner)
    (hc : Entries.child? Schema.definitionsKey inner = some c) :
    Include.references ((fed s own b).entries c) = [] ∧ ∀ names,
      Table.get? Definition.dictionaryFileKey ((fed s own b).entries c) = some names →
        names.kind ≠ .string := by
  rcases hmeal.inner_cases hinner with ⟨q, hq, hold, rfl⟩ | ⟨before, rfl, hbefore⟩
  · rw [hmeal.child?_eq hq (by decide)] at hc
    have hne : c ≠ b := by
      rintro rfl
      exact hmeal.apart _ hold hc
    rw [Meal.entries_of_ne (h.closed q c (Entries.mem_of_child? hc)) hne]
    exact h.definitions _ c hold hc
  · rw [child?_raise] at hc
    obtain ⟨d, hd, rfl⟩ := Option.map_eq_some_iff.mp hc
    rw [hmeal.raised, Store.references_raise]
    have hreach := hbefore.reaches hmeal.tidy.toWellFormed (Entries.mem_of_child? hd)
    refine ⟨hown.clean_root d hreach, fun names hnames => ?_⟩
    rw [Entries.get?_raise] at hnames
    obtain ⟨found, hfound, rfl⟩ := Option.map_eq_some_iff.mp hnames
    rw [Values.kind_map]
    exact hown.definitions before d hbefore hd found hfound

/-- A dictionary stays prepared when a file is included. -/
theorem feed (hfiles : ∀ path ∈ names cfg own (own.entries ⟨0⟩), P path) :
    Prepared cfg P p (fed s own b) where
  toWellFormed := hmeal.fed_wellFormed
  full := hmeal.fed_full
  lt_size := by
    rw [Meal.size_eq]
    exact Nat.lt_add_right _ h.lt_size
  plain q hq := by
    rcases hmeal.reaches_cases hq with hq | ⟨r, rfl, _⟩
    · rw [Meal.dictionary?_fed_of_lt (h.lt_of_reaches h.lt_size hq)]
      exact h.plain q hq
    · exact hmeal.dictionary?_fed_raise r
  references _ hq _ _ hrow := h.references_of_reaches_fed hmeal hown hq hrow
  texts _ hc _ hnames := h.texts_fed hmeal hown hc hnames
  definitions _ _ hinner hc := h.definitions_fed hmeal hown hinner hc
  files path hpath := by
    rw [hmeal.names_fed] at hpath
    rcases Multiset.mem_add.mp hpath with hpath | hpath
    · exact h.files path hpath
    · exact hfiles path hpath

end Feed

end Prepared

end Dictionary

end PolicyStore
