import PolicyStore.DictionaryFiles
import PolicyStore.Proofs.Schema.Blame
import PolicyStore.Proofs.Store.Trees
import PolicyStore.Proofs.Text.Naming

set_option autoImplicit false

namespace PolicyStore

/-!
# Definition blocks in a store

A schema is read out of the rows of a dictionary. Its blocks are policies of the store, and so are
the dictionaries inside them, so that lookups can be followed in the store as well.
-/

namespace Store

/-- The policies in some rows are part of the store and do not hold themselves. -/
structure Bears (s : Store) (rows : Entries Policy) : Prop where
  lt_size : ∀ c ∈ rows.flatMap fun row => row.2.children, c.id < s.size
  founded : ∀ c ∈ rows.flatMap fun row => row.2.children, ∃ n, s.Within n c

variable {s : Store} {rows : Entries Policy} {c : Policy}

theorem Bears.below (h : s.Bears rows) (hs : s.WellFormed)
    (hc : c ∈ rows.flatMap fun row => row.2.children) : s.Bears (s.entries c) where
  lt_size := hs.closed c
  founded d hd := by
    obtain ⟨n, hn⟩ := h.founded c hc
    exact ⟨n, hn.of_mem_below hd⟩

/-- Where the policies of a dictionary and those below them have not changed, it reads as before. -/
theorem Bears.schema_eq {s' : Store} {d : Dictionary} (h : s.Bears d.entries) (hs : s.WellFormed)
    (hs' : s'.WellFormed) (hle : s.size ≤ s'.size)
    (hnode : ∀ c ∈ d.entries.flatMap fun row => row.2.children, ∀ r, s.Reaches c r →
      s'.node r = s.node r) : s'.schema d = s.schema d := by
  unfold schema treesOf
  refine congrArg Schema.mk (List.map_congr_left fun row hrow => ?_)
  refine congrArg (Prod.mk row.1) (Values.map_congr fun c hc => ?_)
  have hmem : c ∈ d.entries.flatMap fun row => row.2.children :=
    List.mem_flatMap.mpr ⟨row, hrow, hc⟩
  obtain ⟨n, hn⟩ := h.founded c hmem
  have hclosed (r : Policy) (hr : s.Reaches c r) (b : Policy) (hb : b ∈ s.below r) :
      s.Reaches c b := hr.tail hb
  have hrows (r : Policy) (hr : s.Reaches c r) : s'.entries r = s.entries r := by
    rw [entries, hnode c hmem r hr, entries]
  show s'.tree c = s.tree c
  rw [hs'.tree_eq ((h.lt_size c hmem).trans_le hle) (within_congr hclosed hrows .refl hn),
    hs.tree_eq (h.lt_size c hmem) hn]
  refine unfold_congr hclosed hrows (fun r hr => ?_) .refl
  rw [dictionary?, hnode c hmem r hr, dictionary?]

theorem Bears.entries_tree (h : s.Bears rows) (hs : s.WellFormed)
    (hc : c ∈ rows.flatMap fun row => row.2.children) :
    (s.tree c).entries = s.treesOf (s.entries c) := by
  obtain ⟨n, hn⟩ := h.founded c hc
  exact hs.entries_tree (h.lt_size c hc) hn

end Store

namespace Dictionary

variable {s : Store} {rows : Entries Policy} {name : String} {b c : Policy}

/-! ## Blocks -/

theorem exists_child?_iff (hsorted : Table.Sorted rows) :
    (∃ row ∈ rows, row.2.children.getLast? = some c) ↔ ∃ key, Entries.child? key rows = some c := by
  constructor
  · rintro ⟨⟨key, values⟩, hrow, hlast⟩
    cases values with
    | policies children =>
      exact ⟨key, Entries.child?_eq_some_iff.mpr ⟨children, Table.get?_of_mem hsorted hrow, hlast⟩⟩
    | _ => cases hlast
  · rintro ⟨key, hchild⟩
    obtain ⟨children, hget, hlast⟩ := Entries.child?_eq_some_iff.mp hchild
    exact ⟨(key, .policies children), Table.mem_of_get? hget, hlast⟩

theorem mem_blocks_iff (hs : s.WellFormed) : b ∈ blocks s rows ↔
    (∃ definitions key, Entries.child? Schema.definitionsKey rows = some definitions ∧
      Entries.child? key (s.entries definitions) = some b) ∨
      Entries.child? Schema.childKey rows = some b := by
  rw [blocks, List.mem_append, Option.mem_toList]
  apply or_congr_left
  cases Entries.child? Schema.definitionsKey rows with
  | none => simp
  | some definitions =>
    simp only [List.mem_filterMap, exists_child?_iff (hs.sorted definitions), Option.some.injEq,
      exists_eq_left', exists_and_left]

/-- The blocks of a dictionary and of the dictionaries inside its blocks. -/
inductive IsBlock (s : Store) : Entries Policy → Policy → Prop
  | own {rows : Entries Policy} {b : Policy} : b ∈ blocks s rows → IsBlock s rows b
  | inside {rows : Entries Policy} {b sub c : Policy} : b ∈ blocks s rows →
      Entries.child? Definition.dictionaryKey (s.entries b) = some sub →
      IsBlock s (s.entries sub) c → IsBlock s rows c

/-- A dictionary file is named where there is no dictionary. -/
def Pending (rows : Entries Policy) : Prop :=
  (Table.get? Definition.dictionaryFileKey rows).isSome = true ∧
    Table.get? Definition.dictionaryKey rows = none

theorem exists_reaches_of_mem_blocks (hs : s.WellFormed) (hb : b ∈ blocks s rows) :
    ∃ c ∈ rows.flatMap fun row => row.2.children, s.Reaches c b := by
  rcases (mem_blocks_iff hs).mp hb with ⟨definitions, key, hdefinitions, hb⟩ | hb
  · exact ⟨definitions, Entries.mem_of_child? hdefinitions, .single (Entries.mem_of_child? hb)⟩
  · exact ⟨b, Entries.mem_of_child? hb, .refl⟩

theorem reaches_of_isBlock (hs : s.WellFormed) (h : IsBlock s rows b) :
    ∃ c ∈ rows.flatMap fun row => row.2.children, s.Reaches c b := by
  induction h with
  | own hb => exact exists_reaches_of_mem_blocks hs hb
  | inside hb hsub _ ih =>
    obtain ⟨c, hc, hreach⟩ := exists_reaches_of_mem_blocks hs hb
    obtain ⟨e, he, hreach'⟩ := ih
    exact ⟨c, hc, (hreach.tail (Entries.mem_of_child? hsub)).trans (hreach'.head he)⟩

theorem lt_size_of_mem_blocks (hs : s.WellFormed) (hrows : s.Bears rows) (h : b ∈ blocks s rows) :
    b.id < s.size := by
  obtain ⟨c, hc, hreach⟩ := exists_reaches_of_mem_blocks hs h
  exact hs.lt_of_reaches (hrows.lt_size c hc) hreach

theorem bears_of_mem_blocks (hs : s.WellFormed) (hrows : s.Bears rows) (h : b ∈ blocks s rows) :
    s.Bears (s.entries b) := by
  obtain ⟨c, hc, hreach⟩ := exists_reaches_of_mem_blocks hs h
  obtain ⟨n, hn⟩ := hrows.founded c hc
  exact ⟨hs.closed b, fun d hd => ⟨n, (hn.of_reaches hreach).of_mem_below hd⟩⟩

/-- Stores that agree on some policies have the same blocks among them. -/
theorem IsBlock.congr {s' : Store} (hs : s.WellFormed) (hs' : s'.WellFormed) {P : Policy → Prop}
    (hclosed : ∀ q, P q → ∀ c ∈ s.below q, P c) (hsame : ∀ q, P q → s'.entries q = s.entries q)
    (hrows : ∀ c ∈ rows.flatMap fun row => row.2.children, P c) (hb : IsBlock s rows b) :
    IsBlock s' rows b ∧ P b := by
  have hblocks {rows : Entries Policy} (hrows : ∀ c ∈ rows.flatMap fun row => row.2.children, P c)
      {b : Policy} (hb : b ∈ blocks s rows) : b ∈ blocks s' rows ∧ P b := by
    rcases (mem_blocks_iff hs).mp hb with ⟨definitions, key, hdefinitions, hb⟩ | hb
    · have hP := hrows _ (Entries.mem_of_child? hdefinitions)
      refine ⟨(mem_blocks_iff hs').mpr (Or.inl ⟨definitions, key, hdefinitions, ?_⟩),
        hclosed _ hP b (Entries.mem_of_child? hb)⟩
      rwa [hsame definitions hP]
    · exact ⟨(mem_blocks_iff hs').mpr (Or.inr hb), hrows b (Entries.mem_of_child? hb)⟩
  induction hb with
  | own hb => exact ⟨.own (hblocks hrows hb).1, (hblocks hrows hb).2⟩
  | @inside rows b sub c hb hsub _ ih =>
    obtain ⟨hb', hP⟩ := hblocks hrows hb
    have hsub' := hclosed b hP sub (Entries.mem_of_child? hsub)
    obtain ⟨hinner, hc⟩ := ih (hclosed sub hsub')
    rw [← hsame sub hsub'] at hinner
    rw [← hsame b hP] at hsub
    exact ⟨.inside hb' hsub hinner, hc⟩

/-! ## Descriptions -/

/-- What the block of definitions holds for a name without dots. -/
def own? (s : Store) (rows : Entries Policy) (name : String) : Option (Values Policy) :=
  (Entries.child? Schema.definitionsKey rows).bind fun definitions =>
    Table.get? name (s.entries definitions)

inductive Describes (s : Store) (rows : Entries Policy) (name : String) : Policy → Prop
  | own {blocks : List Policy} {b : Policy} : own? s rows name = some (.policies blocks) →
      blocks.getLast? = some b → Describes s rows name b
  | child {b : Policy} : own? s rows name = none →
      Entries.child? Schema.childKey rows = some b → Describes s rows name b

theorem Describes.mem_blocks (hs : s.WellFormed) (h : Describes s rows name b) :
    b ∈ blocks s rows := by
  apply (mem_blocks_iff hs).mpr
  cases h with
  | own hget hlast =>
    obtain ⟨definitions, hdefinitions, hget⟩ := Option.bind_eq_some_iff.mp hget
    exact Or.inl ⟨definitions, name, hdefinitions, Entries.child?_eq_some_iff.mpr ⟨_, hget, hlast⟩⟩
  | child _ hchild => exact Or.inr hchild

section Reading

variable (hs : s.WellFormed) (hrows : s.Bears rows)

include hs hrows

theorem own?_treesOf (hname : Name.segments name = .ok [name]) :
    (⟨s.treesOf rows⟩ : Schema).own? name = (own? s rows name).map (Values.map s.tree) := by
  rw [Schema.own?, Schema.definitions?, Store.child?_treesOf, own?]
  cases hdefinitions : Entries.child? Schema.definitionsKey rows with
  | none => rfl
  | some definitions =>
    rw [Option.map_some, Option.bind_some, Option.bind_some, Tree.find?_of_segment hname,
      hrows.entries_tree hs (Entries.mem_of_child? hdefinitions), Store.get?_treesOf]

theorem describes_treesOf_iff (hname : Name.segments name = .ok [name]) {t : Tree} :
    (⟨s.treesOf rows⟩ : Schema).Describes name t ↔ ∃ b, Describes s rows name b ∧ s.tree b = t := by
  have hown := own?_treesOf hs hrows hname
  have hchild : (⟨s.treesOf rows⟩ : Schema).childBlock? =
      (Entries.child? Schema.childKey rows).map s.tree :=
    Store.child?_treesOf _ _ _
  constructor
  · intro h
    cases h with
    | own hget hlast =>
      rw [hown] at hget
      obtain ⟨values, hvalues, hmap⟩ := Option.map_eq_some_iff.mp hget
      cases values with
      | policies blocks =>
        cases hmap
        rw [List.getLast?_map] at hlast
        obtain ⟨b, hb, rfl⟩ := Option.map_eq_some_iff.mp hlast
        exact ⟨b, .own hvalues hb, rfl⟩
      | _ => cases hmap
    | child hget hblock =>
      rw [hown] at hget
      rw [hchild] at hblock
      obtain ⟨b, hb, rfl⟩ := Option.map_eq_some_iff.mp hblock
      exact ⟨b, .child (Option.map_eq_none_iff.mp hget) hb, rfl⟩
  · rintro ⟨b, h, rfl⟩
    cases h with
    | @own blocks _ hget hlast =>
      have hget' :
          (⟨s.treesOf rows⟩ : Schema).own? name = some (.policies (blocks.map s.tree)) := by
        rw [hown, hget]
        rfl
      refine .own hget' ?_
      rw [List.getLast?_map, hlast]
      rfl
    | child hget hblock =>
      refine .child ?_ ?_
      · rw [hown, hget]
        rfl
      · rw [hchild, hblock]
        rfl

theorem definition?_of_describes (hname : Name.segments name = .ok [name])
    (hb : Describes s rows name b) : (⟨s.treesOf rows⟩ : Schema).definition? name =
      some (Definition.ofBlock? name (s.treesOf (s.entries b))) := by
  have hentries : (s.tree b).entries = s.treesOf (s.entries b) := by
    obtain ⟨c, hc, hreach⟩ := exists_reaches_of_mem_blocks hs (hb.mem_blocks hs)
    obtain ⟨n, hn⟩ := hrows.founded c hc
    exact hs.entries_tree (hs.lt_of_reaches (hrows.lt_size c hc) hreach) (hn.of_reaches hreach)
  have hblock := Schema.block?_eq_ok_iff.mpr
    ((describes_treesOf_iff hs hrows hname).mpr ⟨b, hb, rfl⟩)
  rw [Schema.definition?, hblock, ← hentries]
  rfl

/-- A definition in the schema is read from a block in the store. -/
theorem exists_describes_of_definition? (hname : Name.segments name = .ok [name]) {d : Definition}
    (h : (⟨s.treesOf rows⟩ : Schema).definition? name = some (.ok d)) :
    ∃ b, Describes s rows name b ∧ Definition.ofBlock? name (s.treesOf (s.entries b)) = .ok d := by
  obtain ⟨t, ht, _⟩ := Schema.definition?_eq_ok_iff.mp h
  obtain ⟨b, hb, rfl⟩ := (describes_treesOf_iff hs hrows hname).mp ht
  rw [definition?_of_describes hs hrows hname hb] at h
  exact ⟨b, hb, Option.some.inj h⟩

end Reading

/-! ## Dictionaries inside blocks -/

theorem requireLayout_treesOf (s : Store) (rows : Entries Policy) :
    Schema.requireLayout (s.treesOf rows) = Schema.requireLayout rows := by
  have hblock (key : String) :
      Schema.requireBlock (s.treesOf rows) key = Schema.requireBlock rows key := by
    rw [Schema.requireBlock, Schema.requireBlock, Store.get?_treesOf]
    cases Table.get? key rows <;> simp
  simp only [Schema.requireLayout, hblock, Store.get?_treesOf, Option.isNone_map]

theorem last?_map_tree (s : Store) (key : String) (rows : Entries Policy) :
    (Table.get? key (s.treesOf rows)).bind Values.last? =
      ((Table.get? key rows).bind Values.last?).map (Value.map s.tree) := by
  rw [Store.get?_treesOf]
  cases Table.get? key rows with
  | none => rfl
  | some values =>
    rw [Option.map_some, Option.bind_some, Option.bind_some, Values.last?, Values.toList_map,
      List.getLast?_map, Values.last?]

theorem child?_of_last? {key : String} {c : Policy}
    (h : (Table.get? key rows).bind Values.last? = some (.policy c)) :
    Entries.child? key rows = some c := by
  obtain ⟨values, hget, hlast⟩ := Option.bind_eq_some_iff.mp h
  cases values with
  | policies children =>
    refine Entries.child?_eq_some_iff.mpr ⟨children, hget, ?_⟩
    rw [Values.last?, Values.toList, List.getLast?_map] at hlast
    obtain ⟨d, hd, hc⟩ := Option.map_eq_some_iff.mp hlast
    cases hc
    exact hd
  | _ =>
    rw [Values.last?, Values.toList, List.getLast?_map] at hlast
    obtain ⟨_, _, hc⟩ := Option.map_eq_some_iff.mp hlast
    cases hc

theorem last?_of_child? {key : String} {c : Policy} (h : Entries.child? key rows = some c) :
    (Table.get? key rows).bind Values.last? = some (.policy c) := by
  obtain ⟨children, hget, hlast⟩ := Entries.child?_eq_some_iff.mp h
  rw [hget, Option.bind_some, Values.last?, Values.toList, List.getLast?_map, hlast]
  rfl

theorem sub?_of_child? (hs : s.WellFormed) (hrows : s.Bears rows)
    (h : Entries.child? Definition.dictionaryKey rows = some c) :
    Definition.sub? name (s.treesOf rows) =
      match Schema.requireLayout (s.entries c) with
      | .ok _ => .ok (.inline ⟨s.treesOf (s.entries c)⟩)
      | .error fault => .error (.inside name fault) := by
  have hentries := hrows.entries_tree hs (Entries.mem_of_child? h)
  unfold Definition.sub?
  rw [last?_map_tree, last?_of_child? h]
  simp only [Option.map_some, Value.map, Schema.ofEntries?, hentries, requireLayout_treesOf]
  cases Schema.requireLayout (s.entries c) <;> rfl

theorem exists_child?_of_inline (hs : s.WellFormed) (hrows : s.Bears rows) {schema : Schema}
    (h : Definition.sub? name (s.treesOf rows) = .ok (.inline schema)) :
    ∃ c, Entries.child? Definition.dictionaryKey rows = some c ∧
      Schema.requireLayout (s.entries c) = .ok () ∧ schema = ⟨s.treesOf (s.entries c)⟩ := by
  cases hlast : (Table.get? Definition.dictionaryKey rows).bind Values.last? with
  | none =>
    unfold Definition.sub? at h
    simp only [last?_map_tree, hlast, Option.map_none] at h
    split at h <;> cases h
  | some v =>
    cases v with
    | policy c =>
      have hchild := child?_of_last? hlast
      rw [sub?_of_child? hs hrows hchild] at h
      cases hlayout : Schema.requireLayout (s.entries c) with
      | ok _ =>
        rw [hlayout] at h
        cases h
        exact ⟨c, hchild, hlayout, rfl⟩
      | error fault =>
        rw [hlayout] at h
        cases h
    | _ =>
      unfold Definition.sub? at h
      simp only [last?_map_tree, hlast, Option.map_some, Value.map] at h
      cases h

end Dictionary

end PolicyStore
