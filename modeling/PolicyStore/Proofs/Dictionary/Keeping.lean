import PolicyStore.Proofs.Dictionary.Aging
import PolicyStore.Proofs.Dictionary.Loading
import PolicyStore.Proofs.Schema.Included

set_option autoImplicit false

namespace PolicyStore

/-!
# Blocks that loading keeps

A block of a dictionary is read as before once the files are loaded, with policies in the place of
references and with its dictionary loaded. Only if that is no dictionary can it not be read.
-/

theorem Filled.included {P : FileRef → Policy → Prop} {vs vs' : Values Policy} (h : Filled P vs vs')
    {R : Tree → Tree → Prop} {f g : Policy → Tree} (hR : ∀ c ∈ vs.children, R (f c) (g c)) :
    Values.Included R (vs.map f) (vs'.map g) := by
  cases h with
  | files hall =>
    apply Values.Included.files
    rw [List.length_map]
    exact hall.length_eq
  | other hkind =>
    cases vs with
    | policies ps => exact .policies (forall₂_map_self hR)
    | files fs => exact (hkind rfl).elim
    | bools => exact .bools _
    | ints => exact .ints _
    | doubles => exact .doubles _
    | strings => exact .strings _

theorem FilledRows.get?_rel {P : FileRef → Policy → Prop} {rows rows' : Entries Policy}
    (h : FilledRows P rows rows') (key : String) :
    Option.Rel (Filled P) (Table.get? key rows) (Table.get? key rows') :=
  Table.get?_pairs h key

theorem FilledRows.exists_child? {P : FileRef → Policy → Prop} {rows rows' : Entries Policy}
    (h : FilledRows P rows rows') {key : String} {fs : List FileRef}
    (hget : Table.get? key rows = some (.files fs)) (hne : fs ≠ []) :
    ∃ c, Entries.child? key rows' = some c := by
  have hrel := h.get?_rel key
  rw [hget] at hrel
  generalize hfound : Table.get? key rows' = found at hrel
  cases hrel with
  | some hvs =>
    cases hvs with
    | @files _ ps hall =>
      have hps : ps ≠ [] := by
        rintro rfl
        cases hall
        exact hne rfl
      exact ⟨ps.getLast hps,
        Entries.child?_eq_some_iff.mpr ⟨ps, hfound, List.getLast?_eq_some_getLast hps⟩⟩
    | other hkind => exact (hkind rfl).elim

theorem FilledRows.included {P : FileRef → Policy → Prop} {rows rows' : Entries Policy}
    (h : FilledRows P rows rows') {f g : Policy → Tree}
    (hR : ∀ c ∈ rows.flatMap fun row => row.2.children, Tree.Included (f c) (g c)) :
    RowsIncluded (rows.map fun row => (row.1, row.2.map f))
      (rows'.map fun row => (row.1, row.2.map g)) := by
  induction h with
  | nil => exact .nil
  | @cons row row' _ _ hrow _ ih =>
    obtain ⟨k, vs⟩ := row
    obtain ⟨k', vs'⟩ := row'
    obtain ⟨rfl, hvs⟩ := hrow
    rw [List.flatMap_cons] at hR
    exact .cons (hvs.included fun c hc => hR c (List.mem_append_left _ hc))
      (ih fun c hc => hR c (List.mem_append_right _ hc))

namespace Dictionary

open Include (Settings)

variable {cfg : Settings} {s₀ s s' : Store} {rows : Entries Policy} {d d' : Dictionary}
  {p b c q : Policy} {name : String}

/-- The rows of a dictionary, or of one inside its blocks. -/
def Inner (s : Store) (rows inner : Entries Policy) : Prop :=
  inner = rows ∨ ∃ b sub, IsBlock s rows b ∧
    Entries.child? Definition.dictionaryKey (s.entries b) = some sub ∧ inner = s.entries sub

theorem Inner.isBlock {inner : Entries Policy} (h : Inner s rows inner) (hb : b ∈ blocks s inner) :
    IsBlock s rows b := by
  rcases h with rfl | ⟨a, sub, ha, hsub, rfl⟩
  · exact .own hb
  · induction ha with
    | own ha => exact .inside ha hsub (.own hb)
    | inside ha hsub' _ ih => exact .inside ha hsub' (ih hsub)

/-- No block that names a file holds definitions by name, or is a part of values. -/
structure Separate (s : Store) (rows : Entries Policy) : Prop where
  definitions : ∀ inner definitions, Inner s rows inner →
    Entries.child? Schema.definitionsKey inner = some definitions → ¬Naming s rows definitions
  values : ∀ b, IsBlock s rows b → ∀ key ∈ [Definition.defaultKey, Definition.allowedKey], ∀ vs,
    Table.get? key (s.entries b) = some vs → ∀ c ∈ vs.children, ∀ q, s.Reaches c q →
      ¬Naming s rows q

/-- No policy that names a file is under a key of definitions, or of values. -/
theorem Separate.of_not_pending
    (hown : ∀ b, Entries.child? Schema.definitionsKey rows = some b → ¬Pending (s.entries b))
    (hdefinitions : ∀ q b, Entries.child? Schema.definitionsKey (s.entries q) = some b →
      ¬Pending (s.entries b))
    (hvalues : ∀ q, ∀ key ∈ [Definition.defaultKey, Definition.allowedKey], ∀ vs,
      Table.get? key (s.entries q) = some vs → ∀ c ∈ vs.children, ∀ r, s.Reaches c r →
        ¬Pending (s.entries r)) : Separate s rows where
  definitions inner definitions hinner hchild hnaming := by
    rcases hinner with rfl | ⟨_, sub, _, _, rfl⟩
    · exact hown definitions hchild hnaming.2
    · exact hdefinitions sub definitions hchild hnaming.2
  values b _ key hkey vs hget c hc q hreach hnaming :=
    hvalues b key hkey vs hget c hc q hreach hnaming.2

/-- The answer to a lookup once a dictionary is loaded: the definition as it was before, unless its
own dictionary was in a file and what has been loaded there is none. -/
def Kept (s : Store) (before : Definition) : Except PolicyError Definition → Prop
  | .ok after => before.Included after
  | .error e => ∃ path loaded fault, before.sub = .unloaded path ∧
      Schema.requireLayout (s.entries loaded) = .error fault ∧
      e = .dictionary (.inside before.name fault)

/-- How the dictionary of a block is read before and after. -/
inductive SubKept (s₀ s : Store) (rows : Entries Policy) (name : String) :
    SubDictionary → Except DictionaryFault SubDictionary → Prop
  | none : SubKept s₀ s rows name .none (.ok .none)
  | inside {c : Policy} : Entries.child? Definition.dictionaryKey rows = some c →
      Schema.requireLayout (s₀.entries c) = .ok () →
      SubKept s₀ s rows name (.inline ⟨s₀.treesOf (s₀.entries c)⟩)
        (.ok (.inline ⟨s.treesOf (s.entries c)⟩))
  | loaded (path : String) (schema : Schema) :
      SubKept s₀ s rows name (.unloaded path) (.ok (.inline schema))
  | unreadable (path : String) {c : Policy} {fault : DictionaryFault} :
      Schema.requireLayout (s.entries c) = .error fault →
      SubKept s₀ s rows name (.unloaded path) (.error (.inside name fault))

/-- A store after the last round of loading. -/
structure Arrives (p : Policy) (s₀ s : Store) : Prop where
  started : s₀.Grounded p
  grounded : s.Grounded p
  evolves : Evolves p s₀ s
  clean : s.Clean p
  done : ∀ b, IsBlock s₀ (s₀.entries p) b → ¬Pending (s.entries b)

namespace Arrives

variable (h : Arrives p s₀ s)

include h

/-- A policy that was there at the start and is still below the dictionary. -/
theorem rows_cases (hq : q.id < s₀.size) (hreach : s.Reaches p q) :
    FilledRows (fun _ c => s₀.size ≤ c.id) (s₀.entries q) (s.entries q) ∨
      Naming s₀ (s₀.entries p) q ∧ ∃ f,
        FilledRows (fun _ c => s₀.size ≤ c.id) (turned f (s₀.entries q)) (s.entries q) := by
  rcases h.evolves.rows q hq with hrows | ⟨hblock, f, hnames, hrows⟩
  · exact Or.inl (hrows.filled (h.clean q hreach))
  · exact Or.inr ⟨⟨hblock, hnames.pending⟩, f, hrows.filled (h.clean q hreach)⟩

theorem filled (hq : q.id < s₀.size) (hreach : s.Reaches p q)
    (hnaming : ¬Naming s₀ (s₀.entries p) q) :
    FilledRows (fun _ c => s₀.size ≤ c.id) (s₀.entries q) (s.entries q) :=
  (h.rows_cases hq hreach).resolve_right fun hq => hnaming hq.1

theorem get?_rel (hq : q.id < s₀.size) (hreach : s.Reaches p q) {key : String}
    (hkey : key ≠ Definition.dictionaryKey) (hfile : key ≠ Definition.dictionaryFileKey) :
    Option.Rel (Filled fun _ c => s₀.size ≤ c.id) (Table.get? key (s₀.entries q))
      (Table.get? key (s.entries q)) := by
  rcases h.rows_cases hq hreach with hrows | ⟨_, f, hrows⟩
  · exact hrows.get?_rel key
  · rw [← get?_turned_of_ne hkey hfile f]
    exact hrows.get?_rel key

/-! ## Places below the dictionary -/

theorem child (hq : q.id < s₀.size) (hreach : s.Reaches p q) {key : String}
    (hc : Entries.child? key (s₀.entries q) = some c) :
    Entries.child? key (s.entries q) = some c ∧ c.id < s₀.size ∧ s.Reaches p c := by
  have hc' := h.evolves.child?_of_child? hq hc
  exact ⟨hc', h.started.closed q c (Entries.mem_of_child? hc),
    hreach.tail (Entries.mem_of_child? hc')⟩

theorem block (hb : IsBlock s₀ (s₀.entries p) b) : b.id < s₀.size ∧ s.Reaches p b := by
  obtain ⟨c, hc, hreach⟩ := reaches_of_isBlock h.started.toWellFormed hb
  have hb' := h.evolves.isBlock_of_isBlock h.started.toWellFormed h.grounded.toWellFormed
    h.started.lt_size hb
  obtain ⟨c', hc', hreach'⟩ := reaches_of_isBlock h.grounded.toWellFormed hb'
  exact ⟨h.started.lt_of_reaches (h.started.closed p c hc) hreach, hreach'.head hc'⟩

theorem bears (hreach : s.Reaches p q) : s.Bears (s.entries q) where
  lt_size := h.grounded.closed q
  founded c hc := by
    obtain ⟨n, hn⟩ := h.grounded.founded
    exact ⟨n, (hn.of_reaches hreach).of_mem_below hc⟩

theorem bears_started (hreach : s₀.Reaches p q) : s₀.Bears (s₀.entries q) where
  lt_size := h.started.closed q
  founded c hc := by
    obtain ⟨n, hn⟩ := h.started.founded
    exact ⟨n, (hn.of_reaches hreach).of_mem_below hc⟩

/-- Values that are apart from the blocks that name files have policies in the place of references,
and are the same otherwise. -/
theorem tree_included {n : Nat} : ∀ {c : Policy}, c.id < s₀.size → s.Reaches p c →
    s₀.Within n c → (∀ q, s₀.Reaches c q → ¬Naming s₀ (s₀.entries p) q) →
    Tree.Included (s₀.tree c) (s.tree c) := by
  induction n with
  | zero => exact fun _ _ hn => hn.elim
  | succ n ih =>
    intro c hc hreach hn hnaming
    have hrows := h.filled hc hreach (hnaming c .refl)
    obtain ⟨m, hm⟩ := h.grounded.founded
    rw [h.started.tree_eq_node hc hn,
      h.grounded.tree_eq_node (hc.trans_le h.evolves.size_le) (hm.of_reaches hreach),
      h.evolves.dictionary c hc]
    refine .node (hrows.included fun d hd => ?_)
    obtain ⟨key, children, hrow, hmem⟩ := Store.mem_below_iff.mp hd
    have hd' : d ∈ s.below c :=
      Store.mem_below_iff.mpr ⟨key, children, hrows.child_of_mem hrow, hmem⟩
    exact ih (h.started.closed c d hd) (hreach.tail hd') (hn d hd)
      fun q hq => hnaming q (hq.head hd)

/-! ## Blocks -/

theorem get?_eq_of_layout (hq : q.id < s₀.size) (hreach : s.Reaches p q)
    (hlayout : Schema.requireLayout (s₀.entries q) = .ok ()) {key : String}
    (hkey : key = Schema.definitionsKey ∨ key = Schema.childKey) :
    Table.get? key (s.entries q) = Table.get? key (s₀.entries q) := by
  have hblock : Schema.requireBlock (s₀.entries q) key = .ok () := by
    obtain ⟨_, hdefinitions, hrest⟩ := Except.bind_eq_ok hlayout
    obtain ⟨_, hchild, _⟩ := Except.bind_eq_ok hrest
    rcases hkey with rfl | rfl
    · exact hdefinitions
    · exact hchild
  have hrel : Option.Rel (Filled fun _ c => s₀.size ≤ c.id) (Table.get? key (s₀.entries q))
      (Table.get? key (s.entries q)) := by
    rcases hkey with rfl | rfl <;> exact h.get?_rel hq hreach (by decide) (by decide)
  unfold Schema.requireBlock at hblock
  generalize Table.get? key (s₀.entries q) = found, Table.get? key (s.entries q) = found' at *
  cases hrel with
  | none => rfl
  | some hvs =>
    cases hvs with
    | files _ => cases hblock
    | other _ => rfl

theorem layout (hq : q.id < s₀.size) (hreach : s.Reaches p q)
    (hlayout : Schema.requireLayout (s₀.entries q) = .ok ()) :
    Schema.requireLayout (s.entries q) = .ok () := by
  have hdefinitions := h.get?_eq_of_layout hq hreach hlayout (Or.inl rfl)
  have hchild := h.get?_eq_of_layout hq hreach hlayout (Or.inr rfl)
  rw [← hlayout]
  simp only [Schema.requireLayout, Schema.requireBlock, hdefinitions, hchild]

theorem describes (hseparate : Separate s₀ (s₀.entries p)) (hq : q.id < s₀.size)
    (hreach : s.Reaches p q) (hinner : Inner s₀ (s₀.entries p) (s₀.entries q))
    (hlayout : Schema.requireLayout (s₀.entries q) = .ok ())
    (hb : Describes s₀ (s₀.entries q) name b) : Describes s (s.entries q) name b := by
  have hdefinitions : Entries.child? Schema.definitionsKey (s.entries q) =
      Entries.child? Schema.definitionsKey (s₀.entries q) := by
    rw [Entries.child?, h.get?_eq_of_layout hq hreach hlayout (Or.inl rfl), Entries.child?]
  have hown : Option.Rel (Filled fun _ c => s₀.size ≤ c.id) (own? s₀ (s₀.entries q) name)
      (own? s (s.entries q) name) := by
    rw [own?, own?, hdefinitions]
    cases hchild : Entries.child? Schema.definitionsKey (s₀.entries q) with
    | none => exact .none
    | some definitions =>
      obtain ⟨_, hlt, hreach'⟩ := h.child hq hreach hchild
      exact (h.filled hlt hreach' (hseparate.definitions _ _ hinner hchild)).get?_rel name
  cases hb with
  | own hget hlast =>
    rw [hget] at hown
    generalize hfound : own? s (s.entries q) name = found at hown
    cases hown with
    | some hvs =>
      cases hvs with
      | other _ => exact .own hfound hlast
  | child hget hchild =>
    rw [hget] at hown
    generalize hfound : own? s (s.entries q) name = found at hown
    cases hown with
    | none => exact .child hfound (h.child hq hreach hchild).1

/-- The dictionary of a block whose file has been loaded, if that is a dictionary. -/
theorem subKept_of_child? (hb : IsBlock s₀ (s₀.entries p) b)
    (hc : ∃ c, Entries.child? Definition.dictionaryKey (s.entries b) = some c)
    (name path : String) : SubKept s₀ s (s₀.entries b) name (.unloaded path)
      (Definition.sub? name (s.treesOf (s.entries b))) := by
  obtain ⟨c, hc⟩ := hc
  rw [sub?_of_child? h.grounded.toWellFormed (h.bears (h.block hb).2) hc]
  cases hlayout : Schema.requireLayout (s.entries c) with
  | ok _ => exact .loaded path _
  | error fault => exact .unreadable path hlayout

theorem exists_child?_of_pending (hb : IsBlock s₀ (s₀.entries p) b)
    (hpending : Pending (s₀.entries b)) :
    ∃ c, Entries.child? Definition.dictionaryKey (s.entries b) = some c := by
  obtain ⟨hlt, hreach⟩ := h.block hb
  rcases h.rows_cases hlt hreach with hrows | ⟨_, f, hrows⟩
  · -- Not turned, so the block would name a file still.
    have haged : (s₀.entries b).Aged s₀.size (s.entries b) := .of_filled (fun _ _ hc => hc) hrows
    exact (h.done b hb (haged.pending_iff.mpr hpending)).elim
  · exact hrows.exists_child? (get?_turned_self f _) (List.cons_ne_nil _ _)

theorem exists_last? {key : String} {vs : Values Policy}
    (hget : Table.get? key (s₀.entries q) = some vs) : ∃ v, vs.last? = some v := by
  have hne := h.started.full q _ (Table.mem_of_get? hget)
  cases hlast : vs.last? with
  | none =>
    rw [Values.last?, List.getLast?_eq_none_iff] at hlast
    rw [Values.isEmpty, hlast] at hne
    cases hne
  | some v => exact ⟨v, rfl⟩

/-- The dictionary of a block without one under its key: there is none, or it is in a named file. -/
theorem subKept_of_get?_eq_none (hb : IsBlock s₀ (s₀.entries p) b) {sub : SubDictionary}
    (hget : Table.get? Definition.dictionaryKey (s₀.entries b) = none)
    (hsub : Definition.sub? name (s₀.treesOf (s₀.entries b)) = .ok sub) :
    SubKept s₀ s (s₀.entries b) name sub (Definition.sub? name (s.treesOf (s.entries b))) := by
  obtain ⟨hlt, hreach⟩ := h.block hb
  cases hfile : Table.get? Definition.dictionaryFileKey (s₀.entries b) with
  | none =>
    have hnaming : ¬Naming s₀ (s₀.entries p) b := by
      rintro ⟨_, hpending⟩
      rw [Pending, hfile] at hpending
      cases hpending.1
    have haged : (s₀.entries b).Aged s₀.size (s.entries b) :=
      .of_filled (fun _ _ hc => hc) (h.filled hlt hreach hnaming)
    unfold Definition.sub? at hsub ⊢
    simp only [last?_map_tree, hget, hfile, (haged.get?_eq_none_iff _).mpr hget,
      (haged.get?_eq_none_iff _).mpr hfile] at hsub ⊢
    cases hsub
    exact .none
  | some names =>
    obtain ⟨v, hv⟩ := h.exists_last? hfile
    have hloaded := h.exists_child?_of_pending hb ⟨by rw [hfile]; rfl, hget⟩
    unfold Definition.sub? at hsub
    simp only [last?_map_tree, hget, hfile, Option.bind_none, Option.bind_some, hv,
      Option.map_none, Option.map_some] at hsub
    cases v with
    | string path =>
      cases hsub
      exact h.subKept_of_child? hb hloaded name path
    | file f =>
      cases hsub
      exact h.subKept_of_child? hb hloaded name f.path
    | _ => cases hsub

theorem subKept_of_policy (hb : IsBlock s₀ (s₀.entries p) b) {sub : SubDictionary}
    (hchild : Entries.child? Definition.dictionaryKey (s₀.entries b) = some c)
    (hsub : Definition.sub? name (s₀.treesOf (s₀.entries b)) = .ok sub) :
    SubKept s₀ s (s₀.entries b) name sub (Definition.sub? name (s.treesOf (s.entries b))) := by
  obtain ⟨hlt, hreach⟩ := h.block hb
  obtain ⟨a, ha, hreach₀⟩ := reaches_of_isBlock h.started.toWellFormed hb
  rw [sub?_of_child? h.started.toWellFormed (h.bears_started (hreach₀.head ha)) hchild] at hsub
  obtain ⟨hchild', hlt', hreach'⟩ := h.child hlt hreach hchild
  cases hlayout : Schema.requireLayout (s₀.entries c) with
  | error fault =>
    rw [hlayout] at hsub
    cases hsub
  | ok _ =>
    rw [hlayout] at hsub
    cases hsub
    rw [sub?_of_child? h.grounded.toWellFormed (h.bears hreach) hchild',
      h.layout hlt' hreach' hlayout]
    exact .inside hchild hlayout

theorem subKept (hb : IsBlock s₀ (s₀.entries p) b) {sub : SubDictionary}
    (hsub : Definition.sub? name (s₀.treesOf (s₀.entries b)) = .ok sub) :
    SubKept s₀ s (s₀.entries b) name sub (Definition.sub? name (s.treesOf (s.entries b))) := by
  obtain ⟨hlt, hreach⟩ := h.block hb
  cases hget : Table.get? Definition.dictionaryKey (s₀.entries b) with
  | none => exact h.subKept_of_get?_eq_none hb hget hsub
  | some vs =>
    obtain ⟨v, hv⟩ := h.exists_last? hget
    have hbind :
        (Table.get? Definition.dictionaryKey (s₀.entries b)).bind Values.last? = some v := by
      rw [hget, Option.bind_some, hv]
    cases v with
    | policy c => exact h.subKept_of_policy hb (child?_of_last? hbind) hsub
    | file f =>
      -- The key is taken, so the block names no file and was never turned.
      have hnaming : ¬Naming s₀ (s₀.entries p) b := by
        rintro ⟨_, hpending⟩
        rw [Pending, hget] at hpending
        cases hpending.2
      have hkind := Values.kind_of_mem_toList (List.mem_of_getLast? hv)
      cases vs with
      | files fs =>
        have hne : fs ≠ [] := by
          rintro rfl
          cases hv
        unfold Definition.sub? at hsub
        simp only [last?_map_tree, hbind, Option.map_some, Value.map] at hsub
        cases hsub
        have hchild := (h.filled hlt hreach hnaming).exists_child? hget hne
        exact h.subKept_of_child? hb hchild name f.path
      | _ => cases hkind
    | _ =>
      unfold Definition.sub? at hsub
      simp only [last?_map_tree, hbind, Option.map_some, Value.map] at hsub
      cases hsub

/-- A block is read as before, up to its dictionary. -/
theorem ofBlock?_included (hseparate : Separate s₀ (s₀.entries p))
    (hb : IsBlock s₀ (s₀.entries p) b) {before : Definition}
    (hd : Definition.ofBlock? name (s₀.treesOf (s₀.entries b)) = .ok before) :
    ∃ default allowed, Option.Rel (Values.Included Tree.Included) before.default default ∧
      before.allowed.Included allowed ∧ Definition.ofBlock? name (s.treesOf (s.entries b)) =
        (Definition.sub? name (s.treesOf (s.entries b))).map fun sub =>
          { before with default, allowed, sub } := by
  obtain ⟨hlt, hreach⟩ := h.block hb
  have hrel (key : String) (R : Tree → Tree → Prop) (hkey : key ≠ Definition.dictionaryKey)
      (hfile : key ≠ Definition.dictionaryFileKey)
      (hR : ∀ vs, Table.get? key (s₀.entries b) = some vs → ∀ c ∈ vs.children,
        R (s₀.tree c) (s.tree c)) :
      Option.Rel (Values.Included R) (Table.get? key (s₀.treesOf (s₀.entries b)))
        (Table.get? key (s.treesOf (s.entries b))) := by
    have hget := h.get?_rel hlt hreach hkey hfile
    rw [Store.get?_treesOf, Store.get?_treesOf]
    generalize Table.get? key (s₀.entries b) = found,
      Table.get? key (s.entries b) = found' at hget hR
    cases hget with
    | none => exact .none
    | some hvs => exact .some (hvs.included (hR _ rfl))
  have hne : ∀ key ∈ [Definition.defaultKey, Definition.allowedKey],
      key ≠ Definition.dictionaryKey ∧ key ≠ Definition.dictionaryFileKey := by
    decide
  have hvalues (key : String) (hkey : key ∈ [Definition.defaultKey, Definition.allowedKey]) (vs)
      (hget : Table.get? key (s₀.entries b) = some vs) :
      ∀ c ∈ vs.children, Tree.Included (s₀.tree c) (s.tree c) := by
    intro c hc
    have hmem := Store.mem_below_of_get? hget hc
    obtain ⟨n, hn⟩ := h.started.founded
    obtain ⟨a, ha, hreach₀⟩ := reaches_of_isBlock h.started.toWellFormed hb
    have hreach' : s.Reaches p c := by
      have hget' := h.get?_rel hlt hreach (hne key hkey).1 (hne key hkey).2
      rw [hget] at hget'
      generalize hfound : Table.get? key (s.entries b) = found at hget'
      cases hget' with
      | some hvs =>
        cases hvs with
        | files _ => cases hc
        | other _ => exact hreach.tail (Store.mem_below_of_get? hfound hc)
    exact h.tree_included (h.started.closed b c hmem) hreach'
      (hn.of_reaches ((hreach₀.tail hmem).head ha))
      (hseparate.values b hb key hkey vs hget c hc)
  refine Definition.ofBlock?_of_included (fun key hkey => ?_) ?_ ?_ hd
  · have hne : ∀ key ∈ Definition.plainKeys,
        key ≠ Definition.dictionaryKey ∧ key ≠ Definition.dictionaryFileKey := by
      decide
    exact hrel key _ (hne key hkey).1 (hne key hkey).2 fun _ _ _ _ => trivial
  · exact hrel _ _ (by decide) (by decide) (hvalues _ (by decide))
  · exact hrel _ _ (by decide) (by decide) (hvalues _ (by decide))

theorem kept_of_block (hseparate : Separate s₀ (s₀.entries p)) (hb : IsBlock s₀ (s₀.entries p) b)
    {before : Definition}
    (hd : Definition.ofBlock? name (s₀.treesOf (s₀.entries b)) = .ok before) :
    Kept s before ((Definition.ofBlock? name (s.treesOf (s.entries b))).mapError .dictionary) := by
  obtain ⟨default, allowed, hdefault, hallowed, heq⟩ := h.ofBlock?_included hseparate hb hd
  have hincluded (sub : SubDictionary) (hnone : sub = .none ↔ before.sub = .none)
      (hloaded : ∀ path, sub ≠ .unloaded path) :
      before.Included { before with default, allowed, sub } :=
    ⟨rfl, rfl, rfl, rfl, rfl, hdefault, hallowed, hnone, hloaded⟩
  have hname : before.name = name := Definition.name_of_ofBlock? hd
  have hsub := h.subKept hb (Definition.sub?_of_ofBlock? hd)
  rw [heq]
  generalize hbefore : before.sub = sub,
    Definition.sub? name (s.treesOf (s.entries b)) = sub' at hsub
  cases hsub with
  | none => exact hincluded _ (by rw [hbefore]) fun _ hsub => by cases hsub
  | inside _ _ => exact hincluded _ (by simp [hbefore]) fun _ hsub => by cases hsub
  | loaded _ _ => exact hincluded _ (by simp [hbefore]) fun _ hsub => by cases hsub
  | unreadable path hlayout => exact ⟨path, _, _, hbefore, hlayout, by rw [hname]⟩

theorem enter_of_block (hseparate : Separate s₀ (s₀.entries p)) (hb : IsBlock s₀ (s₀.entries p) b)
    {before : Definition} (hd : Definition.ofBlock? name (s₀.treesOf (s₀.entries b)) = .ok before)
    {schema : Schema} (hinline : before.sub = .inline schema) :
    ∃ c after, Entries.child? Definition.dictionaryKey (s₀.entries b) = some c ∧
      Schema.requireLayout (s₀.entries c) = .ok () ∧ schema = ⟨s₀.treesOf (s₀.entries c)⟩ ∧
      Definition.ofBlock? name (s.treesOf (s.entries b)) = .ok after ∧
      after.sub = .inline ⟨s.treesOf (s.entries c)⟩ := by
  obtain ⟨default, allowed, _, _, heq⟩ := h.ofBlock?_included hseparate hb hd
  have hsub := h.subKept hb (Definition.sub?_of_ofBlock? hd)
  rw [heq]
  rw [hinline] at hsub
  generalize Definition.sub? name (s.treesOf (s.entries b)) = sub' at hsub
  cases hsub with
  | inside hchild hlayout => exact ⟨_, _, hchild, hlayout, rfl, rfl, rfl⟩

end Arrives

end Dictionary

end PolicyStore
