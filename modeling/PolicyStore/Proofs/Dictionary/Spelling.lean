import PolicyStore.Proofs.Dictionary.Aging
import PolicyStore.Proofs.Dictionary.Loading
import PolicyStore.Proofs.Paf.Raising
import PolicyStore.Proofs.Schema.Spelling

set_option autoImplicit false

namespace PolicyStore

/-!
# Loading whatever the spelling of file names

The first round of loading turns the names of files in the blocks that are there, whether they are
strings or references, so from then on the spelling makes no difference. Turning that fails leaves
the remaining names as they were spelled.
-/

/-! ## Stores -/

namespace Store

/-- The store with references in the place of names of dictionary files, in some of its policies. -/
def respell (B : Policy → Bool) (s : Store) : Store :=
  ⟨s.nodes.mapIdx fun i n =>
    if B ⟨i⟩ then { n with entries := Entries.respell n.entries } else n⟩

variable (B : Policy → Bool) (s : Store)

@[simp] theorem size_respell : (s.respell B).size = s.size := by
  simp [respell, size]

theorem node_respell (p : Policy) : (s.respell B).node p =
    if B p then { s.node p with entries := Entries.respell (s.entries p) } else s.node p := by
  simp only [node, entries, respell, Array.getElem?_mapIdx]
  cases s.nodes[p.id]? with
  | none => split <;> rfl
  | some n => rfl

theorem entries_respell (p : Policy) : (s.respell B).entries p =
    if B p then Entries.respell (s.entries p) else s.entries p := by
  rw [entries, node_respell]
  split <;> rfl

theorem dictionary?_respell (p : Policy) : (s.respell B).dictionary? p = s.dictionary? p := by
  rw [dictionary?, node_respell]
  split <;> rfl

theorem get?_entries_respell {key : String} (h : key ≠ Definition.dictionaryFileKey) (p : Policy) :
    Table.get? key ((s.respell B).entries p) = Table.get? key (s.entries p) := by
  rw [entries_respell]
  split
  · exact Entries.get?_respell_of_ne h _
  · rfl

theorem get?_file_entries_respell (p : Policy) :
    Table.get? Definition.dictionaryFileKey ((s.respell B).entries p) =
      (Table.get? Definition.dictionaryFileKey (s.entries p)).map fun names =>
        if B p then names.asFiles else names := by
  rw [entries_respell]
  cases B p with
  | false => simp
  | true => simp [Entries.get?_respell, funext Values.respell_self]

theorem child?_entries_respell (key : String) (p : Policy) :
    Entries.child? key ((s.respell B).entries p) = Entries.child? key (s.entries p) := by
  rw [entries_respell]
  split
  · exact Entries.child?_respell _ _
  · rfl

theorem setEntries_respell (p : Policy) (rows : Entries Policy) :
    (s.setEntries p rows).respell B =
      (s.respell B).setEntries p (if B p then Entries.respell rows else rows) := by
  refine congrArg mk (Array.ext_getElem? fun i => ?_)
  simp only [setEntries, modify, Array.getElem?_mapIdx, Array.getElem?_modify, respell]
  by_cases hi : p.id = i
  · subst hi
    cases s.nodes[p.id]? with
    | none => simp
    | some n => cases B p <;> simp
  · cases s.nodes[i]? <;> simp [hi]

theorem alloc_respell {B : Policy → Bool} (h : B ⟨s.size⟩ = false) (n : Node) :
    ((s.respell B).alloc n).2 = (s.alloc n).2.respell B := by
  have hlast : B ⟨s.nodes.size⟩ = false := h
  simp [alloc, respell, Array.mapIdx_push, hlast]

/-- Where no file is named, there is nothing to spell. -/
theorem respell_eq_self {B : Policy → Bool} {s : Store}
    (h : ∀ p, B p = true → Table.get? Definition.dictionaryFileKey (s.entries p) = none) :
    s.respell B = s := by
  refine congrArg mk (Array.ext_getElem? fun i => ?_)
  simp only [Array.getElem?_mapIdx]
  cases hn : s.nodes[i]? with
  | none => rfl
  | some n =>
    have hentries : s.entries ⟨i⟩ = n.entries := by
      simp [entries, node, hn]
    cases hB : B ⟨i⟩ with
    | false => simp
    | true =>
      have hnone := h ⟨i⟩ hB
      rw [hentries] at hnone
      simp [Entries.respell_of_get?_eq_none hnone]

/-- In the trees of both stores, the names of files are the same if all of them are references. -/
theorem respell_unfold_respell (n : Nat) (p : Policy) :
    ((s.respell B).unfold n p).respell = (s.unfold n p).respell := by
  induction n generalizing p with
  | zero => rfl
  | succ n ih =>
    rw [unfold, unfold, Tree.respell, Tree.respell, dictionary?_respell, entries_respell,
      Tree.respellRows_eq, Tree.respellRows_eq]
    refine congrArg (Tree.node p (s.dictionary? p)) ?_
    simp only [List.map_map, Function.comp_def, Values.map_map, ih]
    split
    · exact Entries.respell_map_respell _ _
    · rfl

theorem respell_schema_respell (d : Dictionary) :
    ((s.respell B).schema d).respell = (s.schema d).respell := by
  refine congrArg Schema.mk ?_
  simp only [schema, treesOf, Tree.respellRows_eq, List.map_map, Function.comp_def, Values.map_map,
    size_respell, respell_unfold_respell]

/-- The dictionary of a policy has the same against a reference. -/
theorem objection_respell (p : Policy) (name : String) (f : FileRef) (count : Nat) :
    (s.respell B).objection p name (.file f) count = s.objection p name (.file f) count := by
  unfold objection
  rw [dictionary?_respell]
  cases s.dictionary? p with
  | none => rfl
  | some d =>
    have hlookup := congrArg (Schema.lookup · name) (s.respell_schema_respell B d)
    simp only [Schema.lookup_respell] at hlookup
    cases hold : (s.schema d).lookup name with
    | error e =>
      cases hnew : ((s.respell B).schema d).lookup name with
      | error e' =>
        rw [hold, hnew] at hlookup
        cases hlookup
        simp only [hold, hnew]
        cases e <;> rfl
      | ok definition =>
        rw [hold, hnew] at hlookup
        cases hlookup
    | ok definition =>
      cases hnew : ((s.respell B).schema d).lookup name with
      | error e =>
        rw [hold, hnew] at hlookup
        cases hlookup
      | ok definition' =>
        rw [hold, hnew] at hlookup
        simp only [hold, hnew, Value.map]
        rw [← definition.judgeValue_respell, ← definition'.judgeValue_respell,
          Except.ok.inj hlookup]

theorem set_respell (p : Policy) {key : String} (hname : Name.segments key = .ok [key])
    (hkey : key ≠ Definition.dictionaryFileKey) (f : FileRef) :
    (s.respell B).set p key (.file f) = (s.set p key (.file f)).map (respell B) := by
  have happrove : (s.respell B).approve p key (.file f) 0 = s.approve p key (.file f) 0 := by
    rw [approve, approve, objection_respell]
  unfold set
  rw [happrove, put_eq_setEntries hname rfl, put_eq_setEntries hname rfl]
  cases s.approve p key (.file f) 0 with
  | error e => rfl
  | ok _ =>
    refine congrArg Except.ok ?_
    rw [setEntries_respell, entries_respell]
    split
    · rw [Entries.insert_respell hkey]
    · rfl

theorem remove_respell {p : Policy}
    (h : (Table.get? Definition.dictionaryFileKey (s.entries p)).isSome) :
    (s.respell B).remove p Definition.dictionaryFileKey =
      (s.remove p Definition.dictionaryFileKey).map fun found => (found.1, found.2.respell B) := by
  have hname : Name.segments Definition.dictionaryFileKey = .ok [Definition.dictionaryFileKey] :=
    Dictionary.segments_dictionaryFileKey
  obtain ⟨names, hnames⟩ := Option.isSome_iff_exists.mp h
  have hnames' := s.get?_file_entries_respell B p
  rw [hnames] at hnames'
  rw [remove_eq_setEntries hname hnames, remove_eq_setEntries hname hnames']
  refine congrArg (fun t => Except.ok (true, t)) ?_
  rw [setEntries_respell, entries_respell]
  split
  · rw [Entries.erase_respell, Entries.respell_of_get?_eq_none (Table.get?_erase_self _ _)]
  · rfl

end Store

/-! ## Turning -/

section Raised

variable {σ α β : Type} {g : σ → σ} {s : σ}

theorem raised_bind {m : EStateM PolicyError σ α} {f f' : α → EStateM PolicyError σ β}
    {m' : EStateM PolicyError σ α} (hm : m' (g s) = raised g (m s))
    (hf : ∀ a t, f' a (g t) = raised g (f a t)) : (m' >>= f') (g s) = raised g ((m >>= f) s) := by
  show EStateM.bind m' f' (g s) = raised g (EStateM.bind m f s)
  rw [EStateM.bind, EStateM.bind, hm]
  cases m s with
  | ok a t => exact hf a t
  | error e t => rfl

end Raised

namespace Dictionary

open Include (Settings)

theorem fileOf_asFile (v : Value Policy) : fileOf v.asFile = fileOf v := by
  cases v <;> rfl

/-- The file that an array of names stands for. -/
def fileOfNames (names : Values Policy) : Except PolicyError FileRef :=
  Entries.lastOf Definition.dictionaryFileKey names >>= fileOf

theorem fileOfNames_asFiles (names : Values Policy) :
    fileOfNames names.asFiles = fileOfNames names := by
  unfold fileOfNames Entries.lastOf
  rw [Values.last?_asFiles]
  cases names.last? with
  | none => rfl
  | some v => exact fileOf_asFile v

/-- Puts a reference in the place of the name of a file. -/
def turnName (block : Policy) (f : FileRef) : StoreM Nat := do
  let _ ← block.remove Definition.dictionaryFileKey
  block.set Definition.dictionaryKey (.file f)
  return 1

/-- Turns what is inside the dictionary of a block. -/
def turnInside (inside : Entries Policy → StoreM Nat) (block : Policy) : StoreM Nat := do
  match Entries.child? Definition.dictionaryKey ((← get).entries block) with
  | some sub => inside ((← get).entries sub)
  | none => return 0

theorem turnBlock_eq (inside : Entries Policy → StoreM Nat) (b : Policy) (s : Store) :
    turnBlock inside b s =
      match Table.get? Definition.dictionaryFileKey (s.entries b),
        Table.get? Definition.dictionaryKey (s.entries b) with
      | some names, none => (StoreM.lift (fileOfNames names) >>= turnName b) s
      | _, _ => turnInside inside b s := by
  simp only [turnBlock, bind, EStateM.bind, get, getThe, MonadStateOf.get, EStateM.get]
  cases Table.get? Definition.dictionaryFileKey (s.entries b) with
  | none => rfl
  | some names =>
    cases Table.get? Definition.dictionaryKey (s.entries b) with
    | some _ => rfl
    | none =>
      simp only [fileOfNames]
      cases Entries.lastOf Definition.dictionaryFileKey names with
      | error e => rfl
      | ok v =>
        cases hv : fileOf v <;>
          simp [StoreM.lift, StoreM.ask, bind, Except.bind, hv, turnName, EStateM.bind]

variable {B : Policy → Bool}

theorem turnName_respell {s : Store} {b : Policy}
    (hnames : (Table.get? Definition.dictionaryFileKey (s.entries b)).isSome) (f : FileRef) :
    turnName b f (s.respell B) = raised (Store.respell B) (turnName b f s) := by
  have hremove : b.remove Definition.dictionaryFileKey (s.respell B) =
      raised (Store.respell B) (b.remove Definition.dictionaryFileKey s) := by
    simp only [Policy.remove, s.remove_respell B hnames]
    cases s.remove b Definition.dictionaryFileKey <;> rfl
  have hset (t : Store) : b.set Definition.dictionaryKey (.file f) (t.respell B) =
      raised (Store.respell B) (b.set Definition.dictionaryKey (.file f) t) := by
    simp only [Policy.set, StoreM.update,
      t.set_respell B b segments_dictionaryKey dictionaryFileKey_ne.symm f]
    cases t.set b Definition.dictionaryKey (.file f) <;> rfl
  exact raised_bind hremove fun _ t => raised_bind (hset t) fun _ _ => rfl

theorem blocks_respell (s : Store) (rows : Entries Policy) :
    blocks (s.respell B) rows = blocks s rows := by
  have hown (block : Policy) :
      ((s.respell B).entries block).filterMap (fun row => row.2.children.getLast?) =
        (s.entries block).filterMap fun row => row.2.children.getLast? := by
    rw [Store.entries_respell]
    split
    · simp only [Entries.respell, List.filterMap_map, Function.comp_def, Values.children_respell]
    · rfl
  simp only [blocks, hown]

theorem blocks_respellRows (s : Store) (rows : Entries Policy) :
    blocks s (Entries.respell rows) = blocks s rows := by
  simp only [blocks, Entries.child?_respell]

theorem turnFiles_respellRows (depth : Nat) (rows : Entries Policy) (s : Store) :
    turnFiles depth (Entries.respell rows) s = turnFiles depth rows s := by
  cases depth with
  | zero => rfl
  | succ depth =>
    show Include.sumOver _ (blocks s (Entries.respell rows)) s = Include.sumOver _ (blocks s rows) s
    rw [blocks_respellRows]

theorem turnInside_respell {inside : Entries Policy → StoreM Nat}
    (hrows : ∀ rows s, inside (Entries.respell rows) s = inside rows s)
    (hinside : ∀ rows s, inside rows (s.respell B) = raised (Store.respell B) (inside rows s))
    (b : Policy) (s : Store) :
    turnInside inside b (s.respell B) = raised (Store.respell B) (turnInside inside b s) := by
  have hrun (s : Store) : turnInside inside b s =
      match Entries.child? Definition.dictionaryKey (s.entries b) with
      | some sub => inside (s.entries sub) s
      | none => .ok 0 s := by
    simp only [turnInside, bind, EStateM.bind, get, getThe, MonadStateOf.get, EStateM.get]
    cases Entries.child? Definition.dictionaryKey (s.entries b) <;> rfl
  rw [hrun, hrun, Store.child?_entries_respell]
  cases Entries.child? Definition.dictionaryKey (s.entries b) with
  | none => rfl
  | some sub =>
    simp only [← hinside]
    rw [Store.entries_respell]
    split
    · exact hrows _ _
    · rfl

theorem turnBlock_respell {inside : Entries Policy → StoreM Nat}
    (hrows : ∀ rows s, inside (Entries.respell rows) s = inside rows s)
    (hinside : ∀ rows s, inside rows (s.respell B) = raised (Store.respell B) (inside rows s))
    (b : Policy) (s : Store) :
    turnBlock inside b (s.respell B) = raised (Store.respell B) (turnBlock inside b s) := by
  have hdeeper := turnInside_respell hrows hinside b s
  rw [turnBlock_eq, turnBlock_eq, Store.get?_entries_respell _ _ dictionaryFileKey_ne.symm,
    Store.get?_file_entries_respell]
  cases hnames : Table.get? Definition.dictionaryFileKey (s.entries b) with
  | none => exact hdeeper
  | some names =>
    cases Table.get? Definition.dictionaryKey (s.entries b) with
    | some _ => exact hdeeper
    | none =>
      have hfile : fileOfNames (if B b then names.asFiles else names) = fileOfNames names := by
        split
        · exact fileOfNames_asFiles names
        · rfl
      simp only [Option.map_some, hfile]
      cases fileOfNames names with
      | error e => rfl
      | ok f => exact turnName_respell (by rw [hnames]; rfl) f

theorem sumOver_respell {action : Policy → StoreM Nat}
    (h : ∀ b s, action b (s.respell B) = raised (Store.respell B) (action b s)) (bs : List Policy) :
    ∀ s : Store, Include.sumOver action bs (s.respell B) =
      raised (Store.respell B) (Include.sumOver action bs s) := by
  induction bs with
  | nil => exact fun _ => rfl
  | cons b bs ih => exact fun s => raised_bind (h b s) fun _ t => raised_bind (ih t) fun _ _ => rfl

/-- Turning treats names of files alike however they are spelled. -/
theorem turnFiles_respell (depth : Nat) : ∀ (rows : Entries Policy) (s : Store),
    turnFiles depth rows (s.respell B) = raised (Store.respell B) (turnFiles depth rows s) := by
  induction depth with
  | zero => exact fun _ _ => rfl
  | succ depth ih =>
    intro rows s
    have hblock := turnBlock_respell (turnFiles_respellRows depth) ih
    show Include.sumOver _ (blocks (s.respell B) rows) (s.respell B) =
      raised _ (Include.sumOver _ (blocks s rows) s)
    rw [blocks_respell]
    exact sumOver_respell hblock _ s

/-! ## Loading -/

/-- A block is left as it is, or has no name of a file any more. -/
theorem Turns.entries_cases {C : Policy → Prop} {s s' : Store} {n : Nat} (h : Turns C s n s')
    (q : Policy) : s'.entries q = s.entries q ∨
      Table.get? Definition.dictionaryFileKey (s'.entries q) = none := by
  induction h with
  | refl => exact Or.inl rfl
  | @step s _ b f _ _ hlt _ _ ih =>
    refine ih.elim (fun hsame => ?_) Or.inr
    rw [hsame]
    by_cases hq : q = b
    · rw [hq, Store.entries_setEntries_self hlt]
      exact Or.inr (get?_turned_file f _)
    · exact Or.inl (Store.entries_setEntries_of_ne hq _ _)

/-- Rounds end alike if the first turning leaves no names to be spelled, and otherwise fail in it. -/
theorem loadRounds_respell {s : Store} {p : Policy} (cfg : Settings) (rounds : Nat)
    (hp : B p = false)
    (hturn : ∀ n t, turnFiles (s.size + 1) (s.entries p) s = .ok n t → t.respell B = t) :
    loadRounds cfg p (rounds + 1) (s.respell B) = loadRounds cfg p (rounds + 1) s ∨
      ∃ e t, loadRounds cfg p (rounds + 1) s = .error e t ∧
        loadRounds cfg p (rounds + 1) (s.respell B) = .error e (t.respell B) := by
  have hrun (s : Store) : loadRounds cfg p (rounds + 1) s =
      EStateM.bind (turnFiles (s.size + 1) (s.entries p)) (fun turned => do
        let tried ← p.includeFiles cfg
        if turned = 0 then return tried
        return tried + (← loadRounds cfg p rounds)) s := rfl
  have hentries : (s.respell B).entries p = s.entries p := by
    rw [Store.entries_respell, hp]
    rfl
  have hturned := turnFiles_respell (B := B) (s.size + 1) (s.entries p) s
  rw [hrun, hrun, Store.size_respell, hentries, EStateM.bind, EStateM.bind, hturned]
  cases hfirst : turnFiles (s.size + 1) (s.entries p) s with
  | ok n t =>
    rw [raised, hturn n t hfirst]
    exact Or.inl rfl
  | error e t => exact Or.inr ⟨e, t, rfl, rfl⟩

variable {d : Dictionary} {s : Store}

theorem Sound.not_of_naming (h : d.Sound s) (hB : ∀ b, B b = true → Naming s d.entries b) :
    B ⟨s.size⟩ = false := by
  cases hsize : B ⟨s.size⟩ with
  | false => rfl
  | true => exact (Nat.lt_irrefl _ (h.lt_of_isBlock (hB _ hsize).1)).elim

/-- Turning that succeeds leaves no names in the blocks that had them. -/
theorem Sound.respell_of_turnFiles (h : d.Sound s) (hB : ∀ b, B b = true → Naming s d.entries b)
    {n : Nat} {t : Store}
    (hrun : turnFiles (s.size + 1 + 1) d.entries (s.alloc { entries := d.entries }).2 = .ok n t) :
    t.respell B = t := by
  have hground := h.grounded
  have hlevels := levels_of_grounded hground
  rw [Store.size_alloc, entries_alloc_self] at hlevels
  obtain ⟨hturns, hdone⟩ := turnFiles_ok _ hground.toWellFormed hlevels hrun
  refine Store.respell_eq_self fun b hb => ?_
  obtain ⟨hblock, hpending⟩ := hB b hb
  refine (hturns.entries_cases b).resolve_left fun hsame => ?_
  apply hdone b (h.isBlock_alloc_iff.mpr hblock)
  rwa [hsame, entries_alloc s _ (h.lt_of_isBlock hblock)]

/-- The names of files in the blocks that a dictionary has may be spelled as references: loading
comes to the same end after as many files, and makes the same policies if it succeeds. If it fails,
the dictionary finds the same definitions and the same faults. -/
theorem loadFiles_respell (cfg : Settings) (h : d.Sound s)
    (hB : ∀ b, B b = true → Naming s d.entries b) :
    ∃ d' tried s' s'', d.loadFiles cfg s = .ok (d', tried) s' ∧
      d.loadFiles cfg (s.respell B) = .ok (d', tried) s'' ∧
      ((∃ n, tried = .ok n) → s'' = s') ∧
      (∀ name, ((s''.schema d').lookup name).map Definition.respell =
        ((s'.schema d').lookup name).map Definition.respell) ∧
      ∀ t, (s''.schema d').validate t = (s'.schema d').validate t := by
  have hnew := h.not_of_naming hB
  have hturn (n : Nat) (t : Store)
      (hrun : turnFiles ((s.alloc { entries := d.entries }).2.size + 1)
        ((s.alloc { entries := d.entries }).2.entries ⟨s.size⟩)
        (s.alloc { entries := d.entries }).2 = .ok n t) : t.respell B = t := by
    rw [Store.size_alloc, Sound.entries_alloc_self] at hrun
    exact h.respell_of_turnFiles hB hrun
  have hrounds := loadRounds_respell cfg maxDepth hnew hturn
  rw [← s.alloc_respell hnew] at hrounds
  have hrun := loadFiles_eq d cfg s
  have hrun' := loadFiles_eq d cfg (s.respell B)
  rw [Store.size_respell] at hrun'
  rcases hrounds with hsame | ⟨e, t, hfails, hfails'⟩
  · rw [hsame, ← hrun] at hrun'
    cases hloaded : loadRounds cfg ⟨s.size⟩ (maxDepth + 1) (s.alloc { entries := d.entries }).2 <;>
      rw [hloaded] at hrun <;>
      exact ⟨_, _, _, _, hrun, hrun'.trans hrun, fun _ => rfl, fun _ => rfl, fun _ => rfl⟩
  · rw [hfails] at hrun
    have hrows : (t.respell B).entries ⟨s.size⟩ = t.entries ⟨s.size⟩ := by
      rw [Store.entries_respell, hnew]
      rfl
    rw [hfails'] at hrun'
    simp only [hrows] at hrun'
    have hschema := t.respell_schema_respell B ⟨t.entries ⟨s.size⟩⟩
    refine ⟨_, _, _, _, hrun, hrun', ?_, fun name => ?_, fun tree => ?_⟩
    · rintro ⟨n, hn⟩
      cases hn
    · rw [← Schema.lookup_respell, ← Schema.lookup_respell, hschema]
    · rw [← Schema.validate_respell, hschema, Schema.validate_respell]

/-- A child definition that names its file by a reference. -/
theorem loadFiles_respell_child_definition :
    let s : Store := ⟨#[{ entries := [("dictionaryFile", .strings ["a.paf"])] }]⟩
    let d : Dictionary := ⟨[("childDefinition", .policies [⟨0⟩])]⟩
    let cfg : Settings := ⟨⟨fun _ => .ok "childDefinition: \x7b\n\x7d".toUTF8, id⟩, "", true⟩
    (s.respell fun b => b == ⟨0⟩).entries ⟨0⟩ = [("dictionaryFile", .files [⟨"a.paf", none⟩])] ∧
      ∃ s', d.loadFiles cfg s = .ok (d, .ok 1) s' ∧
        d.loadFiles cfg (s.respell fun b => b == ⟨0⟩) = .ok (d, .ok 1) s' := by
  intro s d cfg
  have hd : d.Sound s := {
    toWellFormed := .of_lt (by decide) (by decide)
    lt_size := by decide
    founded := fun c hc => ⟨1, by
      cases List.mem_singleton.mp hc
      decide⟩
    full := .of_lt (by decide)
    sorted_entries := by decide
    full_entries := by decide }
  have hnaming : ∀ b, (b == (⟨0⟩ : Policy)) = true → Naming s d.entries b := by
    intro b hb
    cases eq_of_beq hb
    exact ⟨.own (by decide), rfl, rfl⟩
  have hrun : d.loadFiles cfg s = .ok (d, .ok 1) ⟨#[{ entries := [("dictionary", .policies [⟨2⟩])] },
      { entries := [("childDefinition", .policies [⟨0⟩])] },
      { entries := [("childDefinition", .policies [⟨3⟩])] }, {}]⟩ := by
    cbv
  obtain ⟨d', tried, s', s'', hfirst, hsecond, hsame, -, -⟩ := loadFiles_respell cfg hd hnaming
  rw [hrun] at hfirst
  cases hfirst
  cases hsame ⟨1, rfl⟩
  exact ⟨by decide, _, hrun, hsecond⟩

/-- The answer of an operation, without the store that it leaves. -/
def answer {α : Type} (m : StoreM α) (s : Store) : Except PolicyError α :=
  match m s with
  | .ok a _ => .ok a
  | .error e _ => .error e

/-- A name in a file that is loaded. A reference there is a policy before it can be turned. -/
theorem loadFiles_refuses_reference_in_loaded_file :
    let files (text : String) : FileSystem := ⟨fun path =>
      if path = "a.paf" then .ok text.toUTF8
      else .ok "definitions: \x7b\n c: \x7b\n type: int\n\x7d\n\x7d".toUTF8, id⟩
    let tried (text : String) : StoreM (Except PolicyError Nat) := do
      let d ← ofText "definitions: \x7b\n a: \x7b\n dictionaryFile: a.paf\n\x7d\n\x7d"
      return (← d.loadFiles ⟨files text, "", true⟩).2
    answer (tried "definitions: \x7b\n b: \x7b\n dictionaryFile: b.paf\n\x7d\n\x7d") .empty =
        .ok (.ok 2) ∧
      answer (tried "definitions: \x7b\n b: \x7b\n dictionaryFile: @b.paf\n\x7d\n\x7d") .empty =
        .ok (.error (.dictionary (.fileNotAPath .policy))) := by
  decide +kernel

end Dictionary

end PolicyStore
