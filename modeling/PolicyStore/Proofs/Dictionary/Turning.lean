import PolicyStore.Proofs.Dictionary.Blocks
import PolicyStore.Proofs.Include.Outcome

set_option autoImplicit false

namespace PolicyStore

/-!
# Turning names of files into references

Turning goes through the blocks of a dictionary and of the dictionaries inside them. It changes two
rows of the blocks that name a file, and no way from policy to policy.
-/

namespace Dictionary

variable {s s' s'' : Store} {rows : Entries Policy} {b c : Policy} {f : FileRef} {m n : Nat}

/-! ## One block -/

/-- The rows of a block with a reference in the place of the name of a file. -/
def turned (f : FileRef) (rows : Entries Policy) : Entries Policy :=
  Table.insert Definition.dictionaryKey (.files [f])
    (Table.erase Definition.dictionaryFileKey rows)

/-- The rows name the file of a dictionary that is not there. -/
def NamesFile (rows : Entries Policy) (f : FileRef) : Prop :=
  ∃ names v, Table.get? Definition.dictionaryFileKey rows = some names ∧
    Table.get? Definition.dictionaryKey rows = none ∧
    Entries.lastOf Definition.dictionaryFileKey names = .ok v ∧ fileOf v = .ok f

theorem dictionaryFileKey_ne : Definition.dictionaryFileKey ≠ Definition.dictionaryKey := by
  decide

theorem NamesFile.pending (h : NamesFile rows f) : Pending rows := by
  obtain ⟨names, _, hnames, hnone, _⟩ := h
  exact ⟨by rw [hnames]; rfl, hnone⟩

theorem NamesFile.child?_eq_none (h : NamesFile rows f) :
    Entries.child? Definition.dictionaryFileKey rows = none := by
  obtain ⟨names, v, hnames, _, hlast, hfile⟩ := h
  unfold Entries.child?
  rw [hnames]
  cases names with
  | policies children =>
    rw [Entries.lastOf, Values.last?, Values.toList, List.getLast?_map] at hlast
    cases hc : children.getLast? with
    | none => exact hc
    | some c =>
      rw [hc] at hlast
      cases hlast
      cases hfile
  | _ => rfl

theorem get?_turned_self (f : FileRef) (rows : Entries Policy) :
    Table.get? Definition.dictionaryKey (turned f rows) = some (.files [f]) :=
  Table.get?_insert_self _ _ _

theorem get?_turned_file (f : FileRef) (rows : Entries Policy) :
    Table.get? Definition.dictionaryFileKey (turned f rows) = none := by
  rw [turned, Table.get?_insert_of_ne dictionaryFileKey_ne, Table.get?_erase_self]

theorem get?_turned_of_ne {key : String} (hkey : key ≠ Definition.dictionaryKey)
    (hfile : key ≠ Definition.dictionaryFileKey) (f : FileRef) (rows : Entries Policy) :
    Table.get? key (turned f rows) = Table.get? key rows := by
  rw [turned, Table.get?_insert_of_ne hkey, Table.get?_erase_of_ne hfile]

theorem not_pending_turned (f : FileRef) (rows : Entries Policy) : ¬Pending (turned f rows) := by
  intro h
  have hget := h.2
  rw [get?_turned_self] at hget
  cases hget

theorem child?_turned (h : NamesFile rows f) (key : String) :
    Entries.child? key (turned f rows) = Entries.child? key rows := by
  by_cases hkey : key = Definition.dictionaryKey
  · subst hkey
    rw [Entries.child?, get?_turned_self, Entries.child?, h.pending.2]
  · by_cases hfile : key = Definition.dictionaryFileKey
    · subst hfile
      rw [h.child?_eq_none, Entries.child?, get?_turned_file]
    · rw [Entries.child?, get?_turned_of_ne hkey hfile, Entries.child?]

theorem mem_turned {row : String × Values Policy} (h : row ∈ turned f rows) :
    row = (Definition.dictionaryKey, .files [f]) ∨ row ∈ rows :=
  (Table.mem_of_mem_insert h).imp_right Table.mem_of_mem_erase

theorem sorted_turned (h : Table.Sorted rows) (f : FileRef) : Table.Sorted (turned f rows) :=
  Table.sorted_insert (Table.sorted_erase h _) _ _

theorem mem_children_turned (h : c ∈ (turned f rows).flatMap fun row => row.2.children) :
    c ∈ rows.flatMap fun row => row.2.children := by
  obtain ⟨row, hrow, hc⟩ := List.mem_flatMap.mp h
  rcases mem_turned hrow with rfl | hrow
  · cases hc
  · exact List.mem_flatMap.mpr ⟨row, hrow, hc⟩

/-! ## Several blocks -/

/-- What turning names of files preserves. -/
structure Turned (s s' : Store) : Prop where
  size : s'.size = s.size
  wellFormed : s'.WellFormed
  child : ∀ q key, Entries.child? key (s'.entries q) = Entries.child? key (s.entries q)
  below : ∀ q, ∀ c ∈ s'.below q, c ∈ s.below q
  dictionary : ∀ q, s'.dictionary? q = s.dictionary? q
  full : s.Full → s'.Full
  pending : ∀ q, Pending (s'.entries q) → Pending (s.entries q)

theorem Turned.refl (hs : s.WellFormed) : Turned s s :=
  ⟨rfl, hs, fun _ _ => rfl, fun _ _ => id, fun _ => rfl, id, fun _ => id⟩

theorem Turned.trans (h : Turned s s') (h' : Turned s' s'') : Turned s s'' where
  size := h'.size.trans h.size
  wellFormed := h'.wellFormed
  child q key := (h'.child q key).trans (h.child q key)
  below q c hc := h.below q c (h'.below q c hc)
  dictionary q := (h'.dictionary q).trans (h.dictionary q)
  full hs := h'.full (h.full hs)
  pending q hq := h.pending q (h'.pending q hq)

theorem Turned.within (h : Turned s s') (hn : s.Within n c) : s'.Within n c := by
  induction n generalizing c with
  | zero => exact hn.elim
  | succ n ih => exact fun d hd => ih (hn d (h.below c d hd))

theorem turned_setEntries (hs : s.WellFormed) (hb : b.id < s.size)
    (hnames : NamesFile (s.entries b) f) :
    Turned s (s.setEntries b (turned f (s.entries b))) := by
  have hrows (q : Policy) : (s.setEntries b (turned f (s.entries b))).entries q =
      if q = b then turned f (s.entries b) else s.entries q := by
    split
    · rename_i heq
      rw [heq, Store.entries_setEntries_self hb]
    · rename_i hne
      exact Store.entries_setEntries_of_ne hne _ _
  refine ⟨Store.size_setEntries _ _ _, ?_, fun q key => ?_, fun q c hc => ?_, fun q => ?_,
    fun hfull => ?_, fun q hq => ?_⟩
  · exact hs.setEntries (sorted_turned (hs.sorted b) f) fun c hc =>
      hs.closed b c (mem_children_turned hc)
  · rw [hrows]
    split
    · rename_i heq
      rw [heq, child?_turned hnames]
    · rfl
  · rw [Store.below, hrows] at hc
    split at hc
    · rename_i heq
      rw [heq]
      exact mem_children_turned hc
    · exact hc
  · exact Store.dictionary?_setEntries _ _ _ _
  · refine hfull.setEntries fun row hrow => ?_
    rcases mem_turned hrow with rfl | hrow
    · rfl
    · exact hfull b row hrow
  · rw [hrows] at hq
    split at hq
    · exact (not_pending_turned _ _ hq).elim
    · exact hq

/-- Names of files are turned in some of the blocks `B`, one after the other. -/
inductive Turns (B : Policy → Prop) : Store → Nat → Store → Prop
  | refl (s : Store) : Turns B s 0 s
  | step {s s' : Store} {b : Policy} {f : FileRef} {n : Nat} : B b → b.id < s.size →
      NamesFile (s.entries b) f → Turns B (s.setEntries b (turned f (s.entries b))) n s' →
      Turns B s (n + 1) s'

variable {B C : Policy → Prop}

theorem Turns.turned (h : Turns B s n s') (hs : s.WellFormed) : Turned s s' := by
  induction h with
  | refl => exact .refl hs
  | step _ hlt hnames _ ih =>
    have hfirst := turned_setEntries hs hlt hnames
    exact hfirst.trans (ih hfirst.wellFormed)

theorem Turns.mono (h : Turns B s n s') (hBC : ∀ b, B b → C b) : Turns C s n s' := by
  induction h with
  | refl => exact .refl _
  | step hb hlt hnames _ ih => exact .step (hBC _ hb) hlt hnames ih

theorem Turns.trans (h : Turns B s m s') (h' : Turns B s' n s'') : Turns B s (m + n) s'' := by
  induction h with
  | refl => rwa [Nat.zero_add]
  | step hb hlt hnames _ ih =>
    rw [Nat.succ_add]
    exact .step hb hlt hnames (ih h')

theorem Turns.eq_of_zero (h : Turns B s 0 s') : s' = s := by
  cases h
  rfl

/-- Turning a name of a file changes no way from a dictionary to a block. -/
theorem Turned.isBlock_iff (h : Turned s s') (hs : s.WellFormed) {rows rows' : Entries Policy}
    (hrows : ∀ key, Entries.child? key rows' = Entries.child? key rows) :
    IsBlock s' rows' c ↔ IsBlock s rows c := by
  have hblocks {rows rows' : Entries Policy} (b : Policy)
      (hrows : ∀ key, Entries.child? key rows' = Entries.child? key rows) :
      b ∈ blocks s' rows' ↔ b ∈ blocks s rows := by
    rw [mem_blocks_iff hs, mem_blocks_iff h.wellFormed, hrows, hrows]
    simp only [h.child]
  constructor
  · intro hc
    induction hc generalizing rows with
    | own hb => exact .own ((hblocks _ hrows).mp hb)
    | inside hb hsub _ ih =>
      refine .inside ((hblocks _ hrows).mp hb) ?_ (ih fun key => h.child _ key)
      rwa [h.child] at hsub
  · intro hc
    induction hc generalizing rows' with
    | own hb => exact .own ((hblocks _ hrows).mpr hb)
    | inside hb hsub _ ih =>
      refine .inside ((hblocks _ hrows).mpr hb) ?_ (ih fun key => h.child _ key)
      rwa [h.child]

/-! ## The blocks of a dictionary -/

theorem segments_dictionaryFileKey :
    Name.segments Definition.dictionaryFileKey = .ok [Definition.dictionaryFileKey] := rfl

theorem segments_dictionaryKey :
    Name.segments Definition.dictionaryKey = .ok [Definition.dictionaryKey] := rfl

theorem turn_of_names {names : Values Policy} (hb : b.id < s.size)
    (hnames : Table.get? Definition.dictionaryFileKey (s.entries b) = some names)
    (hnone : Table.get? Definition.dictionaryKey (s.entries b) = none)
    (h : (do
      let v ← StoreM.lift (Entries.lastOf Definition.dictionaryFileKey names)
      let f ← StoreM.lift (fileOf v)
      let _ ← b.remove Definition.dictionaryFileKey
      b.set Definition.dictionaryKey (.file f)
      return 1 : StoreM Nat) s = .ok n s') :
    ∃ f, NamesFile (s.entries b) f ∧ n = 1 ∧ s' = s.setEntries b (turned f (s.entries b)) := by
  obtain ⟨v, s₁, hlast, h⟩ := StoreM.bind_eq_ok h
  obtain ⟨f, s₂, hfile, h⟩ := StoreM.bind_eq_ok h
  obtain ⟨found, s₃, hremove, h⟩ := StoreM.bind_eq_ok h
  obtain ⟨_, s₄, hset, h⟩ := StoreM.bind_eq_ok h
  cases h
  cases hv : Entries.lastOf Definition.dictionaryFileKey names with
  | error e =>
    rw [hv] at hlast
    cases hlast
  | ok v =>
    rw [hv] at hlast
    cases hlast
    cases hf : fileOf v with
    | error e =>
      rw [hf] at hfile
      cases hfile
    | ok f =>
      rw [hf] at hfile
      cases hfile
      refine ⟨f, ⟨names, v, hnames, hnone, hv, hf⟩, rfl, ?_⟩
      unfold Policy.remove at hremove
      rw [Store.remove_eq_setEntries segments_dictionaryFileKey hnames] at hremove
      cases hremove
      simp only [Policy.set, StoreM.update] at hset
      split at hset
      · rename_i s₅ hs₅
        cases hset
        rw [Store.set_eq_setEntries segments_dictionaryKey hs₅, Store.setEntries_setEntries,
          Store.entries_setEntries_self hb]
        rfl
      · cases hset

/-- A block that names a file is turned, and otherwise what is inside its dictionary. -/
theorem inside_ok {inside : Entries Policy → StoreM Nat}
    (h : (match Entries.child? Definition.dictionaryKey (s.entries b) with
      | some sub => do inside ((← get).entries sub)
      | none => return 0 : StoreM Nat) s = .ok n s') :
    (∃ sub, Entries.child? Definition.dictionaryKey (s.entries b) = some sub ∧
        inside (s.entries sub) s = .ok n s') ∨
      Entries.child? Definition.dictionaryKey (s.entries b) = none ∧ n = 0 ∧ s' = s := by
  cases hsub : Entries.child? Definition.dictionaryKey (s.entries b) with
  | some sub =>
    rw [hsub] at h
    obtain ⟨s₁, s₂, hget, h⟩ := StoreM.bind_eq_ok h
    cases hget
    exact Or.inl ⟨sub, rfl, h⟩
  | none =>
    rw [hsub] at h
    cases h
    exact Or.inr ⟨rfl, rfl, rfl⟩

theorem turnBlock_ok {inside : Entries Policy → StoreM Nat} (hb : b.id < s.size)
    (h : turnBlock inside b s = .ok n s') :
    (∃ f, NamesFile (s.entries b) f ∧ n = 1 ∧ s' = s.setEntries b (turned f (s.entries b))) ∨
      ¬Pending (s.entries b) ∧
        ((∃ sub, Entries.child? Definition.dictionaryKey (s.entries b) = some sub ∧
            inside (s.entries sub) s = .ok n s') ∨
          Entries.child? Definition.dictionaryKey (s.entries b) = none ∧ n = 0 ∧ s' = s) := by
  obtain ⟨s₁, s₂, hget, h⟩ := StoreM.bind_eq_ok h
  cases hget
  cases hnames : Table.get? Definition.dictionaryFileKey (s.entries b) with
  | none =>
    simp only [hnames] at h
    refine Or.inr ⟨fun hpending => ?_, inside_ok h⟩
    rw [Pending, hnames] at hpending
    cases hpending.1
  | some names =>
    cases hnone : Table.get? Definition.dictionaryKey (s.entries b) with
    | none =>
      simp only [hnames, hnone] at h
      exact Or.inl (turn_of_names hb hnames hnone h)
    | some values =>
      simp only [hnames, hnone] at h
      refine Or.inr ⟨fun hpending => ?_, inside_ok h⟩
      rw [Pending, hnone] at hpending
      cases hpending.2

/-- The rows have a number of levels below them at most. -/
def Levels (s : Store) (n : Nat) (rows : Entries Policy) : Prop :=
  ∀ c ∈ rows.flatMap fun row => row.2.children, c.id < s.size ∧ s.Within n c

theorem Levels.bears (h : Levels s n rows) : s.Bears rows :=
  ⟨fun c hc => (h c hc).1, fun c hc => ⟨n, (h c hc).2⟩⟩

theorem Levels.of_child? (hs : s.WellFormed) (h : Levels s (n + 1) rows) (hb : b ∈ blocks s rows)
    {key : String} (hc : Entries.child? key (s.entries b) = some c) :
    Levels s n (s.entries c) := by
  obtain ⟨d, hd, hreach⟩ := exists_reaches_of_mem_blocks hs hb
  have hwithin := ((h d hd).2.of_reaches hreach) c (Entries.mem_of_child? hc)
  exact fun e he => ⟨hs.closed c e he, hwithin.of_mem_below he⟩

theorem sumOver_turnBlock_ok {inside : Entries Policy → StoreM Nat} {s₀ : Store}
    (hs₀ : s₀.WellFormed) (hrows : s₀.Bears rows)
    (hinside : ∀ b ∈ blocks s₀ rows, ∀ sub,
      Entries.child? Definition.dictionaryKey (s₀.entries b) = some sub →
      ∀ {s s' : Store} {n : Nat}, Turned s₀ s → inside (s.entries sub) s = .ok n s' →
        Turns (IsBlock s₀ (s₀.entries sub)) s n s' ∧
          ∀ c, IsBlock s₀ (s₀.entries sub) c → ¬Pending (s'.entries c)) {bs : List Policy} :
    ∀ {s s' : Store} {n : Nat}, Turned s₀ s → (∀ b ∈ bs, b ∈ blocks s₀ rows) →
      Include.sumOver (turnBlock inside) bs s = .ok n s' →
      Turns (IsBlock s₀ rows) s n s' ∧ ∀ b ∈ bs, ¬Pending (s'.entries b) ∧
        ∀ sub, Entries.child? Definition.dictionaryKey (s₀.entries b) = some sub →
          ∀ c, IsBlock s₀ (s₀.entries sub) c → ¬Pending (s'.entries c) := by
  induction bs with
  | nil =>
    intro s s' n _ _ h
    cases h
    exact ⟨.refl s, fun b hb => by cases hb⟩
  | cons b bs ih =>
    intro s s' n hs hbs h
    obtain ⟨first, s₁, hfirst, h⟩ := StoreM.bind_eq_ok h
    obtain ⟨rest, s₂, hrest, h⟩ := StoreM.bind_eq_ok h
    cases h
    have hb := hbs b List.mem_cons_self
    have hlt : b.id < s.size := by
      rw [hs.size]
      exact lt_size_of_mem_blocks hs₀ hrows hb
    have hstep : Turns (IsBlock s₀ rows) s first s₁ ∧ ¬Pending (s₁.entries b) ∧
        ∀ sub, Entries.child? Definition.dictionaryKey (s₀.entries b) = some sub →
          ∀ c, IsBlock s₀ (s₀.entries sub) c → ¬Pending (s₁.entries c) := by
      rcases turnBlock_ok hlt hfirst with
        ⟨f, hnames, rfl, rfl⟩ | ⟨hpending, ⟨sub, hsub, hrun⟩ | ⟨hsub, rfl, rfl⟩⟩
      · refine ⟨.step (.own hb) hlt hnames (.refl _), ?_, fun sub hsub => ?_⟩
        · rw [Store.entries_setEntries_self hlt]
          exact not_pending_turned _ _
        · rw [← hs.child, Entries.child?, hnames.pending.2] at hsub
          cases hsub
      · rw [hs.child] at hsub
        obtain ⟨hturns, hdone⟩ := hinside b hb sub hsub hs hrun
        have hturned := hturns.turned hs.wellFormed
        refine ⟨hturns.mono fun c hc => .inside hb hsub hc,
          fun h => hpending (hturned.pending b h), fun sub' hsub' => ?_⟩
        rw [hsub] at hsub'
        cases hsub'
        exact hdone
      · refine ⟨.refl _, hpending, fun sub hsub' => ?_⟩
        rw [hs.child, hsub'] at hsub
        cases hsub
    obtain ⟨hturns, hpending, hdone⟩ := hstep
    have hs₁ := hs.trans (hturns.turned hs.wellFormed)
    obtain ⟨hturns', hall⟩ := ih hs₁ (fun c hc => hbs c (List.mem_cons_of_mem _ hc)) hrest
    have hlater := hturns'.turned hs₁.wellFormed
    refine ⟨hturns.trans hturns', fun c hc => ?_⟩
    rcases List.mem_cons.mp hc with rfl | hc
    · exact ⟨fun h => hpending (hlater.pending _ h),
        fun sub hsub d hd h => hdone sub hsub d hd (hlater.pending _ h)⟩
    · exact hall c hc

/-- Turning the names of files leaves no block of the dictionary that names one. -/
theorem turnFiles_ok (depth : Nat) : ∀ {s s' : Store} {rows : Entries Policy} {n : Nat},
    s.WellFormed → Levels s depth rows → turnFiles depth rows s = .ok n s' →
      Turns (IsBlock s rows) s n s' ∧ ∀ b, IsBlock s rows b → ¬Pending (s'.entries b) := by
  induction depth with
  | zero =>
    intro s s' rows n hs hlevels h
    cases h
    have hnone {b : Policy} (hb : b ∈ blocks s rows) : False := by
      obtain ⟨c, hc, _⟩ := exists_reaches_of_mem_blocks hs hb
      exact (hlevels c hc).2
    refine ⟨.refl s, fun b hb => ?_⟩
    cases hb with
    | own hb => exact (hnone hb).elim
    | inside hb _ _ => exact (hnone hb).elim
  | succ depth ih =>
    intro s s' rows n hs hlevels h
    obtain ⟨s₁, s₂, hget, h⟩ := StoreM.bind_eq_ok h
    cases hget
    have hinside : ∀ b ∈ blocks s rows, ∀ sub,
        Entries.child? Definition.dictionaryKey (s.entries b) = some sub →
        ∀ {s₁ s' : Store} {n : Nat}, Turned s s₁ → turnFiles depth (s₁.entries sub) s₁ = .ok n s' →
          Turns (IsBlock s (s.entries sub)) s₁ n s' ∧
            ∀ c, IsBlock s (s.entries sub) c → ¬Pending (s'.entries c) := by
      intro b hb sub hsub s₁ s' n hturned hrun
      have hlevels₁ : Levels s₁ depth (s₁.entries sub) := by
        intro c hc
        obtain ⟨hlt, hwithin⟩ := Levels.of_child? hs hlevels hb hsub c (hturned.below sub c hc)
        exact ⟨hturned.size.symm ▸ hlt, hturned.within hwithin⟩
      obtain ⟨hturns, hdone⟩ := ih hturned.wellFormed hlevels₁ hrun
      have hiff (c : Policy) : IsBlock s₁ (s₁.entries sub) c ↔ IsBlock s (s.entries sub) c :=
        hturned.isBlock_iff hs (hturned.child sub)
      exact ⟨hturns.mono fun c => (hiff c).mp, fun c hc => hdone c ((hiff c).mpr hc)⟩
    obtain ⟨hturns, hall⟩ :=
      sumOver_turnBlock_ok hs hlevels.bears hinside (.refl hs) (fun _ => id) h
    refine ⟨hturns, fun b hb => ?_⟩
    cases hb with
    | own hb => exact (hall b hb).1
    | inside hb hsub hc => exact (hall _ hb).2 _ hsub b hc

end Dictionary

end PolicyStore
