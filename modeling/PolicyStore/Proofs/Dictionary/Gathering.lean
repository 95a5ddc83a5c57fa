import PolicyStore.Proofs.Dictionary.Unfolding
import PolicyStore.Proofs.Include.Advancing

set_option autoImplicit false

namespace PolicyStore

/-!
# Turning all names

Where blocks name files by texts and nothing else refers to a file, turning succeeds. Every name
becomes a reference, and is counted once for every block that names it.
-/

theorem Include.references_eq_singleton {rows : Entries Policy} {key : String} {fs : List FileRef}
    (hsorted : Table.Sorted rows) (hget : Table.get? key rows = some (.files fs))
    (honly : ∀ other gs, (other, Values.files gs) ∈ rows → other = key) :
    Include.references rows = [(key, fs)] := by
  have hmem : (key, fs) ∈ Include.references rows :=
    Include.mem_references_iff.mpr (Table.mem_of_get? hget)
  have hkeys : ((Include.references rows).map Prod.fst).Pairwise (· < ·) :=
    List.Pairwise.sublist (Include.keys_references_sublist rows) hsorted
  have hall : ∀ row ∈ Include.references rows, row.1 = key := fun row hrow =>
    honly _ _ (Include.mem_references_iff.mp hrow)
  generalize Include.references rows = arrays at hmem hkeys hall
  match arrays with
  | [] => cases hmem
  | [row] => rw [List.mem_singleton.mp hmem]
  | first :: second :: _ =>
    have hlt := List.rel_of_pairwise_cons hkeys List.mem_cons_self
    rw [hall first List.mem_cons_self, hall second (by simp)] at hlt
    exact (String.lt_irrefl _ hlt).elim

namespace Dictionary

open Include (Settings)

variable {cfg : Settings} {P : String → Prop} {s s' : Store} {rows rows' : Entries Policy}
  {p b c q : Policy} {f : FileRef} {n : Nat} {mark : Entries Policy → Multiset String}

/-! ## Sums over blocks -/

theorem mem_blocksBelow_iff : b ∈ blocksBelow s rows ↔ b.id < s.size ∧ IsBlock s rows b := by
  classical
  rw [blocksBelow, Finset.mem_filter, Store.mem_handles_iff]

theorem gather_eq_zero (h : ∀ b, IsBlock s rows b → mark (s.entries b) = 0) :
    gather mark s rows = 0 :=
  Finset.sum_eq_zero fun b hb => h b (mem_blocksBelow_iff.mp hb).2

theorem gather_eq_zero_iff (hlt : ∀ b, IsBlock s rows b → b.id < s.size) :
    gather mark s rows = 0 ↔ ∀ b, IsBlock s rows b → mark (s.entries b) = 0 := by
  refine ⟨fun h b hb => ?_, gather_eq_zero⟩
  exact Finset.sum_eq_zero_iff.mp h b (mem_blocksBelow_iff.mpr ⟨hlt b hb, hb⟩)

/-- A sum over blocks changes by what changes in one of them. -/
theorem sum_mark_of_one {A : Finset Policy} (hb : b ∈ A)
    (hsame : ∀ q ∈ A, q ≠ b → s'.entries q = s.entries q) :
    ∑ q ∈ A, mark (s.entries q) + mark (s'.entries b) =
      ∑ q ∈ A, mark (s'.entries q) + mark (s.entries b) := by
  have hrest : ∑ q ∈ A.erase b, mark (s'.entries q) = ∑ q ∈ A.erase b, mark (s.entries q) :=
    Finset.sum_congr rfl fun q hq => by
      rw [hsame q (Finset.mem_of_mem_erase hq) (Finset.ne_of_mem_erase hq)]
  rw [← Finset.add_sum_erase A _ hb, ← Finset.add_sum_erase A _ hb, hrest, add_right_comm,
    add_comm (mark (s.entries b)), add_right_comm]

/-! ## Names and references of one block -/

theorem named_of_namesFile (h : NamesFile rows f) (htext : ∀ names,
    Table.get? Definition.dictionaryFileKey rows = some names → names.kind = .string) :
    named cfg rows = {f.resolve cfg.repository} := by
  obtain ⟨names, v, hnames, hnone, hlast, hfile⟩ := h
  have hkind := htext names hnames
  cases names with
  | strings paths =>
    rw [Entries.lastOf, Values.last?, Values.toList, List.getLast?_map] at hlast
    unfold named
    simp only [hnames, hnone]
    cases hpath : paths.getLast? with
    | none =>
      rw [hpath] at hlast
      cases hlast
    | some path =>
      rw [hpath] at hlast
      cases hlast
      cases hfile
      rfl
  | _ => cases hkind

theorem exists_namesFile (hfull : ∀ row ∈ rows, row.2.isEmpty = false) (hpending : Pending rows)
    (htext : ∀ names, Table.get? Definition.dictionaryFileKey rows = some names →
      names.kind = .string) : ∃ f, NamesFile rows f := by
  obtain ⟨hnames, hnone⟩ := hpending
  obtain ⟨names, hnames⟩ := Option.isSome_iff_exists.mp hnames
  have hkind := htext names hnames
  cases names with
  | strings paths =>
    have hne := hfull _ (Table.mem_of_get? hnames)
    cases hpath : paths.getLast? with
    | none =>
      rw [List.getLast?_eq_none_iff.mp hpath] at hne
      cases hne
    | some path =>
      refine ⟨⟨path, none⟩, .strings paths, .string path, hnames, hnone, ?_, rfl⟩
      rw [Entries.lastOf, Values.last?, Values.toList, List.getLast?_map, hpath]
      rfl
  | _ => cases hkind

theorem named_of_not_pending (h : ¬Pending rows) : named cfg rows = 0 := by
  unfold named
  split
  · rename_i hnames hnone
    exact (h ⟨by rw [hnames]; rfl, hnone⟩).elim
  · rfl

theorem awaited_of_references_eq_nil (h : Include.references rows = []) : awaited cfg rows = 0 := by
  rw [awaited, h]
  rfl

theorem awaited_of_references (h : Include.references rows = [(Definition.dictionaryKey, [f])]) :
    awaited cfg rows = {f.resolve cfg.repository} := by
  rw [awaited, h]
  rfl

theorem references_turned (hsorted : Table.Sorted rows) (h : Include.references rows = []) :
    Include.references (turned f rows) = [(Definition.dictionaryKey, [f])] := by
  refine Include.references_eq_singleton (sorted_turned hsorted f) (get?_turned_self f rows)
    fun key fs hrow => ?_
  rcases mem_turned hrow with heq | hrow
  · cases heq
    rfl
  · have hmem := Include.mem_references_iff.mpr hrow
    rw [h] at hmem
    cases hmem

/-! ## A dictionary during a round -/

/-- A policy whose blocks name files by texts, or hold one reference each, to files out of `P`. All
that refers to a file is in a block. -/
structure Prepared (cfg : Settings) (P : String → Prop) (p : Policy) (s : Store) : Prop
    extends s.WellFormed where
  full : s.Full
  lt_size : p.id < s.size
  plain : ∀ q, s.Reaches p q → s.dictionary? q = none
  references : ∀ q, s.Reaches p q → ∀ key fs, (key, Values.files fs) ∈ s.entries q →
    IsBlock s (s.entries p) q ∧ key = Definition.dictionaryKey ∧
      ∃ f, fs = [f] ∧ P (f.resolve cfg.repository)
  texts : ∀ b, IsBlock s (s.entries p) b → ∀ names,
    Table.get? Definition.dictionaryFileKey (s.entries b) = some names → names.kind = .string
  definitions : ∀ inner definitions, Inner s (s.entries p) inner →
    Entries.child? Schema.definitionsKey inner = some definitions →
      Include.references (s.entries definitions) = [] ∧
        ∀ names, Table.get? Definition.dictionaryFileKey (s.entries definitions) = some names →
          names.kind ≠ .string
  files : ∀ path ∈ names cfg s (s.entries p), P path

namespace Prepared

variable (h : Prepared cfg P p s)

include h

theorem reaches (hb : IsBlock s (s.entries p) b) : s.Reaches p b := by
  obtain ⟨c, hc, hreach⟩ := reaches_of_isBlock h.toWellFormed hb
  exact hreach.head hc

theorem lt_of_isBlock (hb : IsBlock s (s.entries p) b) : b.id < s.size :=
  h.toWellFormed.lt_of_reaches h.lt_size (h.reaches hb)

theorem mem_blocksBelow (hb : IsBlock s (s.entries p) b) : b ∈ blocksBelow s (s.entries p) :=
  mem_blocksBelow_iff.mpr ⟨h.lt_of_isBlock hb, hb⟩

theorem named_eq (hb : IsBlock s (s.entries p) b) (hnames : NamesFile (s.entries b) f) :
    named cfg (s.entries b) = {f.resolve cfg.repository} :=
  named_of_namesFile hnames (h.texts b hb)

theorem references_eq_nil_of_names (hb : IsBlock s (s.entries p) b)
    (hnames : NamesFile (s.entries b) f) : Include.references (s.entries b) = [] := by
  rw [List.eq_nil_iff_forall_not_mem]
  rintro ⟨key, fs⟩ hmem
  have hrow := Include.mem_references_iff.mp hmem
  obtain ⟨_, rfl, _⟩ := h.references b (h.reaches hb) key fs hrow
  have hget := Table.get?_of_mem (h.sorted b) hrow
  rw [hnames.pending.2] at hget
  cases hget

/-- The policy that holds the definitions by name does not name a file. -/
theorem ne_of_names (hb : IsBlock s (s.entries p) b) (hnames : NamesFile (s.entries b) f)
    {inner : Entries Policy} (hinner : Inner s (s.entries p) inner)
    (hc : Entries.child? Schema.definitionsKey inner = some c) : c ≠ b := by
  rintro rfl
  obtain ⟨names, _, hget, _⟩ := hnames
  exact (h.definitions inner c hinner hc).2 names hget (h.texts c hb names hget)

end Prepared

/-! ## One turn -/

/-- The store after the name in a block has been turned. -/
def turnIn (s : Store) (b : Policy) (f : FileRef) : Store :=
  s.setEntries b (turned f (s.entries b))

theorem entries_turnIn_self (hb : b.id < s.size) :
    (turnIn s b f).entries b = turned f (s.entries b) :=
  Store.entries_setEntries_self hb _

theorem entries_turnIn_of_ne (hq : q ≠ b) : (turnIn s b f).entries q = s.entries q :=
  Store.entries_setEntries_of_ne hq s _

theorem Turned.reaches (h : Turned s s') (hq : s'.Reaches p q) : s.Reaches p q :=
  Relation.ReflTransGen.mono (fun a c hc => h.below a c hc) _ _ hq

/-- The ways to the dictionaries inside are those before. -/
theorem Turned.exists_inner (h : Turned s s') (hs : s.WellFormed) {inner : Entries Policy}
    (hinner : Inner s' (s'.entries p) inner) : ∃ before, Inner s (s.entries p) before ∧
      ∀ key, Entries.child? key inner = Entries.child? key before := by
  rcases hinner with rfl | ⟨a, sub, ha, hsub, rfl⟩
  · exact ⟨_, Or.inl rfl, h.child p⟩
  · rw [h.child] at hsub
    exact ⟨_, Or.inr ⟨a, sub, (h.isBlock_iff hs (h.child p)).mp ha, hsub, rfl⟩, h.child sub⟩

namespace Prepared

section Turn

variable (h : Prepared cfg P p s) (hb : IsBlock s (s.entries p) b)
  (hnames : NamesFile (s.entries b) f)

include h hb hnames

theorem turned_turnIn : Turned s (turnIn s b f) :=
  turned_setEntries h.toWellFormed (h.lt_of_isBlock hb) hnames

theorem isBlock_turnIn_iff : IsBlock (turnIn s b f) ((turnIn s b f).entries p) c ↔
    IsBlock s (s.entries p) c :=
  (h.turned_turnIn hb hnames).isBlock_iff h.toWellFormed ((h.turned_turnIn hb hnames).child p)

theorem gather_turnIn (mark : Entries Policy → Multiset String) :
    gather mark s (s.entries p) + mark (turned f (s.entries b)) =
      gather mark (turnIn s b f) ((turnIn s b f).entries p) + mark (s.entries b) := by
  have hblocks : blocksBelow (turnIn s b f) ((turnIn s b f).entries p) =
      blocksBelow s (s.entries p) := by
    ext q
    rw [mem_blocksBelow_iff, mem_blocksBelow_iff, (h.turned_turnIn hb hnames).size,
      h.isBlock_turnIn_iff hb hnames]
  rw [gather, gather, hblocks, ← entries_turnIn_self (h.lt_of_isBlock hb)]
  exact sum_mark_of_one (h.mem_blocksBelow hb) fun q _ hq => entries_turnIn_of_ne hq

theorem names_turnIn : names cfg s (s.entries p) = {f.resolve cfg.repository} +
    names cfg (turnIn s b f) ((turnIn s b f).entries p) := by
  have hsum := h.gather_turnIn hb hnames (named cfg)
  rw [named_of_not_pending (not_pending_turned _ _), h.named_eq hb hnames, add_zero,
    add_comm] at hsum
  exact hsum

theorem awaited_turnIn : gather (awaited cfg) (turnIn s b f) ((turnIn s b f).entries p) =
    {f.resolve cfg.repository} + gather (awaited cfg) s (s.entries p) := by
  have hsum := h.gather_turnIn hb hnames (awaited cfg)
  have hnil := h.references_eq_nil_of_names hb hnames
  rw [awaited_of_references (references_turned (h.sorted b) hnil),
    awaited_of_references_eq_nil hnil, add_zero, add_comm] at hsum
  exact hsum.symm

theorem references_turnIn (hq : s.Reaches p q) {key : String} {fs : List FileRef}
    (hrow : (key, Values.files fs) ∈ (turnIn s b f).entries q) :
    IsBlock s (s.entries p) q ∧ key = Definition.dictionaryKey ∧
      ∃ f, fs = [f] ∧ P (f.resolve cfg.repository) := by
  by_cases hqb : q = b
  · subst hqb
    rw [entries_turnIn_self (h.lt_of_isBlock hb)] at hrow
    rcases mem_turned hrow with heq | hrow
    · cases heq
      refine ⟨hb, rfl, f, rfl, h.files _ ?_⟩
      rw [h.names_turnIn hb hnames]
      exact Multiset.mem_add.mpr (Or.inl (Multiset.mem_singleton_self _))
    · exact h.references q hq key fs hrow
  · rw [entries_turnIn_of_ne hqb] at hrow
    exact h.references q hq key fs hrow

/-- A dictionary stays prepared when a name is turned. -/
theorem turn : Prepared cfg P p (turnIn s b f) := by
  have hturned := h.turned_turnIn hb hnames
  refine ⟨hturned.wellFormed, hturned.full h.full, hturned.size ▸ h.lt_size, fun q hq => ?_,
    fun q hq key fs hrow => ?_, fun c hc names hget => ?_, fun inner c hinner hc => ?_,
    fun path hpath => ?_⟩
  · rw [hturned.dictionary]
    exact h.plain q (hturned.reaches hq)
  · rw [h.isBlock_turnIn_iff hb hnames]
    exact h.references_turnIn hb hnames (hturned.reaches hq) hrow
  · by_cases hcb : c = b
    · subst hcb
      rw [entries_turnIn_self (h.lt_of_isBlock hb), get?_turned_file] at hget
      cases hget
    · rw [entries_turnIn_of_ne hcb] at hget
      exact h.texts c ((h.isBlock_turnIn_iff hb hnames).mp hc) names hget
  · obtain ⟨before, hbefore, hsame⟩ := hturned.exists_inner h.toWellFormed hinner
    rw [hsame] at hc
    rw [entries_turnIn_of_ne (h.ne_of_names hb hnames hbefore hc)]
    exact h.definitions before c hbefore hc
  · refine h.files path ?_
    rw [h.names_turnIn hb hnames]
    exact Multiset.mem_add.mpr (Or.inr hpath)

end Turn

end Prepared

/-- The names that are turned are references then. -/
theorem Turns.prepared {B : Policy → Prop} (h : Turns B s n s') (hs : Prepared cfg P p s)
    (hB : ∀ b, B b → IsBlock s (s.entries p) b) :
    Prepared cfg P p s' ∧ ∃ paths : Multiset String, paths.card = n ∧
      names cfg s (s.entries p) = paths + names cfg s' (s'.entries p) ∧
      gather (awaited cfg) s' (s'.entries p) = paths + gather (awaited cfg) s (s.entries p) := by
  induction h with
  | refl s => exact ⟨hs, 0, rfl, (zero_add _).symm, (zero_add _).symm⟩
  | @step s s' b f n hb _ hnames _ ih =>
    have hblock := hB b hb
    obtain ⟨hs', paths, rfl, hnamed, hawaited⟩ := ih (hs.turn hblock hnames) fun c hc =>
      (hs.isBlock_turnIn_iff hblock hnames).mpr (hB c hc)
    change names cfg (turnIn s b f) ((turnIn s b f).entries p) = _ at hnamed
    change _ = paths + gather (awaited cfg) (turnIn s b f) ((turnIn s b f).entries p) at hawaited
    refine ⟨hs', {f.resolve cfg.repository} + paths, ?_, ?_, ?_⟩
    · rw [Multiset.card_add, Multiset.card_singleton, add_comm]
    · rw [hs.names_turnIn hblock hnames, hnamed, add_assoc]
    · rw [hawaited, hs.awaited_turnIn hblock hnames, add_left_comm, add_assoc]

/-! ## Turning succeeds -/

/-- A block whose file can be turned, if it names one. -/
structure Turnable (s : Store) (b : Policy) : Prop where
  lt_size : b.id < s.size
  plain : s.dictionary? b = none
  names : Pending (s.entries b) → ∃ f, NamesFile (s.entries b) f

theorem Turnable.turn (hs : s.WellFormed) (hb : b.id < s.size) (hnames : NamesFile (s.entries b) f)
    (h : Turnable s q) : Turnable (turnIn s b f) q := by
  have hturned := turned_setEntries hs hb hnames
  refine ⟨hturned.size ▸ h.lt_size, (hturned.dictionary q).trans h.plain, fun hpending => ?_⟩
  by_cases hq : q = b
  · subst hq
    rw [entries_turnIn_self hb] at hpending
    exact (not_pending_turned _ _ hpending).elim
  · rw [entries_turnIn_of_ne hq] at hpending ⊢
    exact h.names hpending

theorem setFile_eq (hplain : s.dictionary? b = none) (f : FileRef) :
    b.set Definition.dictionaryKey (.file f) s = .ok ()
      (s.setEntries b (Table.insert Definition.dictionaryKey (.files [f]) (s.entries b))) := by
  have hput : s.put b Definition.dictionaryKey (.files [f]) = .ok
      (s.setEntries b (Table.insert Definition.dictionaryKey (.files [f]) (s.entries b))) :=
    Store.put_eq_setEntries segments_dictionaryKey rfl
  have hset : s.set b Definition.dictionaryKey (.file f) =
      s.put b Definition.dictionaryKey (.files [f]) := by
    rw [Store.set, Store.approve_of_plain hplain]
    rfl
  simp only [Policy.set, StoreM.update, hset, hput]

theorem turnBlock_of_turnable (h : Turnable s b) (hnames : NamesFile (s.entries b) f)
    (inside : Entries Policy → StoreM Nat) : turnBlock inside b s = .ok 1 (turnIn s b f) := by
  obtain ⟨names, v, hget, hnone, hlast, hfile⟩ := hnames
  have hremove : b.remove Definition.dictionaryFileKey s =
      .ok true (s.setEntries b (Table.erase Definition.dictionaryFileKey (s.entries b))) := by
    unfold Policy.remove
    rw [Store.remove_eq_setEntries segments_dictionaryFileKey hget]
  have hread : (get : StoreM Store) s = .ok s s := rfl
  simp only [turnBlock, bind, EStateM.bind, hread, hget, hnone, StoreM.lift, StoreM.ask, hlast,
    hfile, hremove]
  rw [setFile_eq ((Store.dictionary?_setEntries _ _ _ _).trans h.plain)]
  simp only [Store.entries_setEntries_self h.lt_size, Store.setEntries_setEntries]
  rfl

theorem turnBlock_of_not_pending (h : ¬Pending (s.entries b))
    (inside : Entries Policy → StoreM Nat) : turnBlock inside b s =
      (Entries.child? Definition.dictionaryKey (s.entries b)).elim (.ok 0 s) fun sub =>
        inside (s.entries sub) s := by
  have hget : (get : StoreM Store) s = .ok s s := rfl
  simp only [turnBlock, bind, EStateM.bind, hget]
  cases hnames : Table.get? Definition.dictionaryFileKey (s.entries b) with
  | none => cases Entries.child? Definition.dictionaryKey (s.entries b) <;> rfl
  | some names =>
    cases hnone : Table.get? Definition.dictionaryKey (s.entries b) with
    | none => exact (h ⟨by rw [hnames]; rfl, hnone⟩).elim
    | some values => cases Entries.child? Definition.dictionaryKey (s.entries b) <;> rfl

/-- Each name of a file is turned where all of them can be. -/
theorem turnBlock_meets {s₀ : Store} {B : Policy → Prop} {inside : Entries Policy → StoreM Nat}
    (hinside : ∀ sub s, Entries.child? Definition.dictionaryKey (s₀.entries b) = some sub →
      Turned s₀ s → (∀ c, B c → Turnable s c) → (inside (s.entries sub)).Meets s False
        fun _ s' => Turned s₀ s' ∧ ∀ c, B c → Turnable s' c)
    (hs : Turned s₀ s) (hB : ∀ c, B c → Turnable s c) (hb : B b) :
    (turnBlock inside b).Meets s False fun _ s' => Turned s₀ s' ∧ ∀ c, B c → Turnable s' c := by
  by_cases hpending : Pending (s.entries b)
  · obtain ⟨f, hnames⟩ := (hB b hb).names hpending
    have hlt := (hB b hb).lt_size
    rw [StoreM.Meets, turnBlock_of_turnable (hB b hb) hnames]
    exact ⟨hs.trans (turned_setEntries hs.wellFormed hlt hnames),
      fun c hc => (hB c hc).turn hs.wellFormed hlt hnames⟩
  · rw [StoreM.Meets, turnBlock_of_not_pending hpending, hs.child]
    cases hsub : Entries.child? Definition.dictionaryKey (s₀.entries b) with
    | none => exact ⟨hs, hB⟩
    | some sub => exact hinside sub s hsub hs hB

theorem sumOver_meets {I : Store → Prop} {action : Policy → StoreM Nat} {ps : List Policy}
    (h : ∀ q ∈ ps, ∀ s, I s → (action q).Meets s False fun _ s' => I s') :
    ∀ s, I s → (Include.sumOver action ps).Meets s False fun _ s' => I s' := by
  induction ps with
  | nil => exact fun s hs => .pure hs
  | cons q ps ih =>
    intro s hs
    refine (h q List.mem_cons_self s hs).bind fun _ s₁ hs₁ => ?_
    refine (ih (fun r hr => h r (List.mem_cons_of_mem _ hr)) s₁ hs₁).bind fun _ s₂ hs₂ => ?_
    exact .pure hs₂

/-- All names below the rows of a dictionary are turned where all of them can be. -/
theorem turnFiles_meets {s₀ : Store} {rows₀ : Entries Policy} (hs₀ : s₀.WellFormed) (depth : Nat) :
    ∀ {s : Store} {rows inner : Entries Policy}, Turned s₀ s →
      (∀ key, Entries.child? key inner = Entries.child? key rows) →
      (∀ b, IsBlock s₀ rows b → IsBlock s₀ rows₀ b) → (∀ c, IsBlock s₀ rows₀ c → Turnable s c) →
      (turnFiles depth inner).Meets s False
        fun _ s' => Turned s₀ s' ∧ ∀ c, IsBlock s₀ rows₀ c → Turnable s' c := by
  induction depth with
  | zero => exact fun hs _ _ hB => .pure ⟨hs, hB⟩
  | succ depth ih =>
    intro s rows inner hs hrows hblocks hB
    refine .get_bind (sumOver_meets
      (I := fun s => Turned s₀ s ∧ ∀ c, IsBlock s₀ rows₀ c → Turnable s c)
      (fun b hb s₁ hs₁ => turnBlock_meets (fun sub s₂ hsub hs₂ hB₂ => ?_) hs₁.1 hs₁.2
        (hblocks b ((hs.isBlock_iff hs₀ hrows).mp (.own hb)))) s ⟨hs, hB⟩)
    have hb₀ : b ∈ blocks s₀ rows := by
      rw [mem_blocks_iff hs.wellFormed] at hb
      rw [mem_blocks_iff hs₀]
      simpa only [hrows, hs.child] using hb
    exact ih hs₂ (hs₂.child sub) (fun c hc => hblocks c (.inside hb₀ hsub hc)) hB₂

/-- Turning succeeds, turns each name that there is, and leaves none. -/
theorem Prepared.turnFiles (h : Prepared cfg P p s) (hs : s.Grounded p) :
    ∃ s', Dictionary.turnFiles (s.size + 1) (s.entries p) s =
        .ok (names cfg s (s.entries p)).card s' ∧
      Turns (IsBlock s (s.entries p)) s (names cfg s (s.entries p)).card s' ∧
      Prepared cfg P p s' ∧ names cfg s' (s'.entries p) = 0 ∧
      gather (awaited cfg) s' (s'.entries p) =
        names cfg s (s.entries p) + gather (awaited cfg) s (s.entries p) := by
  have hturnable (b : Policy) (hb : IsBlock s (s.entries p) b) : Turnable s b :=
    ⟨h.lt_of_isBlock hb, h.plain b (h.reaches hb), fun hpending =>
      exists_namesFile (h.full b) hpending (h.texts b hb)⟩
  have hmeets := turnFiles_meets h.toWellFormed (s.size + 1) (.refl h.toWellFormed)
    (fun _ => rfl) (fun _ => id) hturnable
  unfold StoreM.Meets at hmeets
  cases hrun : Dictionary.turnFiles (s.size + 1) (s.entries p) s with
  | error e s' =>
    rw [hrun] at hmeets
    exact hmeets.elim
  | ok n s' =>
    obtain ⟨hturns, hdone⟩ := turnFiles_ok _ h.toWellFormed (levels_of_grounded hs) hrun
    have hturned := hturns.turned h.toWellFormed
    obtain ⟨hs', paths, rfl, hnamed, hawaited⟩ := hturns.prepared h fun _ => id
    have hnone : names cfg s' (s'.entries p) = 0 := gather_eq_zero fun b hb =>
      named_of_not_pending (hdone b ((hturned.isBlock_iff h.toWellFormed (hturned.child p)).mp hb))
    rw [hnone, add_zero] at hnamed
    subst hnamed
    exact ⟨s', rfl, hturns, hs', hnone, hawaited⟩

end Dictionary

end PolicyStore
