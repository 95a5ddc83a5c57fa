import PolicyStore.Proofs.Dictionary.Rounds
import Mathlib.Data.Option.Basic
import Mathlib.Order.Basic

set_option autoImplicit false

namespace PolicyStore

/-!
# What loading makes of the policies that were there

From round to round, arrays of references become arrays of new policies, and the blocks that name a
file get a dictionary instead. Nothing else happens to a policy that was there at the start.
-/

/-! ## Rows -/

/-- Policies from `low` on may have taken the place of the references of an array. -/
def Values.Aged (low : Nat) (vs vs' : Values Policy) : Prop :=
  vs' = vs ∨ Filled (fun _ c => low ≤ c.id) vs vs'

/-- The same keys, with arrays that have aged. -/
def Entries.Aged (low : Nat) : Entries Policy → Entries Policy → Prop :=
  List.Forall₂ fun row row' => row'.1 = row.1 ∧ Values.Aged low row.2 row'.2

theorem Values.Aged.trans {low : Nat} {vs vs' vs'' : Values Policy} (h : Values.Aged low vs vs')
    (h' : Values.Aged low vs' vs'') : Values.Aged low vs vs'' := by
  rcases h with rfl | h
  · exact h'
  · rcases h' with rfl | h'
    · exact Or.inr h
    · cases h' with
      | files _ => exact (h.kind_ne rfl).elim
      | other _ => exact Or.inr h

theorem Values.Aged.eq_of_last? {low : Nat} {vs vs' : Values Policy} (h : Values.Aged low vs vs')
    {v : Value Policy} (hlast : vs'.last? = some v) (hv : v.kind ≠ .policy) : vs' = vs := by
  rcases h with hsame | hfilled
  · exact hsame
  · cases hfilled with
    | files _ => exact (hv (kind_of_mem_toList (List.mem_of_getLast? hlast))).elim
    | other _ => rfl

namespace Entries.Aged

variable {low : Nat} {rows rows' rows'' : Entries Policy}

theorem refl (low : Nat) (rows : Entries Policy) : Entries.Aged low rows rows := by
  induction rows with
  | nil => exact .nil
  | cons row rows ih => exact .cons ⟨rfl, Or.inl rfl⟩ ih

theorem of_filled {P : FileRef → Policy → Prop} (hP : ∀ f c, P f c → low ≤ c.id)
    (h : FilledRows P rows rows') : Entries.Aged low rows rows' :=
  List.Forall₂.imp (fun _ _ hrow => ⟨hrow.1, Or.inr (hrow.2.mono hP)⟩) h

theorem trans (h : Entries.Aged low rows rows') (h' : Entries.Aged low rows' rows'') :
    Entries.Aged low rows rows'' := by
  induction h generalizing rows'' with
  | nil => exact h'
  | cons hrow _ ih =>
    cases h' with
    | cons hrow' hrest => exact .cons ⟨hrow'.1.trans hrow.1, hrow.2.trans hrow'.2⟩ (ih hrest)

theorem erase (h : Entries.Aged low rows rows') (key : String) :
    Entries.Aged low (Table.erase key rows) (Table.erase key rows') := by
  induction h with
  | nil => exact .nil
  | @cons row row' _ _ hrow _ ih =>
    obtain ⟨k, vs⟩ := row
    obtain ⟨k', vs'⟩ := row'
    obtain ⟨rfl, hvs⟩ := hrow
    simp only [Table.erase]
    split
    · exact ih
    · exact .cons ⟨rfl, hvs⟩ ih

theorem insert (h : Entries.Aged low rows rows') (key : String) (values : Values Policy) :
    Entries.Aged low (Table.insert key values rows) (Table.insert key values rows') := by
  induction h with
  | nil => exact .cons ⟨rfl, Or.inl rfl⟩ .nil
  | @cons row row' _ _ hrow hrest ih =>
    obtain ⟨k, vs⟩ := row
    obtain ⟨k', vs'⟩ := row'
    obtain ⟨rfl, hvs⟩ := hrow
    simp only [Table.insert]
    split
    · exact .cons ⟨rfl, Or.inl rfl⟩ (.cons ⟨rfl, hvs⟩ hrest)
    · split
      · exact .cons ⟨rfl, Or.inl rfl⟩ hrest
      · exact .cons ⟨rfl, hvs⟩ ih

theorem turned (h : Entries.Aged low rows rows') (f : FileRef) :
    Entries.Aged low (Dictionary.turned f rows) (Dictionary.turned f rows') :=
  (h.erase _).insert _ _

theorem get?_rel (h : Entries.Aged low rows rows') (key : String) :
    Option.Rel (Values.Aged low) (Table.get? key rows) (Table.get? key rows') :=
  Table.get?_pairs h key

theorem child?_of_child? (h : Entries.Aged low rows rows') {key : String} {c : Policy}
    (hc : Entries.child? key rows = some c) : Entries.child? key rows' = some c := by
  obtain ⟨children, hget, hlast⟩ := Entries.child?_eq_some_iff.mp hc
  have hrel := h.get?_rel key
  rw [hget] at hrel
  generalize hget' : Table.get? key rows' = found at hrel
  cases hrel with
  | some hvs =>
    rcases hvs with hsame | hfilled
    · exact Entries.child?_eq_some_iff.mpr ⟨children, hsame ▸ hget', hlast⟩
    · cases hfilled with
      | other _ => exact Entries.child?_eq_some_iff.mpr ⟨children, hget', hlast⟩

theorem child?_cases (h : Entries.Aged low rows rows') {key : String} {c : Policy}
    (hc : Entries.child? key rows' = some c) : Entries.child? key rows = some c ∨ low ≤ c.id := by
  obtain ⟨children, hget', hlast⟩ := Entries.child?_eq_some_iff.mp hc
  have hrel := h.get?_rel key
  rw [hget'] at hrel
  generalize hget : Table.get? key rows = found at hrel
  cases hrel with
  | some hvs =>
    rcases hvs with hsame | hfilled
    · exact Or.inl (Entries.child?_eq_some_iff.mpr ⟨children, hsame ▸ hget, hlast⟩)
    · cases hfilled with
      | files hall =>
        obtain ⟨_, _, hlow⟩ := exists_of_mem_right hall (List.mem_of_getLast? hlast)
        exact Or.inr hlow
      | other _ => exact Or.inl (Entries.child?_eq_some_iff.mpr ⟨children, hget, hlast⟩)

theorem get?_eq_none_iff (h : Entries.Aged low rows rows') (key : String) :
    Table.get? key rows' = none ↔ Table.get? key rows = none := by
  have hrel := h.get?_rel key
  generalize Table.get? key rows = found, Table.get? key rows' = found' at hrel ⊢
  cases hrel with
  | none => exact Iff.rfl
  | some _ => simp

theorem pending_iff (h : Entries.Aged low rows rows') :
    Dictionary.Pending rows' ↔ Dictionary.Pending rows := by
  rw [Dictionary.Pending, Dictionary.Pending, h.get?_eq_none_iff, Option.isSome_iff_ne_none,
    Option.isSome_iff_ne_none, Ne, Ne, h.get?_eq_none_iff]

theorem filled (h : Entries.Aged low rows rows') (hclean : Include.references rows' = []) :
    FilledRows (fun _ c => low ≤ c.id) rows rows' := by
  have hkinds : ∀ row ∈ rows', row.2.kind ≠ .file := by
    rintro ⟨key, vs⟩ hrow hkind
    cases vs with
    | files fs =>
      have hmem := Include.mem_references_iff.mpr hrow
      rw [hclean] at hmem
      cases hmem
    | _ => cases hkind
  clear hclean
  induction h with
  | nil => exact .nil
  | @cons row row' _ _ hrow _ ih =>
    have hkind := hkinds row' List.mem_cons_self
    refine .cons ⟨hrow.1, ?_⟩ (ih fun r hr => hkinds r (List.mem_cons_of_mem _ hr))
    rcases hrow.2 with hsame | hfilled
    · rw [hsame] at hkind ⊢
      exact .other hkind
    · exact hfilled

end Entries.Aged

namespace Dictionary

open Include (Settings)

variable {cfg : Settings} {s₀ s s' : Store} {rows : Entries Policy} {p b c : Policy} {n : Nat}

/-! ## Stores -/

/-- A block of a dictionary that names the file of its own dictionary. -/
def Naming (s : Store) (rows : Entries Policy) (b : Policy) : Prop :=
  IsBlock s rows b ∧ Pending (s.entries b)

/-- A store some rounds of loading after another. -/
structure Evolves (p : Policy) (s₀ s : Store) : Prop where
  size_le : s₀.size ≤ s.size
  apart : ApartFrom s₀.size s
  dictionary : ∀ q : Policy, q.id < s₀.size → s.dictionary? q = s₀.dictionary? q
  rows : ∀ q : Policy, q.id < s₀.size → (s₀.entries q).Aged s₀.size (s.entries q) ∨
    IsBlock s₀ (s₀.entries p) q ∧ ∃ f, NamesFile (s₀.entries q) f ∧
      (turned f (s₀.entries q)).Aged s₀.size (s.entries q)

/-- A name of a file has not become one since. -/
theorem NamesFile.of_aged {low : Nat} {rows rows' : Entries Policy} {f : FileRef}
    (h : rows.Aged low rows') (hnames : NamesFile rows' f) : NamesFile rows f := by
  obtain ⟨names, v, hget', hnone, hlast, hfile⟩ := hnames
  have hrel := h.get?_rel Definition.dictionaryFileKey
  rw [hget'] at hrel
  generalize hget : Table.get? Definition.dictionaryFileKey rows = found at hrel
  cases hrel with
  | @some old _ hvs =>
    have hlast' : names.last? = some v := by
      unfold Entries.lastOf at hlast
      split at hlast
      · rename_i w hw
        cases hlast
        exact hw
      · cases hlast
    have hkind : v.kind ≠ .policy := by
      intro hkind
      cases v with
      | policy c => cases hfile
      | _ => cases hkind
    have hsame : names = old := hvs.eq_of_last? hlast' hkind
    rw [hsame] at hlast
    exact ⟨old, v, hget, (h.get?_eq_none_iff _).mp hnone, hlast, hfile⟩

namespace Evolves

theorem refl (hs : s.WellFormed) (p : Policy) : Evolves p s s where
  size_le := Nat.le_refl _
  apart := (Extends.refl hs fun _ => False).apart
  dictionary _ _ := rfl
  rows _ _ := Or.inl (.refl _ _)

theorem child?_of_child? (h : Evolves p s₀ s) {q : Policy} (hq : q.id < s₀.size) {key : String}
    (hc : Entries.child? key (s₀.entries q) = some c) :
    Entries.child? key (s.entries q) = some c := by
  rcases h.rows q hq with hrows | ⟨_, f, hnames, hrows⟩
  · exact hrows.child?_of_child? hc
  · apply hrows.child?_of_child?
    rwa [child?_turned hnames]

theorem child?_cases (h : Evolves p s₀ s) {q : Policy} (hq : q.id < s₀.size) {key : String}
    (hc : Entries.child? key (s.entries q) = some c) :
    Entries.child? key (s₀.entries q) = some c ∨ s₀.size ≤ c.id := by
  rcases h.rows q hq with hrows | ⟨_, f, hnames, hrows⟩
  · exact hrows.child?_cases hc
  · rw [← child?_turned hnames]
    exact hrows.child?_cases hc

theorem low_le_of_reaches (h : Evolves p s₀ s) {q : Policy} (hq : s₀.size ≤ q.id)
    (hc : s.Reaches q c) : s₀.size ≤ c.id := by
  induction hc with
  | refl => exact hq
  | tail _ hstep ih => exact h.apart _ ih _ hstep

theorem low_le_of_child? (h : Evolves p s₀ s) {q : Policy} (hq : s₀.size ≤ q.id) {key : String}
    (hc : Entries.child? key (s.entries q) = some c) : s₀.size ≤ c.id :=
  h.apart q hq c (Entries.mem_of_child? hc)

variable (hs₀ : s₀.WellFormed) (hs : s.WellFormed)

include hs₀ hs

theorem mem_blocks_of_mem_blocks (h : Evolves p s₀ s) {q : Policy} (hq : q.id < s₀.size)
    (hb : b ∈ blocks s₀ (s₀.entries q)) : b ∈ blocks s (s.entries q) := by
  apply (mem_blocks_iff hs).mpr
  rcases (mem_blocks_iff hs₀).mp hb with ⟨definitions, key, hdefinitions, hb⟩ | hb
  · have hlt := hs₀.closed q definitions (Entries.mem_of_child? hdefinitions)
    exact Or.inl ⟨definitions, key, h.child?_of_child? hq hdefinitions, h.child?_of_child? hlt hb⟩
  · exact Or.inr (h.child?_of_child? hq hb)

theorem mem_blocks_cases (h : Evolves p s₀ s) {q : Policy} (hq : q.id < s₀.size)
    (hb : b ∈ blocks s (s.entries q)) : b ∈ blocks s₀ (s₀.entries q) ∨ s₀.size ≤ b.id := by
  rcases (mem_blocks_iff hs).mp hb with ⟨definitions, key, hdefinitions, hb⟩ | hb
  · rcases h.child?_cases hq hdefinitions with hold | hnew
    · have hlt := hs₀.closed q definitions (Entries.mem_of_child? hold)
      exact (h.child?_cases hlt hb).imp_left fun hb =>
        (mem_blocks_iff hs₀).mpr (Or.inl ⟨definitions, key, hold, hb⟩)
    · exact Or.inr (h.low_le_of_child? hnew hb)
  · exact (h.child?_cases hq hb).imp_left fun hb => (mem_blocks_iff hs₀).mpr (Or.inr hb)

theorem isBlock_of_isBlock (h : Evolves p s₀ s) {q : Policy} (hq : q.id < s₀.size)
    (hb : IsBlock s₀ (s₀.entries q) b) : IsBlock s (s.entries q) b := by
  generalize hrows : s₀.entries q = rows at hb
  induction hb generalizing q with
  | own hb =>
    subst hrows
    exact .own (h.mem_blocks_of_mem_blocks hs₀ hs hq hb)
  | @inside rows b sub c hb hsub _ ih =>
    subst hrows
    obtain ⟨d, hd, hreach⟩ := exists_reaches_of_mem_blocks hs₀ hb
    have hlt := hs₀.lt_of_reaches (hs₀.closed q d hd) hreach
    exact .inside (h.mem_blocks_of_mem_blocks hs₀ hs hq hb) (h.child?_of_child? hlt hsub)
      (ih (hs₀.closed b sub (Entries.mem_of_child? hsub)) rfl)

/-- A block is new, or it was one before. -/
theorem isBlock_cases (h : Evolves p s₀ s) {q : Policy} (hq : q.id < s₀.size)
    (hb : IsBlock s (s.entries q) b) : IsBlock s₀ (s₀.entries q) b ∨ s₀.size ≤ b.id := by
  generalize hrows : s.entries q = rows at hb
  induction hb generalizing q with
  | own hb =>
    subst hrows
    exact (h.mem_blocks_cases hs₀ hs hq hb).imp_left .own
  | @inside rows b sub c hb hsub hc ih =>
    subst hrows
    have hnew (hsub : s₀.size ≤ sub.id) : s₀.size ≤ c.id := by
      obtain ⟨d, hd, hreach⟩ := reaches_of_isBlock hs hc
      exact h.low_le_of_reaches (h.apart sub hsub d hd) hreach
    rcases h.mem_blocks_cases hs₀ hs hq hb with hb | hb
    · obtain ⟨d, hd, hreach⟩ := exists_reaches_of_mem_blocks hs₀ hb
      have hlt := hs₀.lt_of_reaches (hs₀.closed q d hd) hreach
      rcases h.child?_cases hlt hsub with hsub | hsub
      · exact (ih (hs₀.closed b sub (Entries.mem_of_child? hsub)) rfl).imp_left (.inside hb hsub)
      · exact Or.inr (hnew hsub)
    · exact Or.inr (hnew (h.low_le_of_child? hb hsub))

omit hs₀ hs in
theorem setEntries (h : Evolves p s₀ s) {f : FileRef} (hb : b.id < s.size)
    (hblock : b.id < s₀.size → IsBlock s₀ (s₀.entries p) b) (hnames : NamesFile (s.entries b) f) :
    Evolves p s₀ (s.setEntries b (turned f (s.entries b))) where
  size_le := h.size_le.trans (Store.size_setEntries _ _ _).ge
  apart q hq c hc := by
    by_cases heq : q = b
    · subst heq
      rw [Store.below, Store.entries_setEntries_self hb] at hc
      exact h.apart q hq c (mem_children_turned hc)
    · rw [Store.below_congr (Store.entries_setEntries_of_ne heq _ _)] at hc
      exact h.apart q hq c hc
  dictionary q hq := by
    rw [Store.dictionary?_setEntries, h.dictionary q hq]
  rows q hq := by
    by_cases heq : q = b
    · subst heq
      rw [Store.entries_setEntries_self hb]
      rcases h.rows q hq with hrows | ⟨_, f', _, hrows⟩
      · exact Or.inr ⟨hblock hq, f, hnames.of_aged hrows, hrows.turned f⟩
      · exact (not_pending_turned _ _ (hrows.pending_iff.mp hnames.pending)).elim
    · rw [Store.entries_setEntries_of_ne heq]
      exact h.rows q hq

omit hs₀ hs in
theorem turns {B : Policy → Prop}
    (hB : ∀ b : Policy, b.id < s₀.size → B b → IsBlock s₀ (s₀.entries p) b)
    (hturns : Turns B s n s') (h : Evolves p s₀ s) : Evolves p s₀ s' := by
  induction hturns with
  | refl => exact h
  | step hb hlt hnames _ ih => exact ih (h.setEntries hlt (fun hold => hB _ hold hb) hnames)

end Evolves

theorem aged_of_includes {low : Nat} (h : Include.Includes s p s') (hlow : low ≤ s.size)
    {q : Policy} (hq : q.id < s.size) : (s.entries q).Aged low (s'.entries q) := by
  by_cases hreach : s.Reaches p q
  · exact .of_filled (fun _ _ hc => hlow.trans hc) (h.filled q hreach)
  · rw [h.entries_eq hq hreach]
    exact .refl _ _

theorem Evolves.includes (h : Evolves p s₀ s) (hincludes : Include.Includes s p s') :
    Evolves p s₀ s' where
  size_le := h.size_le.trans hincludes.grown.size_le
  apart q hq c hc := by
    by_cases hold : q.id < s.size
    · by_cases hreach : s.Reaches p q
      · rcases (hincludes.filled q hreach).child_cases hc with hc | ⟨_, hlow⟩
        · exact h.apart q hq c hc
        · exact h.size_le.trans hlow
      · rw [Store.below_congr (hincludes.entries_eq hold hreach)] at hc
        exact h.apart q hq c hc
    · exact h.size_le.trans (hincludes.grown.apart q (Nat.le_of_not_lt hold) c hc)
  dictionary q hq := by
    rw [hincludes.grown.dictionary q (hq.trans_le h.size_le), h.dictionary q hq]
  rows q hq := by
    have haged := aged_of_includes hincludes h.size_le (hq.trans_le h.size_le)
    rcases h.rows q hq with hrows | ⟨hblock, f, hnames, hrows⟩
    · exact Or.inl (hrows.trans haged)
    · exact Or.inr ⟨hblock, f, hnames, hrows.trans haged⟩

/-- What all rounds together make of a store. -/
theorem evolves_of_loadRounds {tried rounds : Nat} (hs₀ : s₀.Grounded p)
    (hrun : loadRounds cfg p rounds s₀ = .ok tried s') :
    s'.Grounded p ∧ Evolves p s₀ s' ∧ s'.Clean p ∧
      ∀ b, IsBlock s₀ (s₀.entries p) b → ¬Pending (s'.entries b) := by
  have hturn {s s' : Store} {n : Nat} (hs : s.Grounded p ∧ Evolves p s₀ s)
      (hturns : Turns (IsBlock s (s.entries p)) s n s') : s'.Grounded p ∧ Evolves p s₀ s' := by
    refine ⟨(hturns.turned hs.1.toWellFormed).grounded hs.1, ?_⟩
    refine hs.2.turns (fun b hlt hb => ?_) hturns
    exact (hs.2.isBlock_cases hs₀.toWellFormed hs.1.toWellFormed hs₀.lt_size hb).resolve_right
      (Nat.not_le_of_lt hlt)
  have hinclude {s s' : Store} (hs : s.Grounded p ∧ Evolves p s₀ s)
      (hincludes : Include.Includes s p s') : s'.Grounded p ∧ Evolves p s₀ s' :=
    ⟨hincludes.grounded hs.1, hs.2.includes hincludes⟩
  obtain ⟨s₁, last, hs₁, hlast, hpending, _⟩ := loadRounds_ok (fun _ hs => hs.1) hturn hinclude
    ⟨hs₀, Evolves.refl hs₀.toWellFormed p⟩ hrun
  have hincludes := Include.includes_of_includeFiles hs₁.1 hlast
  obtain ⟨hground, hevolves⟩ := hinclude hs₁ hincludes
  refine ⟨hground, hevolves, hincludes.clean, fun b hb hpending' => ?_⟩
  have hb₁ := hs₁.2.isBlock_of_isBlock hs₀.toWellFormed hs₁.1.toWellFormed hs₀.lt_size hb
  obtain ⟨c, hc, hreach⟩ := reaches_of_isBlock hs₁.1.toWellFormed hb₁
  have hlt := hs₁.1.lt_of_reaches (hs₁.1.closed p c hc) hreach
  have haged := aged_of_includes hincludes (Nat.le_refl _) hlt
  exact hpending b hb₁ (haged.pending_iff.mp hpending')

end Dictionary

end PolicyStore
