import PolicyStore.Proofs.Dictionary.Turning

set_option autoImplicit false

namespace PolicyStore

/-!
# Rounds of loading

Each round turns names of files into references and includes the files. The last round turns none,
but its inclusion comes after the count: what it reads may name files again, unless an earlier round
has included all that there is.
-/

namespace Dictionary

open Include (Settings)

variable {cfg : Settings} {s s' : Store} {d : Dictionary} {p b : Policy}

theorem Turned.grounded (h : Turned s s') (hs : s.Grounded p) : s'.Grounded p where
  toWellFormed := h.wellFormed
  full := h.full hs.full
  lt_size := h.size ▸ hs.lt_size
  founded := by
    obtain ⟨n, hn⟩ := hs.founded
    exact ⟨n, h.within hn⟩

theorem levels_of_grounded (hs : s.Grounded p) : Levels s (s.size + 1) (s.entries p) :=
  fun c hc => ⟨hs.closed p c hc, (hs.within.of_mem_below hc).mono (Nat.le_succ _)⟩

/-- Whatever rounds keep true is true before and after the last inclusion. That one comes to a
policy without names of files, and to one without references if it is not the first. -/
theorem loadRounds_ok {I : Store → Prop} (hgrounded : ∀ s, I s → s.Grounded p)
    (hturn : ∀ {s s' : Store} {n : Nat}, I s → Turns (IsBlock s (s.entries p)) s n s' → I s')
    (hinclude : ∀ {s s' : Store}, I s → Include.Includes s p s' → I s') {rounds : Nat} :
    ∀ {s s' : Store} {tried : Nat}, I s → loadRounds cfg p rounds s = .ok tried s' →
      ∃ s₁ last, I s₁ ∧ p.includeFiles cfg s₁ = .ok last s' ∧
        (∀ b, IsBlock s₁ (s₁.entries p) b → ¬Pending (s₁.entries b)) ∧
        (s₁.Clean p ∨ s₁ = s ∧ last = tried) := by
  induction rounds with
  | zero =>
    intro s s' tried _ h
    cases h
  | succ rounds ih =>
    intro s s' tried hs h
    obtain ⟨s₁, s₂, hget, h⟩ := StoreM.bind_eq_ok h
    cases hget
    obtain ⟨s₁, s₂, hget, h⟩ := StoreM.bind_eq_ok h
    cases hget
    obtain ⟨count, s₁, hturned, h⟩ := StoreM.bind_eq_ok h
    obtain ⟨first, s₂, hincluded, h⟩ := StoreM.bind_eq_ok h
    have hground := hgrounded s hs
    obtain ⟨hturns, hpending⟩ :=
      turnFiles_ok _ hground.toWellFormed (levels_of_grounded hground) hturned
    have hs₁ := hturn hs hturns
    split at h
    · -- Nothing has been turned, so this is the last round.
      rename_i hzero
      cases h
      subst hzero
      cases hturns.eq_of_zero
      exact ⟨s, _, hs, hincluded, hpending, Or.inr ⟨rfl, rfl⟩⟩
    · obtain ⟨others, s₃, hrest, h⟩ := StoreM.bind_eq_ok h
      cases h
      have hincludes := Include.includes_of_includeFiles (hgrounded s₁ hs₁) hincluded
      obtain ⟨s₄, last, hs₄, hlast, hdone, hclean | ⟨rfl, _⟩⟩ := ih (hinclude hs₁ hincludes) hrest
      · exact ⟨s₄, last, hs₄, hlast, hdone, Or.inl hclean⟩
      · exact ⟨s₄, last, hs₄, hlast, hdone, Or.inl hincludes.clean⟩

/-! ## Dictionaries of a store -/

/-- The rows of a dictionary are as those of a policy of a sound store that does not hold itself. -/
structure Sound (s : Store) (d : Dictionary) : Prop extends s.WellFormed, s.Bears d.entries where
  full : s.Full
  sorted_entries : Table.Sorted d.entries
  full_entries : ∀ row ∈ d.entries, row.2.isEmpty = false

namespace Sound

theorem lt_of_isBlock (h : d.Sound s) (hb : IsBlock s d.entries b) : b.id < s.size := by
  obtain ⟨c, hc, hreach⟩ := reaches_of_isBlock h.toWellFormed hb
  exact h.toWellFormed.lt_of_reaches (h.lt_size c hc) hreach

theorem entries_alloc (s : Store) (n : Node) {q : Policy} (hq : q.id < s.size) :
    (s.alloc n).2.entries q = s.entries q := by
  rw [Store.entries, Store.node_alloc_of_lt hq, Store.entries]

theorem entries_alloc_self (s : Store) (d : Dictionary) :
    (s.alloc { entries := d.entries }).2.entries ⟨s.size⟩ = d.entries := by
  rw [Store.entries, Store.node_alloc, if_pos rfl]

/-- The policy that is loaded in the place of a dictionary. -/
theorem grounded (h : d.Sound s) : (s.alloc { entries := d.entries }).2.Grounded ⟨s.size⟩ where
  toWellFormed := h.toWellFormed.alloc h.sorted_entries h.lt_size
  full := h.full.alloc h.full_entries
  lt_size := by
    rw [Store.size_alloc]
    exact Nat.lt_succ_self _
  founded := by
    refine Store.exists_within fun c hc => ?_
    rw [Store.below, entries_alloc_self] at hc
    obtain ⟨n, hn⟩ := h.founded c hc
    exact ⟨n, Store.within_congr (P := fun q => q.id < s.size)
      (fun q _ c hc => h.closed q c hc) (fun q hq => entries_alloc s _ hq) (h.lt_size c hc) hn⟩

theorem isBlock_alloc_iff (h : d.Sound s) :
    IsBlock (s.alloc { entries := d.entries }).2 d.entries b ↔ IsBlock s d.entries b := by
  have hground := h.grounded.toWellFormed
  have hsame (q : Policy) (hq : q.id < s.size) :
      (s.alloc { entries := d.entries }).2.entries q = s.entries q :=
    entries_alloc s _ hq
  constructor
  · refine fun hb => (hb.congr hground h.toWellFormed (P := fun q => q.id < s.size)
      (fun q hq c hc => ?_) (fun q hq => (hsame q hq).symm) h.lt_size).1
    rw [Store.below_congr (hsame q hq)] at hc
    exact h.closed q c hc
  · exact fun hb => (hb.congr h.toWellFormed hground (P := fun q => q.id < s.size)
      (fun q _ c hc => h.closed q c hc) hsame h.lt_size).1

end Sound

end Dictionary

end PolicyStore
