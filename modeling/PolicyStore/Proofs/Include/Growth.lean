import PolicyStore.Proofs.Include.Standing
import PolicyStore.Proofs.Store.Tidy

set_option autoImplicit false

namespace PolicyStore

/-!
# Stores that grow

Including files adds policies to a store and changes some of the old ones. What is put in the place
of a reference is new, has no references left and is never changed again.
-/

/-- From one store to another only some policies change, which keep their dictionaries, and new
policies hold new ones only. No array becomes empty. -/
structure Extends (s s' : Store) (touched : Policy → Prop) : Prop where
  size_le : s.size ≤ s'.size
  wellFormed : s'.WellFormed
  frame : ∀ q : Policy, q.id < s.size → ¬touched q → s'.node q = s.node q
  dictionary : ∀ q : Policy, q.id < s.size → s'.dictionary? q = s.dictionary? q
  apart : ∀ q : Policy, s.size ≤ q.id → ∀ c ∈ s'.below q, s.size ≤ c.id
  full : s.Full → s'.Full

namespace Extends

variable {s s' s'' : Store} {T U : Policy → Prop}

theorem refl (h : s.WellFormed) (T : Policy → Prop) : Extends s s T where
  size_le := Nat.le_refl _
  wellFormed := h
  frame _ _ _ := rfl
  dictionary _ _ := rfl
  apart _ hq _ hc := (Nat.lt_irrefl _ (Nat.lt_of_lt_of_le (Store.lt_size_of_mem_below hc) hq)).elim
  full := id

theorem entries_eq (h : Extends s s' T) {q : Policy} (hq : q.id < s.size) (hT : ¬T q) :
    s'.entries q = s.entries q := by
  rw [Store.entries, h.frame q hq hT, Store.entries]

/-- The second step may change policies that the first has added, if they hold only new ones. -/
theorem trans_of_apart (h : Extends s s' T) (h' : Extends s' s'' U)
    (hU : ∀ q : Policy, U q → s.size ≤ q.id → ∀ c ∈ s''.below q, s.size ≤ c.id) :
    Extends s s'' fun q => T q ∨ U q where
  size_le := h.size_le.trans h'.size_le
  wellFormed := h'.wellFormed
  frame q hq hTU := by
    have hTU := not_or.mp hTU
    rw [h'.frame q (hq.trans_le h.size_le) hTU.2, h.frame q hq hTU.1]
  dictionary q hq := by
    rw [h'.dictionary q (hq.trans_le h.size_le), h.dictionary q hq]
  apart q hq c hc := by
    by_cases hold : q.id < s'.size
    · by_cases hUq : U q
      · exact hU q hUq hq c hc
      · rw [Store.below_congr (h'.entries_eq hold hUq)] at hc
        exact h.apart q hq c hc
    · exact h.size_le.trans (h'.apart q (Nat.le_of_not_lt hold) c hc)
  full hs := h'.full (h.full hs)

theorem trans (h : Extends s s' T) (h' : Extends s' s'' U) (hU : ∀ q, U q → q.id < s.size) :
    Extends s s'' fun q => T q ∨ U q :=
  h.trans_of_apart h' fun q hq hle => (Nat.lt_irrefl _ ((hU q hq).trans_le hle)).elim

theorem weaken (h : Extends s s' T) (hTU : ∀ q : Policy, q.id < s.size → T q → U q) :
    Extends s s' U where
  size_le := h.size_le
  wellFormed := h.wellFormed
  frame q hq hU := h.frame q hq fun hT => hU (hTU q hq hT)
  dictionary := h.dictionary
  apart := h.apart
  full := h.full

theorem alloc (h : s.WellFormed) (T : Policy → Prop) : Extends s (s.alloc {}).2 T where
  size_le := (Nat.le_succ _).trans (Store.size_alloc s {}).ge
  wellFormed := h.alloc List.Pairwise.nil fun c hc => by cases hc
  frame _ hq _ := Store.node_alloc_of_lt hq _
  dictionary q hq := by
    rw [Store.dictionary?, Store.node_alloc_of_lt hq, Store.dictionary?]
  apart q hq c hc := by
    rw [Store.below, Store.entries, Store.node_alloc] at hc
    split at hc
    · cases hc
    · exact (Nat.lt_irrefl _ ((Store.lt_size_of_mem_below hc).trans_le hq)).elim
  full hs := hs.alloc fun row hrow => by cases hrow

theorem setEntries (h : s.WellFormed) {p : Policy} (hp : p.id < s.size) {rows : Entries Policy}
    (hsorted : Table.Sorted rows)
    (hclosed : ∀ c ∈ rows.flatMap fun row => row.2.children, c.id < s.size)
    (hfull : s.Full → ∀ row ∈ rows, row.2.isEmpty = false) :
    Extends s (s.setEntries p rows) (· = p) where
  size_le := (Store.size_setEntries s p rows).ge
  wellFormed := h.setEntries hsorted hclosed
  frame _ _ hq := Store.node_setEntries_of_ne hq s rows
  dictionary q _ := by
    by_cases hq : q = p
    · rw [hq, Store.dictionary?_setEntries_self hp]
    · rw [Store.dictionary?, Store.node_setEntries_of_ne hq, Store.dictionary?]
  apart q hq c hc := by
    have hin := Store.lt_size_of_mem_below hc
    rw [Store.size_setEntries] at hin
    exact (Nat.lt_irrefl _ (hin.trans_le hq)).elim
  full hs := hs.setEntries (hfull hs)

end Extends

/-- No array of references is at or below a policy. -/
def Store.Clean (s : Store) (p : Policy) : Prop :=
  ∀ q, s.Reaches p q → Include.references (s.entries q) = []

/-- A policy among those from `low` on holds some content, without any reference. -/
structure Stands (s : Store) (low : Nat) (content : Content) (p : Policy) : Prop where
  low_le : low ≤ p.id
  lt_size : p.id < s.size
  clean : s.Clean p
  shows : ∃ n, s.Within n p ∧ s.contentTo n p = content

/-- The policies from `low` on stay as they are from one store to another. -/
structure Keeps (low : Nat) (s s' : Store) : Prop where
  size_le : s.size ≤ s'.size
  same : ∀ q : Policy, low ≤ q.id → q.id < s.size → s'.node q = s.node q

/-- Policies from `low` on hold only such policies. -/
def ApartFrom (low : Nat) (s : Store) : Prop :=
  ∀ q : Policy, low ≤ q.id → ∀ c ∈ s.below q, low ≤ c.id

theorem Stands.mono {s : Store} {low low' : Nat} {content : Content} {p : Policy}
    (h : Stands s low content p) (hlow : low' ≤ low) : Stands s low' content p :=
  { h with low_le := hlow.trans h.low_le }

namespace Keeps

variable {low : Nat} {s s' s'' : Store} {p : Policy} {content : Content}

theorem refl (low : Nat) (s : Store) : Keeps low s s := ⟨Nat.le_refl _, fun _ _ _ => rfl⟩

theorem trans (h : Keeps low s s') (h' : Keeps low s' s'') : Keeps low s s'' :=
  ⟨h.size_le.trans h'.size_le, fun q hlow hq => by
    rw [h'.same q hlow (hq.trans_le h.size_le), h.same q hlow hq]⟩

theorem entries_eq (h : Keeps low s s') {q : Policy} (hlow : low ≤ q.id) (hq : q.id < s.size) :
    s'.entries q = s.entries q := by
  rw [Store.entries, h.same q hlow hq, Store.entries]

theorem closed (hs : s.WellFormed) (happart : ApartFrom low s) :
    ∀ q : Policy, low ≤ q.id ∧ q.id < s.size → ∀ c ∈ s.below q, low ≤ c.id ∧ c.id < s.size :=
  fun q hq c hc => ⟨happart q hq.1 c hc, hs.closed q c hc⟩

theorem clean (h : Keeps low s s') (hs : s.WellFormed) (happart : ApartFrom low s)
    (hlow : low ≤ p.id) (hp : p.id < s.size) (hclean : s.Clean p) : s'.Clean p := by
  intro q hq
  obtain ⟨hreach, hq'⟩ := Store.reaches_congr (closed hs happart)
    (fun r hr => h.entries_eq hr.1 hr.2) ⟨hlow, hp⟩ hq
  rw [h.entries_eq hq'.1 hq'.2]
  exact hclean q hreach

theorem stands (h : Keeps low s s') (hs : s.WellFormed) (happart : ApartFrom low s)
    (hp : Stands s low content p) : Stands s' low content p where
  low_le := hp.low_le
  lt_size := hp.lt_size.trans_le h.size_le
  clean := h.clean hs happart hp.low_le hp.lt_size hp.clean
  shows := by
    obtain ⟨n, hn, hcontent⟩ := hp.shows
    have hrows : ∀ q : Policy, low ≤ q.id ∧ q.id < s.size → s'.entries q = s.entries q :=
      fun q hq => h.entries_eq hq.1 hq.2
    refine ⟨n, Store.within_congr (closed hs happart) hrows ⟨hp.low_le, hp.lt_size⟩ hn, ?_⟩
    rw [Store.contentTo_congr (closed hs happart) hrows ⟨hp.low_le, hp.lt_size⟩, hcontent]

end Keeps

namespace Extends

variable {low : Nat} {s s' : Store} {T : Policy → Prop}

/-- What is changed only below `low` stays as it is from there on. -/
theorem keeps (h : Extends s s' T) (hT : ∀ q, T q → q.id < low) : Keeps low s s' where
  size_le := h.size_le
  same q hlow hq := h.frame q hq fun hq' => Nat.lt_irrefl _ ((hT q hq').trans_le hlow)

theorem apartFrom (h : Extends s s' T) (hT : ∀ q, T q → q.id < low) (hlow : low ≤ s.size)
    (happart : ApartFrom low s) : ApartFrom low s' := by
  intro q hq c hc
  by_cases hold : q.id < s.size
  · have hsame := h.entries_eq hold fun hq' => Nat.lt_irrefl _ ((hT q hq').trans_le hq)
    rw [Store.below_congr hsame] at hc
    exact happart q hq c hc
  · exact hlow.trans (h.apart q (Nat.le_of_not_lt hold) c hc)

/-- All that stood for a reference before stands for it still. -/
theorem stands (h : Extends s s' T) (hs : s.WellFormed) (hT : ∀ q, T q → q.id < low)
    (happart : ApartFrom low s) {content : Content} {p : Policy} (hp : Stands s low content p) :
    Stands s' low content p :=
  (h.keeps hT).stands hs happart hp

end Extends

/-- The empty policy that is put in the place of a file that cannot be included. -/
theorem stands_alloc (s : Store) :
    Stands (s.alloc {}).2 s.size (.node []) (s.alloc {}).1 := by
  have hrows : (s.alloc {}).2.entries (s.alloc {}).1 = [] := by
    rw [Store.entries, Store.node_alloc_self]
  have hbelow : (s.alloc {}).2.below (s.alloc {}).1 = [] := by
    rw [Store.below, hrows]
    rfl
  refine ⟨Nat.le_refl _, ?_, fun q hq => ?_, 1, ?_, ?_⟩
  · rw [Store.size_alloc]
    exact Nat.lt_succ_self _
  · rcases Relation.ReflTransGen.cases_head hq with rfl | ⟨c, hc, _⟩
    · rw [hrows]
      rfl
    · rw [hbelow] at hc
      cases hc
  · intro c hc
    rw [hbelow] at hc
    cases hc
  · rw [Store.contentTo, hrows]
    rfl

end PolicyStore
