import PolicyStore.Proofs.Store.Content
import Mathlib.Data.Finset.Card
import Mathlib.Data.Finset.Image
import Mathlib.Logic.Relation

set_option autoImplicit false

namespace PolicyStore.Store

/-!
# Policies below a policy

A policy reaches those that it holds, those that they hold, and so on. Policies may be held several
times. Where none reaches itself, a policy has as many levels as the store has policies at most.
-/

/-- The policy is the other one, or holds it at some depth. -/
def Reaches (s : Store) : Policy → Policy → Prop :=
  Relation.ReflTransGen fun p q => q ∈ s.below p

/-- No policy at or below `p` holds itself at any depth. -/
def Acyclic (s : Store) (p : Policy) : Prop :=
  ∀ q, s.Reaches p q → ¬Relation.TransGen (fun a b => b ∈ s.below a) q q

/-- The policy and those below it have a number of levels at most. -/
def Within (s : Store) : Nat → Policy → Prop
  | 0, _ => False
  | depth + 1, p => ∀ q ∈ s.below p, Within s depth q

/-- What all operations preserve: rows are sorted and every handle in them has been given out. -/
structure WellFormed (s : Store) : Prop where
  sorted : ∀ p, Table.Sorted (s.entries p)
  closed : ∀ p, ∀ q ∈ s.below p, q.id < s.size

/-- No row holds an empty array. -/
def Full (s : Store) : Prop := ∀ q, ∀ row ∈ s.entries q, row.2.isEmpty = false

variable {s s' : Store} {p q : Policy} {m n : Nat}

theorem entries_of_size_le (h : s.size ≤ p.id) : s.entries p = [] := by
  have hnone : s.nodes[p.id]? = none := Array.getElem?_eq_none h
  rw [entries, node, hnone]
  rfl

theorem lt_size_of_mem_below (h : q ∈ s.below p) : p.id < s.size := by
  refine Nat.lt_of_not_le fun hle => ?_
  rw [below, entries_of_size_le hle] at h
  cases h

theorem Reaches.head {r : Policy} (hq : q ∈ s.below p) (h : s.Reaches q r) : s.Reaches p r :=
  Relation.ReflTransGen.head hq h

theorem WellFormed.lt_of_reaches (hs : s.WellFormed) (hp : p.id < s.size) (h : s.Reaches p q) :
    q.id < s.size := by
  induction h with
  | refl => exact hp
  | tail _ hstep _ => exact hs.closed _ _ hstep

theorem Reaches.eq_of_below_eq_nil (h : s.Reaches p q) (hp : s.below p = []) : q = p := by
  rcases Relation.ReflTransGen.cases_head h with rfl | ⟨c, hc, _⟩
  · rfl
  · rw [hp] at hc
    cases hc

/-- Only the policies that a store has given out need to be looked at. -/
theorem WellFormed.of_lt (hsorted : ∀ i < s.size, Table.Sorted (s.entries ⟨i⟩))
    (hclosed : ∀ i < s.size, ∀ c ∈ s.below ⟨i⟩, c.id < s.size) : s.WellFormed where
  sorted p := by
    by_cases hp : p.id < s.size
    · exact hsorted p.id hp
    · rw [entries_of_size_le (Nat.le_of_not_lt hp)]
      exact List.Pairwise.nil
  closed p q hq := hclosed p.id (lt_size_of_mem_below hq) q hq

theorem Full.of_lt (h : ∀ i < s.size, ∀ row ∈ s.entries ⟨i⟩, row.2.isEmpty = false) : s.Full := by
  intro p row hrow
  by_cases hp : p.id < s.size
  · exact h p.id hp row hrow
  · rw [entries_of_size_le (Nat.le_of_not_lt hp)] at hrow
    cases hrow

instance decidableSorted {α : Type} (rows : List (String × α)) : Decidable (Table.Sorted rows) :=
  inferInstanceAs (Decidable ((Table.keys rows).Pairwise (· < ·)))

instance decidableWithin (s : Store) : ∀ (n : Nat) (p : Policy), Decidable (s.Within n p)
  | 0, _ => isFalse id
  | n + 1, p =>
    have := decidableWithin s n
    inferInstanceAs (Decidable (∀ q ∈ s.below p, s.Within n q))

/-! ## Levels -/

theorem Within.mono (h : s.Within m p) (hle : m ≤ n) : s.Within n p := by
  induction m generalizing n p with
  | zero => exact h.elim
  | succ m ih =>
    obtain ⟨n, rfl⟩ : ∃ k, n = k + 1 := ⟨n - 1, by omega⟩
    exact fun q hq => ih (h q hq) (by omega)

theorem Within.contentTo_eq (h : s.Within m p) (hle : m ≤ n) :
    s.contentTo n p = s.contentTo m p := by
  induction m generalizing n p with
  | zero => exact h.elim
  | succ m ih =>
    obtain ⟨n, rfl⟩ : ∃ k, n = k + 1 := ⟨n - 1, by omega⟩
    exact contentTo_succ_congr rfl fun q hq => ih (h q hq) (by omega)

theorem Within.contentTo_eq_contentTo (hm : s.Within m p) (hn : s.Within n p) :
    s.contentTo m p = s.contentTo n p := by
  rcases Nat.le_total m n with hle | hle
  · exact (hm.contentTo_eq hle).symm
  · exact hn.contentTo_eq hle

theorem Within.of_mem_below (h : s.Within n p) (hq : q ∈ s.below p) : s.Within n q := by
  cases n with
  | zero => exact h.elim
  | succ n => exact (h q hq).mono (Nat.le_succ n)

theorem Within.of_reaches (h : s.Within n p) (hq : s.Reaches p q) : s.Within n q := by
  induction hq with
  | refl => exact h
  | tail _ hstep ih => exact ih.of_mem_below hstep

theorem exists_within_of_forall {ps : List Policy} (h : ∀ q ∈ ps, ∃ n, s.Within n q) :
    ∃ n, ∀ q ∈ ps, s.Within n q := by
  induction ps with
  | nil => exact ⟨0, fun q hq => by cases hq⟩
  | cons q ps ih =>
    obtain ⟨m, hm⟩ := h q List.mem_cons_self
    obtain ⟨n, hn⟩ := ih fun r hr => h r (List.mem_cons_of_mem _ hr)
    refine ⟨max m n, fun r hr => ?_⟩
    rcases List.mem_cons.mp hr with rfl | hr
    · exact hm.mono (Nat.le_max_left m n)
    · exact (hn r hr).mono (Nat.le_max_right m n)

theorem exists_within (h : ∀ q ∈ s.below p, ∃ n, s.Within n q) : ∃ n, s.Within n p := by
  obtain ⟨n, hn⟩ := exists_within_of_forall h
  exact ⟨n + 1, hn⟩

theorem Within.not_transGen (h : s.Within n p) :
    ¬Relation.TransGen (fun a b => b ∈ s.below a) p p := by
  induction n generalizing p with
  | zero => exact h.elim
  | succ n ih =>
    intro hloop
    obtain ⟨q, hq, hback⟩ := Relation.TransGen.head'_iff.mp hloop
    exact ih (h q hq) (Relation.TransGen.tail'_iff.mpr ⟨p, hback, hq⟩)

theorem Within.not_reaches (h : s.Within n p) (hq : q ∈ s.below p) : ¬s.Reaches q p :=
  fun hback => h.not_transGen (Relation.TransGen.head'_iff.mpr ⟨q, hq, hback⟩)

theorem Within.acyclic (h : s.Within n p) : s.Acyclic p :=
  fun _ hq => (h.of_reaches hq).not_transGen

/-- The levels below a policy that reaches no other than some policies are as many as these. -/
theorem within_card {A : Finset Policy} (hA : ∀ q, s.Reaches p q → q ∈ A) (hp : s.Acyclic p) :
    s.Within A.card p := by
  -- No policy leads back to `p`, so those below it reach one policy less.
  induction hcard : A.card generalizing A p with
  | zero =>
    have hmem := hA p .refl
    rw [Finset.card_eq_zero.mp hcard] at hmem
    cases hmem
  | succ n ih =>
    intro q hq
    refine ih (A := A.erase p) (fun r hr => ?_) (fun r hr => hp r (hr.head hq)) ?_
    · refine Finset.mem_erase.mpr ⟨?_, hA r (hr.head hq)⟩
      rintro rfl
      exact hp r .refl (Relation.TransGen.head'_iff.mpr ⟨q, hq, hr⟩)
    · rw [Finset.card_erase_of_mem (hA p .refl), hcard, Nat.add_sub_cancel]

/-- Every handle that a store has given out. -/
def handles (s : Store) : Finset Policy := (Finset.range s.size).image Policy.mk

theorem mem_handles_iff : q ∈ s.handles ↔ q.id < s.size := by
  simp only [handles, Finset.mem_image, Finset.mem_range]
  constructor
  · rintro ⟨i, hi, rfl⟩
    exact hi
  · exact fun h => ⟨q.id, h, rfl⟩

theorem card_handles_le (s : Store) : s.handles.card ≤ s.size :=
  (Finset.card_image_le).trans (Finset.card_range s.size).le

theorem Acyclic.within (h : s.Acyclic p) (hs : s.WellFormed) (hp : p.id < s.size) :
    s.Within s.size p :=
  (within_card (fun _ hq => mem_handles_iff.mpr (hs.lt_of_reaches hp hq)) h).mono (card_handles_le s)

theorem WellFormed.content_eq (hs : s.WellFormed) (hp : p.id < s.size) (h : s.Within n p) :
    s.content p = s.contentTo n p := by
  rw [Store.content_eq]
  exact (h.acyclic.within hs hp).contentTo_eq_contentTo h

theorem WellFormed.content_eq_node (hs : s.WellFormed) (hp : p.id < s.size) (h : s.Within n p) :
    s.content p = .node ((s.entries p).map fun row => (row.1, row.2.map s.content)) := by
  rw [hs.content_eq hp (h.mono (Nat.le_succ n)), contentTo]
  refine congrArg Content.node (List.map_congr_left fun row hrow => ?_)
  refine congrArg (Prod.mk row.1) (Values.map_congr fun q hq => ?_)
  have hq : q ∈ s.below p := List.mem_flatMap.mpr ⟨row, hrow, hq⟩
  exact (hs.content_eq (hs.closed p q hq) (h.of_mem_below hq)).symm

theorem WellFormed.get?_content (hs : s.WellFormed) (hp : p.id < s.size) (h : s.Within n p)
    (key : String) : Table.get? key (s.content p).rows =
      (Table.get? key (s.entries p)).map (Values.map s.content) := by
  rw [hs.content_eq_node hp h, Content.rows_node, Table.get?_map]

/-! ## Stores that agree on some policies -/

variable {P : Policy → Prop}

theorem below_congr (h : s'.entries q = s.entries q) : s'.below q = s.below q := by
  rw [below, h, below]

theorem within_congr (hclosed : ∀ q, P q → ∀ c ∈ s.below q, P c)
    (hrows : ∀ q, P q → s'.entries q = s.entries q) (hp : P p) (h : s.Within n p) :
    s'.Within n p := by
  induction n generalizing p with
  | zero => exact h
  | succ n ih =>
    intro q hq
    rw [below_congr (hrows p hp)] at hq
    exact ih (hclosed p hp q hq) (h q hq)

theorem reaches_congr (hclosed : ∀ q, P q → ∀ c ∈ s.below q, P c)
    (hrows : ∀ q, P q → s'.entries q = s.entries q) (hp : P p) (h : s'.Reaches p q) :
    s.Reaches p q ∧ P q := by
  induction h with
  | refl => exact ⟨.refl, hp⟩
  | tail _ hstep ih =>
    obtain ⟨hreach, hb⟩ := ih
    rw [below_congr (hrows _ hb)] at hstep
    exact ⟨hreach.tail hstep, hclosed _ hb _ hstep⟩

end PolicyStore.Store
