import PolicyStore.Proofs.Store.Above
import PolicyStore.Proofs.Store.Extending
import PolicyStore.Proofs.Store.Tidy

set_option autoImplicit false

namespace PolicyStore

/-!
# Policies under other handles

A store may hold the policies of another under other handles, and policies besides that nobody has a
handle of. Reading it and adding to it is then the same as in the other store.
-/

variable {f : Policy → Policy}

namespace Entries

/-- The rows with other handles in place of the policies. -/
def rename (f : Policy → Policy) (rows : Entries Policy) : Entries Policy :=
  rows.map fun row => (row.1, row.2.map f)

theorem get?_rename (f : Policy → Policy) (rows : Entries Policy) (key : String) :
    Table.get? key (rename f rows) = (Table.get? key rows).map (Values.map f) :=
  Table.get?_map _ _ _

theorem insert_rename (f : Policy → Policy) (rows : Entries Policy) (key : String)
    (vs : Values Policy) :
    Table.insert key (vs.map f) (rename f rows) = rename f (Table.insert key vs rows) :=
  (Table.map_insert _ _ _ _).symm

theorem rename_eq_self {rows : Entries Policy}
    (h : ∀ row ∈ rows, ∀ c ∈ row.2.children, f c = c) : rename f rows = rows := by
  have hrow : ∀ row ∈ rows, (row.1, row.2.map f) = id row := fun row hrow => by
    have hsame : row.2.map f = row.2.map id := Values.map_congr (h row hrow)
    have hid : ∀ vs : Values Policy, vs.map id = vs := fun vs => by
      cases vs <;> simp [Values.map]
    rw [hsame, hid]
    rfl
  exact (List.map_congr_left hrow).trans (List.map_id rows)

end Entries

def Node.rename (f : Policy → Policy) (n : Node) : Node := { n with entries := n.entries.rename f }

def Place.rename (f : Policy → Policy) (spot : Place) : Place := { spot with owner := f spot.owner }

namespace Store

/-- Down to any level that is deep enough there is all that a policy holds. -/
theorem Tidy.contentTo_eq {s : Store} (hs : s.Tidy) {p : Policy} (hp : p.id < s.size) {n : Nat}
    (hn : s.size ≤ n) : s.contentTo n p = s.content p := by
  obtain ⟨m, hm⟩ := hs.founded p
  rw [content_eq]
  exact (hm.acyclic.within hs.toWellFormed hp).contentTo_eq hn

/-- The second store holds the policies of the first under other handles. Handles that have not been
given out correspond in order, so that this stays so when policies are made in both stores. -/
structure Renames (f : Policy → Policy) (s s' : Store) : Prop where
  injective : Function.Injective f
  next : ∀ n, f ⟨s.size + n⟩ = ⟨s'.size + n⟩
  given : ∀ q : Policy, q.id < s.size → (f q).id < s'.size
  node : ∀ q, s'.node (f q) = (s.node q).rename f
  plain : ∀ q, s.dictionary? q = none

namespace Renames

variable {s s' : Store} {p : Policy} {vs : Values Policy}

theorem given_iff (h : s.Renames f s') (q : Policy) : (f q).id < s'.size ↔ q.id < s.size := by
  refine ⟨fun hlt => Nat.lt_of_not_le fun hle => ?_, h.given q⟩
  have hnext := h.next (q.id - s.size)
  rw [Nat.add_sub_cancel' hle] at hnext
  rw [hnext] at hlt
  exact Nat.not_le_of_lt hlt (Nat.le_add_right _ _)

theorem entries (h : s.Renames f s') (q : Policy) : s'.entries (f q) = (s.entries q).rename f := by
  rw [Store.entries, h.node]
  rfl

theorem plain' (h : s.Renames f s') (q : Policy) : s'.dictionary? (f q) = none := by
  rw [dictionary?, h.node]
  exact h.plain q

/-- What is under a handle is the same, down to any level. -/
theorem contentTo_eq (h : s.Renames f s') (n : Nat) (q : Policy) :
    s'.contentTo n (f q) = s.contentTo n q := by
  induction n generalizing q with
  | zero => rfl
  | succ n ih =>
    rw [contentTo, contentTo, h.entries, Entries.rename, List.map_map]
    refine congrArg Content.node (List.map_congr_left fun row _ => ?_)
    refine congrArg (Prod.mk row.1) ((Values.map_map _ _ _).trans ?_)
    exact Values.map_congr fun c _ => ih c

theorem content_eq (h : s.Renames f s') (hs : s.Tidy) (hs' : s'.Tidy) (hp : p.id < s.size) :
    s'.content (f p) = s.content p := by
  rw [← hs'.contentTo_eq (h.given p hp) (Nat.le_add_left _ s.size), h.contentTo_eq,
    hs.contentTo_eq hp (Nat.le_add_right _ _)]

/-! ## Writing -/

theorem alloc (h : s.Renames f s') {n : Node} (hn : n.dictionary = none) :
    (s.alloc n).2.Renames f (s'.alloc (n.rename f)).2 where
  injective := h.injective
  next k := by
    rw [size_alloc, size_alloc, Nat.add_assoc, Nat.add_assoc]
    exact h.next (1 + k)
  given q hq := by
    rw [size_alloc] at hq ⊢
    rcases Nat.lt_succ_iff_lt_or_eq.mp hq with hq | hq
    · exact Nat.lt_succ_of_lt (h.given q hq)
    · have hnext := h.next 0
      obtain rfl : q = ⟨s.size + 0⟩ := congrArg Policy.mk hq
      rw [hnext]
      exact Nat.lt_succ_self _
  node q := by
    have hself : f q = ⟨s'.size⟩ ↔ q = ⟨s.size⟩ := by
      rw [← h.injective.eq_iff (a := q), show f ⟨s.size⟩ = ⟨s'.size⟩ from h.next 0]
    rw [node_alloc, node_alloc]
    by_cases hq : q = ⟨s.size⟩
    · rw [if_pos hq, if_pos (hself.mpr hq)]
    · rw [if_neg hq, if_neg fun heq => hq (hself.mp heq), h.node]
  plain q := by
    rw [dictionary?, node_alloc]
    split
    · exact hn
    · exact h.plain q

theorem setEntries (h : s.Renames f s') (p : Policy) (rows : Entries Policy) :
    (s.setEntries p rows).Renames f (s'.setEntries (f p) (rows.rename f)) where
  injective := h.injective
  next k := by
    rw [size_setEntries, size_setEntries]
    exact h.next k
  given q hq := by
    rw [size_setEntries] at hq ⊢
    exact h.given q hq
  node q := by
    rw [node_setEntries, node_setEntries, h.node, h.node]
    simp only [h.injective.eq_iff, h.given_iff]
    split <;> rfl
  plain q := (dictionary?_setEntries s p q rows).trans (h.plain q)

theorem placeFrom (h : s.Renames f s') (full : String) (segments : List String) :
    ∀ (done : List String) (p : Policy), s'.placeFrom full done (f p) segments =
      (s.placeFrom full done p segments).map (Place.rename f) := by
  induction segments with
  | nil => exact fun _ _ => rfl
  | cons segment rest ih =>
    intro done p
    cases rest with
    | nil => rfl
    | cons next rest =>
      simp only [Store.placeFrom, h.entries, Entries.get?_rename]
      cases Table.get? segment (s.entries p) with
      | none => rfl
      | some values =>
        cases values with
        | policies children =>
          simp only [Option.map_some, Values.map, List.getLast?_map]
          cases children.getLast? with
          | none => rfl
          | some child => exact ih _ child
        | _ => rfl

theorem nest (h : s.Renames f s') (vs : Values Policy) (segments : List String) :
    (s.nest vs segments).2.Renames f (s'.nest (vs.map f) segments).2 ∧
      (s'.nest (vs.map f) segments).1 = (s.nest vs segments).1.map f := by
  induction segments with
  | nil => exact ⟨h, rfl⟩
  | cons segment rest ih =>
    obtain ⟨hstore, hinner⟩ := ih
    simp only [Store.nest, hinner, Values.isEmpty_map]
    generalize s.nest vs rest = made at hstore ⊢
    generalize s'.nest (vs.map f) rest = made' at hstore ⊢
    have hrow : ({ entries := if made.1.isEmpty then [] else [(segment, made.1.map f)] } : Node) =
        Node.rename f { entries := if made.1.isEmpty then [] else [(segment, made.1)] } := by
      simp only [Node.rename, Entries.rename]
      split <;> rfl
    rw [hrow]
    refine ⟨hstore.alloc rfl, ?_⟩
    have hnext : f ⟨made.2.size⟩ = ⟨made'.2.size⟩ := hstore.next 0
    show Values.policies [⟨made'.2.size⟩] = .policies [f ⟨made.2.size⟩]
    rw [hnext]

theorem write (h : s.Renames f s') (spot : Place) (hne : vs.isEmpty = false) :
    (s.write spot vs).Renames f (s'.write (spot.rename f) (vs.map f)) := by
  obtain ⟨hstore, houter⟩ := h.nest vs spot.below
  have hne' : (vs.map f).isEmpty = false := (Values.isEmpty_map f vs).trans hne
  rw [write_eq hne, write_eq hne']
  show Renames f _ ((s'.nest (vs.map f) spot.below).2.setEntries (f spot.owner)
    (Table.insert spot.key (s'.nest (vs.map f) spot.below).1
      ((s'.nest (vs.map f) spot.below).2.entries (f spot.owner))))
  rw [houter, hstore.entries, Entries.insert_rename]
  exact hstore.setEntries _ _

theorem valuesAt (h : s.Renames f s') (spot : Place) (kind : Kind) :
    s'.valuesAt (spot.rename f) kind = (s.valuesAt spot kind).map f := by
  have hempty : (Values.empty kind : Values Policy).map f = .empty kind := by
    cases kind <;> rfl
  obtain ⟨owner, key, below⟩ := spot
  cases below with
  | nil =>
    show (Table.get? key (s'.entries (f owner))).getD _ = _
    rw [h.entries, Entries.get?_rename, Store.valuesAt]
    cases Table.get? key (s.entries owner) with
    | none => exact hempty.symm
    | some values => rfl
  | cons segment rest => exact hempty.symm

/-- Adding to the policy under the other handle is accepted or fails just as adding to the policy. -/
theorem add (h : s.Renames f s') (p : Policy) (name : String) (v : Value Policy) :
    (∃ t t', s.add p name v = .ok t ∧ s'.add (f p) name (v.map f) = .ok t' ∧ t.Renames f t') ∨
      ∃ e, s.add p name v = .error e ∧ s'.add (f p) name (v.map f) = .error e := by
  simp only [Store.add, approve_of_plain (h.plain p), approve_of_plain (h.plain' p), place, bind,
    Except.bind]
  cases Name.segments name with
  | error e => exact Or.inr ⟨e, rfl, rfl⟩
  | ok segments =>
    simp only [h.placeFrom]
    cases s.placeFrom name [] p segments with
    | error e => exact Or.inr ⟨e, rfl, rfl⟩
    | ok spot =>
      simp only [Except.map, Value.kind_map, h.valuesAt, Values.push?_map, Values.kind_map]
      cases hpush : (s.valuesAt spot v.kind).push? v with
      | none => exact Or.inr ⟨_, rfl, rfl⟩
      | some values =>
        refine Or.inl ⟨_, _, rfl, rfl, h.write spot ?_⟩
        simp [Values.isEmpty, Values.toList_push? hpush]

end Renames

end Store

/-! ## Policies between the old and the new ones -/

/-- The policy when some have come between the first ones and the others. -/
def Policy.skip (low k : Nat) (p : Policy) : Policy := if p.id < low then p else p.raise k

namespace Store

variable {s : Store}

theorem skip_of_lt {low k : Nat} {p : Policy} (h : p.id < low) : p.skip low k = p := if_pos h

theorem skip_of_le {low k : Nat} {p : Policy} (h : low ≤ p.id) : p.skip low k = p.raise k :=
  if_neg (Nat.not_lt.mpr h)

theorem skip_injective (low k : Nat) : Function.Injective (Policy.skip low k) := by
  rintro ⟨i⟩ ⟨j⟩ h
  have hid := congrArg Policy.id h
  simp only [Policy.skip, Policy.raise, apply_ite Policy.id] at hid
  refine congrArg Policy.mk ?_
  split at hid <;> split at hid <;> omega

theorem node_of_le {q : Policy} (h : s.size ≤ q.id) : s.node q = {} := by
  have hnone : s.nodes[q.id]? = none := Array.getElem?_eq_none h
  rw [node, hnone]
  rfl

/-- A store with other policies on top is the store itself, for those who do not know of them. -/
theorem renames_above (hs : s.Tidy) (other : Store) :
    s.Renames (Policy.skip s.size other.size) (s.above other) where
  injective := skip_injective _ _
  next n := by
    rw [skip_of_le (Nat.le_add_right _ _), Policy.raise, size_above, Nat.add_right_comm]
  given q hq := by
    rw [skip_of_lt hq, size_above]
    exact Nat.lt_add_right _ hq
  node q := by
    by_cases hq : q.id < s.size
    · have hrows : (s.entries q).rename (Policy.skip s.size other.size) = s.entries q :=
        Entries.rename_eq_self fun row hrow c hc =>
          skip_of_lt (hs.closed q c (List.mem_flatMap.mpr ⟨row, hrow, hc⟩))
      rw [skip_of_lt hq, node_above_of_lt hq, Node.rename]
      exact congrArg (Node.mk · (s.node q).dictionary) hrows.symm
    · have hle := Nat.le_of_not_lt hq
      rw [skip_of_le hle, node_of_le hle, node_of_le]
      · rfl
      · rw [size_above, Policy.raise]
        exact Nat.add_le_add_right hle _
  plain := hs.plain

end Store

end PolicyStore
