import PolicyStore.Proofs.Store.Adding
import PolicyStore.Proofs.Store.Reachable

set_option autoImplicit false

namespace PolicyStore

/-!
# A store on top of another

All handles of one store can be raised by the size of another and its policies put after those of
the other. Operations on the raised store do what they do on the one below, and leave the first
policies alone.
-/

def Policy.raise (k : Nat) (p : Policy) : Policy := ⟨p.id + k⟩

namespace Entries

def raise (k : Nat) (rows : Entries Policy) : Entries Policy :=
  rows.map fun row => (row.1, row.2.map (Policy.raise k))

theorem get?_raise (k : Nat) (rows : Entries Policy) (key : String) :
    Table.get? key (raise k rows) = (Table.get? key rows).map (Values.map (Policy.raise k)) :=
  Table.get?_map _ _ _

theorem insert_raise (k : Nat) (rows : Entries Policy) (key : String) (values : Values Policy) :
    Table.insert key (values.map (Policy.raise k)) (raise k rows) =
      raise k (Table.insert key values rows) :=
  (Table.map_insert _ _ _ _).symm

theorem erase_raise (k : Nat) (rows : Entries Policy) (key : String) :
    Table.erase key (raise k rows) = raise k (Table.erase key rows) := by
  induction rows with
  | nil => rfl
  | cons row rows ih =>
    obtain ⟨other, values⟩ := row
    simp only [raise, List.map_cons, Table.erase] at ih ⊢
    split
    · exact ih
    · rw [List.map_cons, ih]

theorem sorted_raise {k : Nat} {rows : Entries Policy} (h : Table.Sorted rows) :
    Table.Sorted (raise k rows) := by
  have hkeys : Table.keys (raise k rows) = Table.keys rows := by
    simp [Table.keys, raise]
  rw [Table.Sorted, hkeys]
  exact h

end Entries

namespace Values

theorem push?_map {π ρ : Type} (f : π → ρ) (vs : Values π) (v : Value π) :
    (vs.map f).push? (v.map f) = (vs.push? v).map (Values.map f) := by
  cases vs <;> cases v <;> simp [map, Value.map, push?]

theorem isEmpty_map {π ρ : Type} (f : π → ρ) (vs : Values π) : (vs.map f).isEmpty = vs.isEmpty := by
  simp [isEmpty]

end Values

def Node.raise (k : Nat) (n : Node) : Node := { n with entries := n.entries.raise k }

namespace Store

/-- The policies of `base`, and after them those of `s`. -/
def above (base s : Store) : Store := ⟨base.nodes ++ s.nodes.map (Node.raise base.size)⟩

variable {base s : Store} {p q : Policy}

@[simp] theorem size_above (base s : Store) : (base.above s).size = base.size + s.size := by
  simp [above, size]

theorem node_above_of_lt (h : q.id < base.size) : (base.above s).node q = base.node q := by
  rw [node, node, above, Array.getElem?_append_left h]

theorem node_above_raise (base s : Store) (q : Policy) :
    (base.above s).node (q.raise base.size) = (s.node q).raise base.size := by
  simp only [above, node, Policy.raise, size, Array.getElem?_append]
  rw [if_neg (by omega), Nat.add_sub_cancel, Array.getElem?_map]
  cases s.nodes[q.id]? <;> rfl

theorem entries_above_raise (base s : Store) (q : Policy) :
    (base.above s).entries (q.raise base.size) = (s.entries q).raise base.size := by
  rw [entries, node_above_raise]
  rfl

theorem dictionary?_above_raise (base s : Store) (q : Policy) :
    (base.above s).dictionary? (q.raise base.size) = s.dictionary? q := by
  rw [dictionary?, node_above_raise]
  rfl

theorem alloc_above (base s : Store) (n : Node) : (base.above s).alloc (n.raise base.size) =
    ((s.alloc n).1.raise base.size, base.above (s.alloc n).2) := by
  have hsize := size_above base s
  simp only [alloc, Prod.mk.injEq, Policy.raise, Policy.mk.injEq]
  refine ⟨by rw [hsize, Nat.add_comm], ?_⟩
  simp [above]

theorem setEntries_above (base s : Store) (p : Policy) (rows : Entries Policy) :
    (base.above s).setEntries (p.raise base.size) (rows.raise base.size) =
      base.above (s.setEntries p rows) := by
  simp only [above, setEntries, modify, Policy.raise, mk.injEq]
  refine Array.ext_getElem? fun i => ?_
  simp only [Array.getElem?_modify, Array.getElem?_append, Array.getElem?_map, size]
  by_cases hlt : i < base.nodes.size
  · rw [if_neg (by omega), if_pos hlt, if_pos hlt]
  · rw [if_neg hlt, if_neg hlt]
    by_cases heq : p.id + base.nodes.size = i
    · rw [if_pos heq, if_pos (by omega)]
      cases s.nodes[i - base.nodes.size]? <;> rfl
    · rw [if_neg heq, if_neg (by omega)]

/-! ## Writing -/

end Store

def Place.raise (k : Nat) (spot : Place) : Place := { spot with owner := spot.owner.raise k }

namespace Store

variable {base s : Store} {p q : Policy}

theorem placeFrom_above (full : String) (segments : List String) :
    ∀ (done : List String) (p : Policy),
      (base.above s).placeFrom full done (p.raise base.size) segments =
        (s.placeFrom full done p segments).map (Place.raise base.size) := by
  induction segments with
  | nil => exact fun _ _ => rfl
  | cons segment rest ih =>
    intro done p
    cases rest with
    | nil => rfl
    | cons next rest =>
      simp only [placeFrom, entries_above_raise, Entries.get?_raise]
      cases Table.get? segment (s.entries p) with
      | none => rfl
      | some values =>
        cases values with
        | policies children =>
          simp only [Option.map_some, Values.map, List.getLast?_map]
          cases children.getLast? with
          | none => rfl
          | some child => exact ih _ child
        | _ => rfl

theorem place_above (base s : Store) (p : Policy) (name : String) :
    (base.above s).place (p.raise base.size) name =
      (s.place p name).map (Place.raise base.size) := by
  unfold place
  cases Name.segments name with
  | error e => rfl
  | ok segments => exact placeFrom_above name segments [] p

theorem nest_above (base s : Store) (values : Values Policy) (segments : List String) :
    (base.above s).nest (values.map (Policy.raise base.size)) segments =
      ((s.nest values segments).1.map (Policy.raise base.size),
        base.above (s.nest values segments).2) := by
  induction segments with
  | nil => rfl
  | cons segment rest ih =>
    simp only [nest, ih, Values.isEmpty_map]
    obtain ⟨inner, s'⟩ := s.nest values rest
    have hrow : ({ entries := if inner.isEmpty then [] else
          [(segment, inner.map (Policy.raise base.size))] } : Node) =
        Node.raise base.size { entries := if inner.isEmpty then [] else [(segment, inner)] } := by
      simp only [Node.raise, Entries.raise]
      split <;> rfl
    rw [hrow, alloc_above]
    rfl

theorem write_above (base s : Store) (spot : Place) (values : Values Policy) :
    (base.above s).write (spot.raise base.size) (values.map (Policy.raise base.size)) =
      base.above (s.write spot values) := by
  have hbelow : (spot.raise base.size).below = spot.below := rfl
  have howner : (spot.raise base.size).owner = spot.owner.raise base.size := rfl
  have hkey : (spot.raise base.size).key = spot.key := rfl
  simp only [write, hbelow, howner, hkey, nest_above, Values.isEmpty_map, entries_above_raise,
    Entries.erase_raise, Entries.insert_raise]
  split <;> exact setEntries_above _ _ _ _

theorem valuesAt_above (base s : Store) (spot : Place) (kind : Kind) :
    (base.above s).valuesAt (spot.raise base.size) kind =
      (s.valuesAt spot kind).map (Policy.raise base.size) := by
  obtain ⟨owner, key, below⟩ := spot
  have hempty : (Values.empty kind : Values Policy).map (Policy.raise base.size) =
      .empty kind := by
    cases kind <;> rfl
  cases below with
  | nil =>
    show (Table.get? key ((base.above s).entries (owner.raise base.size))).getD _ = _
    rw [entries_above_raise, Entries.get?_raise, valuesAt]
    cases Table.get? key (s.entries owner) with
    | none => exact hempty.symm
    | some values => rfl
  | cons segment rest => exact hempty.symm

/-- Adding to a raised policy without a dictionary does what adding to the policy does. -/
theorem add_above (base : Store) (h : s.dictionary? p = none) (name : String) (v : Value Policy) :
    (base.above s).add (p.raise base.size) name (v.map (Policy.raise base.size)) =
      (s.add p name v).map base.above := by
  have h' : (base.above s).dictionary? (p.raise base.size) = none := by
    rw [dictionary?_above_raise, h]
  simp only [add, approve_of_plain h, approve_of_plain h', place_above, bind, Except.bind]
  cases s.place p name with
  | error e => rfl
  | ok spot =>
    simp only [Except.map, Value.kind_map, valuesAt_above, Values.push?_map, Values.kind_map]
    cases hpush : (s.valuesAt spot v.kind).push? v with
    | none => rfl
    | some values =>
      simp only [Option.map_some, pure, Except.pure, write_above]

/-! ## What is reached -/

theorem below_above_raise (base s : Store) (q : Policy) :
    (base.above s).below (q.raise base.size) = (s.below q).map (Policy.raise base.size) := by
  rw [below, entries_above_raise, Entries.raise, List.flatMap_map, below, List.map_flatMap]
  simp only [Values.children_map]

theorem within_above_raise {n : Nat} (h : s.Within n p) :
    (base.above s).Within n (p.raise base.size) := by
  induction n generalizing p with
  | zero => exact h
  | succ n ih =>
    intro q hq
    rw [below_above_raise] at hq
    obtain ⟨c, hc, rfl⟩ := List.mem_map.mp hq
    exact ih (h c hc)

theorem reaches_above_raise_iff {r : Policy} : (base.above s).Reaches (p.raise base.size) r ↔
    ∃ q, r = q.raise base.size ∧ s.Reaches p q := by
  constructor
  · intro h
    induction h with
    | refl => exact ⟨p, rfl, .refl⟩
    | tail _ hstep ih =>
      obtain ⟨q, rfl, hq⟩ := ih
      rw [below_above_raise] at hstep
      obtain ⟨c, hc, rfl⟩ := List.mem_map.mp hstep
      exact ⟨c, rfl, hq.tail hc⟩
  · rintro ⟨q, rfl, hq⟩
    induction hq with
    | refl => exact .refl
    | tail _ hstep ih =>
      apply ih.tail
      rw [below_above_raise]
      exact List.mem_map_of_mem hstep

theorem eq_raise_of_le {k : Nat} (h : k ≤ q.id) : ∃ r : Policy, q = r.raise k :=
  ⟨⟨q.id - k⟩, congrArg Policy.mk (Nat.sub_add_cancel h).symm⟩

theorem WellFormed.above (hbase : base.WellFormed) (hs : s.WellFormed) :
    (base.above s).WellFormed where
  sorted q := by
    by_cases hq : q.id < base.size
    · rw [entries, node_above_of_lt hq]
      exact hbase.sorted q
    · obtain ⟨r, rfl⟩ := eq_raise_of_le (Nat.le_of_not_lt hq)
      rw [entries_above_raise]
      exact Entries.sorted_raise (hs.sorted r)
  closed q c hc := by
    rw [size_above]
    by_cases hq : q.id < base.size
    · have hsame : (base.above s).entries q = base.entries q := by
        rw [entries, node_above_of_lt hq, entries]
      rw [below_congr hsame] at hc
      exact Nat.lt_add_right _ (hbase.closed q c hc)
    · obtain ⟨r, rfl⟩ := eq_raise_of_le (Nat.le_of_not_lt hq)
      rw [below_above_raise] at hc
      obtain ⟨d, hd, rfl⟩ := List.mem_map.mp hc
      have := hs.closed r d hd
      show d.id + base.size < base.size + s.size
      omega

theorem Full.above (hbase : base.Full) (hs : s.Full) : (base.above s).Full := by
  intro q row hrow
  by_cases hq : q.id < base.size
  · rw [entries, node_above_of_lt hq] at hrow
    exact hbase q row hrow
  · obtain ⟨r, rfl⟩ := eq_raise_of_le (Nat.le_of_not_lt hq)
    rw [entries_above_raise, Entries.raise] at hrow
    obtain ⟨old, hold, rfl⟩ := List.mem_map.mp hrow
    rw [Values.isEmpty_map]
    exact hs r old hold

end Store

end PolicyStore
