import PolicyStore.Proofs.Merge.Settling
import PolicyStore.Proofs.Update.Overwriting
import Mathlib.Data.String.Basic

set_option autoImplicit false

namespace PolicyStore

/-!
# Another first string

A store in which a policy holds another string as the first under some name. Adding a value to
either store finds the same place, and leaves the stores different in that string only.
-/

namespace Table

variable {α : Type} {key other : String}

theorem insert_comm_of_lt (h : key < other) (a b : α) (rows : List (String × α)) :
    insert other b (insert key a rows) = insert key a (insert other b rows) := by
  have hne : key ≠ other := h.ne
  have hnlt : ¬other < key := h.not_gt
  induction rows with
  | nil => simp [insert, h, hne, hnlt]
  | cons row rows ih =>
    obtain ⟨k, c⟩ := row
    rcases lt_trichotomy key k with hk | rfl | hk
    · by_cases hother : other < k
      · simp [insert, h, hne, hnlt, hk, hother]
      · by_cases heq : k = other
        · subst heq
          simp [insert, h, hne, hnlt]
        · simp [insert, hne, hnlt, hk, hother, heq]
    · simp [insert, hne, hnlt]
    · have hlast : k < other := hk.trans h
      simp [insert, hk.not_gt, hk.ne, hlast.not_gt, hlast.ne, ih]

/-- Rows with different keys may be written in either order. -/
theorem insert_comm (h : other ≠ key) (a b : α) (rows : List (String × α)) :
    insert other b (insert key a rows) = insert key a (insert other b rows) := by
  rcases lt_trichotomy key other with hlt | heq | hlt
  · exact insert_comm_of_lt hlt a b rows
  · exact (h heq.symm).elim
  · exact (insert_comm_of_lt hlt b a rows).symm

end Table

namespace Store

variable {s s' : Store} {p q : Policy} {key other x y : String} {vs : Values Policy}

/-- The second store is the first with another first string under a name of a policy. -/
def Rewords (p : Policy) (key x y : String) (s s' : Store) : Prop :=
  ∃ rest, Table.get? key (s.entries p) = some (.strings (x :: rest)) ∧
    s' = s.setEntries p (Table.insert key (.strings (y :: rest)) (s.entries p))

namespace Rewords

theorem lt_size (h : s.Rewords p key x y s') : p.id < s.size := by
  obtain ⟨rest, hget, -⟩ := h
  exact lt_size_of_get? hget

theorem size_eq (h : s.Rewords p key x y s') : s'.size = s.size := by
  obtain ⟨rest, -, rfl⟩ := h
  exact size_setEntries _ _ _

theorem dictionary?_eq (h : s.Rewords p key x y s') (q : Policy) :
    s'.dictionary? q = s.dictionary? q := by
  obtain ⟨rest, -, rfl⟩ := h
  exact dictionary?_setEntries _ _ _ _

/-- Every row is the same, but for the one. -/
theorem get?_cases (h : s.Rewords p key x y s') (q : Policy) (other : String) :
    Table.get? other (s'.entries q) = Table.get? other (s.entries q) ∨
      q = p ∧ other = key ∧ ∃ rest, Table.get? key (s.entries p) = some (.strings (x :: rest)) ∧
        Table.get? key (s'.entries p) = some (.strings (y :: rest)) := by
  have hp := h.lt_size
  obtain ⟨rest, hget, rfl⟩ := h
  by_cases hq : q = p
  · subst hq
    rw [entries_setEntries_self hp]
    by_cases hother : other = key
    · exact .inr ⟨rfl, hother, rest, hget, Table.get?_insert_self _ _ _⟩
    · exact .inl (Table.get?_insert_of_ne hother _ _)
  · exact .inl (by rw [entries_setEntries_of_ne hq])

/-- A name leads to the same place or fails with the same error. -/
theorem placeFrom_eq (h : s.Rewords p key x y s') (full : String) (segments : List String) :
    ∀ (done : List String) (q : Policy),
      s'.placeFrom full done q segments = s.placeFrom full done q segments := by
  induction segments with
  | nil => exact fun _ _ => rfl
  | cons segment rest ih =>
    intro done q
    cases rest with
    | nil => rfl
    | cons next rest =>
      simp only [Store.placeFrom]
      rcases h.get?_cases q segment with hsame | ⟨rfl, rfl, strings, hget, hget'⟩
      · simp only [hsame, ih]
      · rw [hget, hget']
        rfl

/-! ## Writing -/

theorem alloc (h : s.Rewords p key x y s') (n : Node) :
    (s.alloc n).2.Rewords p key x y (s'.alloc n).2 := by
  have hp := h.lt_size
  obtain ⟨rest, hget, rfl⟩ := h
  have hrows : (s.alloc n).2.entries p = s.entries p := by
    rw [entries, node_alloc_of_lt hp, entries]
  exact ⟨rest, by rw [hrows, hget], by rw [alloc_setEntries hp, hrows]⟩

theorem nest (h : s.Rewords p key x y s') (vs : Values Policy) (segments : List String) :
    (s.nest vs segments).2.Rewords p key x y (s'.nest vs segments).2 ∧
      (s'.nest vs segments).1 = (s.nest vs segments).1 := by
  induction segments with
  | nil => exact ⟨h, rfl⟩
  | cons segment rest ih =>
    obtain ⟨hstore, hinner⟩ := ih
    simp only [Store.nest, hinner]
    refine ⟨hstore.alloc _, ?_⟩
    simp only [Store.alloc, hstore.size_eq]

/-- Another row is written. -/
theorem insert (h : s.Rewords p key x y s') (hrow : q = p → other ≠ key) (vs : Values Policy) :
    (s.setEntries q (Table.insert other vs (s.entries q))).Rewords p key x y
      (s'.setEntries q (Table.insert other vs (s'.entries q))) := by
  have hp := h.lt_size
  obtain ⟨rest, hget, rfl⟩ := h
  refine ⟨rest, ?_⟩
  by_cases hq : q = p
  · subst hq
    have hother := hrow rfl
    simp only [entries_setEntries_self hp, setEntries_setEntries]
    rw [Table.get?_insert_of_ne hother.symm, Table.insert_comm hother]
    exact ⟨hget, rfl⟩
  · rw [entries_setEntries_of_ne (Ne.symm hq), entries_setEntries_of_ne hq, setEntries_comm hq]
    exact ⟨hget, rfl⟩

theorem write (h : s.Rewords p key x y s') {spot : Place} (hrow : spot.owner = p → spot.key ≠ key)
    (hne : vs.isEmpty = false) : (s.write spot vs).Rewords p key x y (s'.write spot vs) := by
  obtain ⟨hstore, houter⟩ := h.nest vs spot.below
  rw [write_eq hne, write_eq hne, houter]
  exact hstore.insert hrow _

/-- The row itself is written, with another first string in it. -/
theorem overwrite (h : s.Rewords p key x y s') (rest : List String) :
    (s.write ⟨p, key, []⟩ (.strings (x :: rest))).Rewords p key x y
      (s'.write ⟨p, key, []⟩ (.strings (y :: rest))) := by
  have hp := h.lt_size
  obtain ⟨old, -, rfl⟩ := h
  rw [write_eq rfl, write_eq rfl]
  refine ⟨rest, get?_link hp, ?_⟩
  show (s.setEntries p _).setEntries p (Table.insert key _ ((s.setEntries p _).entries p)) =
    (s.setEntries p _).setEntries p (Table.insert key _ ((s.setEntries p _).entries p))
  simp only [entries_setEntries_self hp, setEntries_setEntries, Table.insert_insert]
  rfl

theorem valuesAt_row (h : s.Rewords p key x y s') (kind : Kind) :
    ∃ rest, s.valuesAt ⟨p, key, []⟩ kind = .strings (x :: rest) ∧
      s'.valuesAt ⟨p, key, []⟩ kind = .strings (y :: rest) := by
  have hp := h.lt_size
  obtain ⟨rest, hget, rfl⟩ := h
  refine ⟨rest, ?_, ?_⟩
  · rw [valuesAt, hget]
    rfl
  · rw [valuesAt, entries_setEntries_self hp, Table.get?_insert_self]
    rfl

/-- All other rows hold the same. -/
theorem valuesAt_eq (h : s.Rewords p key x y s') {spot : Place}
    (hrow : ¬(spot.owner = p ∧ spot.key = key)) (kind : Kind) :
    s'.valuesAt spot kind = s.valuesAt spot kind := by
  unfold valuesAt
  split
  · rcases h.get?_cases spot.owner spot.key with hsame | ⟨howner, hkey, -⟩
    · rw [hsame]
    · exact (hrow ⟨howner, hkey⟩).elim
  · rfl

/-- A value is added to both stores, or to neither for the same reason. -/
theorem add (h : s.Rewords p key x y s') (hplain : s.dictionary? q = none) (name : String)
    (v : Value Policy) :
    (∃ t t', s.add q name v = .ok t ∧ s'.add q name v = .ok t' ∧ t.Rewords p key x y t') ∨
      ∃ e, s.add q name v = .error e ∧ s'.add q name v = .error e := by
  have hplace : s'.place q name = s.place q name := by
    simp only [place, h.placeFrom_eq]
  simp only [Store.add, approve_of_plain hplain,
    approve_of_plain ((h.dictionary?_eq q).trans hplain), hplace, bind, Except.bind]
  cases hspot : s.place q name with
  | error e => exact .inr ⟨e, rfl, rfl⟩
  | ok spot =>
    obtain ⟨path, -, hfinds⟩ := exists_finds_of_place hspot
    obtain ⟨front, -, -, hfree⟩ := hfinds.way
    dsimp only
    by_cases hrow : spot.owner = p ∧ spot.key = key
    · obtain ⟨owner, other, below⟩ := spot
      obtain ⟨rfl, rfl⟩ : owner = p ∧ other = key := hrow
      have hbelow : below = [] := by
        by_contra hne
        obtain ⟨rest, hget, -⟩ := h
        rw [hfree hne] at hget
        cases hget
      subst hbelow
      obtain ⟨rest, hvalues, hvalues'⟩ := h.valuesAt_row v.kind
      rw [hvalues, hvalues']
      cases v with
      | string w => exact .inl ⟨_, _, rfl, rfl, h.overwrite (rest ++ [w])⟩
      | _ => exact .inr ⟨_, rfl, rfl⟩
    · rw [h.valuesAt_eq hrow]
      cases hpush : (s.valuesAt spot v.kind).push? v with
      | none => exact .inr ⟨_, rfl, rfl⟩
      | some values =>
        refine .inl ⟨_, _, rfl, rfl, h.write (fun howner hkey => hrow ⟨howner, hkey⟩) ?_⟩
        simp [Values.isEmpty, Values.toList_push? hpush]

end Rewords

end Store

end PolicyStore
