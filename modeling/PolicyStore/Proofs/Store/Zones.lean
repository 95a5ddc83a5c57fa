import PolicyStore.Proofs.Merge.Settling
import PolicyStore.Proofs.Schema.Included

set_option autoImplicit false

namespace PolicyStore

/-!
# Zones of a store

A zone holds whatever its policies hold, and all policies that are still to be made. An operation on
policies of a zone changes nothing outside of it, and leaves rows as they have to be, whether it
succeeds or fails.
-/

/-- Rows in the order of their keys, each under a single segment and with one value at least. -/
structure Entries.Proper (rows : Entries Policy) : Prop where
  sorted : Table.Sorted rows
  legal : ∀ row ∈ rows, Name.segments row.1 = .ok [row.1]
  full : ∀ row ∈ rows, row.2.isEmpty = false

namespace Entries.Proper

variable {rows : Entries Policy} {key : String} {vs : Values Policy}

theorem nil : Entries.Proper [] where
  sorted := List.Pairwise.nil
  legal _ hrow := by cases hrow
  full _ hrow := by cases hrow

theorem insert (h : Entries.Proper rows) (hkey : Name.segments key = .ok [key])
    (hne : vs.isEmpty = false) : Entries.Proper (Table.insert key vs rows) where
  sorted := Table.sorted_insert h.sorted key vs
  legal row hrow := by
    rcases Table.mem_of_mem_insert hrow with rfl | hrow
    · exact hkey
    · exact h.legal row hrow
  full row hrow := by
    rcases Table.mem_of_mem_insert hrow with rfl | hrow
    · exact hne
    · exact h.full row hrow

theorem erase (h : Entries.Proper rows) (key : String) : Entries.Proper (Table.erase key rows) where
  sorted := Table.sorted_erase h.sorted key
  legal row hrow := h.legal row (Table.mem_of_mem_erase hrow)
  full row hrow := h.full row (Table.mem_of_mem_erase hrow)

end Entries.Proper

namespace Store

/-- Rows are as they have to be, and every handle in them has been given out. -/
structure Proper (s : Store) : Prop where
  rows : ∀ q, Entries.Proper (s.entries q)
  closed : ∀ q, ∀ c ∈ s.below q, c.id < s.size

/-- The zone holds what its policies hold, and all policies that have not been given out. -/
structure Zoned (zone : Policy → Prop) (s : Store) : Prop extends s.Proper where
  inside : ∀ q, zone q → ∀ c ∈ s.below q, zone c
  fresh : ∀ q : Policy, s.size ≤ q.id → zone q

/-- A policy of the zone that has been given out. -/
def Inner (zone : Policy → Prop) (s : Store) (q : Policy) : Prop := zone q ∧ q.id < s.size

/-- Of the policies that are there only those of the zone have changed. -/
structure Edits (zone : Policy → Prop) (s s' : Store) : Prop extends Zoned zone s' where
  size_le : s.size ≤ s'.size
  node_eq : ∀ q : Policy, q.id < s.size → ¬zone q → s'.node q = s.node q

variable {zone : Policy → Prop} {s s' s'' : Store} {p q owner : Policy} {key name : String}
  {vs : Values Policy} {v : Value Policy}

theorem Proper.wellFormed (h : s.Proper) : s.WellFormed where
  sorted q := (h.rows q).sorted
  closed := h.closed

theorem Proper.full (h : s.Proper) : s.Full := fun q => (h.rows q).full

theorem Proper.legal (h : s.Proper) : s.Legal := by
  intro q key hkey
  obtain ⟨row, hrow, rfl⟩ := List.mem_map.mp hkey
  exact (h.rows q).legal row hrow

theorem Proper.of_parts (hs : s.WellFormed) (hfull : s.Full) (hlegal : s.Legal) : s.Proper where
  rows q := ⟨hs.sorted q, fun row hrow => hlegal q row.1 (List.mem_map_of_mem hrow), hfull q⟩
  closed := hs.closed

/-- The zone may be the whole store. -/
theorem Proper.zoned (h : s.Proper) : Zoned (fun _ => True) s where
  toProper := h
  inside _ _ _ _ := trivial
  fresh _ _ := trivial

/-- The policies that a store has not given out are a zone. -/
theorem Proper.zoned_new (h : s.Proper) : s.Zoned fun q => s.size ≤ q.id where
  toProper := h
  inside _ hq _ hc := absurd (lt_size_of_mem_below hc) (Nat.not_lt.mpr hq)
  fresh _ hq := hq

theorem Inner.mono (h : s.Inner zone q) (hle : s.size ≤ s'.size) : s'.Inner zone q :=
  ⟨h.1, h.2.trans_le hle⟩

theorem Zoned.inner (h : Zoned zone s) (hp : zone p) {c : Policy} (hc : c ∈ s.below p) :
    s.Inner zone c :=
  ⟨h.inside p hp c hc, h.closed p c hc⟩

namespace Edits

theorem refl (h : Zoned zone s) : Edits zone s s where
  toZoned := h
  size_le := Nat.le_refl _
  node_eq _ _ _ := rfl

theorem trans (h : Edits zone s s') (h' : Edits zone s' s'') : Edits zone s s'' where
  toZoned := h'.toZoned
  size_le := h.size_le.trans h'.size_le
  node_eq q hq hout := (h'.node_eq q (hq.trans_le h.size_le) hout).trans (h.node_eq q hq hout)

theorem entries_eq (h : Edits zone s s') (hq : q.id < s.size) (hout : ¬zone q) :
    s'.entries q = s.entries q := by
  rw [entries, h.node_eq q hq hout, entries]

end Edits

/-! ## Changing one policy -/

theorem mem_flatMap_insert {rows : Entries Policy} {c : Policy}
    (hc : c ∈ (Table.insert key vs rows).flatMap fun row => row.2.children) :
    c ∈ vs.children ∨ c ∈ rows.flatMap fun row => row.2.children := by
  obtain ⟨row, hrow, hc⟩ := List.mem_flatMap.mp hc
  rcases Table.mem_of_mem_insert hrow with rfl | hrow
  · exact Or.inl hc
  · exact Or.inr (List.mem_flatMap.mpr ⟨row, hrow, hc⟩)

theorem mem_flatMap_erase {rows : Entries Policy} {c : Policy}
    (hc : c ∈ (Table.erase key rows).flatMap fun row => row.2.children) :
    c ∈ rows.flatMap fun row => row.2.children := by
  obtain ⟨row, hrow, hc⟩ := List.mem_flatMap.mp hc
  exact List.mem_flatMap.mpr ⟨row, Table.mem_of_mem_erase hrow, hc⟩

namespace Zoned

variable (h : Zoned zone s)

include h

theorem alloc {n : Node} (hrows : Entries.Proper n.entries)
    (hbelow : ∀ c ∈ n.entries.flatMap fun row => row.2.children, s.Inner zone c) :
    Edits zone s (s.alloc n).2 where
  rows q := by
    rw [entries, node_alloc]
    split
    · exact hrows
    · exact h.rows q
  closed q c hc := by
    rw [size_alloc]
    apply Nat.lt_succ_of_lt
    rw [below, entries, node_alloc] at hc
    split at hc
    · exact (hbelow c hc).2
    · exact h.closed q c hc
  inside q hq c hc := by
    rw [below, entries, node_alloc] at hc
    split at hc
    · exact (hbelow c hc).1
    · exact h.inside q hq c hc
  fresh q hq := by
    rw [size_alloc] at hq
    exact h.fresh q (Nat.le_of_succ_le hq)
  size_le := by
    rw [size_alloc]
    exact Nat.le_succ _
  node_eq q hq _ := node_alloc_of_lt hq n

theorem inner_alloc (n : Node) : (s.alloc n).2.Inner zone (s.alloc n).1 := by
  refine ⟨h.fresh _ (Nat.le_refl _), ?_⟩
  rw [size_alloc]
  exact Nat.lt_succ_self _

theorem setEntries (hp : zone p) {rows : Entries Policy} (hrows : Entries.Proper rows)
    (hbelow : ∀ c ∈ rows.flatMap fun row => row.2.children, s.Inner zone c) :
    Edits zone s (s.setEntries p rows) where
  rows q := by
    rw [entries, node_setEntries]
    split
    · exact hrows
    · exact h.rows q
  closed q c hc := by
    rw [size_setEntries]
    rw [below, entries, node_setEntries] at hc
    split at hc
    · exact (hbelow c hc).2
    · exact h.closed q c hc
  inside q hq c hc := by
    rw [below, entries, node_setEntries] at hc
    split at hc
    · exact (hbelow c hc).1
    · exact h.inside q hq c hc
  fresh q hq := by
    rw [size_setEntries] at hq
    exact h.fresh q hq
  size_le := (size_setEntries s p rows).ge
  node_eq q _ hout := by
    apply node_setEntries_of_ne
    rintro rfl
    exact hout hp

theorem link (hp : zone p) (hkey : Name.segments key = .ok [key]) (hne : vs.isEmpty = false)
    (hvs : ∀ c ∈ vs.children, s.Inner zone c) : Edits zone s (s.link p key vs) :=
  h.setEntries hp ((h.rows p).insert hkey hne) fun c hc =>
    (mem_flatMap_insert hc).elim (hvs c) (h.inner hp)

theorem erase (hp : zone p) (key : String) :
    Edits zone s (s.setEntries p (Table.erase key (s.entries p))) :=
  h.setEntries hp ((h.rows p).erase key) fun _ hc => h.inner hp (mem_flatMap_erase hc)

theorem setDictionary (hp : zone p) (d : Dictionary) : Edits zone s (s.setDictionary p d) where
  rows q := by
    rw [entries_setDictionary]
    exact h.rows q
  closed q c hc := by
    rw [size_setDictionary]
    rw [below, entries_setDictionary] at hc
    exact h.closed q c hc
  inside q hq c hc := by
    rw [below, entries_setDictionary] at hc
    exact h.inside q hq c hc
  fresh q hq := by
    rw [size_setDictionary] at hq
    exact h.fresh q hq
  size_le := (size_setDictionary s p d).ge
  node_eq q _ hout := by
    apply node_setDictionary_of_ne
    rintro rfl
    exact hout hp

/-! ## Writing -/

theorem nest (hvs : ∀ c ∈ vs.children, s.Inner zone c) {below : List String}
    (hbelow : ∀ key ∈ below, Name.segments key = .ok [key]) :
    Edits zone s (s.nest vs below).2 ∧
      ∀ c ∈ (s.nest vs below).1.children, (s.nest vs below).2.Inner zone c := by
  induction below with
  | nil => exact ⟨.refl h, hvs⟩
  | cons key rest ih =>
    obtain ⟨hedits, hinner⟩ := ih fun other hother => hbelow other (List.mem_cons_of_mem _ hother)
    simp only [Store.nest]
    generalize s.nest vs rest = made at hedits hinner ⊢
    obtain ⟨inner, s'⟩ := made
    simp only at hedits hinner ⊢
    have hrows : Entries.Proper (if inner.isEmpty then [] else [(key, inner)]) := by
      split
      · exact .nil
      · rename_i hne
        exact Entries.Proper.nil.insert (hbelow key List.mem_cons_self) (Bool.eq_false_iff.mpr hne)
    have hchildren : ∀ c ∈ (if inner.isEmpty then [] else [(key, inner)]).flatMap
        fun row : String × Values Policy => row.2.children, s'.Inner zone c := by
      intro c hc
      split at hc
      · cases hc
      · exact hinner c (by simpa using hc)
    refine ⟨hedits.trans (hedits.toZoned.alloc hrows hchildren), fun c hc => ?_⟩
    rw [List.mem_singleton.mp hc]
    exact hedits.toZoned.inner_alloc _

theorem write {spot : Place} (howner : zone spot.owner)
    (hsegments : ∀ key ∈ spot.key :: spot.below, Name.segments key = .ok [key])
    (hvs : ∀ c ∈ vs.children, s.Inner zone c) : Edits zone s (s.write spot vs) := by
  obtain ⟨hedits, hinner⟩ := h.nest hvs fun key hkey => hsegments key (List.mem_cons_of_mem _ hkey)
  refine hedits.trans ?_
  unfold Store.write
  simp only
  split
  · exact hedits.toZoned.erase howner spot.key
  · rename_i hne
    exact hedits.toZoned.link howner (hsegments spot.key List.mem_cons_self)
      (Bool.eq_false_iff.mpr hne) hinner

/-- The place of a name below a policy of the zone is in the zone. -/
theorem place (hp : zone p) {spot : Place} (hplace : s.place p name = .ok spot) :
    zone spot.owner ∧ ∀ key ∈ spot.key :: spot.below, Name.segments key = .ok [key] := by
  obtain ⟨path, hname, hplace⟩ := Except.bind_eq_ok hplace
  obtain ⟨front, rfl, -, -⟩ := (finds_of_placeFrom hplace).way
  exact ⟨placeFrom_closed h.inside hp hplace, fun key hkey =>
    Name.segments_of_mem hname (List.mem_append_right front hkey)⟩

theorem put (hp : zone p) (hvs : ∀ c ∈ vs.children, s.Inner zone c)
    (hput : s.put p name vs = .ok s') : Edits zone s s' := by
  obtain ⟨spot, hplace, hput⟩ := Except.bind_eq_ok hput
  cases hput
  obtain ⟨howner, hsegments⟩ := h.place hp hplace
  exact h.write howner hsegments hvs

theorem set (hp : zone p) (hv : ∀ c, v = .policy c → s.Inner zone c)
    (hset : s.set p name v = .ok s') : Edits zone s s' := by
  obtain ⟨_, _, hput⟩ := Except.bind_eq_ok hset
  refine h.put hp (fun c hc => ?_) hput
  cases v with
  | policy q =>
    cases List.mem_singleton.mp hc
    exact hv c rfl
  | _ => cases hc

theorem setValues (hp : zone p) (hvs : ∀ c ∈ vs.children, s.Inner zone c)
    (hset : s.setValues p name vs = .ok s') : Edits zone s s' := by
  obtain ⟨_, _, hput⟩ := Except.bind_eq_ok hset
  exact h.put hp hvs hput

theorem inner_valuesAt {spot : Place} (howner : zone spot.owner) (kind : Kind) {c : Policy}
    (hc : c ∈ (s.valuesAt spot kind).children) : s.Inner zone c :=
  h.inner howner (mem_below_of_valuesAt hc)

theorem add (hp : zone p) (hv : ∀ c, v = .policy c → s.Inner zone c)
    (hadd : s.add p name v = .ok s') : Edits zone s s' := by
  obtain ⟨_, _, hadd⟩ := Except.bind_eq_ok hadd
  obtain ⟨spot, hplace, hadd⟩ := Except.bind_eq_ok hadd
  obtain ⟨howner, hsegments⟩ := h.place hp hplace
  dsimp only at hadd
  split at hadd
  · rename_i ws hpush
    cases hadd
    refine h.write howner hsegments fun c hc => ?_
    rcases children_push? hpush hc with hold | hnew
    · exact h.inner_valuesAt howner _ hold
    · exact hv c hnew
  · cases hadd

theorem remove (hp : zone p) {found : Bool} (hremove : s.remove p name = .ok (found, s')) :
    Edits zone s s' := by
  obtain ⟨spot, hplace, hremove⟩ := Except.bind_eq_ok hremove
  split at hremove
  · cases hremove
    exact h.erase (h.place hp hplace).1 spot.key
  · cases hremove
    exact .refl h

end Zoned

end Store

end PolicyStore
