import PolicyStore.Proofs.Merge.Settling
import PolicyStore.Proofs.Store.Renaming
import PolicyStore.Proofs.Update.Branches

set_option autoImplicit false

namespace PolicyStore

/-!
# Policies made on the way to a row

A write makes the policies that its name misses from the inside, so that each one is whole when it
is put into the next. They may also be made from the outside, on the way to the row, and the array
be written at last. The stores then hold the same, but for the handles of the new policies.
-/

/-- The rows with an array under a key. The empty array takes the row away. -/
def Entries.put {π : Type} (key : String) (values : Values π) (rows : Entries π) : Entries π :=
  if values.isEmpty then Table.erase key rows else Table.insert key values rows

/-- The second store holds the same as the first. The policies that were there go by the same
handles, the others by those that the function gives. -/
structure Store.Rehandled (low : Nat) (f : Policy → Policy) (s s' : Store) : Prop where
  size_eq : s'.size = s.size
  injective : Function.Injective f
  fixed : ∀ q : Policy, q.id < low → f q = q
  node : ∀ q, s'.node (f q) = (s.node q).rename f

namespace Entries

theorem put_rename (f : Policy → Policy) (key : String) (vs : Values Policy)
    (rows : Entries Policy) : put key (vs.map f) (rename f rows) = rename f (put key vs rows) := by
  have herase : Table.erase key (rename f rows) = rename f (Table.erase key rows) := by
    induction rows with
    | nil => rfl
    | cons row rows ih =>
      simp only [rename, List.map_cons, Table.erase] at ih ⊢
      split
      · exact ih
      · rw [ih, List.map_cons]
  simp only [put, Values.isEmpty_map, insert_rename, herase]
  split <;> rfl

end Entries

namespace Store

variable {s : Store} {p q : Policy} {key : String} {below rest : List String} {vs : Values Policy}

/-! ## The policies that a write makes on its way -/

/-- The store with the policies made that are missing below a row, and the row of the innermost. -/
def pave (s : Store) (p : Policy) (key : String) : List String → Store × Policy × String
  | [] => (s, p, key)
  | next :: rest =>
    ((s.alloc {}).2.link p key (.policies [⟨s.size⟩])).pave ⟨s.size⟩ next rest

/-- Writes an array where the missing policies have been made. -/
def lay (s : Store) (vs : Values Policy) (p : Policy) (key : String) (below : List String) :
    Store :=
  let (s, p, key) := s.pave p key below
  s.setEntries p ((s.entries p).put key vs)

/-- What a row on the way to an array holds: the array, or the policy that leads on to it. -/
def rung (vs : Values Policy) (c : Policy) : List String → Values Policy
  | [] => vs
  | _ :: _ => .policies [c]

theorem lay_cons (s : Store) (vs : Values Policy) (p : Policy) (key next : String)
    (rest : List String) : s.lay vs p key (next :: rest) =
      ((s.alloc {}).2.link p key (.policies [⟨s.size⟩])).lay vs ⟨s.size⟩ next rest :=
  rfl

theorem ne_of_lt_size (hq : q.id < s.size) : q ≠ ⟨s.size⟩ := by
  rintro rfl
  exact Nat.lt_irrefl _ hq

theorem node_alloc_link (hq : q ≠ p) :
    ((s.alloc {}).2.link p key vs).node q = s.node q := by
  rw [link, node_setEntries_of_ne hq, node_alloc]
  split
  · rename_i hnew
    rw [hnew]
    exact (node_of_le (Nat.le_refl _)).symm
  · rfl

theorem size_alloc_link : ((s.alloc {}).2.link p key vs).size = s.size + 1 := by
  rw [size_link, size_alloc]

theorem size_lay : ∀ {s : Store} {p : Policy} {key : String},
    (s.lay vs p key below).size = s.size + below.length := by
  induction below with
  | nil => exact size_setEntries _ _ _
  | cons next rest ih =>
    intro s p key
    rw [lay_cons, ih, size_alloc_link, List.length_cons]
    omega

theorem node_lay_of_ne : ∀ {s : Store} {p : Policy} {key : String}, q.id < s.size → q ≠ p →
    (s.lay vs p key below).node q = s.node q := by
  induction below with
  | nil => exact fun _ hne => node_setEntries_of_ne hne _ _
  | cons next rest ih =>
    intro s p key hq hne
    rw [lay_cons, ih ?_ (ne_of_lt_size hq), node_alloc_link hne]
    rw [size_alloc_link]
    exact Nat.lt_succ_of_lt hq

theorem node_lay_self (hp : p.id < s.size) : (s.lay vs p key below).node p =
    { s.node p with entries := (s.entries p).put key (rung vs ⟨s.size⟩ below) } := by
  cases below with
  | nil =>
    show (s.setEntries p _).node p = _
    rw [node_setEntries, if_pos ⟨rfl, hp⟩]
    rfl
  | cons next rest =>
    have hlt : p.id < (s.alloc {}).2.size := by
      rw [size_alloc]
      exact Nat.lt_succ_of_lt hp
    rw [lay_cons, node_lay_of_ne ?_ (ne_of_lt_size hp), link, node_setEntries,
      if_pos ⟨rfl, hlt⟩, node_alloc_of_lt hp, entries, node_alloc_of_lt hp]
    · rfl
    · rw [size_link]
      exact hlt

/-- Every policy that is made holds one row, with the policy that is made next or the array. -/
theorem node_lay_new {front : List String} {other : String} :
    ∀ {s : Store} {p : Policy} {key : String}, p.id < s.size →
      (s.lay vs p key (front ++ other :: rest)).node ⟨s.size + front.length⟩ =
        { entries := Entries.put other (rung vs ⟨s.size + front.length + 1⟩ rest) [] } := by
  induction front with
  | nil =>
    intro s p key hp
    have hnew : s.node ⟨s.size⟩ = {} := node_of_le (Nat.le_refl _)
    rw [List.nil_append, lay_cons, List.length_nil, Nat.add_zero,
      node_lay_self (by rw [size_alloc_link]; exact Nat.lt_succ_self _), size_alloc_link, entries,
      node_alloc_link (ne_of_lt_size hp).symm, hnew]
  | cons next front ih =>
    intro s p key hp
    have hlt : s.size < ((s.alloc {}).2.link p key (.policies [⟨s.size⟩])).size := by
      rw [size_alloc_link]
      exact Nat.lt_succ_self _
    have hnode := @ih _ ⟨s.size⟩ next hlt
    have hsum : s.size + (front.length + 1) = s.size + 1 + front.length := by
      omega
    rw [size_alloc_link] at hnode
    rw [List.cons_append, lay_cons, List.length_cons, hsum]
    exact hnode

theorem entries_link_new (hp : p.id < s.size) :
    ((s.alloc {}).2.link p key vs).entries ⟨s.size⟩ = [] := by
  rw [entries, node_alloc_link (ne_of_lt_size hp).symm]
  exact congrArg Node.entries (node_of_le (Nat.le_refl _))

theorem entries_pave : ∀ {s : Store} {p : Policy} {key next : String}, p.id < s.size →
    (s.pave p key (next :: rest)).1.entries (s.pave p key (next :: rest)).2.1 = [] := by
  induction rest with
  | nil => exact entries_link_new
  | cons next rest ih =>
    intro s p key first _
    refine ih (s := (s.alloc {}).2.link p key (.policies [⟨s.size⟩])) (p := ⟨s.size⟩) ?_
    rw [size_alloc_link]
    exact Nat.lt_succ_self _

/-- Making policies does not put anything where the name leads to. -/
theorem valuesAt_pave (hp : p.id < s.size) (kind : Kind) :
    (Table.get? (s.pave p key below).2.2 ((s.pave p key below).1.entries
      (s.pave p key below).2.1)).getD (.empty kind) = s.valuesAt ⟨p, key, below⟩ kind := by
  cases below with
  | nil => rfl
  | cons next rest =>
    rw [entries_pave hp]
    rfl

/-! ## The policies that are made for a place -/

theorem size_nest (s : Store) (vs : Values Policy) (below : List String) :
    (s.nest vs below).2.size = s.size + below.length := by
  induction below with
  | nil => rfl
  | cons next rest ih =>
    simp only [nest, size_alloc, ih, List.length_cons]
    omega

theorem nest_fst : (s.nest vs below).1 = rung vs ⟨s.size + (below.length - 1)⟩ below := by
  cases below with
  | nil => rfl
  | cons next rest =>
    show rung vs ⟨(s.nest vs rest).2.size⟩ (next :: rest) = _
    rw [size_nest]
    rfl

theorem node_nest_new {front : List String} {other : String} :
    (s.nest vs (front ++ other :: rest)).2.node ⟨s.size + rest.length⟩ =
      { entries := Entries.put other (rung vs ⟨s.size + (rest.length - 1)⟩ rest) [] } := by
  induction front with
  | nil =>
    rw [← nest_fst, ← size_nest s vs]
    exact node_alloc_self _ _
  | cons next front ih =>
    rw [← ih]
    apply node_alloc_of_lt
    show s.size + rest.length < (s.nest vs (front ++ other :: rest)).2.size
    rw [size_nest, List.length_append, List.length_cons]
    omega

theorem size_write : (s.write ⟨p, key, below⟩ vs).size = s.size + below.length := by
  unfold write
  rw [size_setEntries, size_nest]

theorem node_write_of_ne (hq : q ≠ p) :
    (s.write ⟨p, key, below⟩ vs).node q = (s.nest vs below).2.node q :=
  node_setEntries_of_ne hq _ _

theorem node_write_self (hp : p.id < s.size) : (s.write ⟨p, key, below⟩ vs).node p =
    { s.node p with
      entries := (s.entries p).put key (rung vs ⟨s.size + (below.length - 1)⟩ below) } := by
  obtain ⟨hsize, hframe⟩ := nest_frame s vs below
  unfold write
  rw [node_setEntries, if_pos ⟨rfl, hp.trans_le hsize⟩, ← nest_fst, hframe p hp]
  simp only [Entries.put, entries, hframe p hp]

end Store

/-! ## The same under other handles -/

/-- The handles of a number of policies, the last one first. -/
def Policy.mirror (low k : Nat) (p : Policy) : Policy :=
  if low ≤ p.id ∧ p.id < low + k then ⟨low + (low + k - 1 - p.id)⟩ else p

theorem Policy.mirror_injective (low k : Nat) : Function.Injective (Policy.mirror low k) := by
  rintro ⟨i⟩ ⟨j⟩ h
  have hid := congrArg Policy.id h
  simp only [Policy.mirror, apply_ite Policy.id] at hid
  refine congrArg Policy.mk ?_
  split at hid <;> split at hid <;> omega

theorem Policy.mirror_of_lt {low k : Nat} {p : Policy} (h : p.id < low) : p.mirror low k = p :=
  if_neg fun hle => Nat.not_le_of_lt h hle.1

theorem Policy.mirror_of_le {low k : Nat} {p : Policy} (h : low + k ≤ p.id) : p.mirror low k = p :=
  if_neg fun hlt => Nat.not_lt_of_le h hlt.2

theorem Policy.mirror_add {low k i j : Nat} (h : i + j + 1 = k) :
    Policy.mirror low k ⟨low + i⟩ = ⟨low + j⟩ := by
  rw [Policy.mirror, if_pos (by constructor <;> dsimp only <;> omega)]
  refine congrArg Policy.mk ?_
  dsimp only
  omega

namespace Store

variable {s : Store} {p q : Policy} {key : String} {below rest : List String} {vs : Values Policy}

theorem WellFormed.rename_mirror (hs : s.WellFormed) (k : Nat) (q : Policy) :
    (s.entries q).rename (Policy.mirror s.size k) = s.entries q :=
  Entries.rename_eq_self fun row hrow c hc =>
    Policy.mirror_of_lt (hs.closed q c (List.mem_flatMap.mpr ⟨row, hrow, hc⟩))

/-- What leads on to the policy that comes next leads on to it under its other handle. -/
theorem rung_mirror {low : Nat} {front : List String} (hvs : ∀ c ∈ vs.children, c.id < low)
    (h : front ++ rest = below) :
    (rung vs ⟨low + (rest.length - 1)⟩ rest).map (Policy.mirror low below.length) =
      rung vs ⟨low + front.length⟩ rest := by
  cases rest with
  | nil =>
    refine (Values.map_congr fun c hc => Policy.mirror_of_lt (hvs c hc)).trans ?_
    show vs.map (fun c => c) = vs
    cases vs <;> simp [Values.map]
  | cons next rest =>
    have hsum : rest.length + front.length + 1 = below.length := by
      rw [← h, List.length_append, List.length_cons]
      omega
    show Values.policies [Policy.mirror low below.length ⟨low + rest.length⟩] = _
    rw [Policy.mirror_add hsum]
    rfl

theorem exists_split_of_lt {i : Nat} (h : i < below.length) :
    ∃ front other rest, below = front ++ other :: rest ∧ rest.length = i := by
  have hlt : below.length - (i + 1) < below.length := by omega
  refine ⟨_, _, _, ((List.take_append_drop (below.length - (i + 1)) below).symm.trans
    (congrArg _ (List.drop_eq_getElem_cons hlt))), ?_⟩
  rw [List.length_drop]
  omega

/-- Making the policies on the way down gives what making them from the inside gives, but for the
order of the handles. -/
theorem rehandled_write (hs : s.WellFormed) (hp : p.id < s.size)
    (hvs : ∀ c ∈ vs.children, c.id < s.size) :
    Rehandled s.size (Policy.mirror s.size below.length) (s.write ⟨p, key, below⟩ vs)
      (s.lay vs p key below) := by
  refine ⟨?_, Policy.mirror_injective _ _, fun q hq => Policy.mirror_of_lt hq, fun q => ?_⟩
  · rw [size_lay, size_write]
  by_cases hlt : q.id < s.size
  · rw [Policy.mirror_of_lt hlt]
    by_cases hq : q = p
    · subst hq
      rw [node_lay_self hp, node_write_self hp, Node.rename, ← Entries.put_rename,
        hs.rename_mirror, rung_mirror hvs (List.nil_append below)]
      rfl
    · rw [node_lay_of_ne hlt hq, node_write_of_ne hq, (nest_frame s vs below).2 q hlt]
      exact congrArg (Node.mk · (s.node q).dictionary) (hs.rename_mirror _ q).symm
  by_cases hnew : q.id < s.size + below.length
  · have hindex : q.id - s.size < below.length := by
      omega
    obtain ⟨front, other, rest, rfl, hrest⟩ := exists_split_of_lt hindex
    have hid : q = ⟨s.size + rest.length⟩ := by
      refine congrArg Policy.mk ?_
      omega
    have hne : q ≠ p := by
      rintro rfl
      exact hlt hp
    have hsum : rest.length + front.length + 1 = (front ++ other :: rest).length := by
      rw [List.length_append, List.length_cons]
      omega
    rw [node_write_of_ne hne, hid, Policy.mirror_add hsum, node_lay_new hp, node_nest_new,
      Node.rename, ← Entries.put_rename, rung_mirror hvs (List.append_cons ..).symm,
      List.length_append, List.length_singleton, ← Nat.add_assoc]
    rfl
  · have hle := Nat.le_of_not_lt hnew
    rw [Policy.mirror_of_le hle, node_of_le, node_of_le]
    · rfl
    · rw [size_write]
      exact hle
    · rw [size_lay]
      exact hle

end Store

end PolicyStore
