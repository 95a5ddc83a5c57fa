import PolicyStore.Proofs.Merge.Settling
import PolicyStore.Proofs.Schema.Included
import PolicyStore.Proofs.Store.Tidy

set_option autoImplicit false

namespace PolicyStore.Store

/-!
# Keys of rows

The keys under which a store has values are segments of the names that the values were added under.
-/

/-- All keys in the rows of a store have a property. -/
def Keyed (K : String → Prop) (s : Store) : Prop := ∀ p, ∀ row ∈ s.entries p, K row.1

variable {K : String → Prop} {s s' : Store} {p : Policy} {name : String} {vs : Values Policy}

namespace Keyed

theorem alloc (h : s.Keyed K) {n : Node} (hn : ∀ row ∈ n.entries, K row.1) :
    (s.alloc n).2.Keyed K := by
  intro q row hrow
  rw [entries, node_alloc] at hrow
  split at hrow
  · exact hn row hrow
  · exact h q row hrow

theorem setEntries (h : s.Keyed K) {rows : Entries Policy} (hrows : ∀ row ∈ rows, K row.1) :
    (s.setEntries p rows).Keyed K := by
  intro q row hrow
  rw [entries, node_setEntries] at hrow
  split at hrow
  · exact hrows row hrow
  · exact h q row hrow

theorem nest (h : s.Keyed K) {segments : List String} (hsegments : ∀ segment ∈ segments, K segment) :
    (s.nest vs segments).2.Keyed K := by
  induction segments with
  | nil => exact h
  | cons segment rest ih =>
    refine alloc (ih fun other hother => hsegments other (List.mem_cons_of_mem _ hother)) ?_
    intro row hrow
    split at hrow
    · cases hrow
    · exact List.mem_singleton.mp hrow ▸ hsegments segment List.mem_cons_self

theorem write (h : s.Keyed K) {spot : Place} (hspot : ∀ key ∈ spot.key :: spot.below, K key)
    (hne : vs.isEmpty = false) : (s.write spot vs).Keyed K := by
  have hbelow : (s.nest vs spot.below).2.Keyed K :=
    h.nest fun key hkey => hspot key (List.mem_cons_of_mem _ hkey)
  rw [write_eq hne]
  refine hbelow.setEntries fun row hrow => ?_
  rcases Table.mem_of_mem_insert hrow with rfl | hrow
  · exact hspot spot.key List.mem_cons_self
  · exact hbelow _ row hrow

theorem add (h : s.Keyed K) {v : Value Policy}
    (hname : ∀ segments, Name.segments name = .ok segments → ∀ segment ∈ segments, K segment)
    (hadd : s.add p name v = .ok s') : s'.Keyed K := by
  obtain ⟨_, _, hadd⟩ := Except.bind_eq_ok hadd
  obtain ⟨spot, hplace, hadd⟩ := Except.bind_eq_ok hadd
  obtain ⟨segments, hsegments, hspot⟩ := Except.bind_eq_ok hplace
  obtain ⟨front, rfl, -, -⟩ := (finds_of_placeFrom hspot).way
  dsimp only at hadd
  split at hadd
  · rename_i values hpush
    cases hadd
    refine h.write (fun key hkey => ?_) (by simp [Values.isEmpty, Values.toList_push? hpush])
    exact hname _ hsegments key (List.mem_append_right front hkey)
  · cases hadd

end Keyed

end PolicyStore.Store
