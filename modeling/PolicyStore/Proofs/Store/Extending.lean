import PolicyStore.Proofs.Schema.Included
import PolicyStore.Proofs.Update.Branches

set_option autoImplicit false

namespace PolicyStore

/-!
# Stores that only grow

A store extends another if all that the other holds is still in its place: each array has kept its
kind and begins with the values that it had. Adding a value does not do more than that to a store.
-/

namespace Values

variable {π : Type} {vs ws us : Values π}

/-- An array of the same kind begins with the values of another. -/
structure IsPrefix (vs ws : Values π) : Prop where
  kind : vs.kind = ws.kind
  toList : vs.toList <+: ws.toList

namespace IsPrefix

theorem refl (vs : Values π) : IsPrefix vs vs := ⟨rfl, List.prefix_refl _⟩

theorem trans (h : IsPrefix vs ws) (h' : IsPrefix ws us) : IsPrefix vs us :=
  ⟨h.kind.trans h'.kind, h.toList.trans h'.toList⟩

theorem push {v : Value π} (h : vs.push? v = some ws) : IsPrefix vs ws where
  kind := (kind_push? h).symm
  toList := by
    rw [toList_push? h]
    exact List.prefix_append _ _

/-- What stood at an index among policies stands there still. -/
theorem policies {children : List π} (h : IsPrefix (.policies children) ws) :
    ∃ others, ws = .policies others ∧ children <+: others := by
  cases ws with
  | policies others =>
    obtain ⟨more, hmore⟩ := h.toList
    have hinjective : Function.Injective (Value.policy : π → Value π) := fun _ _ => Value.policy.inj
    refine ⟨others, rfl, (List.prefix_iff_eq_take).mpr ?_⟩
    have htake := congrArg (List.take children.length) hmore
    rw [Values.toList, Values.toList, List.take_left' (by simp), ← List.map_take] at htake
    exact hinjective.list_map htake
  | _ => cases h.kind

end IsPrefix

end Values

namespace Store

variable {s s' s'' : Store} {p q r : Policy} {name key : String} {vs : Values Policy}

/-! ## Positions -/

/-- A policy stands at a position below another. A step of a position is a key and the index in the
array under this key. -/
inductive Stands (s : Store) : Policy → List (String × Nat) → Policy → Prop
  | here (p : Policy) : Stands s p [] p
  | step {p c r : Policy} {key : String} {i : Nat} {path : List (String × Nat)}
      {children : List Policy} : Table.get? key (s.entries p) = some (.policies children) →
      children[i]? = some c → Stands s c path r → Stands s p ((key, i) :: path) r

/-! ## Extending -/

/-- Each array of the first store is still there in the second, with no more than values added at
its end. -/
def Extends (s s' : Store) : Prop :=
  ∀ p key vs, Table.get? key (s.entries p) = some vs →
    ∃ ws, Table.get? key (s'.entries p) = some ws ∧ vs.IsPrefix ws

namespace Extends

theorem refl (s : Store) : s.Extends s := fun _ _ vs hget => ⟨vs, hget, .refl vs⟩

theorem trans (h : s.Extends s') (h' : s'.Extends s'') : s.Extends s'' := by
  intro p key vs hget
  obtain ⟨ws, hws, hprefix⟩ := h p key vs hget
  obtain ⟨us, hus, hprefix'⟩ := h' p key ws hws
  exact ⟨us, hus, hprefix.trans hprefix'⟩

/-- Handles that have not been given out hold nothing, so that only the others count. -/
theorem of_lt (h : ∀ p : Policy, p.id < s.size → ∀ key vs, Table.get? key (s.entries p) = some vs →
    ∃ ws, Table.get? key (s'.entries p) = some ws ∧ vs.IsPrefix ws) : s.Extends s' :=
  fun p key vs hget => h p (lt_size_of_get? hget) key vs hget

theorem alloc (s : Store) (n : Node) : s.Extends (s.alloc n).2 :=
  of_lt fun p hp key vs hget => by
    rw [entries, node_alloc_of_lt hp]
    exact ⟨vs, hget, .refl vs⟩

/-- A policy that stands at a position keeps it. -/
theorem stands {path : List (String × Nat)} (h : s.Extends s') (hq : s.Stands p path q) :
    s'.Stands p path q := by
  induction hq with
  | here p => exact .here p
  | step hget hchild _ ih =>
    obtain ⟨ws, hws, hprefix⟩ := h _ _ _ hget
    obtain ⟨others, rfl, more, rfl⟩ := hprefix.policies
    refine .step hws ?_ ih
    rw [List.getElem?_append_left (List.getElem?_eq_some_iff.mp hchild).1, hchild]

/-- Writing to a place does not take anything away if the array there is a prefix of the new one. -/
theorem write {spot : Place} (hne : vs.isEmpty = false)
    (hold : ∀ old, Table.get? spot.key (s.entries spot.owner) = some old →
      spot.below = [] ∧ old.IsPrefix vs) : s.Extends (s.write spot vs) := by
  refine of_lt fun p hp key old hget => ?_
  by_cases hrow : p = spot.owner ∧ key = spot.key
  · obtain ⟨rfl, rfl⟩ := hrow
    obtain ⟨hbelow, hprefix⟩ := hold old hget
    refine ⟨vs, ?_, hprefix⟩
    rw [write_eq hne, hbelow, nest, entries_setEntries_self hp, Table.get?_insert_self]
  · rw [onlyRow_write hne p hp key hrow]
    exact ⟨old, hget, .refl old⟩

/-- An added value comes after those that are there, or makes a row where there was none. -/
theorem add {v : Value Policy} (hadd : s.add p name v = .ok s') : s.Extends s' := by
  obtain ⟨_, _, hadd⟩ := Except.bind_eq_ok hadd
  obtain ⟨spot, hplace, hadd⟩ := Except.bind_eq_ok hadd
  obtain ⟨segments, _, hspot⟩ := Except.bind_eq_ok hplace
  obtain ⟨-, -, -, hfree⟩ := (finds_of_placeFrom hspot).way
  dsimp only at hadd
  split at hadd
  · rename_i ws hpush
    cases hadd
    refine write (by simp [Values.isEmpty, Values.toList_push? hpush]) fun old hget => ?_
    by_cases hbelow : spot.below = []
    · rw [valuesAt, hbelow, hget, Option.getD_some] at hpush
      exact ⟨hbelow, .push hpush⟩
    · cases (hfree hbelow).symm.trans hget
  · cases hadd

end Extends

end Store

end PolicyStore
