import PolicyStore.Proofs.Merge.Names
import PolicyStore.Proofs.Merge.Places

set_option autoImplicit false

namespace PolicyStore

/-!
# Settled paths

A path is settled where a write to it finds an array already, or something that is in its way. Paths
stay settled, and ways stay what they are, when rows have been put under free keys.
-/

namespace Store

/-- A path leads to an array, or before its end to an array without a last policy. -/
inductive Settled (s : Store) : Policy → List String → Prop
  | found {p : Policy} {key : String} {vs : Values Policy} :
      Table.get? key (s.entries p) = some vs → Settled s p [key]
  | blocked {p : Policy} {key : String} {rest : List String} {vs : Values Policy} :
      Table.get? key (s.entries p) = some vs → vs.children.getLast? = none →
      Settled s p (key :: rest)
  | step {p c : Policy} {key : String} {rest : List String} {children : List Policy} :
      Table.get? key (s.entries p) = some (.policies children) → children.getLast? = some c →
      Settled s c rest → Settled s p (key :: rest)

/-- All arrays are still where they were. -/
def Keeps (s s' : Store) : Prop :=
  ∀ r key vs, Table.get? key (s.entries r) = some vs → Table.get? key (s'.entries r) = some vs

variable {s s' s'' : Store} {p q r owner : Policy} {key : String} {front back path : List String}
  {vs : Values Policy} {n : Nat}

theorem Way.find?_content (hs : s.WellFormed) (h : s.Way p front r) (hp : p.id < s.size)
    (hn : s.Within n p) : Content.find? (front ++ [key]) (s.content p) =
      (Table.get? key (s.entries r)).map (Values.map s.content) := by
  rw [find?_content_of_descend hs "" [] hp hn, h.descend]

theorem Finds.way {spot : Place} (h : s.Finds p path spot) :
    ∃ front, path = front ++ spot.key :: spot.below ∧ s.Way p front spot.owner ∧
      (spot.below ≠ [] → Table.get? spot.key (s.entries spot.owner) = none) := by
  induction h with
  | here p key => exact ⟨[], rfl, .here p, fun h => (h rfl).elim⟩
  | free hget => exact ⟨[], rfl, .here _, fun _ => hget⟩
  | @step p c key next rest children spot hget hlast _ ih =>
    obtain ⟨front, hpath, hway, hfree⟩ := ih
    exact ⟨key :: front, by rw [hpath, List.cons_append], .step hget hlast hway, hfree⟩

/-! ## Settled paths -/

theorem Way.settled (h : s.Way p front r) (hget : Table.get? key (s.entries r) = some vs) :
    s.Settled p (front ++ [key]) := by
  induction h with
  | here => exact .found hget
  | step hrow hlast _ ih => exact .step hrow hlast (ih hget)

/-- A path that is not taken yet is not settled. -/
theorem Way.not_settled (h : s.Way p front r) (hfree : Table.get? key (s.entries r) = none) :
    ¬s.Settled p (front ++ key :: back) := by
  induction h with
  | here =>
    intro h
    cases h with
    | found hget => cases hfree.symm.trans hget
    | blocked hget _ => cases hfree.symm.trans hget
    | step hget _ _ => cases hfree.symm.trans hget
  | @step p c r first path children hget hlast hway ih =>
    intro h
    rw [List.cons_append] at h
    generalize hrest : path ++ key :: back = rest at h
    cases h with
    | found => exact List.append_ne_nil_of_right_ne_nil _ (List.cons_ne_nil _ _) hrest
    | blocked hget' hnone =>
      cases hget.symm.trans hget'
      cases hlast.symm.trans hnone
    | step hget' hlast' hsettled =>
      cases hget.symm.trans hget'
      cases hlast.symm.trans hlast'
      exact ih hfree (hrest ▸ hsettled)

theorem settled_of_placeFrom {full : String} (hne : path ≠ []) :
    ∀ {done : List String} {p : Policy} {e : PolicyError},
      s.placeFrom full done p path = .error e → e.isTypeError = true ∧ s.Settled p path := by
  induction path with
  | nil => exact (hne rfl).elim
  | cons segment rest ih =>
    intro done p e h
    cases rest with
    | nil => cases h
    | cons next rest =>
      simp only [placeFrom] at h
      split at h
      · cases h
      · rename_i children hget
        split at h
        · rename_i child hlast
          obtain ⟨herror, hsettled⟩ := ih (List.cons_ne_nil _ _) h
          exact ⟨herror, .step hget hlast hsettled⟩
        · rename_i hlast
          cases h
          exact ⟨rfl, .blocked hget hlast⟩
      · rename_i values hnot hget
        cases h
        refine ⟨rfl, .blocked hget ?_⟩
        cases values with
        | policies children => exact (hnot children rfl).elim
        | _ => rfl

/-! ## Stores that keep what is there -/

theorem Keeps.refl (s : Store) : s.Keeps s := fun _ _ _ hget => hget

theorem Keeps.trans (h : s.Keeps s') (h' : s'.Keeps s'') : s.Keeps s'' :=
  fun r key vs hget => h' r key vs (h r key vs hget)

theorem Adds.keeps (h : s.Adds s') : s.Keeps s' := by
  intro r key vs hget
  rwa [h.entries_eq (lt_size_of_get? hget)]

theorem Keeps.way (h : s.Keeps s') (hway : s.Way p path r) : s'.Way p path r := by
  induction hway with
  | here => exact .here _
  | step hget hlast _ ih => exact .step (h _ _ _ hget) hlast ih

theorem Keeps.settled (h : s.Keeps s') (hsettled : s.Settled p path) : s'.Settled p path := by
  induction hsettled with
  | found hget => exact .found (h _ _ _ hget)
  | blocked hget hnone => exact .blocked (h _ _ _ hget) hnone
  | step hget hlast _ ih => exact .step (h _ _ _ hget) hlast ih

theorem keeps_link (howner : owner.id < s.size) (hfree : Table.get? key (s.entries owner) = none)
    (vs : Values Policy) : s.Keeps (s.link owner key vs) := by
  intro r other ws hget
  rw [get?_link_of_ne howner]
  · exact hget
  · rintro ⟨rfl, rfl⟩
    cases hfree.symm.trans hget

end Store

end PolicyStore
