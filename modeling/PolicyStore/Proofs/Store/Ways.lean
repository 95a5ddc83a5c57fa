import PolicyStore.Proofs.Store.Tidy

set_option autoImplicit false

namespace PolicyStore

/-!
# Ways through a store

A path leads from policy to policy, each time to the last one of an array. What a name holds stands at
the end of such a way.
-/

namespace Store

/-- A path leads from a policy to another. -/
inductive Way (s : Store) : Policy → List String → Policy → Prop
  | here (p : Policy) : Way s p [] p
  | step {p c r : Policy} {key : String} {path : List String} {children : List Policy} :
      Table.get? key (s.entries p) = some (.policies children) → children.getLast? = some c →
      Way s c path r → Way s p (key :: path) r

variable {s : Store} {p q r : Policy} {key name : String} {front back path : List String}
  {vs : Values Policy} {n : Nat}

theorem lt_size_of_get? (h : Table.get? key (s.entries p) = some vs) : p.id < s.size := by
  refine Nat.lt_of_not_le fun hle => ?_
  rw [entries_of_size_le hle] at h
  cases h

/-! ## Ways -/

theorem Way.append (h : s.Way p front q) (h' : s.Way q back r) : s.Way p (front ++ back) r := by
  induction h with
  | here => exact h'
  | step hget hlast _ ih => exact .step hget hlast (ih h')

theorem Way.snoc {children : List Policy} (h : s.Way p path q)
    (hget : Table.get? key (s.entries q) = some (.policies children))
    (hlast : children.getLast? = some r) : s.Way p (path ++ [key]) r :=
  h.append (.step hget hlast (.here r))

theorem Way.reaches (h : s.Way p path r) : s.Reaches p r := by
  induction h with
  | here => exact .refl
  | step hget hlast _ ih => exact ih.head (mem_below_of_get? hget (List.mem_of_getLast? hlast))

/-- The last policy on the way, and its array that holds the end of the way. -/
theorem Way.exists_last (h : s.Way p path r) (hne : path ≠ []) :
    ∃ front key q children, path = front ++ [key] ∧ s.Way p front q ∧
      Table.get? key (s.entries q) = some (.policies children) ∧ children.getLast? = some r := by
  induction h with
  | here => exact (hne rfl).elim
  | @step p c r key path children hget hlast hway ih =>
    cases path with
    | nil =>
      cases hway
      exact ⟨[], key, p, children, rfl, .here p, hget, hlast⟩
    | cons next rest =>
      obtain ⟨front, last, q, others, hpath, hfront, hq, hr⟩ := ih (List.cons_ne_nil _ _)
      exact ⟨key :: front, last, q, others, by rw [hpath, List.cons_append],
        .step hget hlast hfront, hq, hr⟩

theorem Way.eq_nil (h : s.Way p path p) (hn : s.Within n p) : path = [] := by
  cases h with
  | here => rfl
  | step hget hlast hway =>
    exact (hn.not_reaches (mem_below_of_get? hget (List.mem_of_getLast? hlast)) hway.reaches).elim

/-- No policy is passed twice on the way along a path. A write takes hold of each policy on its way,
so that other names cannot be written. -/
def Direct (s : Store) (p : Policy) (path : List String) : Prop :=
  ∀ front mid back r, path = front ++ mid ++ back → back ≠ [] → s.Way p front r → s.Way r mid r →
    mid = []

theorem Direct.of_within {n : Nat} (hn : s.Within n p) (path : List String) : s.Direct p path :=
  fun _ _ _ _ _ _ hfront hmid => hmid.eq_nil (hn.of_reaches hfront.reaches)

theorem Way.descend (h : s.Way p front r) (full : String) : ∀ done : List String,
    Entries.descend s.entries full done (s.entries p) (front ++ [key]) =
      .ok (Table.get? key (s.entries r)) := by
  induction h with
  | here => exact fun _ => rfl
  | @step p c r first path children hget hlast hway ih =>
    intro done
    obtain ⟨next, rest, hnext⟩ : ∃ next rest, path ++ [key] = next :: rest :=
      List.exists_cons_of_ne_nil (List.append_ne_nil_of_right_ne_nil _ (List.cons_ne_nil _ _))
    rw [List.cons_append, hnext]
    simp only [Entries.descend, hget, hlast]
    rw [← hnext]
    exact ih _

/-- At the end of a way a name holds what its last segment holds there. -/
theorem Way.find?_eq (h : s.Way p front r)
    (hname : Name.segments name = .ok (front ++ [key])) :
    s.find? p name = Table.get? key (s.entries r) := by
  simp only [find?, Entries.find?, Entries.lookup, hname, bind, Except.bind, h.descend]

theorem put_eq_map (hname : Name.segments name = .ok path) :
    s.put p name vs = (s.placeFrom name [] p path).map (s.write · vs) := by
  simp only [put, place, hname, bind, Except.bind, Except.map]
  cases s.placeFrom name [] p path <;> rfl

theorem Way.placeFrom (h : s.Way p front r) (full : String) : ∀ done : List String,
    s.placeFrom full done p (front ++ [key]) = .ok ⟨r, key, []⟩ := by
  induction h with
  | here => exact fun _ => rfl
  | @step p c r first path children hget hlast _ ih =>
    intro done
    obtain ⟨next, rest, hnext⟩ : ∃ next rest, path ++ [key] = next :: rest :=
      List.exists_cons_of_ne_nil (List.append_ne_nil_of_right_ne_nil _ (List.cons_ne_nil _ _))
    rw [List.cons_append, hnext]
    simp only [Store.placeFrom, hget, hlast]
    rw [← hnext]
    exact ih _

/-- What a path is found to hold stands at the end of a way. -/
theorem way_of_descend {full : String} : ∀ {done : List String} {p : Policy},
    Entries.descend s.entries full done (s.entries p) path = .ok (some vs) →
    ∃ front key r, path = front ++ [key] ∧ s.Way p front r ∧
      Table.get? key (s.entries r) = some vs := by
  induction path with
  | nil =>
    intro done p h
    cases h
  | cons key rest ih =>
    intro done p h
    cases rest with
    | nil => exact ⟨[], key, p, rfl, .here p, Except.ok.inj h⟩
    | cons next rest =>
      simp only [Entries.descend] at h
      split at h
      · cases h
      · rename_i children hget
        split at h
        · cases h
        · rename_i c hlast
          obtain ⟨front, last, r, hpath, hway, hr⟩ := ih h
          exact ⟨key :: front, last, r, by rw [hpath, List.cons_append], .step hget hlast hway, hr⟩
      · cases h

theorem way_of_find? (h : s.find? p name = some vs) :
    ∃ front key r, Name.segments name = .ok (front ++ [key]) ∧ s.Way p front r ∧
      Table.get? key (s.entries r) = some vs := by
  unfold find? Entries.find? at h
  split at h
  · rename_i found hfound
    subst h
    unfold Entries.lookup at hfound
    cases hpath : Name.segments name with
    | error e =>
      rw [hpath] at hfound
      cases hfound
    | ok path =>
      rw [hpath] at hfound
      obtain ⟨front, key, r, rfl, hway, hget⟩ := way_of_descend hfound
      exact ⟨front, key, r, rfl, hway, hget⟩
  · cases h

end Store

end PolicyStore
