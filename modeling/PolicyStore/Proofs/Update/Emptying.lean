import PolicyStore.Proofs.Store.Paving
import PolicyStore.Proofs.Update.Points
import PolicyStore.Proofs.Update.Rewriting

set_option autoImplicit false

namespace PolicyStore.Store

/-!
# Writing empty arrays

The empty array is never stored: to write it under a name is to remove the name. Only where policies
are missing above the name the write still makes them, and so leaves an empty policy there which a
removal does not leave.
-/

variable {s : Store} {p : Policy} {name : String} {path : List String} {spot : Place}
  {owner : Policy} {key : String} {front : List String}

theorem setValues_empty (s : Store) (p : Policy) (name : String) (kind : Kind) :
    s.setValues p name (.empty kind) = s.put p name (.empty kind) := by
  cases kind <;> rfl

/-! ## At a row that a policy has or may have -/

theorem write_empty (s : Store) (owner : Policy) (key : String) (kind : Kind) :
    s.write ⟨owner, key, []⟩ (.empty kind) =
      s.setEntries owner (Table.erase key (s.entries owner)) := by
  cases kind <;> rfl

theorem remove_of_place (h : s.place p name = .ok ⟨owner, key, []⟩) :
    s.remove p name = .ok ((Table.get? key (s.entries owner)).isSome,
      s.setEntries owner (Table.erase key (s.entries owner))) := by
  simp only [remove, h, bind, Except.bind]
  cases hget : Table.get? key (s.entries owner) with
  | none =>
    rw [Table.erase_of_get?_eq_none hget, setEntries_entries]
    rfl
  | some values => rfl

/-! ## Below a policy that is missing -/

theorem remove_of_place_below {next : String} {rest : List String}
    (h : s.place p name = .ok ⟨owner, key, next :: rest⟩) : s.remove p name = .ok (false, s) := by
  simp only [remove, h, bind, Except.bind]
  rfl

theorem node_alloc_default (s : Store) (q : Policy) : (s.alloc {}).2.node q = s.node q := by
  rw [node_alloc]
  split
  · rename_i hq
    subst hq
    exact (node_of_le (Nat.le_refl s.size)).symm
  · rfl

/-- The policy for the last segment is made first. -/
theorem nest_concat (s : Store) (vs : Values Policy) (last : String) : ∀ path : List String,
    s.nest vs (path ++ [last]) =
      (s.alloc { entries := if vs.isEmpty then [] else [(last, vs)] }).2.nest
        (.policies [⟨s.size⟩]) path := by
  intro path
  induction path with
  | nil => rfl
  | cons first path ih =>
    rw [List.cons_append, nest, nest, ih]

/-- Below a missing policy the empty array comes to an empty policy in the place above. -/
theorem write_empty_below (s : Store) (owner : Policy) (key last : String) (path : List String)
    (kind : Kind) : s.write ⟨owner, key, path ++ [last]⟩ (.empty kind) =
      (s.alloc {}).2.write ⟨owner, key, path⟩ (.policies [⟨s.size⟩]) := by
  have hnest : s.nest (.empty kind) (path ++ [last]) =
      (s.alloc {}).2.nest (.policies [⟨s.size⟩]) path := by
    rw [nest_concat]
    cases kind <;> rfl
  unfold write
  simp only [hnest]

/-- Where a policy has no row, all that would be below the row is missing. -/
theorem Way.finds (h : s.Way p front owner) (hfree : Table.get? key (s.entries owner) = none)
    (below : List String) : s.Finds p (front ++ key :: below) ⟨owner, key, below⟩ := by
  induction h with
  | here p =>
    cases below with
    | nil => exact .here p key
    | cons next rest => exact .free hfree
  | @step p c r first path children hget hlast _ ih =>
    obtain ⟨next, rest, hnext⟩ : ∃ next rest, path ++ key :: below = next :: rest :=
      List.exists_cons_of_ne_nil (List.append_ne_nil_of_right_ne_nil _ (List.cons_ne_nil _ _))
    have hrest := ih hfree
    rw [List.cons_append, hnext]
    rw [hnext] at hrest
    exact .step hget hlast hrest

/-- There are policies missing below the row that a name leads to just if a name above holds
nothing. -/
theorem Finds.missing_iff (hname : Name.segments name = .ok path) (h : s.Finds p path spot) :
    (∃ above, Name.Above above name ∧ s.lookup p above = .ok none) ↔ spot.below ≠ [] := by
  obtain ⟨front, rfl, hway, hfree⟩ := h.way
  constructor
  · rintro ⟨above, habove, hlookup⟩ hbelow
    obtain ⟨before, back, hback, hbefore, hsplit⟩ := (Name.above_iff hname).mp habove
    rw [hbelow] at hsplit
    have hprefix : before <+: front ++ [spot.key] := ⟨back, hsplit.symm⟩
    obtain ⟨mid, rfl⟩ : before <+: front := by
      refine (List.prefix_concat_iff.mp hprefix).resolve_left ?_
      rintro rfl
      exact hback (List.append_right_eq_self.mp hsplit.symm)
    obtain ⟨children, hchildren⟩ := hway.descend_policies (Name.segments_ne_nil hbefore) above []
    rw [Store.lookup_eq hbefore, hchildren] at hlookup
    cases hlookup
  · intro hbelow
    have habove : Name.segments (Name.join (front ++ [spot.key])) = .ok (front ++ [spot.key]) := by
      refine Name.segments_join (List.append_ne_nil_of_right_ne_nil _ (List.cons_ne_nil _ _))
        fun segment hsegment => Name.segments_of_mem hname ?_
      rw [List.append_cons]
      exact List.mem_append_left _ hsegment
    refine ⟨_, (Name.above_iff hname).mpr ⟨_, spot.below, hbelow, habove, List.append_cons ..⟩, ?_⟩
    rw [Store.lookup_eq habove, hway.descend, hfree hbelow]

/-- Where the policy that would hold the name is missing, the empty array puts it there. -/
theorem put_empty_below {above last : String} {kind : Kind} {next : String} {rest : List String}
    (hlast : Name.segments last = .ok [last])
    (h : s.place p (above ++ "." ++ last) = .ok ⟨owner, key, next :: rest⟩) :
    s.put p (above ++ "." ++ last) (.empty kind) =
      (s.alloc {}).2.put p above (.policies [⟨s.size⟩]) := by
  obtain ⟨path, hname, hfinds⟩ := exists_finds_of_place h
  obtain ⟨path, back, habove, hback, rfl⟩ := Name.segments_concat_iff.mp hname
  cases hlast.symm.trans hback
  obtain ⟨front, hsplit, hway, hfree⟩ := hfinds.way
  obtain ⟨below, final, hbelow⟩ := (List.eq_nil_or_concat (next :: rest)).resolve_left
    (List.cons_ne_nil next rest)
  rw [List.concat_eq_append] at hbelow
  obtain ⟨rfl, hfinal⟩ : path = front ++ key :: below ∧ [last] = [final] := by
    refine List.append_inj' ?_ rfl
    rw [hsplit, hbelow, List.append_assoc, List.cons_append]
  cases hfinal
  have hplace : (s.alloc {}).2.place p above = .ok ⟨owner, key, below⟩ := by
    simp only [place, habove, bind, Except.bind]
    exact ((hway.finds (hfree (List.cons_ne_nil _ _)) below).congr (fun _ _ _ _ => trivial)
      (fun q _ => congrArg Node.entries (node_alloc_default s q)) trivial).placeFrom _ _
  simp only [put, h, hplace, bind, Except.bind]
  rw [hbelow, write_empty_below]

/-- Storing the empty array fails exactly where a removal fails, and likewise. Where a removal
succeeds it does the same just if every name above holds something. Where the name right above holds
nothing there is nothing to remove, and storing the empty array is storing a new policy there. -/
theorem setValues_empty_removes (s : Store) (p : Policy) (name : String) (kind : Kind) :
    (∀ e, s.setValues p name (.empty kind) = .error e ↔ s.remove p name = .error e) ∧
    ∀ found s', s.remove p name = .ok (found, s') →
      (s.setValues p name (.empty kind) = .ok s' ↔
        ¬∃ above, Name.Above above name ∧ s.lookup p above = .ok none) ∧
      ∀ above last, name = above ++ "." ++ last → Name.segments last = .ok [last] →
        s.lookup p above = .ok none → found = false ∧ s' = s ∧
          s.setValues p name (.empty kind) = (s.alloc {}).2.put p above (.policies [⟨s.size⟩]) := by
  rw [setValues_empty]
  cases hplace : s.place p name with
  | error e =>
    have hput : s.put p name (.empty kind) = .error e := by
      simp only [put, hplace, bind, Except.bind]
    have hremove : s.remove p name = .error e := by
      simp only [remove, hplace, bind, Except.bind]
    rw [hput, hremove]
    refine ⟨fun _ => by simp only [Except.error.injEq], fun found s' h => by cases h⟩
  | ok spot =>
    obtain ⟨owner, key, below⟩ := spot
    obtain ⟨path, hname, hfinds⟩ := exists_finds_of_place hplace
    have hmissing := hfinds.missing_iff hname
    have hput : s.put p name (.empty kind) = .ok (s.write ⟨owner, key, below⟩ (.empty kind)) := by
      simp only [put, hplace, bind, Except.bind]
      rfl
    cases below with
    | nil =>
      rw [hput, remove_of_place hplace, write_empty]
      refine ⟨fun _ => by simp only [reduceCtorEq], fun found s' h => ?_⟩
      cases h
      refine ⟨iff_of_true rfl fun h => hmissing.mp h rfl, fun above last hsplit _ hlookup => ?_⟩
      exact (hmissing.mp ⟨above, ⟨last, hsplit⟩, hlookup⟩ rfl).elim
    | cons next rest =>
      rw [remove_of_place_below hplace]
      refine ⟨fun _ => by simp only [hput, reduceCtorEq], fun found s' h => ?_⟩
      cases h
      refine ⟨iff_of_false (fun heq => ?_) (not_not.mpr (hmissing.mpr (List.cons_ne_nil _ _))), ?_⟩
      · rw [hput] at heq
        have hsize := congrArg size (Except.ok.inj heq)
        rw [size_write, List.length_cons] at hsize
        omega
      · rintro above last rfl hlast -
        exact ⟨rfl, rfl, put_empty_below hlast hplace⟩

theorem setValues_empty_beside_row :
    setValues ⟨#[{ entries := [("c", .ints [1])] }]⟩ ⟨0⟩ "a.b" (.empty .string) =
      (alloc ⟨#[{ entries := [("c", .ints [1])] }]⟩ {}).2.put ⟨0⟩ "a" (.policies [⟨1⟩]) := by
  have hremove : remove ⟨#[{ entries := [("c", .ints [1])] }]⟩ ⟨0⟩ "a.b" =
      .ok (false, ⟨#[{ entries := [("c", .ints [1])] }]⟩) := by decide +kernel
  obtain ⟨-, hsame⟩ := setValues_empty_removes _ _ _ .string
  obtain ⟨-, hbelow⟩ := hsame _ _ hremove
  exact (hbelow "a" "b" rfl (by decide +kernel) (by decide +kernel)).2.2

/-- In an empty policy there is nothing to remove under `a.b`, but storing the empty array makes an
empty policy `a`. -/
theorem setValues_empty_makes_policy :
    remove ⟨#[{}]⟩ ⟨0⟩ "a.b" = .ok (false, ⟨#[{}]⟩) ∧
      setValues ⟨#[{}]⟩ ⟨0⟩ "a.b" (.empty .int) =
        .ok ⟨#[{ entries := [("a", .policies [⟨1⟩])] }, {}]⟩ := by
  decide +kernel

end PolicyStore.Store
