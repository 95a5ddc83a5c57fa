import PolicyStore.Proofs.Merge.Names

set_option autoImplicit false

namespace PolicyStore

/-!
# Paths of contents

The paths of a content are the paths to its arrays. They stand in an order in which the path to a
policy comes before the paths to what is in it.
-/

namespace Content

/-- Each path but those of one segment stands behind the path that it extends. -/
def Ordered (paths : List (List String)) : Prop :=
  ∀ pre path post, paths = pre ++ path :: post → ∀ front key, path = front ++ [key] → front ≠ [] →
    front ∈ pre

theorem Ordered.append {xs ys : List (List String)} (hx : Ordered xs) (hy : Ordered ys) :
    Ordered (xs ++ ys) := by
  intro pre path post h front key hpath hne
  rcases List.append_eq_append_iff.mp h with ⟨mid, rfl, hys⟩ | ⟨mid, hxs, hrest⟩
  · exact List.mem_append_right _ (hy mid path post hys front key hpath hne)
  · cases mid with
    | nil => cases hy [] path post hrest.symm front key hpath hne
    | cons x mid =>
      obtain ⟨rfl, rfl⟩ := List.cons.inj hrest
      exact hx pre path mid hxs front key hpath hne

theorem Ordered.row {xs : List (List String)} (hxs : Ordered xs) (key : String) :
    Ordered ([key] :: xs.map (key :: ·)) := by
  intro pre path post h front last hpath hne
  obtain ⟨first, front, rfl⟩ := List.exists_cons_of_ne_nil hne
  cases pre with
  | nil =>
    obtain ⟨rfl, _⟩ := List.cons.inj h
    have hlength := congrArg List.length hpath
    simp at hlength
  | cons head pre =>
    obtain ⟨rfl, htail⟩ := List.cons.inj h
    obtain ⟨xs₁, rest, rfl, rfl, hrest⟩ := List.map_eq_append_iff.mp htail
    obtain ⟨x, xs₂, rfl, rfl, rfl⟩ := List.map_eq_cons_iff.mp hrest
    obtain ⟨rfl, rfl⟩ := List.cons.inj hpath
    by_cases hfront : front = []
    · rw [hfront]
      exact List.mem_cons_self
    · have hmem := hxs xs₁ _ xs₂ rfl front last rfl hfront
      exact List.mem_cons_of_mem _ (List.mem_map_of_mem hmem)

theorem Regular.ordered_paths {t : Content} (h : t.Regular) : Ordered t.paths := by
  induction h with
  | @node rows hsorted hfull hchildren ih =>
    rw [paths]
    induction rows with
    | nil =>
      rw [pathsOfRows]
      intro pre path post h
      cases pre <;> cases h
    | cons row rows ihrows =>
      obtain ⟨key, vs⟩ := row
      rw [pathsOfRows_cons, ← List.cons_append]
      refine Ordered.append (Ordered.row ?_ key) ?_
      · rw [pathsBelow]
        cases hlast : vs.children.getLast? with
        | none =>
          intro pre path post h
          cases pre <;> cases h
        | some c => exact ih _ List.mem_cons_self c (List.mem_of_getLast? hlast)
      · exact ihrows hsorted.tail (fun other hother => hfull other (List.mem_cons_of_mem _ hother))
          (fun other hother => hchildren other (List.mem_cons_of_mem _ hother))
          fun other hother => ih other (List.mem_cons_of_mem _ hother)

theorem mem_pathsOfRows {rows : List (String × Values Content)} {path : List String} :
    path ∈ pathsOfRows rows ↔ ∃ key vs, (key, vs) ∈ rows ∧
      (path = [key] ∨ ∃ rest ∈ pathsBelow vs, path = key :: rest) := by
  induction rows with
  | nil =>
    rw [pathsOfRows]
    simp
  | cons row rows ih =>
    obtain ⟨key, vs⟩ := row
    rw [pathsOfRows_cons, List.mem_cons, List.mem_append, ih, List.mem_map]
    simp only [List.mem_cons, Prod.mk.injEq, eq_comm (a := key :: _)]
    constructor
    · rintro (h | h | ⟨other, ws, hrow, h⟩)
      · exact ⟨key, vs, Or.inl ⟨rfl, rfl⟩, Or.inl h⟩
      · exact ⟨key, vs, Or.inl ⟨rfl, rfl⟩, Or.inr h⟩
      · exact ⟨other, ws, Or.inr hrow, h⟩
    · rintro ⟨other, ws, ⟨rfl, rfl⟩ | hrow, h⟩
      · exact h.elim Or.inl fun h => Or.inr (Or.inl h)
      · exact Or.inr (Or.inr ⟨other, ws, hrow, h⟩)

theorem mem_paths_of_mem_rows {t : Content} {key : String} {vs : Values Content}
    (h : (key, vs) ∈ t.rows) : [key] ∈ t.paths := by
  obtain ⟨rows⟩ := t
  rw [paths, mem_pathsOfRows]
  exact ⟨key, vs, h, Or.inl rfl⟩

theorem mem_paths_of_find? {path : List String} : ∀ {t : Content} {vs : Values Content},
    find? path t = some vs → path ∈ t.paths := by
  induction path with
  | nil =>
    intro t vs h
    cases h
  | cons key rest ih =>
    intro t vs h
    obtain ⟨rows⟩ := t
    rw [paths, mem_pathsOfRows]
    cases rest with
    | nil => exact ⟨key, vs, Table.mem_of_get? h, Or.inl rfl⟩
    | cons next rest =>
      obtain ⟨ws, hget, hbelow⟩ := Option.bind_eq_some_iff.mp h
      obtain ⟨c, hlast, hc⟩ := Option.bind_eq_some_iff.mp hbelow
      refine ⟨key, ws, Table.mem_of_get? hget, Or.inr ⟨next :: rest, ?_, rfl⟩⟩
      rw [pathsBelow, hlast]
      exact ih hc

theorem find?_append {front back : List String} (hback : back ≠ []) :
    ∀ {t : Content}, front ≠ [] → find? (front ++ back) t =
      (find? front t).bind fun vs => vs.children.getLast?.bind (find? back) := by
  induction front with
  | nil => exact fun h => (h rfl).elim
  | cons key front ih =>
    intro t _
    rw [List.cons_append, find?_cons (List.append_ne_nil_of_right_ne_nil _ hback)]
    by_cases hfront : front = []
    · rw [hfront, List.nil_append, find?]
    · rw [find?_cons hfront, Option.bind_assoc]
      refine Option.bind_congr fun vs _ => ?_
      rw [Option.bind_assoc]
      exact Option.bind_congr fun c _ => ih hfront

/-- Paths of legal names are followed by legal segments only, and lead to legal names. -/
theorem Named.find? {path : List String} : ∀ {t : Content} {vs : Values Content}, t.Named →
    Content.find? path t = some vs →
    (∀ segment ∈ path, Name.segments segment = .ok [segment]) ∧ ∀ c ∈ vs.children, c.Named := by
  induction path with
  | nil =>
    intro t vs _ hfind
    cases hfind
  | cons key rest ih =>
    intro t vs h hfind
    cases h with
    | node hkeys hchildren =>
      cases rest with
      | nil =>
        have hrow := Table.mem_of_get? hfind
        refine ⟨fun segment hsegment => ?_, hchildren _ hrow⟩
        rw [List.mem_singleton.mp hsegment]
        exact hkeys _ hrow
      | cons next rest =>
        obtain ⟨ws, hget, hbelow⟩ := Option.bind_eq_some_iff.mp hfind
        obtain ⟨c, hlast, hc⟩ := Option.bind_eq_some_iff.mp hbelow
        have hrow := Table.mem_of_get? hget
        obtain ⟨hrest, hvs⟩ := ih (hchildren _ hrow c (List.mem_of_getLast? hlast)) hc
        exact ⟨List.forall_mem_cons.mpr ⟨hkeys _ hrow, hrest⟩, hvs⟩

end Content

end PolicyStore
