import Mathlib.Data.List.Nodup
import PolicyStore.Proofs.Merge.Paths

set_option autoImplicit false

namespace PolicyStore.Content

/-!
# Contents told by their leaves

A leaf is an array of anything but policies, at the end of a path. If every policy stands alone in
its array and holds something, the leaves tell the whole content, and it can be made by putting them
at their paths, one after the other in whatever order.
-/

variable {t t' u c c' : Content} {key : String} {path other : List String} {front : List Content}
  {vs ws : Values Content}

/-! ## Leaves -/

/-- A path leads to an array of something else than policies. -/
def IsLeaf (t : Content) (path : List String) (vs : Values Content) : Prop :=
  find? path t = some vs ∧ vs.kind ≠ .policy

/-- The leaves of a content with their paths. -/
def leaves (t : Content) : List (List String × Values Content) :=
  t.paths.filterMap fun path => (find? path t).bind fun vs =>
    if vs.kind = .policy then none else some (path, vs)

theorem mem_leaves : (path, vs) ∈ t.leaves ↔ t.IsLeaf path vs := by
  simp only [leaves, List.mem_filterMap, Option.bind_eq_some_iff, Option.ite_none_left_eq_some,
    Option.some.injEq, Prod.mk.injEq]
  constructor
  · rintro ⟨_, -, _, hfind, hkind, rfl, rfl⟩
    exact ⟨hfind, hkind⟩
  · rintro ⟨hfind, hkind⟩
    exact ⟨path, mem_paths_of_find? hfind, vs, hfind, hkind, rfl, rfl⟩

theorem not_isLeaf_nil : ¬t.IsLeaf [] vs := fun h => by cases h.1

theorem IsLeaf.unique (h : t.IsLeaf path vs) (h' : t.IsLeaf path ws) : vs = ws :=
  Option.some.inj (h.1.symm.trans h'.1)

/-- Nothing is found below a leaf. -/
theorem IsLeaf.find?_append (h : t.IsLeaf path vs) {rest : List String} (hrest : rest ≠ []) :
    find? (path ++ rest) t = none := by
  have hpath : path ≠ [] := by
    rintro rfl
    exact not_isLeaf_nil h
  rw [Content.find?_append hrest hpath, h.1, Option.bind_some, Values.children_of_kind_ne h.2]
  rfl

theorem Regular.nodup_paths (h : t.Regular) : t.paths.Nodup := by
  induction h with
  | @node rows hsorted hfull hchildren ih =>
    rw [paths]
    induction rows with
    | nil =>
      rw [pathsOfRows]
      exact List.nodup_nil
    | cons row rows ihrows =>
      obtain ⟨key, vs⟩ := row
      have hkey := (List.pairwise_cons.mp hsorted).1
      have hbelow : (pathsBelow vs).Nodup := by
        rw [pathsBelow]
        cases hlast : vs.children.getLast? with
        | none => exact List.nodup_nil
        | some c => exact ih _ List.mem_cons_self c (List.mem_of_getLast? hlast)
      have hne : [] ∉ pathsBelow vs := by
        rw [pathsBelow]
        cases vs.children.getLast? with
        | none => exact List.not_mem_nil
        | some c => exact fun hmem => ne_nil_of_mem_paths hmem rfl
      have hother : ∀ path ∈ pathsOfRows rows, path.head? ≠ some key := by
        intro path hpath heq
        obtain ⟨other, ws, hrow, hpath⟩ := mem_pathsOfRows.mp hpath
        have hlt := hkey other (List.mem_map_of_mem hrow)
        rcases hpath with rfl | ⟨rest, _, rfl⟩ <;>
          exact String.lt_irrefl _ (Option.some.inj heq ▸ hlt)
      rw [pathsOfRows_cons, ← List.cons_append]
      refine List.nodup_append.mpr ⟨List.nodup_cons.mpr ⟨fun hmem => ?_, ?_⟩, ?_, ?_⟩
      · obtain ⟨rest, hrest, heq⟩ := List.mem_map.mp hmem
        exact hne ((List.cons.inj heq).2 ▸ hrest)
      · exact hbelow.map fun a b heq => (List.cons.inj heq).2
      · exact ihrows hsorted.tail (fun other hmem => hfull other (List.mem_cons_of_mem _ hmem))
          (fun other hmem => hchildren other (List.mem_cons_of_mem _ hmem))
          fun other hmem => ih other (List.mem_cons_of_mem _ hmem)
      · rintro a ha b hb rfl
        apply hother a hb
        rcases List.mem_cons.mp ha with rfl | ha
        · rfl
        · obtain ⟨rest, _, rfl⟩ := List.mem_map.mp ha
          rfl

/-- Neither of two paths leads on to the other. -/
def Apart (path other : List String) : Prop := ¬path <+: other ∧ ¬other <+: path

theorem Apart.symm {path other : List String} (h : Apart path other) : Apart other path :=
  ⟨h.2, h.1⟩

theorem Regular.pairwise_leaves (h : t.Regular) :
    t.leaves.Pairwise fun a b => Apart a.1 b.1 := by
  have hnodup : t.leaves.Nodup := by
    refine h.nodup_paths.filterMap fun path path' leaf hleaf hleaf' => ?_
    simp only [Option.mem_def, Option.bind_eq_some_iff, Option.ite_none_left_eq_some,
      Option.some.injEq] at hleaf hleaf'
    obtain ⟨_, -, -, rfl⟩ := hleaf
    obtain ⟨_, -, -, heq⟩ := hleaf'
    exact (congrArg Prod.fst heq).symm
  have heq {a b : List String × Values Content} (ha : a ∈ t.leaves) (hb : b ∈ t.leaves)
      (hab : a.1 <+: b.1) : a = b := by
    obtain ⟨path, vs⟩ := a
    obtain ⟨other, ws⟩ := b
    obtain ⟨rest, rfl⟩ := hab
    have ha := mem_leaves.mp ha
    have hb := mem_leaves.mp hb
    by_cases hrest : rest = []
    · subst hrest
      rw [List.append_nil] at hb ⊢
      rw [ha.unique hb]
    · cases (ha.find?_append hrest).symm.trans hb.1
  exact hnodup.imp_of_mem fun ha hb hne =>
    ⟨fun hab => hne (heq ha hb hab), fun hba => hne (heq hb ha hba).symm⟩

/-! ## Policies that stand alone -/

/-- An array of policies has one policy only, and this one holds something. -/
inductive Single : Content → Prop
  | node {rows : List (String × Values Content)} :
      (∀ row ∈ rows, ∀ cs, row.2 = .policies cs → ∃ c, cs = [c] ∧ c.rows ≠ []) →
      (∀ row ∈ rows, ∀ c ∈ row.2.children, Single c) → Single (.node rows)

theorem single_empty : Single (.node []) := .node nofun nofun

theorem Single.row (h : t.Single) (hget : Table.get? key t.rows = some vs) :
    vs.kind ≠ .policy ∨ ∃ c, vs = .policies [c] ∧ c.rows ≠ [] ∧ c.Single := by
  obtain ⟨hrows, hchildren⟩ := h
  have hrow := Table.mem_of_get? hget
  cases vs with
  | policies cs =>
    obtain ⟨c, rfl, hc⟩ := hrows _ hrow cs rfl
    exact Or.inr ⟨c, rfl, hc, hchildren _ hrow c List.mem_cons_self⟩
  | _ => exact Or.inl Kind.noConfusion

theorem Single.insert (h : t.Single)
    (hvs : vs.kind ≠ .policy ∨ ∃ c, vs = .policies [c] ∧ c.rows ≠ [] ∧ c.Single) :
    Single (.node (Table.insert key vs t.rows)) := by
  obtain ⟨hrows, hchildren⟩ := h
  refine .node (fun row hrow cs hcs => ?_) fun row hrow d hd => ?_
  · rcases Table.mem_of_mem_insert hrow with rfl | hrow
    · subst hcs
      obtain ⟨c, hc, hne, -⟩ := hvs.resolve_left fun hkind => hkind rfl
      exact ⟨c, Values.policies.inj hc, hne⟩
    · exact hrows row hrow cs hcs
  · rcases Table.mem_of_mem_insert hrow with rfl | hrow
    · rcases hvs with hkind | ⟨c, rfl, -, hc⟩
      · rw [Values.children_of_kind_ne hkind] at hd
        cases hd
      · rw [List.mem_singleton.mp hd]
        exact hc
    · exact hchildren row hrow d hd

theorem isLeaf_cons (hget : Table.get? key t.rows = some (.policies [c]))
    (hpath : path ≠ []) : t.IsLeaf (key :: path) vs ↔ c.IsLeaf path vs := by
  simp [IsLeaf, find?_cons hpath, hget, Values.children]

theorem Single.exists_leaf (h : t.Single) (hne : t.rows ≠ []) : ∃ path vs, t.IsLeaf path vs := by
  induction h with
  | @node rows hrows hchildren ih =>
    obtain ⟨⟨key, vs⟩, rest, rfl⟩ := List.exists_cons_of_ne_nil hne
    have hget : Table.get? key ((key, vs) :: rest) = some vs := if_pos rfl
    rcases (Single.node hrows hchildren).row hget with hkind | ⟨c, rfl, hc, -⟩
    · exact ⟨[key], vs, hget, hkind⟩
    · obtain ⟨path, ws, hleaf⟩ := ih _ List.mem_cons_self c List.mem_cons_self hc
      have hpath : path ≠ [] := by
        rintro rfl
        exact not_isLeaf_nil hleaf
      exact ⟨key :: path, ws, (isLeaf_cons hget hpath).mpr hleaf⟩

/-- What is found at a path is a leaf, or the path leads on to one. -/
theorem Single.exists_leaf_below {path : List String} : ∀ {t : Content}, t.Single →
    find? path t = some vs → ∃ rest ws, t.IsLeaf (path ++ rest) ws := by
  induction path with
  | nil => exact fun _ h => by cases h
  | cons key rest ih =>
    intro t ht h
    by_cases hrest : rest = []
    · subst hrest
      rcases ht.row h with hkind | ⟨c, rfl, hc, hsingle⟩
      · exact ⟨[], vs, h, hkind⟩
      · obtain ⟨path, ws, hleaf⟩ := hsingle.exists_leaf hc
        have hpath : path ≠ [] := by
          rintro rfl
          exact not_isLeaf_nil hleaf
        exact ⟨path, ws, (isLeaf_cons h hpath).mpr hleaf⟩
    · rw [find?_cons hrest] at h
      obtain ⟨us, hget, hbelow⟩ := Option.bind_eq_some_iff.mp h
      rcases ht.row hget with hkind | ⟨c, rfl, -, hsingle⟩
      · rw [Values.children_of_kind_ne hkind] at hbelow
        cases hbelow
      · obtain ⟨back, ws, hleaf⟩ := ih hsingle hbelow
        exact ⟨back, ws, (isLeaf_cons hget
          (List.append_ne_nil_of_left_ne_nil hrest _)).mpr hleaf⟩

theorem IsLeaf.exists_row (h : t.IsLeaf (key :: path) vs) :
    ∃ ws, Table.get? key t.rows = some ws := by
  by_cases hpath : path = []
  · subst hpath
    exact ⟨vs, h.1⟩
  · obtain ⟨hfind, -⟩ := h
    rw [find?_cons hpath] at hfind
    obtain ⟨ws, hget, -⟩ := Option.bind_eq_some_iff.mp hfind
    exact ⟨ws, hget⟩

/-- A row of one content is a row of the other if the leaves below it are leaves of the other. -/
theorem Single.get?_ne_none (ht : t.Single) (hget : Table.get? key t.rows = some vs)
    (hleaves : ∀ path vs, t.IsLeaf path vs → u.IsLeaf path vs) : Table.get? key u.rows ≠ none := by
  have hfind : find? [key] t = some vs := hget
  obtain ⟨rest, ws, hleaf⟩ := ht.exists_leaf_below hfind
  obtain ⟨us, hus⟩ := (hleaves _ _ hleaf).exists_row
  simp [hus]

/-- Contents with the same leaves are the same. -/
theorem Single.eq_of_leaves (hu : u.Single) : ∀ {t : Content}, t.Single → t.Regular → u.Regular →
    (∀ path vs, t.IsLeaf path vs ↔ u.IsLeaf path vs) → t = u := by
  induction hu with
  | @node rows hrows hchildren ih =>
    intro t ht htr hur hleaves
    have hu := Single.node hrows hchildren
    rw [← node_rows t]
    refine congrArg Content.node (Table.eq_of_get?_eq htr.sorted hur.sorted fun key => ?_)
    cases hvs : Table.get? key t.rows with
    | none =>
      by_contra hne
      obtain ⟨ws, hws⟩ := Option.ne_none_iff_exists'.mp (Ne.symm hne)
      exact hu.get?_ne_none hws (fun path vs => (hleaves path vs).mpr) hvs
    | some vs =>
      obtain ⟨ws, hws⟩ := Option.ne_none_iff_exists'.mp
        (ht.get?_ne_none hvs fun path vs => (hleaves path vs).mp)
      rw [rows_node] at hws
      rw [hws]
      rcases ht.row hvs with hkind | ⟨c, rfl, -, hc⟩
      · have hleaf := ((hleaves [key] vs).mp ⟨hvs, hkind⟩).1
        exact hleaf.symm.trans hws
      · rcases hu.row hws with hkind | ⟨d, rfl, -, hd⟩
        · have hleaf := ((hleaves [key] ws).mpr ⟨hws, hkind⟩).1
          cases hleaf.symm.trans hvs
          exact (hkind rfl).elim
        · have hrow := Table.mem_of_get? hws
          have hcd : c = d := by
            refine ih _ hrow d List.mem_cons_self hc (htr.child hvs c List.mem_cons_self)
              (hur.child hws d List.mem_cons_self) fun path us => ?_
            by_cases hpath : path = []
            · subst hpath
              exact iff_of_false not_isLeaf_nil not_isLeaf_nil
            · rw [← isLeaf_cons hvs hpath, hleaves, isLeaf_cons hws hpath]
          rw [hcd]

/-! ## Putting a leaf -/

/-- The last policy under a key, which a path that goes on from the key leads into. Where the key is
free, an empty policy stands for it. -/
def Opens (t : Content) (key : String) (front : List Content) (c : Content) : Prop :=
  Table.get? key t.rows = some (.policies (front ++ [c])) ∨
    Table.get? key t.rows = none ∧ front = [] ∧ c = .node []

theorem put?_empty (vs : Values Content) (key : String) (rest : List String) :
    put? vs (key :: rest) (.node []) = some (.node [(key, wrap vs rest)]) := by
  cases rest with
  | nil => rfl
  | cons next rest => rfl

theorem find?_empty (path : List String) : find? path (.node []) = none := by
  cases path with
  | nil => rfl
  | cons key rest =>
    cases rest with
    | nil => rfl
    | cons next rest => rfl

namespace Opens

variable (h : t.Opens key front c)

include h

theorem find?_cons (hpath : path ≠ []) : find? (key :: path) t = find? path c := by
  rw [Content.find?_cons hpath]
  rcases h with hget | ⟨hget, -, rfl⟩
  · simp [hget, Values.children]
  · rw [hget, find?_empty]
    rfl

theorem isLeaf_cons (hpath : path ≠ []) : t.IsLeaf (key :: path) vs ↔ c.IsLeaf path vs := by
  rw [IsLeaf, h.find?_cons hpath, IsLeaf]

theorem not_isLeaf : ¬t.IsLeaf [key] vs := by
  rintro ⟨hfind, hkind⟩
  rw [find?] at hfind
  rcases h with hget | ⟨hget, -⟩
  · cases hget.symm.trans hfind
    exact hkind rfl
  · cases hget.symm.trans hfind

theorem put?_cons (hpath : path ≠ []) : put? vs (key :: path) t =
    (put? vs path c).map fun c' => .node (Table.insert key (.policies (front ++ [c'])) t.rows) := by
  obtain ⟨next, rest, rfl⟩ := List.exists_cons_of_ne_nil hpath
  rcases h with hget | ⟨hget, rfl, rfl⟩
  · simp [put?, hget]
  · rw [put?, hget, put?_empty]
    rfl

theorem single (ht : t.Single) : front = [] ∧ c.Single := by
  rcases h with hget | ⟨-, hfront, rfl⟩
  · rcases ht.row hget with hkind | ⟨d, hd, -, hsingle⟩
    · exact (hkind rfl).elim
    · have hlast : front ++ [c] = [] ++ [d] := Values.policies.inj hd
      obtain ⟨rfl, hcd⟩ := List.append_inj' hlast rfl
      rw [List.singleton_inj.mp hcd]
      exact ⟨rfl, hsingle⟩
  · exact ⟨hfront, single_empty⟩

end Opens

theorem opens_insert (key : String) (front : List Content) (c : Content)
    (rows : List (String × Values Content)) :
    Opens (.node (Table.insert key (.policies (front ++ [c])) rows)) key front c :=
  Or.inl (Table.get?_insert_self _ _ _)

/-- A path that an array can be put at leads through one of these. -/
theorem exists_opens (hpath : path ≠ []) (h : put? vs (key :: path) t = some t') :
    ∃ front c, t.Opens key front c := by
  cases hget : Table.get? key t.rows with
  | none => exact ⟨[], .node [], Or.inr ⟨hget, rfl, rfl⟩⟩
  | some ws =>
    cases hlast : ws.children.getLast? with
    | none => cases (put?_of_blocked hpath hget hlast vs).symm.trans h
    | some c =>
      obtain ⟨front, rfl⟩ := exists_eq_policies hlast
      exact ⟨front, c, Or.inl hget⟩

/-- An array that can be put below a key is put into the policy that the key opens. -/
theorem exists_of_put? (hpath : path ≠ []) (h : put? vs (key :: path) t = some t') :
    ∃ front c c', t.Opens key front c ∧ put? vs path c = some c' ∧
      t' = .node (Table.insert key (.policies (front ++ [c'])) t.rows) := by
  obtain ⟨front, c, hopens⟩ := exists_opens hpath h
  rw [hopens.put?_cons hpath] at h
  obtain ⟨c', hc', rfl⟩ := Option.map_eq_some_iff.mp h
  exact ⟨front, c, c', hopens, hc', rfl⟩

theorem find?_put?_self {path : List String} : ∀ {t t' : Content}, put? vs path t = some t' →
    find? path t' = some vs := by
  induction path with
  | nil => exact fun h => by cases h
  | cons key rest ih =>
    intro t t' h
    by_cases hrest : rest = []
    · subst hrest
      cases h
      exact Table.get?_insert_self _ _ _
    · obtain ⟨front, c, c', -, hc', rfl⟩ := exists_of_put? hrest h
      rw [(opens_insert key front c' t.rows).find?_cons hrest]
      exact ih hc'

/-- Of two arrays put at the same path the second one stays. -/
theorem put?_put? {path : List String} : ∀ {t t' : Content}, put? vs path t = some t' →
    put? ws path t' = put? ws path t := by
  induction path with
  | nil => exact fun h => by cases h
  | cons key rest ih =>
    intro t t' h
    by_cases hrest : rest = []
    · subst hrest
      cases h
      simp only [put?, rows_node, Table.insert_insert]
    · obtain ⟨front, c, c', hopens, hc', rfl⟩ := exists_of_put? hrest h
      rw [(opens_insert key front c' t.rows).put?_cons hrest, hopens.put?_cons hrest, ih hc']
      simp only [rows_node, Table.insert_insert]

theorem find?_insert_of_ne {first : String} (hne : first ≠ key) (rest : List String)
    (rows : List (String × Values Content)) :
    find? (first :: rest) (.node (Table.insert key vs rows)) = find? (first :: rest) (.node rows) := by
  by_cases hrest : rest = []
  · subst hrest
    exact Table.get?_insert_of_ne hne _ _
  · rw [find?_cons hrest, find?_cons hrest, rows_node, rows_node, Table.get?_insert_of_ne hne]

/-- A leaf that is put where nothing was is a leaf besides those that were there. -/
theorem isLeaf_put? {path : List String} (hkind : vs.kind ≠ .policy) : ∀ {t t' : Content}
    {other : List String}, find? path t = none → put? vs path t = some t' →
      (t'.IsLeaf other ws ↔ other = path ∧ ws = vs ∨ t.IsLeaf other ws) := by
  induction path with
  | nil => exact fun _ h => by cases h
  | cons key rest ih =>
    intro t t' other hnone h
    obtain ⟨us, hput⟩ : ∃ us, t' = .node (Table.insert key us t.rows) := by
      by_cases hrest : rest = []
      · subst hrest
        exact ⟨vs, (Option.some.inj h).symm⟩
      · obtain ⟨_, _, _, -, -, rfl⟩ := exists_of_put? hrest h
        exact ⟨_, rfl⟩
    cases other with
    | nil => simp [not_isLeaf_nil]
    | cons first others =>
      by_cases hfirst : first = key
      · subst hfirst
        by_cases hrest : rest = []
        · subst hrest
          have hself : t'.IsLeaf [first] vs := ⟨find?_put?_self h, hkind⟩
          have hfree : ¬t.IsLeaf (first :: others) ws := fun hleaf => by
            obtain ⟨_, hget⟩ := hleaf.exists_row
            cases hnone.symm.trans hget
          by_cases hothers : others = []
          · subst hothers
            refine ⟨fun hleaf => Or.inl ⟨rfl, hleaf.unique hself⟩, fun h => ?_⟩
            obtain ⟨-, rfl⟩ := h.resolve_right hfree
            exact hself
          · refine iff_of_false (fun hleaf => ?_) (by simp [hothers, hfree])
            cases (hself.find?_append hothers).symm.trans hleaf.1
        · obtain ⟨front, c, c', hopens, hc', rfl⟩ := exists_of_put? hrest h
          have hopens' := opens_insert first front c' t.rows
          by_cases hothers : others = []
          · subst hothers
            simp [hopens.not_isLeaf, hopens'.not_isLeaf, Ne.symm hrest]
          · rw [hopens.find?_cons hrest] at hnone
            rw [hopens'.isLeaf_cons hothers, hopens.isLeaf_cons hothers, ih hnone hc']
            simp
      · rw [hput, IsLeaf, find?_insert_of_ne hfirst, node_rows, IsLeaf]
        simp [hfirst]

theorem Single.put? {path : List String} (hkind : vs.kind ≠ .policy) : ∀ {t t' : Content},
    t.Single → put? vs path t = some t' → t'.Single ∧ t'.rows ≠ [] := by
  have hrows {key : String} {us : Values Content} {rows : List (String × Values Content)} :
      Table.insert key us rows ≠ [] := by
    intro hnil
    have hget := Table.get?_insert_self key us rows
    rw [hnil] at hget
    cases hget
  induction path with
  | nil => exact fun _ h => by cases h
  | cons key rest ih =>
    intro t t' ht h
    by_cases hrest : rest = []
    · subst hrest
      cases h
      exact ⟨ht.insert (Or.inl hkind), hrows⟩
    · obtain ⟨front, c, c', hopens, hc', rfl⟩ := exists_of_put? hrest h
      obtain ⟨rfl, hc⟩ := hopens.single ht
      obtain ⟨hsingle, hne⟩ := ih hc hc'
      exact ⟨ht.insert (Or.inr ⟨c', rfl, hne, hsingle⟩), hrows⟩

/-- Only a leaf can be in the way of an array. -/
theorem Single.exists_of_put?_eq_none {path : List String} (hpath : path ≠ []) : ∀ {t : Content},
    t.Single → Content.put? vs path t = none → ∃ front ws, front <+: path ∧ t.IsLeaf front ws := by
  induction path with
  | nil => exact (hpath rfl).elim
  | cons key rest ih =>
    intro t ht h
    by_cases hrest : rest = []
    · subst hrest
      cases h
    · have hopens (front : List Content) (c : Content) (hopens : t.Opens key front c) :
          ∃ front ws, front <+: key :: rest ∧ t.IsLeaf front ws := by
        rw [hopens.put?_cons hrest, Option.map_eq_none_iff] at h
        obtain ⟨before, ws, hbefore, hleaf⟩ := ih hrest (hopens.single ht).2 h
        have hne : before ≠ [] := by
          rintro rfl
          exact not_isLeaf_nil hleaf
        exact ⟨key :: before, ws, List.cons_prefix_cons.mpr ⟨rfl, hbefore⟩,
          (hopens.isLeaf_cons hne).mpr hleaf⟩
      cases hget : Table.get? key t.rows with
      | none => exact hopens [] _ (Or.inr ⟨hget, rfl, rfl⟩)
      | some ws =>
        rcases ht.row hget with hkind | ⟨c, rfl, -, -⟩
        · exact ⟨[key], ws, List.cons_prefix_cons.mpr ⟨rfl, List.nil_prefix⟩, hget, hkind⟩
        · exact hopens [] c (Or.inl hget)

theorem Regular.insert (h : t.Regular) (hne : vs.isEmpty = false)
    (hchildren : ∀ c ∈ vs.children, c.Regular) : Regular (.node (Table.insert key vs t.rows)) := by
  obtain ⟨hsorted, hfull, hrows⟩ := h
  refine .node (Table.sorted_insert hsorted key vs) (fun row hrow => ?_) fun row hrow => ?_
  · rcases Table.mem_of_mem_insert hrow with rfl | hrow
    · exact hne
    · exact hfull row hrow
  · rcases Table.mem_of_mem_insert hrow with rfl | hrow
    · exact hchildren
    · exact hrows row hrow

theorem regular_empty : Regular (.node []) := .node List.Pairwise.nil nofun nofun

theorem Opens.regular (h : t.Opens key front c) (ht : t.Regular) : ∀ d ∈ front ++ [c], d.Regular := by
  rcases h with hget | ⟨-, rfl, rfl⟩
  · exact ht.child hget
  · intro d hd
    rw [List.mem_singleton.mp hd]
    exact regular_empty

theorem Regular.put? {path : List String} (hkind : vs.kind ≠ .policy) (hne : vs.isEmpty = false) :
    ∀ {t t' : Content}, t.Regular → Content.put? vs path t = some t' → t'.Regular := by
  induction path with
  | nil => exact fun _ h => by cases h
  | cons key rest ih =>
    intro t t' ht h
    by_cases hrest : rest = []
    · subst hrest
      cases h
      refine ht.insert hne fun c hc => ?_
      rw [Values.children_of_kind_ne hkind] at hc
      cases hc
    · obtain ⟨front, c, c', hopens, hc', rfl⟩ := exists_of_put? hrest h
      have hregular := hopens.regular ht
      refine ht.insert (by simp [Values.isEmpty, Values.toList]) fun d hd => ?_
      rcases List.mem_append.mp hd with hd | hd
      · exact hregular d (List.mem_append_left _ hd)
      · rw [List.mem_singleton.mp hd]
        exact ih (hregular c (List.mem_append_right _ List.mem_cons_self)) hc'

/-- Where one array can be put, any other can. -/
theorem exists_put? (ws : Values Content) {path : List String} : ∀ {t t' : Content},
    put? vs path t = some t' → ∃ u, put? ws path t = some u := by
  induction path with
  | nil => exact fun h => by cases h
  | cons key rest ih =>
    intro t t' h
    by_cases hrest : rest = []
    · subst hrest
      exact ⟨_, rfl⟩
    · obtain ⟨front, c, c', hopens, hc', -⟩ := exists_of_put? hrest h
      obtain ⟨d, hd⟩ := ih hc'
      exact ⟨_, by rw [hopens.put?_cons hrest, hd, Option.map_some]⟩

/-! ## Building from leaves -/

/-- The leaves of a content are those in a list, and they tell the whole content. -/
structure Bears (t : Content) (leaves : List (List String × Values Content)) : Prop where
  single : t.Single
  regular : t.Regular
  isLeaf_iff : ∀ path vs, t.IsLeaf path vs ↔ (path, vs) ∈ leaves

namespace Bears

variable {leaves leaves' : List (List String × Values Content)}

theorem empty : Bears (.node []) [] where
  single := single_empty
  regular := regular_empty
  isLeaf_iff path vs := by simp [IsLeaf, find?_empty]

theorem of_single (ht : t.Single) (hregular : t.Regular) : t.Bears t.leaves where
  single := ht
  regular := hregular
  isLeaf_iff _ _ := mem_leaves.symm

theorem eq_of_perm (h : t.Bears leaves) (h' : u.Bears leaves') (hperm : leaves.Perm leaves') :
    t = u :=
  h'.single.eq_of_leaves h.single h.regular h'.regular fun path vs => by
    rw [h.isLeaf_iff, h'.isLeaf_iff, hperm.mem_iff]

/-- A leaf can be put beside others. -/
theorem put? (h : t.Bears leaves) (hpath : path ≠ []) (hkind : vs.kind ≠ .policy)
    (hne : vs.isEmpty = false) (hapart : ∀ leaf ∈ leaves, Apart leaf.1 path) :
    find? path t = none ∧ ∃ t', Content.put? vs path t = some t' ∧
      t'.Bears (leaves ++ [(path, vs)]) := by
  have hnone : find? path t = none := by
    by_contra hne
    obtain ⟨us, hus⟩ := Option.ne_none_iff_exists'.mp hne
    obtain ⟨rest, ws, hleaf⟩ := h.single.exists_leaf_below hus
    exact (hapart _ ((h.isLeaf_iff _ _).mp hleaf)).2 (List.prefix_append path rest)
  cases hput : Content.put? vs path t with
  | none =>
    obtain ⟨front, ws, hfront, hleaf⟩ := h.single.exists_of_put?_eq_none hpath hput
    exact ((hapart _ ((h.isLeaf_iff _ _).mp hleaf)).1 hfront).elim
  | some t' =>
    refine ⟨hnone, t', rfl, (h.single.put? hkind hput).1, h.regular.put? hkind hne hput,
      fun other ws => ?_⟩
    rw [isLeaf_put? hkind hnone hput, h.isLeaf_iff]
    simp [or_comm]

end Bears

end PolicyStore.Content
