import PolicyStore.Proofs.Store.Content

set_option autoImplicit false

namespace PolicyStore

/-!
# Merging contents

One content is completed by another in two ways: by recursion over the rows that the two have in
common, and path by path. A path is a name cut into its segments.
-/

namespace Content

/-! ## Paths -/

mutual

/-- All paths of a content, each before those that it leads on to. -/
def paths : Content → List (List String)
  | .node rows => pathsOfRows rows

def pathsOfRows : List (String × Values Content) → List (List String)
  | [] => []
  | (key, .policies cs) :: rows =>
    [key] :: ((pathsOfLast cs).map (key :: ·) ++ pathsOfRows rows)
  | (key, _) :: rows => [key] :: pathsOfRows rows

def pathsOfLast : List Content → List (List String)
  | [] => []
  | [c] => paths c
  | _ :: c :: cs => pathsOfLast (c :: cs)

end

theorem pathsOfLast_eq (cs : List Content) :
    pathsOfLast cs = (cs.getLast?.map paths).getD [] := by
  induction cs with
  | nil => rw [pathsOfLast, List.getLast?_nil, Option.map_none, Option.getD_none]
  | cons c cs ih =>
    cases cs with
    | nil => rw [pathsOfLast, List.getLast?_singleton, Option.map_some, Option.getD_some]
    | cons d cs => rw [pathsOfLast, ih, List.getLast?_cons_cons]

/-- The paths below a row. -/
def pathsBelow (vs : Values Content) : List (List String) :=
  (vs.children.getLast?.map paths).getD []

theorem pathsOfRows_cons (key : String) (vs : Values Content)
    (rows : List (String × Values Content)) : pathsOfRows ((key, vs) :: rows) =
      [key] :: ((pathsBelow vs).map (key :: ·) ++ pathsOfRows rows) := by
  cases vs with
  | policies cs => rw [pathsOfRows, pathsOfLast_eq, pathsBelow, Values.children]
  | _ =>
    rw [pathsOfRows]
    · rfl
    · intro cs hcs
      cases hcs

theorem ne_nil_of_mem_paths {t : Content} {path : List String} (h : path ∈ t.paths) :
    path ≠ [] := by
  rintro rfl
  obtain ⟨rows⟩ := t
  rw [paths] at h
  induction rows with
  | nil =>
    rw [pathsOfRows] at h
    cases h
  | cons row rows ih =>
    obtain ⟨key, vs⟩ := row
    rw [pathsOfRows_cons, List.mem_cons, List.mem_append, List.mem_map] at h
    rcases h with h | ⟨_, _, h⟩ | h
    · cases h
    · cases h
    · exact ih h

/-- What a path leads to; before the last policy of an array there is no way. -/
def find? : List String → Content → Option (Values Content)
  | [], _ => none
  | [key], t => Table.get? key t.rows
  | key :: next :: rest, t =>
    (Table.get? key t.rows).bind fun vs => vs.children.getLast?.bind (find? (next :: rest))

theorem find?_cons {key : String} {path : List String} (hpath : path ≠ []) (t : Content) :
    find? (key :: path) t =
      (Table.get? key t.rows).bind fun vs => vs.children.getLast?.bind (find? path) := by
  cases path with
  | nil => exact (hpath rfl).elim
  | cons next rest => rw [find?]

theorem exists_find?_of_mem_paths {t : Content} (h : t.Regular) : ∀ path ∈ t.paths,
    ∃ vs, find? path t = some vs := by
  induction h with
  | @node rows hsorted _ _ ih =>
    -- The paths are those of a part of the rows, but they are followed in all of them.
    have hrows : ∀ others, (∀ row ∈ others, row ∈ rows) → ∀ path ∈ pathsOfRows others,
        ∃ vs, find? path (.node rows) = some vs := by
      intro others
      induction others with
      | nil =>
        intro _ path hpath
        rw [pathsOfRows] at hpath
        cases hpath
      | cons row others ihrows =>
        intro hmem path hpath
        obtain ⟨key, vs⟩ := row
        have hrow := hmem _ List.mem_cons_self
        have hget := Table.get?_of_mem hsorted hrow
        rw [pathsOfRows_cons, List.mem_cons, List.mem_append, List.mem_map] at hpath
        rcases hpath with rfl | ⟨tail, htail, rfl⟩ | hpath
        · exact ⟨vs, hget⟩
        · cases hlast : vs.children.getLast? with
          | none =>
            rw [pathsBelow, hlast] at htail
            cases htail
          | some c =>
            rw [pathsBelow, hlast] at htail
            obtain ⟨ws, hws⟩ := ih _ hrow c (List.mem_of_getLast? hlast) tail htail
            refine ⟨ws, ?_⟩
            rw [find?_cons (ne_nil_of_mem_paths htail), rows_node, hget, Option.bind_some, hlast,
              Option.bind_some, hws]
        · exact ihrows (fun row hrow => hmem row (List.mem_cons_of_mem _ hrow)) path hpath
    exact hrows rows fun _ => id

/-- An array with the contents around it that are missing on its path. -/
def wrap (vs : Values Content) : List String → Values Content
  | [] => vs
  | key :: rest => .policies [.node [(key, wrap vs rest)]]

/-- The content with an array at the end of a path, unless there is no way. -/
def put? (vs : Values Content) : List String → Content → Option Content
  | [], _ => none
  | [key], t => some (.node (Table.insert key vs t.rows))
  | key :: next :: rest, t =>
    match Table.get? key t.rows with
    | none => some (.node (Table.insert key (wrap vs (next :: rest)) t.rows))
    | some (.policies cs) =>
      match cs.getLast? with
      | some c => (put? vs (next :: rest) c).map fun c' =>
          .node (Table.insert key (.policies (cs.dropLast ++ [c'])) t.rows)
      | none => none
    | some _ => none

theorem put?_of_blocked {key : String} {path : List String} (hpath : path ≠ []) {t : Content}
    {ws : Values Content} (hget : Table.get? key t.rows = some ws)
    (hlast : ws.children.getLast? = none) (vs : Values Content) :
    put? vs (key :: path) t = none := by
  cases path with
  | nil => exact (hpath rfl).elim
  | cons next rest =>
    rw [put?, hget]
    cases ws with
    | policies cs =>
      rw [Values.children] at hlast
      simp only [hlast]
    | _ => rfl

/-! ## Merging along paths -/

/-- Copies what a path leads to, unless the path is taken or there is no way. -/
def mergePath (source : Content) (path : List String) (t : Content) : Content × Nat :=
  match find? path t with
  | some _ => (t, 0)
  | none =>
    match (find? path source).bind fun vs => put? vs path t with
    | some t' => (t', 1)
    | none => (t, 0)

def mergePaths (source : Content) : List (List String) → Content → Content × Nat
  | [], t => (t, 0)
  | path :: rest, t =>
    ((mergePaths source rest (mergePath source path t).1).1,
      (mergePath source path t).2 + (mergePaths source rest (mergePath source path t).1).2)

theorem mergePaths_append (source : Content) (xs ys : List (List String)) (t : Content) :
    mergePaths source (xs ++ ys) t = ((mergePaths source ys (mergePaths source xs t).1).1,
      (mergePaths source xs t).2 + (mergePaths source ys (mergePaths source xs t).1).2) := by
  induction xs generalizing t with
  | nil => simp [mergePaths]
  | cons path xs ih => simp [mergePaths, ih, Nat.add_assoc]

theorem mergePaths_of_unchanged {source t : Content} {xs : List (List String)}
    (h : ∀ path ∈ xs, mergePath source path t = (t, 0)) : mergePaths source xs t = (t, 0) := by
  induction xs with
  | nil => rfl
  | cons path xs ih =>
    have hrest := ih fun other hother => h other (List.mem_cons_of_mem _ hother)
    simp [mergePaths, h path List.mem_cons_self, hrest]

/-- Where both sides hold policies, what is copied is copied into the last of them. -/
theorem mergePath_cons {source b c : Content} {key : String} {path : List String}
    (hpath : path ≠ []) {ws : Values Content} (hsource : Table.get? key source.rows = some ws)
    (hlast : ws.children.getLast? = some c) (bs : List Content)
    (rows : List (String × Values Content)) :
    mergePath source (key :: path) (.node (Table.insert key (.policies (bs ++ [b])) rows)) =
      (.node (Table.insert key (.policies (bs ++ [(mergePath c path b).1])) rows),
        (mergePath c path b).2) := by
  have hfind : find? (key :: path) (.node (Table.insert key (.policies (bs ++ [b])) rows)) =
      find? path b := by
    simp [find?_cons hpath, Values.children]
  have hfind' : find? (key :: path) source = find? path c := by
    simp [find?_cons hpath, hsource, hlast]
  have hput (vs : Values Content) :
      put? vs (key :: path) (.node (Table.insert key (.policies (bs ++ [b])) rows)) =
        (put? vs path b).map fun b' => .node (Table.insert key (.policies (bs ++ [b'])) rows) := by
    cases path with
    | nil => exact (hpath rfl).elim
    | cons next rest => simp [put?, Table.insert_insert]
  unfold mergePath
  rw [hfind, hfind']
  cases find? path b with
  | some _ => rfl
  | none =>
    cases find? path c with
    | none => rfl
    | some vs =>
      simp only [Option.bind_some, hput]
      cases put? vs path b <;> rfl

theorem mergePaths_cons {source c : Content} {key : String} {xs : List (List String)}
    (hxs : ∀ path ∈ xs, path ≠ []) {ws : Values Content}
    (hsource : Table.get? key source.rows = some ws) (hlast : ws.children.getLast? = some c)
    (bs : List Content) (rows : List (String × Values Content)) (b : Content) :
    mergePaths source (xs.map (key :: ·)) (.node (Table.insert key (.policies (bs ++ [b])) rows)) =
      (.node (Table.insert key (.policies (bs ++ [(mergePaths c xs b).1])) rows),
        (mergePaths c xs b).2) := by
  induction xs generalizing b with
  | nil => rfl
  | cons path xs ih =>
    rw [List.map_cons, mergePaths, mergePath_cons (hxs path List.mem_cons_self) hsource hlast,
      ih fun other hother => hxs other (List.mem_cons_of_mem _ hother), mergePaths]

/-! ## Merging by recursion -/

mutual

/-- The content completed by another. A row that is missing is copied. Where both sides hold
policies, the last of them is completed by the last of the other side. All other rows stay. -/
def merge : Content → Content → Content
  | t, .node rows => .node (mergeRows t.rows rows)

def mergeRows : List (String × Values Content) → List (String × Values Content) →
    List (String × Values Content)
  | ts, [] => ts
  | ts, (key, .policies cs) :: rows =>
    mergeRows (match Table.get? key ts with
      | none => Table.insert key (.policies cs) ts
      | some (.policies bs) => Table.insert key (.policies (mergeLast bs cs)) ts
      | some _ => ts) rows
  | ts, (key, vs) :: rows =>
    mergeRows (if (Table.get? key ts).isNone then Table.insert key vs ts else ts) rows

def mergeLast : List Content → List Content → List Content
  | bs, [] => bs
  | bs, [c] =>
    match bs.getLast? with
    | some b => bs.dropLast ++ [merge b c]
    | none => bs
  | bs, _ :: c :: cs => mergeLast bs (c :: cs)

end

mutual

/-- How many arrays a content is completed by, at all levels. -/
def missing : Content → Content → Nat
  | t, .node rows => missingRows t.rows rows

def missingRows : List (String × Values Content) → List (String × Values Content) → Nat
  | _, [] => 0
  | ts, (key, .policies cs) :: rows =>
    (match Table.get? key ts with
      | none => 1
      | some (.policies bs) => missingLast bs cs
      | some _ => 0) + missingRows ts rows
  | ts, (key, _) :: rows =>
    (if (Table.get? key ts).isNone then 1 else 0) + missingRows ts rows

def missingLast : List Content → List Content → Nat
  | _, [] => 0
  | bs, [c] =>
    match bs.getLast? with
    | some b => missing b c
    | none => 0
  | bs, _ :: c :: cs => missingLast bs (c :: cs)

end

theorem mergeLast_eq (bs cs : List Content) : mergeLast bs cs =
    match bs.getLast?, cs.getLast? with
    | some b, some c => bs.dropLast ++ [merge b c]
    | _, _ => bs := by
  induction cs with
  | nil =>
    rw [mergeLast]
    cases bs.getLast? <;> rfl
  | cons c cs ih =>
    cases cs with
    | nil =>
      rw [mergeLast]
      cases bs.getLast? <;> rfl
    | cons d cs => rw [mergeLast, ih, List.getLast?_cons_cons]

theorem missingLast_eq (bs cs : List Content) : missingLast bs cs =
    match bs.getLast?, cs.getLast? with
    | some b, some c => missing b c
    | _, _ => 0 := by
  induction cs with
  | nil =>
    rw [missingLast]
    cases bs.getLast? <;> rfl
  | cons c cs ih =>
    cases cs with
    | nil =>
      rw [missingLast]
      cases bs.getLast? <;> rfl
    | cons d cs => rw [missingLast, ih, List.getLast?_cons_cons]

/-- The array under a key completed by another array under the same key. -/
def mergeArrays : Option (Values Content) → Values Content → Values Content
  | none, vs => vs
  | some (.policies bs), .policies cs => .policies (mergeLast bs cs)
  | some ws, _ => ws

def missingArrays : Option (Values Content) → Values Content → Nat
  | none, _ => 1
  | some (.policies bs), .policies cs => missingLast bs cs
  | some _, _ => 0

theorem exists_eq_policies {vs : Values Content} {c : Content}
    (h : vs.children.getLast? = some c) : ∃ front, vs = .policies (front ++ [c]) := by
  cases vs with
  | policies cs =>
    obtain ⟨front, hfront⟩ := List.getLast?_eq_some_iff.mp h
    exact ⟨front, congrArg Values.policies hfront⟩
  | _ => cases h

theorem mergeArrays_policies (front back : List Content) (b c : Content) :
    mergeArrays (some (.policies (front ++ [b]))) (.policies (back ++ [c])) =
        .policies (front ++ [merge b c]) ∧
      missingArrays (some (.policies (front ++ [b]))) (.policies (back ++ [c])) = missing b c := by
  simp [mergeArrays, missingArrays, mergeLast_eq, missingLast_eq]

/-- An array stays as it is if there is no last policy in it, or in the other. -/
theorem mergeArrays_of_blocked (ws vs : Values Content)
    (h : ws.children.getLast? = none ∨ vs.children.getLast? = none) :
    mergeArrays (some ws) vs = ws ∧ missingArrays (some ws) vs = 0 := by
  cases ws with
  | policies bs =>
    cases vs with
    | policies cs =>
      rw [mergeArrays, missingArrays, mergeLast_eq, missingLast_eq]
      rcases h with h | h
      · rw [Values.children] at h
        simp [h]
      · rw [Values.children] at h
        cases bs.getLast? <;> simp [h]
    | _ => exact ⟨rfl, rfl⟩
  | _ => cases vs <;> exact ⟨rfl, rfl⟩

theorem mergeRows_cons {ts : List (String × Values Content)} (hsorted : Table.Sorted ts)
    (key : String) (vs : Values Content) (rows : List (String × Values Content)) :
    mergeRows ts ((key, vs) :: rows) =
      mergeRows (Table.insert key (mergeArrays (Table.get? key ts) vs) ts) rows := by
  cases hget : Table.get? key ts with
  | none => cases vs <;> simp [mergeRows, hget, mergeArrays]
  | some ws =>
    have hsame := Table.insert_of_get? hsorted hget
    cases vs <;> cases ws <;> simp [mergeRows, hget, mergeArrays, hsame]

theorem missingRows_cons (ts : List (String × Values Content)) (key : String) (vs : Values Content)
    (rows : List (String × Values Content)) : missingRows ts ((key, vs) :: rows) =
      missingArrays (Table.get? key ts) vs + missingRows ts rows := by
  cases hget : Table.get? key ts with
  | none => cases vs <;> simp [missingRows, hget, missingArrays]
  | some ws => cases vs <;> cases ws <;> simp [missingRows, hget, missingArrays]

theorem missingRows_congr {ts ts' rows : List (String × Values Content)}
    (h : ∀ key ∈ Table.keys rows, Table.get? key ts' = Table.get? key ts) :
    missingRows ts' rows = missingRows ts rows := by
  induction rows with
  | nil => rfl
  | cons row rows ih =>
    obtain ⟨key, vs⟩ := row
    rw [missingRows_cons, missingRows_cons, h key List.mem_cons_self,
      ih fun other hother => h other (List.mem_cons_of_mem _ hother)]

/-! ## The two ways agree -/

theorem mergePaths_of_copied {vs : Values Content} (hvs : ∀ c ∈ vs.children, c.Regular)
    (source : Content) (key : String) (ts : List (String × Values Content)) :
    mergePaths source ((pathsBelow vs).map (key :: ·)) (.node (Table.insert key vs ts)) =
      (.node (Table.insert key vs ts), 0) := by
  refine mergePaths_of_unchanged fun path hpath => ?_
  obtain ⟨tail, htail, rfl⟩ := List.mem_map.mp hpath
  cases hlast : vs.children.getLast? with
  | none =>
    rw [pathsBelow, hlast] at htail
    cases htail
  | some c =>
    rw [pathsBelow, hlast] at htail
    obtain ⟨ws, hws⟩ := exists_find?_of_mem_paths (hvs c (List.mem_of_getLast? hlast)) tail htail
    simp [mergePath, find?_cons (ne_nil_of_mem_paths htail), hlast, hws]

theorem mergePaths_of_blocked {t : Content} {key : String} {ws : Values Content}
    (hget : Table.get? key t.rows = some ws) (hlast : ws.children.getLast? = none)
    (source : Content) {xs : List (List String)} (hxs : ∀ path ∈ xs, path ≠ []) :
    mergePaths source (xs.map (key :: ·)) t = (t, 0) := by
  refine mergePaths_of_unchanged fun path hpath => ?_
  obtain ⟨tail, htail, rfl⟩ := List.mem_map.mp hpath
  have hblocked := put?_of_blocked (hxs tail htail) hget hlast
  simp [mergePath, find?_cons (hxs tail htail), hget, hlast, hblocked]

/-- The paths of one row, first the row and then what is below it. -/
theorem mergePaths_row (source : Content) {key : String} {vs : Values Content}
    (hsource : Table.get? key source.rows = some vs) (hvs : ∀ c ∈ vs.children, c.Regular)
    (ih : ∀ c ∈ vs.children, ∀ b : Content, b.Regular →
      mergePaths c c.paths b = (merge b c, missing b c))
    {ts : List (String × Values Content)} (hsorted : Table.Sorted ts)
    (hts : ∀ ws, Table.get? key ts = some ws → ∀ b ∈ ws.children, b.Regular) :
    mergePaths source ([key] :: (pathsBelow vs).map (key :: ·)) (.node ts) =
      (.node (Table.insert key (mergeArrays (Table.get? key ts) vs) ts),
        missingArrays (Table.get? key ts) vs) := by
  cases hget : Table.get? key ts with
  | none =>
    have hfirst : mergePath source [key] (.node ts) = (.node (Table.insert key vs ts), 1) := by
      simp [mergePath, find?, hget, hsource, put?]
    rw [mergePaths, hfirst, mergePaths_of_copied hvs]
    rfl
  | some ws =>
    have hfirst : mergePath source [key] (.node ts) = (.node ts, 0) := by
      simp [mergePath, find?, hget]
    have hsame := Table.insert_of_get? hsorted hget
    rw [mergePaths, hfirst]
    cases hlast : vs.children.getLast? with
    | none =>
      have hnone : pathsBelow vs = [] := by
        rw [pathsBelow, hlast]
        rfl
      obtain ⟨hmerge, hmissing⟩ := mergeArrays_of_blocked ws vs (Or.inr hlast)
      rw [hnone, hmerge, hmissing, hsame]
      rfl
    | some c =>
      have hpaths : pathsBelow vs = c.paths := by
        rw [pathsBelow, hlast]
        rfl
      have hne : ∀ path ∈ c.paths, path ≠ [] := fun _ => ne_nil_of_mem_paths
      rw [hpaths]
      cases hlast' : ws.children.getLast? with
      | none =>
        obtain ⟨hmerge, hmissing⟩ := mergeArrays_of_blocked ws vs (Or.inl hlast')
        rw [mergePaths_of_blocked (t := .node ts) hget hlast' source hne, hmerge, hmissing, hsame]
        rfl
      | some b =>
        have hrec := ih c (List.mem_of_getLast? hlast) b
          (hts ws hget b (List.mem_of_getLast? hlast'))
        obtain ⟨front, rfl⟩ := exists_eq_policies hlast'
        obtain ⟨back, rfl⟩ := exists_eq_policies hlast
        have hbelow := mergePaths_cons hne hsource hlast front ts b
        obtain ⟨hmerge, hmissing⟩ := mergeArrays_policies front back b c
        rw [hsame, hrec] at hbelow
        rw [hbelow, hmerge, hmissing, Nat.zero_add]

/-- Merging along all paths of a content comes to merging it by recursion. -/
theorem mergePaths_paths {source : Content} (hsource : source.Regular) : ∀ {t : Content},
    t.Regular → mergePaths source source.paths t = (merge t source, missing t source) := by
  induction hsource with
  | @node rows hsorted _ hchildren ih =>
    intro t ht
    -- Row by row; the rows to come have keys that no row before them has changed.
    have hrows : ∀ others, Table.Sorted others → (∀ row ∈ others, row ∈ rows) →
        ∀ ts, Table.Sorted ts → (∀ key ∈ Table.keys others, ∀ ws, Table.get? key ts = some ws →
          ∀ b ∈ ws.children, b.Regular) →
        mergePaths (.node rows) (pathsOfRows others) (.node ts) =
          (.node (mergeRows ts others), missingRows ts others) := by
      intro others
      induction others with
      | nil => exact fun _ _ _ _ _ => rfl
      | cons row others ihrows =>
        obtain ⟨key, vs⟩ := row
        intro hothers hmem ts hts hregular
        have hrow := hmem _ List.mem_cons_self
        have hne : ∀ other ∈ Table.keys others, other ≠ key := by
          rintro other hother rfl
          exact String.lt_irrefl _ ((List.pairwise_cons.mp hothers).1 _ hother)
        have hfirst := mergePaths_row (.node rows) (Table.get?_of_mem hsorted hrow)
          (hchildren _ hrow) (fun c hc b hb => ih _ hrow c hc hb) hts
          (hregular key List.mem_cons_self)
        have hrest := ihrows hothers.tail
          (fun other hother => hmem other (List.mem_cons_of_mem _ hother))
          (Table.insert key (mergeArrays (Table.get? key ts) vs) ts) (Table.sorted_insert hts _ _)
          fun other hother ws hws => by
            rw [Table.get?_insert_of_ne (hne other hother)] at hws
            exact hregular other (List.mem_cons_of_mem _ hother) ws hws
        rw [pathsOfRows_cons, ← List.cons_append, mergePaths_append, hfirst, hrest,
          mergeRows_cons hts, missingRows_cons]
        have hcount :
            missingRows (Table.insert key (mergeArrays (Table.get? key ts) vs) ts) others =
              missingRows ts others :=
          missingRows_congr fun other hother => Table.get?_insert_of_ne (hne other hother) _ _
        rw [hcount]
    have hall := hrows rows hsorted (fun _ => id) t.rows ht.sorted
      fun key _ ws hget => ht.child hget
    rw [node_rows] at hall
    rw [paths, hall, merge, missing]

/-! ## Merging again -/

theorem sorted_mergeRows {rows : List (String × Values Content)} :
    ∀ {ts : List (String × Values Content)}, Table.Sorted ts →
      Table.Sorted (mergeRows ts rows) := by
  induction rows with
  | nil => exact fun h => h
  | cons row rows ih =>
    intro ts h
    rw [mergeRows_cons h]
    exact ih (Table.sorted_insert h _ _)

/-- Key by key, merging is merging arrays. -/
theorem get?_mergeRows {rows : List (String × Values Content)} (hrows : Table.Sorted rows)
    (key : String) : ∀ {ts : List (String × Values Content)}, Table.Sorted ts →
      Table.get? key (mergeRows ts rows) = match Table.get? key rows with
        | none => Table.get? key ts
        | some vs => some (mergeArrays (Table.get? key ts) vs) := by
  induction rows with
  | nil => exact fun _ => rfl
  | cons row rows ih =>
    obtain ⟨other, vs⟩ := row
    intro ts h
    rw [mergeRows_cons h, ih hrows.tail (Table.sorted_insert h _ _)]
    by_cases hkey : other = key
    · subst hkey
      have hnone : Table.get? other rows = none := Table.get?_eq_none_iff.mpr fun hmem =>
        String.lt_irrefl _ ((List.pairwise_cons.mp hrows).1 _ hmem)
      simp [Table.get?, hnone]
    · simp [Table.get?, hkey, Table.get?_insert_of_ne (Ne.symm hkey)]

theorem missingRows_eq_zero {ts rows : List (String × Values Content)}
    (h : ∀ row ∈ rows, missingArrays (Table.get? row.1 ts) row.2 = 0) :
    missingRows ts rows = 0 := by
  induction rows with
  | nil => rfl
  | cons row rows ih =>
    obtain ⟨key, vs⟩ := row
    rw [missingRows_cons, h _ List.mem_cons_self,
      ih fun other hother => h other (List.mem_cons_of_mem _ hother)]

/-- If arrays take nothing more from those of a content, then no more is missing. -/
theorem merge_of_arrays {t : Content} {rows : List (String × Values Content)}
    (ht : Table.Sorted t.rows) (hrows : Table.Sorted rows)
    (h : ∀ key vs, Table.get? key rows = some vs → ∃ ws, Table.get? key t.rows = some ws ∧
      mergeArrays (some ws) vs = ws ∧ missingArrays (some ws) vs = 0) :
    merge t (.node rows) = t ∧ missing t (.node rows) = 0 := by
  constructor
  · rw [merge]
    refine (congrArg node ?_).trans (node_rows t)
    refine Table.eq_of_get?_eq (sorted_mergeRows ht) ht fun key => ?_
    rw [get?_mergeRows hrows key ht]
    cases hget : Table.get? key rows with
    | none => rfl
    | some vs =>
      obtain ⟨ws, hws, hmerge, _⟩ := h key vs hget
      simp only [hws, hmerge]
  · rw [missing]
    refine missingRows_eq_zero fun row hrow => ?_
    obtain ⟨ws, hws, _, hmissing⟩ := h row.1 row.2 (Table.get?_of_mem hrows hrow)
    rw [hws, hmissing]

theorem mergeArrays_self {vs : Values Content}
    (h : ∀ c ∈ vs.children, merge c c = c ∧ missing c c = 0) :
    mergeArrays (some vs) vs = vs ∧ missingArrays (some vs) vs = 0 := by
  cases hlast : vs.children.getLast? with
  | none => exact mergeArrays_of_blocked vs vs (Or.inl hlast)
  | some c =>
    obtain ⟨hmerge, hmissing⟩ := h c (List.mem_of_getLast? hlast)
    obtain ⟨front, rfl⟩ := exists_eq_policies hlast
    have hlasts := mergeArrays_policies front front c c
    rw [hmerge, hmissing] at hlasts
    exact hlasts

theorem merge_self {t : Content} (h : t.Regular) : merge t t = t ∧ missing t t = 0 := by
  induction h with
  | node hsorted _ _ ih =>
    exact merge_of_arrays hsorted hsorted fun key vs hget =>
      ⟨vs, hget, mergeArrays_self (ih _ (Table.mem_of_get? hget))⟩

/-- What has been merged is not missing any more. -/
theorem merge_merge {source : Content} (hsource : source.Regular) : ∀ {t : Content}, t.Regular →
    merge (merge t source) source = merge t source ∧ missing (merge t source) source = 0 := by
  induction hsource with
  | @node rows hsorted _ hchildren ih =>
    intro t ht
    have hmerged : (merge t (.node rows)).rows = mergeRows t.rows rows := by
      rw [merge, rows_node]
    refine merge_of_arrays (hmerged ▸ sorted_mergeRows ht.sorted) hsorted fun key vs hget => ?_
    refine ⟨mergeArrays (Table.get? key t.rows) vs, ?_, ?_⟩
    · rw [hmerged, get?_mergeRows hsorted key ht.sorted, hget]
    · have hrow := Table.mem_of_get? hget
      have hself := mergeArrays_self fun c hc => merge_self (hchildren _ hrow c hc)
      cases hold : Table.get? key t.rows with
      | none => exact hself
      | some ws =>
        cases hlast : vs.children.getLast? with
        | none =>
          have hblocked := mergeArrays_of_blocked ws vs (Or.inr hlast)
          rwa [hblocked.1]
        | some c =>
          cases hlast' : ws.children.getLast? with
          | none =>
            have hblocked := mergeArrays_of_blocked ws vs (Or.inl hlast')
            rwa [hblocked.1]
          | some b =>
            obtain ⟨hmerge, hmissing⟩ := ih _ hrow c (List.mem_of_getLast? hlast)
              (ht.child hold b (List.mem_of_getLast? hlast'))
            obtain ⟨front, rfl⟩ := exists_eq_policies hlast'
            obtain ⟨back, rfl⟩ := exists_eq_policies hlast
            have hlasts := mergeArrays_policies front back (merge b c) c
            rw [hmerge, hmissing] at hlasts
            rwa [(mergeArrays_policies front back b c).1]

end Content

end PolicyStore
