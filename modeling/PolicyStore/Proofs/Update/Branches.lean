import PolicyStore.Proofs.Merge.Settling

set_option autoImplicit false

namespace PolicyStore.Store

/-!
# Writing to a tree

A write changes one row of a policy that was there. In a tree one way alone leads to this row, so a
path reads as before unless it goes through the row.
-/

variable {s s' : Store} {p q r c owner : Policy} {key : String} {front path below : List String}
  {vs : Values Policy} {n : Nat}

/-! ## Reading along a way -/

theorem Way.descend_append (h : s.Way p front r) (hne : path ≠ []) (full : String) :
    ∀ done : List String, Entries.descend s.entries full done (s.entries p) (front ++ path) =
      Entries.descend s.entries full (done ++ front) (s.entries r) path := by
  induction h with
  | here =>
    intro done
    rw [List.append_nil, List.nil_append]
  | @step p c r first front children hget hlast _ ih =>
    intro done
    obtain ⟨next, rest, hnext⟩ : ∃ next rest, front ++ path = next :: rest :=
      List.exists_cons_of_ne_nil (List.append_ne_nil_of_right_ne_nil _ hne)
    rw [List.cons_append, hnext]
    simp only [Entries.descend, hget, hlast]
    rw [← hnext, ih, List.append_assoc]
    rfl

theorem Way.split {back : List String} : ∀ {p : Policy}, s.Way p (front ++ back) r →
    ∃ q, s.Way p front q ∧ s.Way q back r := by
  induction front with
  | nil => exact fun h => ⟨_, .here _, h⟩
  | cons first front ih =>
    intro p h
    rw [List.cons_append] at h
    cases h with
    | step hget hlast hway =>
      obtain ⟨q, hfront, hback⟩ := ih hway
      exact ⟨q, .step hget hlast hfront, hback⟩

/-- Before the end of a way every name holds policies. -/
theorem Way.descend_policies {back : List String} (h : s.Way p (front ++ back) r) (hne : front ≠ [])
    (full : String) (done : List String) :
    ∃ children, Entries.descend s.entries full done (s.entries p) front =
      .ok (some (.policies children)) := by
  obtain ⟨q, hfront, -⟩ := h.split
  obtain ⟨init, last, r, children, rfl, hway, hget, -⟩ := hfront.exists_last hne
  exact ⟨children, by rw [hway.descend, hget]⟩

/-- A path reads alike in two stores if its first row is the same and the rest of it reads alike. -/
theorem descend_cons_congr {p' : Policy} {full : String} {rest : List String}
    (hrow : Table.get? key (s'.entries p') = Table.get? key (s.entries p))
    (hrest : ∀ children c, Table.get? key (s.entries p) = some (.policies children) →
      children.getLast? = some c → ∀ done, Entries.descend s'.entries full done (s'.entries c) rest =
        Entries.descend s.entries full done (s.entries c) rest) (done : List String) :
    Entries.descend s'.entries full done (s'.entries p') (key :: rest) =
      Entries.descend s.entries full done (s.entries p) (key :: rest) := by
  cases rest with
  | nil => exact congrArg Except.ok hrow
  | cons next rest =>
    simp only [Entries.descend, hrow]
    split
    · rfl
    · rename_i children hget
      split
      · rfl
      · rename_i c hlast
        exact hrest children c hget hlast _
    · rfl

theorem descend_congr {P : Policy → Prop} (hclosed : ∀ q, P q → ∀ c ∈ s.below q, P c)
    (hrows : ∀ q, P q → ∀ key, Table.get? key (s'.entries q) = Table.get? key (s.entries q))
    (full : String) : ∀ {p : Policy}, P p → ∀ done : List String,
      Entries.descend s'.entries full done (s'.entries p) path =
        Entries.descend s.entries full done (s.entries p) path := by
  induction path with
  | nil => exact fun _ _ => rfl
  | cons key rest ih =>
    intro p hp
    refine descend_cons_congr (hrows p hp key) fun children c hget hlast => ih ?_
    exact hclosed p hp c (mem_below_of_get? hget (List.mem_of_getLast? hlast))

/-! ## One row changes -/

/-- Of the policies that were there, one row alone may have changed. -/
def OnlyRow (s s' : Store) (owner : Policy) (key : String) : Prop :=
  ∀ q : Policy, q.id < s.size → ∀ other, ¬(q = owner ∧ other = key) →
    Table.get? other (s'.entries q) = Table.get? other (s.entries q)

namespace OnlyRow

variable (h : s.OnlyRow s' owner key) (hs : s.WellFormed)

include h hs

theorem descend_of_not_reaches (hp : p.id < s.size) (hnot : ¬s.Reaches p owner) (full : String) :
    ∀ done : List String, Entries.descend s'.entries full done (s'.entries p) path =
      Entries.descend s.entries full done (s.entries p) path := by
  refine descend_congr (P := fun q => q.id < s.size ∧ ¬s.Reaches q owner) ?_ ?_ full ⟨hp, hnot⟩
  · exact fun q hq c hc => ⟨hs.closed q c hc, not_reaches_below q hq.2 c hc⟩
  · intro q hq other
    apply h q hq.1
    rintro ⟨rfl, -⟩
    exact hq.2 .refl

/-- The way to the row is still there, unless it passes the policy of the row before its end. -/
theorem way_of_direct (hway : s.Way p front owner) (hp : p.id < s.size)
    (hdirect : s.Direct p (front ++ key :: below)) : s'.Way p front owner := by
  generalize hend : owner = r at hway
  induction hway with
  | here p => exact .here p
  | @step p c r first front children hget hlast hway ih =>
    have hmem := mem_below_of_get? hget (List.mem_of_getLast? hlast)
    have hsame : Table.get? first (s'.entries p) = some (.policies children) := by
      rw [h p hp, hget]
      rintro ⟨rfl, -⟩
      have hround := hdirect [] (first :: front) (key :: below) p rfl (List.cons_ne_nil _ _) (.here p)
        (.step hget hlast (hend ▸ hway))
      cases hround
    refine .step hsame hlast (ih (hs.closed p c hmem) ?_ hend)
    intro front' mid back q hpath hback hfront hmid
    exact hdirect (first :: front') mid back q (congrArg (first :: ·) hpath) hback
      (.step hget hlast hfront) hmid

theorem way (hway : s.Way p front owner) (hp : p.id < s.size) (hn : s.Within n p) :
    s'.Way p front owner :=
  h.way_of_direct hs hway hp (.of_within hn (front ++ [key]))

/-- In a tree, a path that does not go through the row reads as before. -/
theorem descend_eq (hway : s.Way p front owner) (full : String) :
    ∀ {path : List String}, p.id < s.size → s.Forest [p] → ¬front ++ [key] <+: path →
      ∀ done, Entries.descend s'.entries full done (s'.entries p) path =
        Entries.descend s.entries full done (s.entries p) path := by
  generalize hend : owner = r at hway
  -- The induction follows the way to the row until the path leaves it.
  induction hway with
  | here p =>
    subst hend
    intro path hp htree hnot
    obtain ⟨n, hn⟩ := htree.founded _ List.mem_cons_self
    cases path with
    | nil => exact fun _ => rfl
    | cons other rest =>
      have hother : other ≠ key := by
        rintro rfl
        exact hnot ⟨rest, rfl⟩
      refine descend_cons_congr (h _ hp other fun heq => hother heq.2) fun children c hget hlast => ?_
      have hmem := mem_below_of_get? hget (List.mem_of_getLast? hlast)
      exact h.descend_of_not_reaches hs (hs.closed _ c hmem) (hn.not_reaches hmem) full
  | @step p c r first front children hget hlast hway ih =>
    intro path hp htree hnot
    obtain ⟨n, hn⟩ := htree.founded _ List.mem_cons_self
    have hbranches := htree.branches p List.mem_cons_self p .refl
    have hmem := mem_below_of_get? hget (List.mem_of_getLast? hlast)
    have hreach : s.Reaches c owner := hend ▸ hway.reaches
    cases path with
    | nil => exact fun _ => rfl
    | cons other rest =>
      have hsame : Table.get? other (s'.entries p) = Table.get? other (s.entries p) := by
        apply h p hp
        rintro ⟨rfl, -⟩
        exact hn.not_reaches hmem hreach
      refine descend_cons_congr hsame fun others c' hget' hlast' => ?_
      have hmem' := mem_below_of_get? hget' (List.mem_of_getLast? hlast')
      by_cases hfirst : other = first
      · subst hfirst
        cases hget.symm.trans hget'
        cases hlast.symm.trans hlast'
        refine ih hend (hs.closed p c hmem) (htree.below.of_mem hmem) fun hprefix => hnot ?_
        exact List.cons_prefix_cons.mpr ⟨rfl, hprefix⟩
      · refine h.descend_of_not_reaches hs (hs.closed p c' hmem') (fun hback => hfirst ?_) full
        have heq : c' = c := eq_of_reaches hbranches hmem' hmem hback hreach
        exact key_eq_of_mem_children hbranches hget' hget (List.mem_of_getLast? hlast')
          (heq ▸ List.mem_of_getLast? hlast)

end OnlyRow

theorem onlyRow_setEntries {rows : Entries Policy}
    (h : ∀ other, other ≠ key → Table.get? other rows = Table.get? other (s.entries owner)) :
    s.OnlyRow (s.setEntries owner rows) owner key := by
  intro q hq other hne
  by_cases howner : q = owner
  · subst howner
    rw [entries_setEntries_self hq]
    exact h other fun hkey => hne ⟨rfl, hkey⟩
  · rw [entries_setEntries_of_ne howner]

/-! ## Policies made for a name -/

/-- New policies with one row each lead along a path to an array. -/
inductive Chained (s : Store) (vs : Values Policy) : List String → Values Policy → Prop
  | last : Chained s vs [] vs
  | step {c : Policy} {key : String} {rest : List String} {inner : Values Policy} :
      s.entries c = [(key, inner)] → Chained s vs rest inner → Chained s vs (key :: rest) (.policies [c])

theorem nest_frame (s : Store) (vs : Values Policy) (below : List String) :
    s.size ≤ (s.nest vs below).2.size ∧
      ∀ q : Policy, q.id < s.size → (s.nest vs below).2.node q = s.node q := by
  induction below with
  | nil => exact ⟨Nat.le_refl _, fun _ _ => rfl⟩
  | cons key rest ih =>
    obtain ⟨hsize, hframe⟩ := ih
    simp only [nest]
    refine ⟨hsize.trans ?_, fun q hq => ?_⟩
    · rw [size_alloc]
      exact Nat.le_succ _
    · rw [node_alloc_of_lt (hq.trans_le hsize), hframe q hq]

theorem chained_nest (hne : vs.isEmpty = false) : ∀ {s' : Store},
    (∀ q : Policy, s.size ≤ q.id → q.id < (s.nest vs below).2.size →
      s'.entries q = (s.nest vs below).2.entries q) → s'.Chained vs below (s.nest vs below).1 := by
  induction below with
  | nil => exact fun _ => .last
  | cons key rest ih =>
    intro s' hrows
    have hle := (nest_frame s vs rest).1
    have hinner := isEmpty_nest (s := s) hne rest
    simp only [nest, size_alloc] at hrows ⊢
    have hnew : s'.entries ⟨(s.nest vs rest).2.size⟩ = [(key, (s.nest vs rest).1)] := by
      rw [hrows ⟨(s.nest vs rest).2.size⟩ hle (Nat.lt_succ_self _), entries, node_alloc, if_pos rfl]
      simp [hinner]
    refine .step hnew (ih fun q hq hlt => ?_)
    · rw [hrows q hq (Nat.lt_succ_of_lt hlt), entries, node_alloc_of_lt hlt, entries]

namespace Chained

variable {rows : Entries Policy} {outer : Values Policy} (h : s.Chained vs below outer)

include h

theorem descend_self (full : String) : ∀ {done : List String} {key : String}
    {rows : Entries Policy}, Table.get? key rows = some outer →
      Entries.descend s.entries full done rows (key :: below) = .ok (some vs) := by
  induction h with
  | last => exact fun hget => congrArg Except.ok hget
  | @step c next rest inner hrow _ ih =>
    intro done key rows hget
    simp only [Entries.descend, hget, List.getLast?_singleton, hrow]
    exact ih (by simp [Table.get?])

/-- Before its end the path leads to one new policy after the other. -/
theorem descend_prefix (full : String) : ∀ {path done : List String} {key : String}
    {rows : Entries Policy}, Table.get? key rows = some outer → path <+: below → path ≠ below →
      ∃ c, Entries.descend s.entries full done rows (key :: path) = .ok (some (.policies [c])) := by
  induction h with
  | last => exact fun _ hprefix hne => (hne (List.prefix_nil.mp hprefix)).elim
  | @step c next rest inner hrow _ ih =>
    intro path done key rows hget hprefix hne
    cases path with
    | nil => exact ⟨c, congrArg Except.ok hget⟩
    | cons other path =>
      obtain ⟨rfl, hrest⟩ := List.cons_prefix_cons.mp hprefix
      simp only [Entries.descend, hget, List.getLast?_singleton, hrow]
      exact ih (by simp [Table.get?]) hrest fun heq => hne (congrArg _ heq)

theorem descend_other (full : String) : ∀ {path done : List String} {key : String}
    {rows : Entries Policy}, Table.get? key rows = some outer → ¬path <+: below →
      ¬below <+: path → Entries.descend s.entries full done rows (key :: path) = .ok none := by
  induction h with
  | last => exact fun _ _ hnot => (hnot (List.nil_prefix)).elim
  | @step c next rest inner hrow _ ih =>
    intro path done key rows hget hnot hnot'
    cases path with
    | nil => exact (hnot List.nil_prefix).elim
    | cons other path =>
      simp only [Entries.descend, hget, List.getLast?_singleton, hrow]
      by_cases hother : other = next
      · subst hother
        exact ih (by simp [Table.get?]) (fun hprefix => hnot (List.cons_prefix_cons.mpr ⟨rfl, hprefix⟩))
          fun hprefix => hnot' (List.cons_prefix_cons.mpr ⟨rfl, hprefix⟩)
      · have hnone : Table.get? other [(next, inner)] = none := by
          simp [Table.get?, Ne.symm hother]
        cases path with
        | nil => exact congrArg Except.ok hnone
        | cons last path => simp only [Entries.descend, hnone]

end Chained

/-! ## Writing and erasing -/

/-- A free row stands at the end of the way, or the path goes on from the row with new policies. -/
theorem descend_free (hfree : Table.get? key (s.entries owner) = none) (full : String)
    (done path : List String) :
    Entries.descend s.entries full done (s.entries owner) (key :: path) = .ok none := by
  cases path with
  | nil => exact congrArg Except.ok hfree
  | cons next rest => simp only [Entries.descend, hfree]

section Write

variable {spot : Place} (hs : s.WellFormed) (hp : p.id < s.size) (htree : s.Forest [p])
  (hfinds : s.Finds p path spot) (hne : vs.isEmpty = false)

theorem onlyRow_write (hne : vs.isEmpty = false) :
    s.OnlyRow (s.write spot vs) spot.owner spot.key := by
  obtain ⟨hsize, hframe⟩ := nest_frame s vs spot.below
  rw [write_eq hne]
  intro q hq other hother
  rw [onlyRow_setEntries (fun _ hkey => Table.get?_insert_of_ne hkey _ _) q (hq.trans_le hsize)
    other hother, entries, hframe q hq, entries]

theorem chained_write (howner : spot.owner.id < s.size) (hne : vs.isEmpty = false) :
    ∃ outer, Table.get? spot.key ((s.write spot vs).entries spot.owner) = some outer ∧
      (s.write spot vs).Chained vs spot.below outer := by
  obtain ⟨hsize, -⟩ := nest_frame s vs spot.below
  rw [write_eq hne]
  refine ⟨(s.nest vs spot.below).1, ?_, chained_nest hne fun q hq hlt => ?_⟩
  · rw [entries_setEntries_self (howner.trans_le hsize), Table.get?_insert_self]
  · apply entries_setEntries_of_ne
    rintro rfl
    omega

include hs hp htree hfinds hne

theorem descend_write_self (full : String) (done : List String) :
    Entries.descend (s.write spot vs).entries full done ((s.write spot vs).entries p) path =
      .ok (some vs) := by
  obtain ⟨n, hn⟩ := htree.founded _ List.mem_cons_self
  have howner := hs.lt_of_reaches hp hfinds.reaches
  obtain ⟨front, rfl, hway, -⟩ := hfinds.way
  obtain ⟨outer, hget, hchained⟩ := chained_write howner hne
  have hway' := (onlyRow_write hne).way hs hway hp hn
  rw [hway'.descend_append (List.cons_ne_nil _ _)]
  exact hchained.descend_self full hget

/-- Before the end of the path there are the same policies as before, or new ones. -/
theorem descend_write_prefix {front back : List String} (hfront : front ≠ []) (hback : back ≠ [])
    (hpath : path = front ++ back) (full : String) (done : List String) :
    (∃ children, Entries.descend s.entries full done (s.entries p) front =
          .ok (some (.policies children)) ∧
        Entries.descend (s.write spot vs).entries full done ((s.write spot vs).entries p) front =
          .ok (some (.policies children))) ∨
      Entries.descend s.entries full done (s.entries p) front = .ok none ∧
        ∃ c, Entries.descend (s.write spot vs).entries full done ((s.write spot vs).entries p)
          front = .ok (some (.policies [c])) := by
  obtain ⟨n, hn⟩ := htree.founded _ List.mem_cons_self
  have howner := hs.lt_of_reaches hp hfinds.reaches
  obtain ⟨way, hsplit, hway, hfree⟩ := hfinds.way
  have honly : s.OnlyRow (s.write spot vs) spot.owner spot.key := onlyRow_write hne
  by_cases hprefix : way ++ [spot.key] <+: front
  · obtain ⟨mid, rfl⟩ := hprefix
    have hbelow : spot.below = mid ++ back := by
      rw [hpath, List.append_assoc, List.append_assoc, List.append_cancel_left_eq] at hsplit
      exact (List.cons.inj hsplit).2.symm
    obtain ⟨outer, hget, hchained⟩ := chained_write howner hne
    have hnew := hfree (hbelow ▸ List.append_ne_nil_of_right_ne_nil _ hback)
    rw [List.append_assoc, List.singleton_append, hway.descend_append (List.cons_ne_nil _ _),
      (honly.way hs hway hp hn).descend_append (List.cons_ne_nil _ _)]
    refine Or.inr ⟨descend_free hnew full _ _, ?_⟩
    refine hchained.descend_prefix full hget ⟨back, hbelow.symm⟩ ?_
    rintro rfl
    exact hback (List.append_right_eq_self.mp hbelow.symm)
  · -- The name ends on the way to the row.
    have hsame : Entries.descend (s.write spot vs).entries full done ((s.write spot vs).entries p)
        front = Entries.descend s.entries full done (s.entries p) front :=
      honly.descend_eq hs hway full hp htree hprefix done
    have hpre : front <+: way ++ [spot.key] := by
      have hends : way ++ [spot.key] <+: path :=
        ⟨spot.below, by rw [hsplit, List.append_assoc, List.singleton_append]⟩
      exact (List.prefix_or_prefix_of_prefix ⟨back, hpath.symm⟩ hends).resolve_right hprefix
    obtain ⟨mid, rfl⟩ : front <+: way := by
      refine (List.prefix_concat_iff.mp hpre).resolve_left ?_
      rintro rfl
      exact hprefix (List.prefix_refl _)
    obtain ⟨children, hchildren⟩ := hway.descend_policies hfront full done
    exact Or.inl ⟨children, hchildren, hsame.trans hchildren⟩

theorem descend_write_other {other : List String} (hnot : ¬path <+: other) (hnot' : ¬other <+: path)
    (full : String) (done : List String) :
    Entries.descend (s.write spot vs).entries full done ((s.write spot vs).entries p) other =
      Entries.descend s.entries full done (s.entries p) other := by
  obtain ⟨n, hn⟩ := htree.founded _ List.mem_cons_self
  have howner := hs.lt_of_reaches hp hfinds.reaches
  obtain ⟨front, rfl, hway, hfree⟩ := hfinds.way
  have honly : s.OnlyRow (s.write spot vs) spot.owner spot.key := onlyRow_write hne
  by_cases hprefix : front ++ [spot.key] <+: other
  · -- The path parts from the other one among the new policies.
    obtain ⟨rest, rfl⟩ := hprefix
    obtain ⟨outer, hget, hchained⟩ := chained_write howner hne
    rw [List.append_assoc, List.singleton_append] at hnot hnot' ⊢
    rw [List.prefix_append_right_inj, List.cons_prefix_cons] at hnot hnot'
    have hnot : ¬spot.below <+: rest := fun h => hnot ⟨rfl, h⟩
    have hnot' : ¬rest <+: spot.below := fun h => hnot' ⟨rfl, h⟩
    have hnew := hfree fun hnil => hnot (hnil ▸ List.nil_prefix)
    rw [hway.descend_append (List.cons_ne_nil _ _),
      (honly.way hs hway hp hn).descend_append (List.cons_ne_nil _ _), descend_free hnew]
    exact hchained.descend_other full hget hnot' hnot
  · exact honly.descend_eq hs hway full hp htree hprefix done

end Write

end PolicyStore.Store
