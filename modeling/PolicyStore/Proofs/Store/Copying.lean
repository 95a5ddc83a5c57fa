import PolicyStore.Proofs.Store.Forest

set_option autoImplicit false

namespace PolicyStore

/-!
# Copies

A deep copy adds trees to the store that share nothing with what was there, and that hold what the
copied policies hold.
-/

namespace Store

variable {s s' s'' : Store} {ps qs : List Policy}

/-- Trees have been added, and nothing else has happened to what was there. -/
structure Planted (s s' : Store) (ps : List Policy) : Prop where
  adds : s.Adds s'
  low_le : ∀ p ∈ ps, s.size ≤ p.id
  lt_size : ∀ p ∈ ps, p.id < s'.size
  forest : s'.Forest ps

namespace Planted

theorem nil (hs : s.WellFormed) : Planted s s [] where
  adds := Adds.refl hs
  low_le _ hp := by cases hp
  lt_size _ hp := by cases hp
  forest := forest_nil

theorem append (h : Planted s s' ps) (h' : Planted s' s'' qs) : Planted s s'' (ps ++ qs) where
  adds := h.adds.trans h'.adds
  low_le p hp := (List.mem_append.mp hp).elim (h.low_le p) fun hp =>
    h.adds.size_le.trans (h'.low_le p hp)
  lt_size p hp := (List.mem_append.mp hp).elim
    (fun hp => (h.lt_size p hp).trans_le h'.adds.size_le) (h'.lt_size p)
  forest := forest_append_iff.mpr ⟨h'.adds.forest h.adds.wellFormed h.lt_size h.forest, h'.forest,
    fun p hp q hq => h'.adds.disjoint h.adds.wellFormed (h.lt_size p hp) (h'.low_le q hq)⟩

/-- The added trees are put below a new policy. -/
theorem alloc (h : Planted s s' ps) (node : Node) (hsorted : Table.Sorted node.entries)
    (hfull : ∀ row ∈ node.entries, row.2.isEmpty = false)
    (hps : (node.entries.flatMap fun row => row.2.children) = ps) :
    Planted s (s'.alloc node).2 [(s'.alloc node).1] ∧
      (s'.alloc node).2.content (s'.alloc node).1 =
        .node (node.entries.map fun row => (row.1, row.2.map s'.content)) := by
  have hwell : (s'.alloc node).2.WellFormed :=
    h.adds.wellFormed.alloc hsorted fun c hc => h.lt_size c (hps ▸ hc)
  have hentries : (s'.alloc node).2.entries ⟨s'.size⟩ = node.entries := by
    rw [entries, node_alloc, if_pos rfl]
  have hbelow : (s'.alloc node).2.below ⟨s'.size⟩ = ps := by
    rw [below, hentries, hps]
  have hclosed (q : Policy) (_ : q.id < s'.size) := h.adds.wellFormed.closed q
  have hrows (q : Policy) (hq : q.id < s'.size) : (s'.alloc node).2.entries q = s'.entries q := by
    rw [entries, node_alloc_of_lt hq, entries]
  have hlt : s'.size < (s'.alloc node).2.size := by
    rw [size_alloc]
    exact Nat.lt_succ_self _
  have hforest : (s'.alloc node).2.Forest ps := h.forest.congr hclosed hrows h.lt_size
  have htree : (s'.alloc node).2.Forest [⟨s'.size⟩] := .of_below (by rw [hbelow]; exact hforest)
  refine ⟨⟨⟨h.adds.size_le.trans hlt.le, hwell, fun q hq _ => ?_, fun q hq => ?_,
    fun q hq c hc => ?_, fun hs => (h.adds.full hs).alloc hfull⟩, ?_, ?_, htree⟩, ?_⟩
  · rw [node_alloc_of_lt (hq.trans_le h.adds.size_le)]
    exact h.adds.frame q hq id
  · rw [dictionary?, node_alloc_of_lt (hq.trans_le h.adds.size_le)]
    exact h.adds.dictionary q hq
  · by_cases hself : q = ⟨s'.size⟩
    · rw [hself, hbelow] at hc
      exact h.low_le c hc
    · rw [below, entries, node_alloc, if_neg hself] at hc
      exact h.adds.apart q hq c hc
  · intro p hp
    rw [List.mem_singleton.mp hp]
    exact h.adds.size_le
  · intro p hp
    rw [List.mem_singleton.mp hp]
    exact hlt
  · obtain ⟨n, hn⟩ := htree.founded _ List.mem_cons_self
    show (s'.alloc node).2.content ⟨s'.size⟩ = _
    rw [hwell.content_eq_node (p := ⟨s'.size⟩) hlt hn, hentries]
    refine congrArg Content.node (List.map_congr_left fun row hrow => ?_)
    refine congrArg (Prod.mk row.1) (Values.map_congr fun c hc => ?_)
    have hmem : c ∈ ps := hps ▸ List.mem_flatMap.mpr ⟨row, hrow, hc⟩
    obtain ⟨k, hk⟩ := h.forest.founded c hmem
    exact h.adds.wellFormed.content_congr (P := fun q => q.id < s'.size) hwell hclosed hrows
      (h.lt_size c hmem) (h.lt_size c hmem) ((h.lt_size c hmem).trans hlt) hk

theorem content_eq (h : Planted s s' ps) (h' : s'.Adds s'') {p : Policy} (hp : p ∈ ps) :
    s''.content p = s'.content p := by
  obtain ⟨n, hn⟩ := h.forest.founded p hp
  exact h'.content_eq h.adds.wellFormed (h.lt_size p hp) hn

end Planted

end Store

/-! ## Trees -/

namespace Tree

open Store (Planted)

theorem plant_node (s : Store) (p : Policy) (d : Option Dictionary)
    (rows : List (String × Values Tree)) : plant s (.node p d rows) =
      (plantEntries s rows).2.alloc { entries := (plantEntries s rows).1, dictionary := d } := rfl

theorem plantEntries_policies (s : Store) (key : String) (children : List Tree)
    (rows : List (String × Values Tree)) : plantEntries s ((key, .policies children) :: rows) =
      ((key, .policies (plantAll s children).1) :: (plantEntries (plantAll s children).2 rows).1,
        (plantEntries (plantAll s children).2 rows).2) := rfl

theorem plantAll_cons (s : Store) (t : Tree) (ts : List Tree) :
    plantAll s (t :: ts) = ((plant s t).1 :: (plantAll (plant s t).2 ts).1,
      (plantAll (plant s t).2 ts).2) := rfl

mutual

/-- A copy of a tree is a new tree of the same content. -/
theorem planted_plant : ∀ (t : Tree) {s : Store}, s.WellFormed → t.content.Regular →
    Planted s (plant s t).2 [(plant s t).1] ∧ (plant s t).2.content (plant s t).1 = t.content
  | .node p d rows, s, hs, ht => by
    rw [content] at ht ⊢
    cases ht with
    | node hsorted hfull hchildren =>
      obtain ⟨hplanted, hrows⟩ := planted_plantEntries rows hs hchildren
      rw [plant_node, ← hrows]
      have hkeys : Table.keys (plantEntries s rows).1 = Table.keys (contentOfRows rows) := by
        simp [← hrows, Table.keys]
      refine hplanted.alloc _ ?_ (fun row hrow => ?_) rfl
      · rw [Table.Sorted, hkeys]
        exact hsorted
      · have hmem := List.mem_map_of_mem (f := fun row : String × Values Policy =>
          (row.1, row.2.map (plantEntries s rows).2.content)) hrow
        rw [hrows] at hmem
        rw [← Values.isEmpty_map]
        exact hfull _ hmem

theorem planted_plantEntries : ∀ (rows : List (String × Values Tree)) {s : Store}, s.WellFormed →
    (∀ row ∈ contentOfRows rows, ∀ c ∈ row.2.children, c.Regular) →
    Planted s (plantEntries s rows).2 ((plantEntries s rows).1.flatMap fun row => row.2.children) ∧
      ((plantEntries s rows).1.map fun row => (row.1, row.2.map (plantEntries s rows).2.content)) =
        contentOfRows rows
  | [], s, hs, _ => ⟨.nil hs, rfl⟩
  | (key, vs) :: rows, s, hs, h => by
    cases vs with
    | policies children =>
      rw [contentOfRows] at h ⊢
      obtain ⟨hfirst, hcontent⟩ := planted_plantAll children hs (h _ List.mem_cons_self)
      obtain ⟨hrest, hrows⟩ := planted_plantEntries rows hfirst.adds.wellFormed
        fun row hrow => h row (List.mem_cons_of_mem _ hrow)
      rw [plantEntries_policies]
      refine ⟨hfirst.append hrest, ?_⟩
      -- The other rows are planted later, which the copies of this one do not notice.
      have hsame : (plantAll s children).1.map
          (plantEntries (plantAll s children).2 rows).2.content = contentOfAll children := by
        rw [← hcontent]
        exact List.map_congr_left fun c hc => hfirst.content_eq hrest.adds hc
      rw [List.map_cons, hrows, Values.map, hsame]
    | _ =>
      obtain ⟨hrest, hrows⟩ :=
        planted_plantEntries rows hs fun row hrow => h row (List.mem_cons_of_mem _ hrow)
      exact ⟨hrest, congrArg (List.cons _) hrows⟩

theorem planted_plantAll : ∀ (ts : List Tree) {s : Store}, s.WellFormed →
    (∀ c ∈ contentOfAll ts, c.Regular) →
    Planted s (plantAll s ts).2 (plantAll s ts).1 ∧
      (plantAll s ts).1.map (plantAll s ts).2.content = contentOfAll ts
  | [], s, hs, _ => ⟨.nil hs, rfl⟩
  | t :: ts, s, hs, h => by
    rw [contentOfAll] at h ⊢
    obtain ⟨hfirst, hcontent⟩ := planted_plant t hs (h _ List.mem_cons_self)
    obtain ⟨hrest, hcontents⟩ := planted_plantAll ts hfirst.adds.wellFormed
      fun c hc => h c (List.mem_cons_of_mem _ hc)
    rw [plantAll_cons]
    refine ⟨hfirst.append hrest, ?_⟩
    rw [List.map_cons, hcontents, hfirst.content_eq hrest.adds List.mem_cons_self, hcontent]

end

end Tree

/-! ## Arrays -/

namespace Store

variable {s : Store}

theorem deepCopyAll_planted {ps : List Policy} : ∀ {s : Store}, s.WellFormed → s.Full →
    (∀ p ∈ ps, p.id < s.size ∧ ∃ n, s.Within n p) →
    ∃ qs s', ps.mapM Policy.deepCopy s = .ok qs s' ∧ Planted s s' qs ∧
      qs.map s'.content = ps.map s.content := by
  induction ps with
  | nil => exact fun hs _ _ => ⟨[], _, rfl, .nil hs, rfl⟩
  | cons p ps ih =>
    intro s hs hfull hps
    obtain ⟨hfirst, hcontent⟩ := Tree.planted_plant (s.tree p) hs (hs.regular_content hfull p)
    have hold : ∀ q ∈ ps, q.id < s.size ∧ ∃ n, s.Within n q :=
      fun q hq => hps q (List.mem_cons_of_mem _ hq)
    obtain ⟨qs, s', hrun, hrest, hcontents⟩ := ih hfirst.adds.wellFormed (hfirst.adds.full hfull)
      fun q hq => by
        obtain ⟨hq, k, hk⟩ := hold q hq
        exact ⟨hq.trans_le hfirst.adds.size_le, k, hfirst.adds.within hs hq hk⟩
    refine ⟨(Tree.plant s (s.tree p)).1 :: qs, s', ?_, hfirst.append hrest, ?_⟩
    · have hone : p.deepCopy s = .ok (Tree.plant s (s.tree p)).1 (Tree.plant s (s.tree p)).2 := rfl
      rw [List.mapM_cons]
      simp only [bind, EStateM.bind, hone, hrun, pure, EStateM.pure]
    · rw [List.map_cons, List.map_cons, hcontents, hfirst.content_eq hrest.adds List.mem_cons_self,
        hcontent, Store.content]
      refine congrArg _ (List.map_congr_left fun q hq => ?_)
      obtain ⟨hq, k, hk⟩ := hold q hq
      exact hfirst.adds.content_eq hs hq hk

theorem deepCopy_planted (hs : s.WellFormed) (hfull : s.Full) {vs : Values Policy}
    (hvs : ∀ p ∈ vs.children, p.id < s.size ∧ ∃ n, s.Within n p) :
    ∃ ws s', vs.deepCopy s = .ok ws s' ∧ Planted s s' ws.children ∧
      ws.map s'.content = vs.map s.content := by
  cases vs with
  | policies ps =>
    rw [Values.children] at hvs
    obtain ⟨qs, s', hrun, hplanted, hcontent⟩ := deepCopyAll_planted hs hfull hvs
    refine ⟨.policies qs, s', ?_, hplanted, ?_⟩
    · simp only [Values.deepCopy, bind, EStateM.bind, hrun, pure, EStateM.pure]
    · rw [Values.map, Values.map, hcontent]
  | _ => exact ⟨_, s, rfl, .nil hs, rfl⟩

end Store

end PolicyStore
