import PolicyStore.Proofs.Store.Paving

set_option autoImplicit false

namespace PolicyStore.Store

/-!
# Writing again

Where a name has been written once, it leads to the row that holds the array, and writing another
array there comes to having written that one in the first place.
-/

variable {s s' : Store} {p q : Policy}

/-! ## Changes that do not get in each other's way -/

theorem ext_node (hsize : s.size = s'.size) (hnode : ∀ q, s.node q = s'.node q) : s = s' := by
  obtain ⟨nodes⟩ := s
  obtain ⟨nodes'⟩ := s'
  refine congrArg mk (Array.ext hsize fun i hi hi' => ?_)
  have hsame := hnode ⟨i⟩
  simp only [node, Array.getElem?_eq_getElem hi, Array.getElem?_eq_getElem hi',
    Option.getD_some] at hsame
  exact hsame

theorem setEntries_comm (h : q ≠ p) (s : Store) (rows others : Entries Policy) :
    (s.setEntries p rows).setEntries q others = (s.setEntries q others).setEntries p rows := by
  refine ext_node (by simp only [size_setEntries]) fun r => ?_
  simp only [node_setEntries, size_setEntries]
  by_cases hp : r = p
  · subst hp
    simp [Ne.symm h]
  · simp [hp, h]

theorem alloc_setEntries (hp : p.id < s.size) (rows : Entries Policy) (n : Node) :
    ((s.setEntries p rows).alloc n).2 = (s.alloc n).2.setEntries p rows := by
  refine ext_node (by simp only [size_alloc, size_setEntries]) fun r => ?_
  simp only [node_alloc, node_setEntries, size_alloc, size_setEntries]
  by_cases hr : r = p
  · subst hr
    simp [hp, Nat.lt_succ_of_lt hp, ne_of_lt_size hp]
  · simp [hr]

theorem setEntries_alloc_self (s : Store) (n : Node) (rows : Entries Policy) :
    (s.alloc n).2.setEntries ⟨s.size⟩ rows = (s.alloc { n with entries := rows }).2 := by
  refine ext_node (by simp only [size_alloc, size_setEntries]) fun r => ?_
  simp only [node_alloc, node_setEntries, size_alloc]
  by_cases hr : r = ⟨s.size⟩
  · simp [hr]
  · simp [hr]

theorem Keeps.alloc (s : Store) (n : Node) : s.Keeps (s.alloc n).2 := by
  intro r key vs hget
  rw [entries, node_alloc_of_lt (lt_size_of_get? hget)]
  exact hget

/-! ## The row that a name leads to once it has been written -/

/-- The policy that is made first is the innermost. It alone depends on the array. -/
theorem exists_innermost : ∀ (rest : List String) (key : String), ∃ mid last,
    key :: rest = mid ++ [last] ∧ ∀ vs : Values Policy, vs.isEmpty = false →
      (s.nest vs (key :: rest)).2.Way ⟨s.size + rest.length⟩ mid ⟨s.size⟩ ∧
      (s.nest vs (key :: rest)).2.entries ⟨s.size⟩ = [(last, vs)] ∧
      ∀ ws : Values Policy, ws.isEmpty = false → (s.nest ws (key :: rest)).2 =
        (s.nest vs (key :: rest)).2.setEntries ⟨s.size⟩ [(last, ws)] := by
  intro rest
  induction rest with
  | nil =>
    intro key
    refine ⟨[], key, rfl, fun vs hne => ⟨.here _, ?_, fun ws hne' => ?_⟩⟩
    · simp only [nest, hne, entries, node_alloc]
      rfl
    · simp only [nest, hne, hne', setEntries_alloc_self]
      rfl
  | cons next rest ih =>
    intro key
    obtain ⟨mid, last, hsplit, hmade⟩ := ih next
    have hlt (vs : Values Policy) :
        (⟨s.size⟩ : Policy).id < (s.nest vs (next :: rest)).2.size := by
      rw [size_nest, List.length_cons]
      dsimp only
      omega
    have hstep (vs : Values Policy) : (s.nest vs (key :: next :: rest)).2 =
        ((s.nest vs (next :: rest)).2.alloc
          { entries := [(key, .policies [⟨s.size + rest.length⟩])] }).2 := by
      show ((s.nest vs (next :: rest)).2.alloc
        { entries := [(key, .policies [⟨(s.nest vs rest).2.size⟩])] }).2 = _
      rw [size_nest s vs rest]
    refine ⟨key :: mid, last, by rw [hsplit, List.cons_append], fun vs hne => ?_⟩
    obtain ⟨hway, hrow, hsame⟩ := hmade vs hne
    rw [hstep]
    refine ⟨?_, ?_, fun ws hne' => ?_⟩
    · have hnew : (s.nest vs (next :: rest)).2.size = s.size + (rest.length + 1) := size_nest _ _ _
      have hold := (Keeps.alloc (s.nest vs (next :: rest)).2
        { entries := [(key, .policies [⟨s.size + rest.length⟩])] }).way hway
      refine .step ?_ (List.getLast?_singleton) hold
      rw [List.length_cons, ← hnew, entries, node_alloc, if_pos rfl]
      simp [Table.get?]
    · rw [entries, node_alloc_of_lt (hlt vs)]
      exact hrow
    · rw [hstep, hsame ws hne', alloc_setEntries (hlt vs)]

/-- A name that has been written leads on to the row of its array, and to write there again is to
have written the other array at once. -/
theorem exists_row_write {spot : Place} (howner : spot.owner.id < s.size)
    (hfree : spot.below ≠ [] → Table.get? spot.key (s.entries spot.owner) = none) :
    ∃ mid last r, spot.key :: spot.below = mid ++ [last] ∧ ∀ vs : Values Policy,
      vs.isEmpty = false → (s.write spot vs).Way spot.owner mid r ∧
        Table.get? last ((s.write spot vs).entries r) = some vs ∧
        ∀ ws : Values Policy, ws.isEmpty = false →
          (s.write spot vs).write ⟨r, last, []⟩ ws = s.write spot ws := by
  obtain ⟨owner, key, below⟩ := spot
  cases below with
  | nil =>
    refine ⟨[], key, owner, rfl, fun vs hne => ⟨.here _, ?_, fun ws hne' => ?_⟩⟩
    · rw [write_eq hne]
      exact get?_link howner
    · rw [write_eq hne', write_eq hne, write_eq hne']
      show (s.setEntries owner _).setEntries owner (Table.insert key ws
        ((s.setEntries owner (Table.insert key vs (s.entries owner))).entries owner)) = _
      rw [entries_setEntries_self howner, setEntries_setEntries, Table.insert_insert]
      rfl
  | cons next rest =>
    obtain ⟨mid, last, hsplit, hmade⟩ := exists_innermost (s := s) rest next
    have hne : (⟨s.size⟩ : Policy) ≠ owner := (ne_of_lt_size howner).symm
    have hwrite {vs : Values Policy} (hvs : vs.isEmpty = false) :
        s.write ⟨owner, key, next :: rest⟩ vs = (s.nest vs (next :: rest)).2.link owner key
          (.policies [⟨s.size + rest.length⟩]) := by
      rw [write_eq hvs, nest_fst]
      rfl
    refine ⟨key :: mid, last, ⟨s.size⟩, by rw [hsplit, List.cons_append], fun vs hvs => ?_⟩
    obtain ⟨hway, hrow, hsame⟩ := hmade vs hvs
    obtain ⟨hsize, hframe⟩ := nest_frame s vs (next :: rest)
    have howner' := howner.trans_le hsize
    have hfree' : Table.get? key ((s.nest vs (next :: rest)).2.entries owner) = none := by
      rw [entries, hframe owner howner]
      exact hfree (List.cons_ne_nil _ _)
    rw [hwrite hvs]
    have hway' := (keeps_link howner' hfree' (.policies [⟨s.size + rest.length⟩])).way hway
    refine ⟨.step (get?_link howner') List.getLast?_singleton hway', ?_, fun ws hws => ?_⟩
    · rw [link, entries_setEntries_of_ne hne, hrow]
      simp [Table.get?]
    · have hinsert : Table.insert last ws [(last, vs)] = [(last, ws)] := by
        simp [Table.insert]
      rw [write_eq hws, hwrite hws, hsame ws hws]
      generalize (s.nest vs (next :: rest)).2 = made at hrow
      simp only [nest, link]
      rw [entries_setEntries_of_ne hne, hrow, hinsert, setEntries_comm hne,
        entries_setEntries_of_ne hne.symm]

end PolicyStore.Store
