import PolicyStore.Paf.Parser
import PolicyStore.Proofs.Store.Adding

set_option autoImplicit false

namespace PolicyStore

/-!
# Building a policy

A policy that is empty at first is built row by row. What is made on the way lies in new policies,
each below one made before it, and all others stay as they are.
-/

namespace Store

/-- The rows of a policy with the content of the policies in them. -/
def rowsTo (s : Store) (depth : Nat) (p : Policy) : List (String × Values Content) :=
  (s.entries p).map fun row => (row.1, row.2.map (s.contentTo depth))

theorem contentTo_succ (s : Store) (depth : Nat) (p : Policy) :
    s.contentTo (depth + 1) p = .node (s.rowsTo depth p) := rfl

theorem get?_rowsTo (s : Store) (depth : Nat) (p : Policy) (name : String) :
    Table.get? name (s.rowsTo depth p) =
      (Table.get? name (s.entries p)).map (Values.map (s.contentTo depth)) :=
  Table.get?_map _ _ _

end Store

theorem Table.mem_of_mem_insert_children {name : String} {ws : Values Policy} {rows : Entries Policy}
    {c : Policy} (h : c ∈ (insert name ws rows).flatMap fun row => row.2.children) :
    c ∈ ws.children ∨ c ∈ rows.flatMap fun row => row.2.children := by
  obtain ⟨row, hrow, hc⟩ := List.mem_flatMap.mp h
  rcases mem_of_mem_insert hrow with rfl | hrow
  · exact Or.inl hc
  · exact Or.inr (List.mem_flatMap.mpr ⟨row, hrow, hc⟩)

/-- A policy of `s` is given rows in `s'`, and only new policies are made for that. -/
structure Built (s s' : Store) (p : Policy) (rows : List (String × Values Content)) : Prop where
  size_le : s.size ≤ s'.size
  frame : ∀ q : Policy, q.id < s.size → q ≠ p → s'.node q = s.node q
  dictionary : s'.dictionary? p = none
  fresh : ∀ q : Policy, q = p ∨ s.size ≤ q.id ∧ q.id < s'.size →
    ∀ c ∈ s'.below q, s.size ≤ c.id ∧ q.id < c.id ∧ c.id < s'.size
  rows : ∀ depth, s'.size - s.size ≤ depth → s'.rowsTo depth p = rows

namespace Built

variable {s s' s'' : Store} {p : Policy} {rows : List (String × Values Content)} {name : String}

theorem refl (hempty : s.node p = {}) : Built s s p [] where
  size_le := Nat.le_refl _
  frame _ _ _ := rfl
  dictionary := by
    rw [Store.dictionary?, hempty]
  fresh q hq c hc := by
    have hnone : s.entries p = [] := by
      rw [Store.entries, hempty]
    rcases hq with rfl | hq
    · simp [Store.below, hnone] at hc
    · omega
  rows depth _ := by
    rw [Store.rowsTo, Store.entries, hempty]
    rfl

/-- What was made keeps its content as long as no other policy than the one being built changes. -/
theorem contentTo_eq (h : Built s s' p rows) (hp : p.id < s.size)
    (hframe : ∀ q : Policy, q.id < s'.size → q ≠ p → s''.node q = s'.node q) {c : Policy}
    (hc : c ∈ s'.below p) (depth : Nat) : s''.contentTo depth c = s'.contentTo depth c := by
  have hmade := h.fresh p (Or.inl rfl) c hc
  refine Store.contentTo_congr (P := fun q => s.size ≤ q.id ∧ q.id < s'.size) ?_ ?_
    ⟨hmade.1, hmade.2.2⟩
  · intro q hq d hd
    have := h.fresh q (Or.inr hq) d hd
    exact ⟨this.1, this.2.2⟩
  · intro q hq
    have hqp : q ≠ p := by
      rintro rfl
      omega
    rw [Store.entries, hframe q hq.2 hqp, Store.entries]

/-- One more row is written; the policies in it were made before or are made now. -/
theorem insert (ws : Values Policy) {vs : Values Content} (h : Built s s' p rows)
    (hp : p.id < s.size) (hsize : s'.size ≤ s''.size)
    (hframe : ∀ q : Policy, q.id < s'.size → q ≠ p → s''.node q = s'.node q)
    (hdictionary : s''.dictionary? p = none)
    (hentries : s''.entries p = Table.insert name ws (s'.entries p))
    (hfresh : ∀ q : Policy, s'.size ≤ q.id → q.id < s''.size →
      ∀ c ∈ s''.below q, q.id < c.id ∧ c.id < s''.size)
    (hws : ∀ c ∈ ws.children, s.size ≤ c.id ∧ c.id < s''.size)
    (hvs : ∀ depth, s''.size - s.size ≤ depth → ws.map (s''.contentTo depth) = vs) :
    Built s s'' p (Table.insert name vs rows) := by
  have hle := h.size_le
  have hne {q : Policy} (hq : s.size ≤ q.id) : q ≠ p := by
    rintro rfl
    omega
  refine ⟨by omega, ?_, hdictionary, ?_, ?_⟩
  · intro q hq hqp
    rw [hframe q (by omega) hqp, h.frame q hq hqp]
  · intro q hq c hc
    rcases hq with rfl | hq
    · rw [Store.below, hentries] at hc
      rcases Table.mem_of_mem_insert_children hc with hc | hc
      · have := hws c hc
        omega
      · have := h.fresh q (Or.inl rfl) c hc
        omega
    · by_cases hold : q.id < s'.size
      · rw [Store.below, Store.entries, hframe q hold (hne hq.1)] at hc
        have := h.fresh q (Or.inr ⟨hq.1, hold⟩) c hc
        omega
      · have := hfresh q (by omega) hq.2 c hc
        omega
  · intro depth hdepth
    rw [Store.rowsTo, hentries, Table.map_insert, hvs depth hdepth]
    apply congrArg (Table.insert name vs)
    rw [← h.rows depth (by omega), Store.rowsTo]
    refine List.map_congr_left fun row hrow => ?_
    refine congrArg (Prod.mk row.1) (Values.map_congr fun c hc => ?_)
    exact h.contentTo_eq hp hframe (List.mem_flatMap.mpr ⟨row, hrow, hc⟩) depth

/-- The policies that an array of the rows stands for. -/
theorem policies_of_rows (h : Built s s' p rows) {earlier : List Content} {ps : List Policy}
    (hearlier : (Table.get? name rows).getD (.policies []) = .policies earlier)
    (hps : (Table.get? name (s'.entries p)).getD (.policies []) = .policies ps) :
    (∀ c ∈ ps, c ∈ s'.below p) ∧
      ∀ depth, s'.size - s.size ≤ depth → ps.map (s'.contentTo depth) = earlier := by
  cases hget : Table.get? name (s'.entries p) with
  | none =>
    rw [hget] at hps
    cases hps
    refine ⟨fun c hc => ?_, fun depth hdepth => ?_⟩
    · cases hc
    · rw [← h.rows depth hdepth, Store.get?_rowsTo, hget] at hearlier
      cases hearlier
      rfl
  | some vs =>
    rw [hget] at hps
    cases hps
    refine ⟨fun c hc => ?_, fun depth hdepth => ?_⟩
    · exact Store.mem_below_iff.mpr ⟨name, ps, Table.mem_of_get? hget, hc⟩
    · rw [← h.rows depth hdepth, Store.get?_rowsTo, hget] at hearlier
      cases hearlier
      rfl

/-- A row of literals is written. -/
theorem literals {ws : Values Policy} {vs : Values Content} (h : Built s s' p rows)
    (hp : p.id < s.size) (hws : ∀ f : Policy → Content, ws.map f = vs) (hnone : ws.children = []) :
    Built s (s'.setEntries p (Table.insert name ws (s'.entries p))) p (Table.insert name vs rows) := by
  have hp' : p.id < s'.size := Nat.lt_of_lt_of_le hp h.size_le
  refine h.insert ws hp (by simp) ?_ ?_ ?_ ?_ ?_ fun depth _ => hws _
  · exact fun q _ hq => Store.node_setEntries_of_ne hq _ _
  · exact (Store.dictionary?_setEntries_self hp' _).trans h.dictionary
  · exact Store.entries_setEntries_self hp' _
  · intro q hq hq'
    rw [Store.size_setEntries] at hq'
    omega
  · intro c hc
    rw [hnone] at hc
    cases hc

/-- A new policy is put at the end of an array and then built. -/
theorem block {s₁ : Store} {earlier : List Content} {ps : List Policy}
    {inner : List (String × Values Content)} (h : Built s s' p rows) (hp : p.id < s.size)
    (hearlier : (Table.get? name rows).getD (.policies []) = .policies earlier)
    (hps : (Table.get? name (s'.entries p)).getD (.policies []) = .policies ps)
    (hs₁ : s₁ = (s'.alloc {}).2.setEntries p
      (Table.insert name (.policies (ps ++ [⟨s'.size⟩])) (s'.entries p)))
    (hinner : Built s₁ s'' ⟨s'.size⟩ inner) :
    Built s s'' p (Table.insert name (.policies (earlier ++ [.node inner])) rows) := by
  have hp' : p.id < s'.size := Nat.lt_of_lt_of_le hp h.size_le
  have hsize : s₁.size = s'.size + 1 := by
    rw [hs₁, Store.size_setEntries, Store.size_alloc]
  have hle := hinner.size_le
  have hsle := h.size_le
  have hnew {q : Policy} (hq : q.id < s'.size) : q ≠ ⟨s'.size⟩ := by
    rintro rfl
    exact Nat.lt_irrefl _ hq
  have hold {q : Policy} (hq : q.id < s'.size) (hqp : q ≠ p) : s''.node q = s'.node q := by
    rw [hinner.frame q (by omega) (hnew hq), hs₁, Store.node_setEntries_of_ne hqp,
      Store.node_alloc_of_lt hq]
  have hself : s''.node p = s₁.node p := hinner.frame p (by omega) (hnew hp')
  have hp₁ : p.id < (s'.alloc {}).2.size := by
    rw [Store.size_alloc]
    omega
  obtain ⟨hmem, hcontent⟩ := h.policies_of_rows hearlier hps
  refine h.insert (.policies (ps ++ [⟨s'.size⟩])) hp (by omega) (fun _ hq => hold hq)
    ?_ ?_ ?_ ?_ ?_
  · rw [Store.dictionary?, hself, hs₁, ← Store.dictionary?, Store.dictionary?_setEntries_self hp₁,
      Store.dictionary?, Store.node_alloc_of_lt hp', ← Store.dictionary?, h.dictionary]
  · rw [Store.entries, hself, hs₁, ← Store.entries, Store.entries_setEntries_self hp₁]
  · intro q hq hq' c hc
    have hq₁ : q = ⟨s'.size⟩ ∨ s₁.size ≤ q.id ∧ q.id < s''.size := by
      rcases Nat.eq_or_lt_of_le hq with heq | hlt
      · exact Or.inl (congrArg Policy.mk heq.symm)
      · exact Or.inr ⟨by omega, hq'⟩
    have := hinner.fresh q hq₁ c hc
    omega
  · intro c hc
    rcases List.mem_append.mp hc with hc | hc
    · have := h.fresh p (Or.inl rfl) c (hmem c hc)
      omega
    · obtain rfl := List.mem_singleton.mp hc
      exact ⟨hsle, by
        show s'.size < s''.size
        omega⟩
  · intro depth hdepth
    obtain ⟨below, rfl⟩ : ∃ below, depth = below + 1 := ⟨depth - 1, by omega⟩
    have hlast : s''.contentTo (below + 1) ⟨s'.size⟩ = .node inner := by
      rw [Store.contentTo_succ, hinner.rows below (by omega)]
    have hothers : ps.map (s''.contentTo (below + 1)) = earlier := by
      rw [← hcontent (below + 1) (by omega)]
      exact List.map_congr_left fun c hc => h.contentTo_eq hp (fun _ hq => hold hq) (hmem c hc) _
    rw [Values.map, List.map_append, hothers, List.map_singleton, hlast]

end Built

end PolicyStore
