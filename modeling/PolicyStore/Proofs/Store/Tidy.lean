import PolicyStore.Proofs.Store.Adding
import PolicyStore.Proofs.Store.Reachable

set_option autoImplicit false

namespace PolicyStore.Store

/-!
# Tidy stores

A store that is made from nothing by adding values has sorted rows, no dictionaries, no empty array
and no policy that holds itself. A policy that is added has to be new, so that it does not lead back.
-/

structure Tidy (s : Store) : Prop extends s.WellFormed where
  plain : ∀ q, s.dictionary? q = none
  founded : ∀ q, ∃ n, s.Within n q
  full : s.Full

variable {s s' : Store} {p owner : Policy}

theorem tidy_empty : Tidy empty where
  sorted _ := List.Pairwise.nil
  closed _ _ hq := by cases hq
  plain _ := rfl
  founded _ := ⟨1, fun _ hq => by cases hq⟩
  full _ _ hrow := by cases hrow

theorem node_alloc (s : Store) (n : Node) (q : Policy) :
    (s.alloc n).2.node q = if q = ⟨s.size⟩ then n else s.node q := by
  split
  · rename_i heq
    subst heq
    exact node_alloc_self s n
  · rename_i hne
    have hid : q.id ≠ s.nodes.size := fun hid => hne (congrArg Policy.mk hid)
    simp [alloc, node, Array.getElem?_push, hid]

theorem node_setEntries (s : Store) (p : Policy) (rows : Entries Policy) (q : Policy) :
    (s.setEntries p rows).node q =
      if q = p ∧ p.id < s.size then { s.node p with entries := rows } else s.node q := by
  split
  · rename_i h
    rw [h.1, setEntries, node_modify_self h.2]
  · rename_i h
    by_cases hq : q = p
    · subst hq
      have hle : s.nodes.size ≤ q.id := Nat.le_of_not_lt fun hlt => h ⟨rfl, hlt⟩
      simp [setEntries, modify, node, hle]
    · exact node_setEntries_of_ne hq s rows

theorem WellFormed.alloc (h : WellFormed s) {n : Node} (hsorted : Table.Sorted n.entries)
    (hclosed : ∀ c ∈ n.entries.flatMap fun row => row.2.children, c.id < s.size) :
    WellFormed (s.alloc n).2 where
  sorted q := by
    rw [entries, node_alloc]
    split
    · exact hsorted
    · exact h.sorted q
  closed q c hc := by
    rw [size_alloc]
    apply Nat.lt_succ_of_lt
    rw [below, entries, node_alloc] at hc
    split at hc
    · exact hclosed c hc
    · exact h.closed q c hc

theorem Full.alloc (h : Full s) {n : Node} (hfull : ∀ row ∈ n.entries, row.2.isEmpty = false) :
    Full (s.alloc n).2 := by
  intro q row hrow
  rw [entries, node_alloc] at hrow
  split at hrow
  · exact hfull row hrow
  · exact h q row hrow

theorem Tidy.alloc (h : Tidy s) {n : Node} (hsorted : Table.Sorted n.entries)
    (hclosed : ∀ c ∈ n.entries.flatMap fun row => row.2.children, c.id < s.size)
    (hplain : n.dictionary = none) (hfull : ∀ row ∈ n.entries, row.2.isEmpty = false) :
    Tidy (s.alloc n).2 := by
  have hold {q : Policy} (hq : q ≠ ⟨s.size⟩) : (s.alloc n).2.entries q = s.entries q := by
    rw [entries, node_alloc, if_neg hq, entries]
  have hnew : (s.alloc n).2.below ⟨s.size⟩ = n.entries.flatMap fun row => row.2.children := by
    rw [below, entries, node_alloc, if_pos rfl]
  have hbelow {q c : Policy} (hc : c ∈ s.below q) : c ≠ ⟨s.size⟩ := by
    rintro rfl
    exact Nat.lt_irrefl _ (h.closed q _ hc)
  have hfounded {q : Policy} (hq : q ≠ ⟨s.size⟩) : ∃ k, (s.alloc n).2.Within k q := by
    obtain ⟨k, hk⟩ := h.founded q
    exact ⟨k, within_congr (P := fun q => q ≠ ⟨s.size⟩) (fun _ _ c hc => hbelow hc)
      (fun _ => hold) hq hk⟩
  refine ⟨h.toWellFormed.alloc hsorted hclosed, fun q => ?_, fun q => ?_, h.full.alloc hfull⟩
  · by_cases hq : q = ⟨s.size⟩
    · rw [hq, dictionary?, node_alloc, if_pos rfl, hplain]
    · rw [dictionary?, node_alloc, if_neg hq]
      exact h.plain q
  · by_cases hq : q = ⟨s.size⟩
    · refine exists_within fun c hc => hfounded ?_
      rw [hq, hnew] at hc
      rintro rfl
      exact Nat.lt_irrefl _ (hclosed _ hc)
    · exact hfounded hq

theorem WellFormed.setEntries (h : WellFormed s) {rows : Entries Policy}
    (hsorted : Table.Sorted rows)
    (hclosed : ∀ c ∈ rows.flatMap fun row => row.2.children, c.id < s.size) :
    WellFormed (s.setEntries owner rows) where
  sorted q := by
    rw [entries, node_setEntries]
    split
    · exact hsorted
    · exact h.sorted q
  closed q c hc := by
    rw [size_setEntries]
    rw [below, entries, node_setEntries] at hc
    split at hc
    · exact hclosed c hc
    · exact h.closed q c hc

theorem Full.setEntries (h : Full s) {rows : Entries Policy}
    (hfull : ∀ row ∈ rows, row.2.isEmpty = false) : Full (s.setEntries owner rows) := by
  intro q row hrow
  rw [entries, node_setEntries] at hrow
  split at hrow
  · exact hfull row hrow
  · exact h q row hrow

/-- If all new policies below have few levels, the others have not many more levels than before. -/
theorem within_of_links {k n : Nat} {q : Policy}
    (hlinks : ∀ a, ∀ c ∈ s'.below a, c ∈ s.below a ∨ s'.Within k c) (h : s.Within n q) :
    s'.Within (n + k) q := by
  induction n generalizing q with
  | zero => exact h.elim
  | succ n ih =>
    rw [Nat.succ_add]
    intro c hc
    rcases hlinks q c hc with hold | hnew
    · exact ih (h c hold)
    · exact hnew.mono (Nat.le_add_left k n)

theorem Tidy.setEntries (h : Tidy s) {rows : Entries Policy} (hsorted : Table.Sorted rows)
    (hclosed : ∀ c ∈ rows.flatMap fun row => row.2.children, c.id < s.size)
    (hlinks : ∀ c ∈ rows.flatMap fun row => row.2.children,
      c ∈ s.below owner ∨ ∃ k, (s.setEntries owner rows).Within k c)
    (hfull : ∀ row ∈ rows, row.2.isEmpty = false) : Tidy (s.setEntries owner rows) := by
  have hold {q : Policy} (hq : ¬(q = owner ∧ owner.id < s.size)) :
      (s.setEntries owner rows).entries q = s.entries q := by
    rw [entries, node_setEntries, if_neg hq, entries]
  have hself (hin : owner.id < s.size) : (s.setEntries owner rows).below owner =
      rows.flatMap fun row => row.2.children := by
    rw [below, entries_setEntries_self hin]
  refine ⟨h.toWellFormed.setEntries hsorted hclosed, fun q => ?_, fun q => ?_,
    h.full.setEntries hfull⟩
  · rw [dictionary?, node_setEntries]
    split
    · exact h.plain owner
    · exact h.plain q
  · obtain ⟨k, hk⟩ : ∃ k, ∀ c ∈ rows.flatMap fun row => row.2.children,
        c ∈ s.below owner ∨ (s.setEntries owner rows).Within k c := by
      have hnew : ∀ c ∈ (rows.flatMap fun row => row.2.children).filter (· ∉ s.below owner),
          ∃ k, (s.setEntries owner rows).Within k c := by
        intro c hc
        have hc := List.mem_filter.mp hc
        exact (hlinks c hc.1).resolve_left (of_decide_eq_true hc.2)
      obtain ⟨k, hk⟩ := exists_within_of_forall hnew
      refine ⟨k, fun c hc => ?_⟩
      by_cases hin : c ∈ s.below owner
      · exact Or.inl hin
      · exact Or.inr (hk c (List.mem_filter.mpr ⟨hc, decide_eq_true hin⟩))
    obtain ⟨n, hn⟩ := h.founded q
    refine ⟨n + k, within_of_links (fun a c hc => ?_) hn⟩
    by_cases ha : a = owner ∧ owner.id < s.size
    · rw [ha.1, hself ha.2] at hc
      rw [ha.1]
      exact hk c hc
    · rw [below_congr (hold ha)] at hc
      exact Or.inl hc

/-! ## Adding values -/

theorem mem_below_of_get? {key : String} {values : Values Policy} {c : Policy}
    (hget : Table.get? key (s.entries p) = some values) (hc : c ∈ values.children) :
    c ∈ s.below p :=
  List.mem_flatMap.mpr ⟨(key, values), Table.mem_of_get? hget, hc⟩

theorem mem_below_of_valuesAt {spot : Place} {kind : Kind} {c : Policy}
    (hc : c ∈ (s.valuesAt spot kind).children) : c ∈ s.below spot.owner := by
  have hempty : c ∉ (Values.empty kind : Values Policy).children := by
    cases kind <;> exact List.not_mem_nil
  unfold valuesAt at hc
  split at hc
  · cases hget : Table.get? spot.key (s.entries spot.owner) with
    | none =>
      rw [hget, Option.getD_none] at hc
      exact (hempty hc).elim
    | some old =>
      rw [hget, Option.getD_some] at hc
      exact mem_below_of_get? hget hc
  · exact (hempty hc).elim

/-- A place that is found from a policy is among the policies below it. -/
theorem placeFrom_closed {P : Policy → Prop} (hclosed : ∀ q, P q → ∀ c ∈ s.below q, P c)
    {full : String} {segments : List String} :
    ∀ {done : List String} {p : Policy} {spot : Place}, P p →
      s.placeFrom full done p segments = .ok spot → P spot.owner := by
  induction segments with
  | nil =>
    intro done p spot _ h
    cases h
  | cons segment rest ih =>
    intro done p spot hp h
    cases rest with
    | nil =>
      cases h
      exact hp
    | cons next rest =>
      simp only [placeFrom] at h
      split at h
      · cases h
        exact hp
      · rename_i children hget
        split at h
        · rename_i child hlast
          exact ih (hclosed p hp child (mem_below_of_get? hget (List.mem_of_getLast? hlast))) h
        · cases h
      · cases h

/-- The policies from `low` on are apart: those before hold none of them, and they none of those. -/
structure Apart (s : Store) (low : Nat) : Prop where
  le : low ≤ s.size
  below : ∀ q : Policy, q.id < low → ∀ c ∈ s.below q, c.id < low
  above : ∀ q : Policy, low ≤ q.id → ∀ c ∈ s.below q, low ≤ c.id

/-- Making the policies of a name that is not there yet. -/
theorem Tidy.nest (h : Tidy s) {low : Nat} (hapart : s.Apart low) {values : Values Policy}
    (hvalues : ∀ c ∈ values.children, low ≤ c.id ∧ c.id < s.size) (segments : List String) :
    Tidy (s.nest values segments).2 ∧ (s.nest values segments).2.Apart low ∧
      s.size ≤ (s.nest values segments).2.size ∧
      (∀ q : Policy, q.id < s.size → (s.nest values segments).2.node q = s.node q) ∧
      ∀ c ∈ (s.nest values segments).1.children,
        low ≤ c.id ∧ c.id < (s.nest values segments).2.size := by
  induction segments with
  | nil => exact ⟨h, hapart, Nat.le_refl _, fun _ _ => rfl, hvalues⟩
  | cons segment rest ih =>
    obtain ⟨htidy, hapart', hsize, hframe, hinner⟩ := ih
    simp only [Store.nest]
    generalize s.nest values rest = made at htidy hapart' hsize hframe hinner ⊢
    obtain ⟨inner, s'⟩ := made
    simp only at htidy hapart' hsize hframe hinner ⊢
    have hrows : ∀ c ∈ (if inner.isEmpty then [] else [(segment, inner)]).flatMap
        fun row : String × Values Policy => row.2.children, low ≤ c.id ∧ c.id < s'.size := by
      intro c hc
      split at hc
      · cases hc
      · exact hinner c (by simpa using hc)
    have hsorted : Table.Sorted (if inner.isEmpty then [] else [(segment, inner)]) := by
      split
      · exact List.Pairwise.nil
      · exact List.pairwise_singleton _ _
    have hfull : ∀ row ∈ if inner.isEmpty then [] else [(segment, inner)], row.2.isEmpty = false := by
      intro row hrow
      split at hrow
      · cases hrow
      · rename_i hne
        cases List.mem_singleton.mp hrow
        exact Bool.eq_false_iff.mpr hne
    have hle := hapart'.le
    refine ⟨htidy.alloc hsorted (fun c hc => (hrows c hc).2) rfl hfull, ⟨?_, ?_, ?_⟩, ?_, ?_, ?_⟩
    · rw [size_alloc]
      omega
    · intro q hq c hc
      have hne : q ≠ ⟨s'.size⟩ := by
        rintro rfl
        exact Nat.lt_irrefl _ (Nat.lt_of_lt_of_le hq hle)
      rw [Store.below, entries, node_alloc, if_neg hne] at hc
      exact hapart'.below q hq c hc
    · intro q hq c hc
      rw [Store.below, entries, node_alloc] at hc
      split at hc
      · exact (hrows c hc).1
      · exact hapart'.above q hq c hc
    · rw [size_alloc]
      omega
    · intro q hq
      rw [node_alloc_of_lt (by omega), hframe q hq]
    · intro c hc
      obtain rfl := List.mem_singleton.mp hc
      rw [size_alloc]
      exact ⟨hle, Nat.lt_succ_self _⟩

theorem children_push? {vs ws : Values Policy} {v : Value Policy} (h : vs.push? v = some ws)
    {c : Policy} (hc : c ∈ ws.children) : c ∈ vs.children ∨ v = .policy c := by
  cases vs <;> cases v <;> simp [Values.push?] at h <;> subst h <;> simp [Values.children] at hc ⊢
  rcases hc with hc | hc
  · exact Or.inl hc
  · exact Or.inr hc.symm

/-- A row is written whose policies were there before or are apart from the owner. -/
theorem Tidy.link (h : Tidy s) {low : Nat} (hapart : s.Apart low) (howner : owner.id < low)
    {key : String} {values : Values Policy}
    (hvalues : ∀ c ∈ values.children, c ∈ s.below owner ∨ low ≤ c.id ∧ c.id < s.size)
    (hne : values.isEmpty = false) :
    Tidy (s.setEntries owner (Table.insert key values (s.entries owner))) := by
  have hrows : ∀ c ∈ (Table.insert key values (s.entries owner)).flatMap fun row => row.2.children,
      c ∈ s.below owner ∨ low ≤ c.id ∧ c.id < s.size := by
    intro c hc
    obtain ⟨row, hrow, hc⟩ := List.mem_flatMap.mp hc
    rcases Table.mem_of_mem_insert hrow with rfl | hrow
    · exact hvalues c hc
    · exact Or.inl (List.mem_flatMap.mpr ⟨row, hrow, hc⟩)
  refine h.setEntries (Table.sorted_insert (h.sorted owner) _ _) (fun c hc => ?_) (fun c hc => ?_)
    fun row hrow => ?_
  · rcases hrows c hc with hold | hnew
    · exact h.closed owner c hold
    · exact hnew.2
  · refine (hrows c hc).imp_right fun hnew => ?_
    obtain ⟨k, hk⟩ := h.founded c
    refine ⟨k, within_congr (P := fun q => low ≤ q.id) hapart.above (fun q hq => ?_) hnew.1 hk⟩
    have hne : q ≠ owner := by
      rintro rfl
      omega
    rw [entries, node_setEntries_of_ne hne, entries]
  · rcases Table.mem_of_mem_insert hrow with rfl | hrow
    · exact hne
    · exact h.full owner row hrow

theorem isEmpty_nest {values : Values Policy} (hne : values.isEmpty = false) (segments : List String) :
    (s.nest values segments).1.isEmpty = false := by
  cases segments with
  | nil => exact hne
  | cons segment rest => rfl

theorem write_eq {values : Values Policy} {spot : Place} (hne : values.isEmpty = false) :
    s.write spot values = (s.nest values spot.below).2.setEntries spot.owner
      (Table.insert spot.key (s.nest values spot.below).1
        ((s.nest values spot.below).2.entries spot.owner)) := by
  have houter := isEmpty_nest (s := s) hne spot.below
  unfold write
  simp [houter]

/-- Adding a value to a tidy store, where a policy that is added is apart from the others. -/
theorem Tidy.add (h : Tidy s) {low : Nat} (hapart : s.Apart low) (hp : p.id < low) {name : String}
    {v : Value Policy} (hv : ∀ c, v = .policy c → low ≤ c.id ∧ c.id < s.size)
    (hadd : s.add p name v = .ok s') : Tidy s' ∧ s.size ≤ s'.size := by
  unfold Store.add at hadd
  rw [approve_of_plain (h.plain p)] at hadd
  cases hplace : s.place p name with
  | error e => simp [hplace, bind, Except.bind] at hadd
  | ok spot =>
    have howner : spot.owner.id < low := by
      unfold place at hplace
      cases hsegments : Name.segments name with
      | error e => simp [hsegments, bind, Except.bind] at hplace
      | ok segments =>
        rw [hsegments] at hplace
        exact placeFrom_closed (P := fun q => q.id < low) hapart.below hp hplace
    cases hpush : (s.valuesAt spot v.kind).push? v with
    | none => simp [hplace, hpush, bind, Except.bind] at hadd
    | some values =>
      simp only [hplace, hpush, bind, Except.bind, pure, Except.pure, Except.ok.injEq] at hadd
      have hne : values.isEmpty = false := by
        simp [Values.isEmpty, Values.toList_push? hpush]
      rw [write_eq hne] at hadd
      obtain ⟨owner, key, below⟩ := spot
      cases below with
      | nil =>
        subst hadd
        refine ⟨h.link hapart howner (fun c hc => ?_) hne, by simp [Store.nest]⟩
        exact (children_push? hpush hc).imp mem_below_of_valuesAt (hv c)
      | cons segment rest =>
        have hvalues : ∀ c ∈ values.children, low ≤ c.id ∧ c.id < s.size := by
          intro c hc
          rcases children_push? hpush hc with hold | hnew
          · simp only [valuesAt] at hold
            cases hkind : v.kind <;> simp [hkind, Values.empty, Values.children] at hold
          · exact hv c hnew
        obtain ⟨htidy, hapart', hsize, _, houter⟩ := h.nest hapart hvalues (segment :: rest)
        subst hadd
        refine ⟨htidy.link hapart' howner (fun c hc => Or.inr (houter c hc))
          (isEmpty_nest hne (segment :: rest)), ?_⟩
        rw [size_setEntries]
        exact hsize

end PolicyStore.Store
