set_option autoImplicit false

namespace PolicyStore.Table

/-!
# Tables sorted by key

A table is a list of rows in ascending order of their keys, each key once. The order of strings is
that of their code points, which is also the order of their bytes.
-/

variable {α : Type}

def get? (key : String) : List (String × α) → Option α
  | [] => none
  | (k, a) :: rows => if k = key then some a else get? key rows

/-- Writes a row, in the place of the row with the same key if there is one. -/
def insert (key : String) (a : α) : List (String × α) → List (String × α)
  | [] => [(key, a)]
  | (k, b) :: rows =>
    if key < k then (key, a) :: (k, b) :: rows
    else if k = key then (key, a) :: rows
    else (k, b) :: insert key a rows

/-- Takes out every row with a key. -/
def erase (key : String) : List (String × α) → List (String × α)
  | [] => []
  | (k, b) :: rows => if k = key then erase key rows else (k, b) :: erase key rows

def keys (rows : List (String × α)) : List String := rows.map Prod.fst

/-- Every key is less than all the keys below it. -/
def Sorted (rows : List (String × α)) : Prop := (keys rows).Pairwise (· < ·)

@[simp] theorem get?_nil (key : String) : get? key ([] : List (String × α)) = none := rfl

@[simp] theorem get?_insert_self (key : String) (a : α) (rows : List (String × α)) :
    get? key (insert key a rows) = some a := by
  induction rows with
  | nil => simp [insert, get?]
  | cons row rows ih =>
    obtain ⟨k, b⟩ := row
    simp only [insert]
    split
    · simp [get?]
    · split
      · simp [get?]
      · simp [get?, *]

theorem get?_insert_of_ne {key other : String} (h : other ≠ key) (a : α)
    (rows : List (String × α)) : get? other (insert key a rows) = get? other rows := by
  induction rows with
  | nil => simp [insert, get?, Ne.symm h]
  | cons row rows ih =>
    obtain ⟨k, b⟩ := row
    simp only [insert]
    split
    · simp [get?, Ne.symm h]
    · split
      · rename_i hk
        subst hk
        simp [get?, Ne.symm h]
      · simp [get?, ih]

theorem mem_of_get? {key : String} {a : α} {rows : List (String × α)}
    (h : get? key rows = some a) : (key, a) ∈ rows := by
  induction rows with
  | nil => simp at h
  | cons row rows ih =>
    obtain ⟨k, b⟩ := row
    by_cases hk : k = key
    · simp only [get?, hk, if_true, Option.some.injEq] at h
      simp [hk, h]
    · simp only [get?, hk, if_false] at h
      simp [ih h]

theorem mem_keys_insert {key other : String} {a : α} {rows : List (String × α)} :
    other ∈ keys (insert key a rows) ↔ other = key ∨ other ∈ keys rows := by
  induction rows with
  | nil => simp [insert, keys]
  | cons row rows ih =>
    obtain ⟨k, b⟩ := row
    simp only [keys] at ih
    simp only [insert]
    split
    · simp [keys]
    · split
      · rename_i hk
        simp [keys, hk]
      · simp only [keys, List.map_cons, List.mem_cons, ih]
        exact or_left_comm

theorem mem_of_mem_insert {key : String} {a : α} {row : String × α} {rows : List (String × α)}
    (h : row ∈ insert key a rows) : row = (key, a) ∨ row ∈ rows := by
  induction rows with
  | nil => simpa [insert] using h
  | cons first rows ih =>
    obtain ⟨k, b⟩ := first
    simp only [insert] at h
    split at h
    · exact List.mem_cons.mp h
    · split at h
      · rcases List.mem_cons.mp h with h | h
        · exact Or.inl h
        · exact Or.inr (List.mem_cons_of_mem _ h)
      · rcases List.mem_cons.mp h with h | h
        · exact Or.inr (List.mem_cons.mpr (Or.inl h))
        · exact (ih h).imp_right (List.mem_cons_of_mem _)

theorem mem_of_mem_erase {key : String} {row : String × α} {rows : List (String × α)}
    (h : row ∈ erase key rows) : row ∈ rows := by
  induction rows with
  | nil => exact h
  | cons first rows ih =>
    obtain ⟨k, b⟩ := first
    simp only [erase] at h
    split at h
    · exact List.mem_cons_of_mem _ (ih h)
    · rcases List.mem_cons.mp h with rfl | h
      · exact List.mem_cons_self
      · exact List.mem_cons_of_mem _ (ih h)

theorem mem_keys_erase {key other : String} {rows : List (String × α)} :
    other ∈ keys (erase key rows) ↔ other ≠ key ∧ other ∈ keys rows := by
  induction rows with
  | nil => simp [erase, keys]
  | cons row rows ih =>
    obtain ⟨k, b⟩ := row
    simp only [keys] at ih
    by_cases hk : k = key
    · simp only [erase, hk, if_true, keys, List.map_cons, List.mem_cons, ih]
      exact ⟨fun h => ⟨h.1, Or.inr h.2⟩, fun h => ⟨h.1, h.2.resolve_left h.1⟩⟩
    · simp only [erase, hk, if_false, keys, List.map_cons, List.mem_cons, ih]
      constructor
      · rintro (rfl | h)
        · exact ⟨hk, Or.inl rfl⟩
        · exact ⟨h.1, Or.inr h.2⟩
      · rintro ⟨hne, h | h⟩
        · exact Or.inl h
        · exact Or.inr ⟨hne, h⟩

theorem get?_eq_none_iff {key : String} {rows : List (String × α)} :
    get? key rows = none ↔ key ∉ keys rows := by
  induction rows with
  | nil => simp [keys]
  | cons row rows ih =>
    obtain ⟨k, b⟩ := row
    by_cases hk : k = key
    · simp [get?, keys, hk]
    · simp only [keys] at ih
      simp [get?, keys, hk, Ne.symm hk, ih]

@[simp] theorem get?_erase_self (key : String) (rows : List (String × α)) :
    get? key (erase key rows) = none :=
  get?_eq_none_iff.mpr fun h => (mem_keys_erase.mp h).1 rfl

theorem erase_of_get?_eq_none {key : String} {rows : List (String × α)}
    (h : get? key rows = none) : erase key rows = rows := by
  induction rows with
  | nil => rfl
  | cons row rows ih =>
    simp only [get?, erase] at h ⊢
    split at h
    · cases h
    · rename_i hne
      rw [if_neg hne, ih h]

theorem get?_erase_of_ne {key other : String} (h : other ≠ key) (rows : List (String × α)) :
    get? other (erase key rows) = get? other rows := by
  induction rows with
  | nil => rfl
  | cons row rows ih =>
    obtain ⟨k, b⟩ := row
    by_cases hk : k = key
    · simp [erase, get?, hk, Ne.symm h, ih]
    · simp [erase, get?, hk, ih]

theorem Sorted.tail {row : String × α} {rows : List (String × α)} (h : Sorted (row :: rows)) :
    Sorted rows :=
  (List.pairwise_cons.mp h).2

/-- Every row of a sorted table is found under its key. -/
theorem get?_of_mem {rows : List (String × α)} (h : Sorted rows) {key : String} {a : α}
    (hmem : (key, a) ∈ rows) : get? key rows = some a := by
  induction rows with
  | nil => cases hmem
  | cons row rows ih =>
    obtain ⟨k, b⟩ := row
    rcases List.mem_cons.mp hmem with heq | hmem
    · cases heq
      simp [get?]
    · have hlt : k < key := (List.pairwise_cons.mp h).1 key (List.mem_map_of_mem (f := Prod.fst) hmem)
      have hne : k ≠ key := fun heq => String.lt_irrefl key (heq ▸ hlt)
      simp only [get?, hne, if_false]
      exact ih h.tail hmem

theorem sorted_insert {rows : List (String × α)} (h : Sorted rows) (key : String) (a : α) :
    Sorted (insert key a rows) := by
  induction rows with
  | nil => simp [insert, Sorted, keys]
  | cons row rows ih =>
    obtain ⟨k, b⟩ := row
    have hk := (List.pairwise_cons.mp h).1
    simp only [insert]
    split
    · rename_i hlt
      refine List.pairwise_cons.mpr ⟨?_, h⟩
      intro other hother
      rcases List.mem_cons.mp hother with rfl | hother
      · exact hlt
      · exact String.lt_trans hlt (hk other hother)
    · split
      · rename_i heq
        subst heq
        exact h
      · rename_i hlt hne
        refine List.pairwise_cons.mpr ⟨?_, ih h.tail⟩
        intro other hother
        rcases mem_keys_insert.mp hother with rfl | hother
        · refine Decidable.byContradiction fun hge => hne ?_
          exact String.le_antisymm (String.not_lt.mp hlt) (String.not_lt.mp hge)
        · exact hk other hother

theorem sorted_erase {rows : List (String × α)} (h : Sorted rows) (key : String) :
    Sorted (erase key rows) := by
  induction rows with
  | nil => exact h
  | cons row rows ih =>
    obtain ⟨k, b⟩ := row
    by_cases hk : k = key
    · simpa [erase, hk] using ih h.tail
    · simp only [erase, hk, if_false]
      refine List.pairwise_cons.mpr ⟨?_, ih h.tail⟩
      intro other hother
      exact (List.pairwise_cons.mp h).1 other (mem_keys_erase.mp hother).2

/-- Sorted tables are equal when they agree on every key. -/
theorem eq_of_get?_eq {rows others : List (String × α)} (h : Sorted rows) (h' : Sorted others)
    (heq : ∀ key, get? key rows = get? key others) : rows = others := by
  induction rows generalizing others with
  | nil =>
    cases others with
    | nil => rfl
    | cons other others => simpa [get?] using heq other.1
  | cons row rows ih =>
    obtain ⟨k, b⟩ := row
    cases others with
    | nil => simpa [get?] using heq k
    | cons other others =>
      obtain ⟨l, c⟩ := other
      have hk := (List.pairwise_cons.mp h).1
      have hl := (List.pairwise_cons.mp h').1
      have hkl : k = l := by
        refine Decidable.byContradiction fun hne => ?_
        have h1 := heq k
        have h2 := heq l
        simp only [get?, if_true, Ne.symm hne, if_false] at h1
        simp only [get?, if_true, hne, if_false] at h2
        have hmem1 : k ∈ keys others := List.mem_map_of_mem (f := Prod.fst) (mem_of_get? h1.symm)
        have hmem2 : l ∈ keys rows := List.mem_map_of_mem (f := Prod.fst) (mem_of_get? h2)
        exact String.lt_irrefl k (String.lt_trans (hk l hmem2) (hl k hmem1))
      subst hkl
      have hb : b = c := by simpa [get?] using heq k
      subst hb
      refine congrArg ((k, b) :: ·) (ih h.tail h'.tail fun key => ?_)
      by_cases hkey : k = key
      · subst hkey
        have hnone : ∀ {ts : List (String × α)}, (∀ other ∈ keys ts, k < other) → get? k ts = none :=
          fun hlt => get?_eq_none_iff.mpr fun hmem => String.lt_irrefl k (hlt k hmem)
        rw [hnone hk, hnone hl]
      · simpa [get?, hkey] using heq key

/-! ## Writing rows -/

variable {β : Type}

theorem get?_map (f : α → β) (key : String) (rows : List (String × α)) :
    get? key (rows.map fun row => (row.1, f row.2)) = (get? key rows).map f := by
  induction rows with
  | nil => rfl
  | cons row rows ih =>
    obtain ⟨k, a⟩ := row
    by_cases h : k = key <;> simp [get?, h, ih]

theorem map_insert (f : α → β) (key : String) (a : α) (rows : List (String × α)) :
    (insert key a rows).map (fun row => (row.1, f row.2)) =
      insert key (f a) (rows.map fun row => (row.1, f row.2)) := by
  induction rows with
  | nil => rfl
  | cons row rows ih =>
    obtain ⟨k, b⟩ := row
    simp only [insert, List.map_cons]
    split
    · rfl
    · split
      · rfl
      · rw [List.map_cons, ih]

theorem insert_insert (key : String) (a b : α) (rows : List (String × α)) :
    insert key b (insert key a rows) = insert key b rows := by
  induction rows with
  | nil => simp [insert]
  | cons row rows ih =>
    obtain ⟨k, c⟩ := row
    by_cases hlt : key < k
    · simp [insert, hlt]
    · by_cases heq : k = key
      · subst heq
        simp [insert]
      · simp [insert, hlt, heq, ih]

/-- A row is written after those with lesser keys. -/
theorem insert_append {pre : List (String × α)} {key : String} (h : ∀ k ∈ keys pre, k < key) (a : α)
    (rows : List (String × α)) : insert key a (pre ++ rows) = pre ++ insert key a rows := by
  induction pre with
  | nil => rfl
  | cons row pre ih =>
    obtain ⟨k, b⟩ := row
    have hlt : k < key := h k List.mem_cons_self
    have hne : k ≠ key := fun heq => String.lt_irrefl key (heq ▸ hlt)
    have hnlt : ¬key < k := fun hgt => String.lt_irrefl key (String.lt_trans hgt hlt)
    rw [List.cons_append, insert, if_neg hnlt, if_neg hne,
      ih fun other hother => h other (List.mem_cons_of_mem _ hother), List.cons_append]

theorem lt_of_sorted_append {pre rows : List (String × α)} {key : String} {a : α}
    (h : Sorted (pre ++ (key, a) :: rows)) : ∀ k ∈ keys pre, k < key := by
  intro k hk
  rw [Sorted, keys, List.map_append] at h
  exact (List.pairwise_append.mp h).2.2 k hk key List.mem_cons_self

/-- A row of a sorted table is replaced where it stands. -/
theorem insert_append_cons {pre rows : List (String × α)} {key : String} {a b : α}
    (h : Sorted (pre ++ (key, a) :: rows)) :
    insert key b (pre ++ (key, a) :: rows) = pre ++ (key, b) :: rows := by
  rw [insert_append (lt_of_sorted_append h)]
  simp [insert]

theorem sorted_of_keys_eq {rows rows' : List (String × α)}
    (h : Sorted rows) (hkeys : keys rows' = keys rows) : Sorted rows' := by
  rw [Sorted, hkeys]
  exact h

theorem sorted_map {rows : List (String × α)} (h : Sorted rows) (f : α → β) :
    Sorted (rows.map fun row => (row.1, f row.2)) := by
  have hkeys : keys (rows.map fun row => (row.1, f row.2)) = keys rows := by
    simp [keys]
  rw [Sorted, hkeys]
  exact h

theorem insert_of_get? {key : String} {a : α} {rows : List (String × α)}
    (h : Sorted rows) (hget : get? key rows = some a) :
    insert key a rows = rows := by
  refine eq_of_get?_eq (sorted_insert h key a) h fun other => ?_
  by_cases hother : other = key
  · rw [hother, get?_insert_self, hget]
  · rw [get?_insert_of_ne hother]

/-- Where a row without elements is replaced, or none, the elements of the new row are added. -/
theorem flatMap_insert_perm {key : String} {f : α → List β} {rows : List (String × α)}
    (h : ∀ a, get? key rows = some a → f a = []) (a : α) :
    ((insert key a rows).flatMap fun row => f row.2).Perm
      (f a ++ rows.flatMap fun row => f row.2) := by
  induction rows with
  | nil => exact .refl _
  | cons row rows ih =>
    obtain ⟨k, b⟩ := row
    rw [insert]
    split
    · exact .refl _
    · split
      · rename_i hk
        have hb := h b (by rw [get?, if_pos hk])
        simp [hb]
      · rename_i hk
        have hrows := ih fun c hc => h c (by rw [get?, if_neg hk, hc])
        exact (hrows.append_left (f b)).trans (List.perm_append_comm_assoc _ _ _)

end PolicyStore.Table
