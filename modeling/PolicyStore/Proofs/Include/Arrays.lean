import PolicyStore.Proofs.Include.Growth

set_option autoImplicit false

namespace PolicyStore

/-!
# Replacing the references of one policy

The arrays of references of a policy are replaced one after the other. The other rows and the other
policies stay as they are.
-/

/-! ## Operations that may fail -/

/-- The operation fails only where it may, and what it answers and leaves is as told. -/
def StoreM.Meets {α : Type} (m : StoreM α) (s : Store) (mayFail : Prop)
    (P : α → Store → Prop) : Prop :=
  match m s with
  | .ok a s' => P a s'
  | .error _ _ => mayFail

namespace StoreM.Meets

variable {α β : Type} {m : StoreM α} {s : Store} {mayFail : Prop} {P Q : α → Store → Prop}

theorem pure {a : α} (h : P a s) : StoreM.Meets (Pure.pure a) s mayFail P := h

theorem imp (h : m.Meets s mayFail P) (hPQ : ∀ a s', P a s' → Q a s') : m.Meets s mayFail Q := by
  unfold StoreM.Meets at h ⊢
  cases hm : m s with
  | ok a s' =>
    rw [hm] at h
    exact hPQ a s' h
  | error e s' =>
    rw [hm] at h
    exact h

theorem bind {f : α → StoreM β} {R : β → Store → Prop} (h : m.Meets s mayFail P)
    (hf : ∀ a s', P a s' → (f a).Meets s' mayFail R) : (m >>= f).Meets s mayFail R := by
  unfold StoreM.Meets at h
  show StoreM.Meets (EStateM.bind m f) s mayFail R
  unfold StoreM.Meets EStateM.bind
  cases hm : m s with
  | ok a s' =>
    rw [hm] at h
    exact hf a s' h
  | error e s' =>
    rw [hm] at h
    exact h

theorem get_bind {f : Store → StoreM α} (h : (f s).Meets s mayFail P) :
    (get >>= f : StoreM α).Meets s mayFail P := h

end StoreM.Meets

namespace Include

/-! ## Arrays of references -/

/-- What is put in the place of a reference has the content that stands for it. -/
def Stood (s : Store) (low : Nat) (content : FileRef → Content) (good : FileRef → Prop)
    (f : FileRef) (p : Policy) : Prop :=
  Stands s low (content f) p ∧ good f

/-- In any store, a replacement adds a policy for a reference and changes none. -/
def Replaces (mayFail : Prop) (content : FileRef → Content) (count : FileRef → Nat)
    (good : FileRef → Prop) (replace : FileRef → StoreM (Policy × Nat)) : Prop :=
  ∀ f s, s.WellFormed → (replace f).Meets s mayFail fun found s' =>
    found.2 = count f ∧ Extends s s' (fun _ => False) ∧ Stood s' s.size content good f found.1

/-- How many files are tried for the references in some rows. -/
def countIn (count : FileRef → Nat) (rows : Entries Policy) : Nat :=
  (((references rows).flatMap Prod.snd).map count).sum

variable {mayFail : Prop} {content : FileRef → Content} {count : FileRef → Nat}
  {good : FileRef → Prop} {replace : FileRef → StoreM (Policy × Nat)} {low : Nat}

theorem replacements_meets (h : Replaces mayFail content count good replace) (fs : List FileRef) :
    ∀ {s : Store}, s.WellFormed → low ≤ s.size → ApartFrom low s →
      (replacements replace fs).Meets s mayFail fun found s' =>
        found.2 = (fs.map count).sum ∧ Extends s s' (fun _ => False) ∧
          List.Forall₂ (Stood s' low content good) fs found.1 := by
  induction fs with
  | nil => exact fun hs _ _ => .pure ⟨rfl, .refl hs _, .nil⟩
  | cons f fs ih =>
    intro s hs hlow happart
    refine (h f s hs).bind fun first s₁ hfirst => ?_
    obtain ⟨hcount, hext, hstood⟩ := hfirst
    have happart₁ := hext.apartFrom (fun _ hq => hq.elim) hlow happart
    refine (ih hext.wellFormed (hlow.trans hext.size_le) happart₁).bind fun rest s₂ hrest => ?_
    obtain ⟨hcounts, hext', hall⟩ := hrest
    refine .pure ⟨?_, ?_, .cons ?_ hall⟩
    · rw [List.map_cons, List.sum_cons, ← hcount, ← hcounts]
    · exact (hext.trans hext' fun _ hq => hq.elim).weaken fun _ _ hq => hq.elim id id
    · exact ⟨hext'.stands hext.wellFormed (fun _ hq => hq.elim) happart₁ (hstood.1.mono hlow),
        hstood.2⟩

/-! ## The arrays of a policy -/

theorem references_cons_files (key : String) (fs : List FileRef) (rows : Entries Policy) :
    references ((key, .files fs) :: rows) = (key, fs) :: references rows := rfl

theorem references_cons_of_ne {row : String × Values Policy} (h : row.2.kind ≠ .file)
    (rows : Entries Policy) : references (row :: rows) = references rows := by
  obtain ⟨key, values⟩ := row
  cases values with
  | files fs => exact (h rfl).elim
  | _ => rfl

variable {p : Policy}

/-- Writing policies in the place of an array changes one row of one policy. -/
theorem extends_of_fill {s : Store} (hs : s.WellFormed) (hp : p.id < s.size) {key : String}
    {pre rest : Entries Policy} {fs : List FileRef} {ps : List Policy}
    (hrows : s.entries p = pre ++ (key, .files fs) :: rest) (hps : ∀ c ∈ ps, c.id < s.size)
    (hlength : fs.length = ps.length) :
    Table.insert key (.policies ps) (s.entries p) = pre ++ (key, .policies ps) :: rest ∧
      Extends s (s.setEntries p (pre ++ (key, .policies ps) :: rest)) (· = p) := by
  have hsorted := hs.sorted p
  rw [hrows] at hsorted ⊢
  refine ⟨Table.insert_append_cons hsorted, .setEntries hs hp ?_ (fun c hc => ?_) ?_⟩
  · exact Table.sorted_of_keys_eq hsorted (by simp [Table.keys])
  · obtain ⟨row, hrow, hc⟩ := List.mem_flatMap.mp hc
    have hold (h : row ∈ pre ++ (key, .files fs) :: rest) : c.id < s.size :=
      hs.closed p c (List.mem_flatMap.mpr ⟨row, hrows ▸ h, hc⟩)
    rcases List.mem_append.mp hrow with hrow | hrow
    · exact hold (List.mem_append_left _ hrow)
    · rcases List.mem_cons.mp hrow with rfl | hrow
      · exact hps c hc
      · exact hold (List.mem_append_right _ (List.mem_cons_of_mem _ hrow))
  · intro hfull row hrow
    have hold := hfull p
    rw [hrows] at hold
    rcases List.mem_append.mp hrow with hrow | hrow
    · exact hold row (List.mem_append_left _ hrow)
    · rcases List.mem_cons.mp hrow with rfl | hrow
      · rw [Values.isEmpty_policies_eq hlength]
        exact hold (key, .files fs) (List.mem_append_right _ List.mem_cons_self)
      · exact hold row (List.mem_append_right _ (List.mem_cons_of_mem _ hrow))

theorem replaceArrays_meets (h : Replaces mayFail content count good replace) (hp : p.id < low)
    (rest : Entries Policy) :
    ∀ (pre : Entries Policy) {s : Store}, s.WellFormed → low ≤ s.size → ApartFrom low s →
      s.entries p = pre ++ rest →
      (replaceArrays replace p (references rest)).Meets s mayFail fun n s' =>
        n = countIn count rest ∧ Extends s s' (· = p) ∧
          ∃ rest', s'.entries p = pre ++ rest' ∧
            FilledRows (Stood s' low content good) rest rest' := by
  -- The rows in `pre` have been gone through; their arrays of references are replaced already.
  induction rest with
  | nil =>
    intro pre s hs _ _ hrows
    exact .pure ⟨rfl, .refl hs _, [], hrows, .nil⟩
  | cons row rest ih =>
    intro pre s hs hlow happart hrows
    obtain ⟨key, values⟩ := row
    by_cases hkind : values.kind = .file
    · obtain ⟨fs, rfl⟩ : ∃ fs, values = .files fs := by
        cases values with
        | files fs => exact ⟨fs, rfl⟩
        | _ => cases hkind
      rw [references_cons_files]
      refine (replacements_meets h fs hs hlow happart).bind fun found s₁ hfound => ?_
      obtain ⟨hcount, hext, hall⟩ := hfound
      have happart₁ := hext.apartFrom (fun _ hq => hq.elim) hlow happart
      have hrows₁ := (hext.entries_eq (hp.trans_le hlow) id).trans hrows
      have hp₁ : p.id < s₁.size := (hp.trans_le hlow).trans_le hext.size_le
      have hloaded (c : Policy) (hc : c ∈ found.1) : c.id < s₁.size := by
        obtain ⟨f, _, hf⟩ := exists_of_mem_right hall hc
        exact hf.1.lt_size
      obtain ⟨hinsert, hwrite⟩ := extends_of_fill hext.wellFormed hp₁ hrows₁ hloaded
        hall.length_eq
      refine StoreM.Meets.bind (P := fun _ s₂ =>
        s₂ = s₁.setEntries p (pre ++ (key, .policies found.1) :: rest))
        (congrArg (s₁.setEntries p) hinsert) fun _ s₂ hs₂ => ?_
      subst hs₂
      have hT (q : Policy) (hq : q = p) : q.id < low := hq ▸ hp
      have hlow₁ := hlow.trans hext.size_le
      have hrows₂ : (s₁.setEntries p (pre ++ (key, .policies found.1) :: rest)).entries p =
          (pre ++ [(key, .policies found.1)]) ++ rest := by
        rw [Store.entries_setEntries_self hp₁, List.append_assoc, List.singleton_append]
      refine (ih _ hwrite.wellFormed (hlow₁.trans hwrite.size_le)
        (hwrite.apartFrom hT hlow₁ happart₁) hrows₂).bind fun others s₃ hothers => ?_
      obtain ⟨hcounts, hext₃, rest', hrest', hfilled⟩ := hothers
      have hsince : Extends s₁ s₃ (· = p) :=
        (hwrite.trans hext₃ fun q hq => hq ▸ hp₁).weaken fun _ _ hq => or_self_iff.mp hq
      refine .pure ⟨?_, ?_, (key, .policies found.1) :: rest', ?_, .cons ⟨rfl, .files ?_⟩ hfilled⟩
      · rw [hcount, hcounts, countIn, countIn, references_cons_files, List.flatMap_cons,
          List.map_append, List.sum_append]
      · exact (hext.trans hsince fun q hq => (hT q hq).trans_le hlow).weaken
          fun _ _ hq => hq.resolve_left id
      · rw [hrest', List.append_assoc, List.singleton_append]
      · exact hall.imp fun f c hf =>
          ⟨hsince.stands hext.wellFormed hT happart₁ hf.1, hf.2⟩
    · rw [references_cons_of_ne hkind]
      have hrows' : s.entries p = (pre ++ [(key, values)]) ++ rest := by
        rw [hrows, List.append_assoc, List.singleton_append]
      refine (ih _ hs hlow happart hrows').imp fun n s' hdone => ?_
      obtain ⟨hcount, hext, rest', hrest', hfilled⟩ := hdone
      refine ⟨?_, hext, (key, values) :: rest', ?_, .cons ⟨rfl, .other hkind⟩ hfilled⟩
      · rw [hcount, countIn, countIn, references_cons_of_ne hkind]
      · rw [hrest', List.append_assoc, List.singleton_append]

end Include

end PolicyStore
