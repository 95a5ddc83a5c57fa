import PolicyStore.Proofs.Include.Visiting

set_option autoImplicit false

namespace PolicyStore

/-!
# The references that a run meets

Resolving below a policy looks at the references that are there at the start and at no others. What
is done for other references does not matter, and a failure comes from one of these.
-/

namespace StoreM

variable {α β : Type} {s s' : Store} {e : PolicyError}

theorem bind_congr {m m' : StoreM α} {f g : α → StoreM β} (hm : m' s = m s)
    (hf : ∀ a s', m s = .ok a s' → g a s' = f a s') : (m' >>= g) s = (m >>= f) s := by
  show EStateM.bind m' g s = EStateM.bind m f s
  unfold EStateM.bind
  rw [hm]
  cases hrun : m s with
  | ok a s' => exact hf a s' hrun
  | error e s' => rfl

theorem bind_of_ok {m : StoreM α} {f : α → StoreM β} {a : α} (h : m s = .ok a s') :
    (m >>= f) s = f a s' := by
  show EStateM.bind m f s = _
  rw [EStateM.bind, h]

theorem bind_of_error {m : StoreM α} (h : m s = .error e s') (f : α → StoreM β) :
    (m >>= f) s = .error e s' := by
  show EStateM.bind m f s = _
  rw [EStateM.bind, h]

theorem bind_eq_error {m : StoreM α} {f : α → StoreM β} (h : (m >>= f) s = .error e s') :
    m s = .error e s' ∨ ∃ a s₁, m s = .ok a s₁ ∧ f a s₁ = .error e s' := by
  change EStateM.bind m f s = _ at h
  unfold EStateM.bind at h
  cases hrun : m s with
  | ok a s₁ =>
    rw [hrun] at h
    exact Or.inr ⟨a, s₁, rfl, h⟩
  | error e₁ s₁ =>
    rw [hrun] at h
    cases h
    exact Or.inl rfl

theorem bind_eq_ok {m : StoreM α} {f : α → StoreM β} {b : β} (h : (m >>= f) s = .ok b s') :
    ∃ a s₁, m s = .ok a s₁ ∧ f a s₁ = .ok b s' := by
  change EStateM.bind m f s = _ at h
  unfold EStateM.bind at h
  cases hrun : m s with
  | ok a s₁ =>
    rw [hrun] at h
    exact ⟨a, s₁, rfl, h⟩
  | error e s₁ =>
    rw [hrun] at h
    cases h

theorem Meets.of_ok {m : StoreM α} {mayFail : Prop} {P : α → Store → Prop} {a : α}
    (h : m.Meets s mayFail P) (hrun : m s = .ok a s') : P a s' := by
  rw [StoreM.Meets, hrun] at h
  exact h

theorem Meets.exists_ok {m : StoreM α} {mayFail : Prop} {P : α → Store → Prop}
    (h : m.Meets s mayFail P) (hmay : ¬mayFail) : ∃ a s', m s = .ok a s' ∧ P a s' := by
  unfold StoreM.Meets at h
  cases hm : m s with
  | ok a s' =>
    rw [hm] at h
    exact ⟨a, s', rfl, h⟩
  | error e s' =>
    rw [hm] at h
    exact (hmay h).elim

end StoreM

namespace Include

/-! ## Failures -/

section Failures

variable {replace : FileRef → StoreM (Policy × Nat)} {e : PolicyError} {t : Store}

theorem exists_of_replacements_error {fs : List FileRef} : ∀ {s : Store},
    replacements replace fs s = .error e t → ∃ before f after found s₁, fs = before ++ f :: after ∧
      replacements replace before s = .ok found s₁ ∧ replace f s₁ = .error e t := by
  induction fs with
  | nil => exact fun h => by cases h
  | cons f fs ih =>
    intro s h
    rcases StoreM.bind_eq_error h with hfirst | ⟨first, s₁, hfirst, h⟩
    · exact ⟨[], f, fs, ([], 0), s, rfl, rfl, hfirst⟩
    · rcases StoreM.bind_eq_error h with hrest | ⟨_, _, _, h⟩
      · obtain ⟨before, g, after, found, s₂, rfl, hbefore, hg⟩ := ih hrest
        refine ⟨f :: before, g, after, (first.1 :: found.1, first.2 + found.2), s₂, rfl, ?_, hg⟩
        exact (StoreM.bind_of_ok hfirst).trans (StoreM.bind_of_ok hbefore)
      · cases h

theorem exists_of_replaceArrays_error {p : Policy} {arrays : List (String × List FileRef)} :
    ∀ {s : Store}, replaceArrays replace p arrays s = .error e t →
      ∃ done key fs rest tried s₁, arrays = done ++ (key, fs) :: rest ∧
        replaceArrays replace p done s = .ok tried s₁ ∧ replacements replace fs s₁ = .error e t := by
  induction arrays with
  | nil => exact fun h => by cases h
  | cons array arrays ih =>
    intro s h
    obtain ⟨key, fs⟩ := array
    rcases StoreM.bind_eq_error h with hfirst | ⟨found, s₁, hfound, h⟩
    · exact ⟨[], key, fs, arrays, 0, s, rfl, rfl, hfirst⟩
    · rcases StoreM.bind_eq_error h with hwrite | ⟨_, s₂, hwrite, h⟩
      · cases hwrite
      · rcases StoreM.bind_eq_error h with hrest | ⟨_, _, _, h⟩
        · obtain ⟨done, key', fs', rest, tried, s₃, rfl, hdone, hfs⟩ := ih hrest
          refine ⟨(key, fs) :: done, key', fs', rest, found.2 + tried, s₃, rfl, ?_, hfs⟩
          exact (StoreM.bind_of_ok hfound).trans ((StoreM.bind_of_ok hwrite).trans (StoreM.bind_of_ok hdone))
        · cases h

theorem exists_of_sumOver_error {action : Policy → StoreM Nat} {ps : List Policy} : ∀ {s : Store},
    sumOver action ps s = .error e t → ∃ before c after n s₁, ps = before ++ c :: after ∧
      sumOver action before s = .ok n s₁ ∧ action c s₁ = .error e t := by
  induction ps with
  | nil => exact fun h => by cases h
  | cons p ps ih =>
    intro s h
    rcases StoreM.bind_eq_error h with hfirst | ⟨first, s₁, hfirst, h⟩
    · exact ⟨[], p, ps, 0, s, rfl, rfl, hfirst⟩
    · rcases StoreM.bind_eq_error h with hrest | ⟨_, _, _, h⟩
      · obtain ⟨before, c, after, n, s₂, rfl, hbefore, hc⟩ := ih hrest
        refine ⟨p :: before, c, after, first + n, s₂, rfl, ?_, hc⟩
        exact (StoreM.bind_of_ok hfirst).trans (StoreM.bind_of_ok hbefore)
      · cases h

theorem resolveBelow_error {n : Nat} : ∀ {p : Policy} {s s' : Store},
    resolveBelow replace n p s = .error e s' → ∃ f s₁ s₂, replace f s₁ = .error e s₂ := by
  induction n with
  | zero =>
    intro p s s' h
    cases h
  | succ n ih =>
    intro p s s' h
    rcases StoreM.bind_eq_error h with hget | ⟨_, s₁, _, h⟩
    · cases hget
    rcases StoreM.bind_eq_error h with harrays | ⟨_, s₂, _, h⟩
    · obtain ⟨_, _, fs, _, _, s₂, _, _, hfs⟩ := exists_of_replaceArrays_error harrays
      obtain ⟨_, f, _, _, s₃, _, _, hf⟩ := exists_of_replacements_error hfs
      exact ⟨f, s₃, s', hf⟩
    rcases StoreM.bind_eq_error h with hget | ⟨_, s₃, _, h⟩
    · cases hget
    rcases StoreM.bind_eq_error h with hbelow | ⟨_, s₄, _, h⟩
    · obtain ⟨_, c, _, _, s₄, _, _, hc⟩ := exists_of_sumOver_error hbelow
      exact ih hc
    · cases h

end Failures

/-! ## Runs that agree -/

variable {content : FileRef → Content} {count : FileRef → Nat} {good : FileRef → Prop}
  {mayFail : Prop} {replace replace' : FileRef → StoreM (Policy × Nat)} {s₀ : Store}

theorem replacements_eq (hreplace : Replaces mayFail content count good replace)
    {fs : List FileRef} (heq : ∀ f ∈ fs, ∀ s : Store, s.WellFormed → replace' f s = replace f s) :
    ∀ {s : Store}, s.WellFormed → replacements replace' fs s = replacements replace fs s := by
  induction fs with
  | nil => exact fun _ => rfl
  | cons f fs ih =>
    intro s hs
    apply StoreM.bind_congr (heq f List.mem_cons_self s hs)
    intro first s₁ hfirst
    apply StoreM.bind_congr
    · apply ih fun g hg => heq g (List.mem_cons_of_mem _ hg)
      exact ((hreplace f s hs).of_ok hfirst).2.1.wellFormed
    · exact fun _ _ _ => rfl

/-- The policies that take the place of an array, and the store with them in its place. -/
theorem wellFormed_fill (hreplace : Replaces mayFail content count good replace)
    {fs : List FileRef} {s s₁ : Store} {found : List Policy × Nat} {p : Policy} (key : String)
    (hs : s.WellFormed) (hfound : replacements replace fs s = .ok found s₁) :
    (s₁.setEntries p (Table.insert key (.policies found.1) (s₁.entries p))).WellFormed := by
  have happart : ApartFrom s.size s := (Extends.refl hs fun _ => False).apart
  obtain ⟨_, hext, hall⟩ :=
    (replacements_meets hreplace fs hs (Nat.le_refl _) happart).of_ok hfound
  apply hext.wellFormed.setEntries (Table.sorted_insert (hext.wellFormed.sorted p) _ _)
  intro c hc
  obtain ⟨row, hrow, hc⟩ := List.mem_flatMap.mp hc
  rcases Table.mem_of_mem_insert hrow with rfl | hrow
  · obtain ⟨f, _, hf⟩ := exists_of_mem_right hall hc
    exact hf.1.lt_size
  · exact hext.wellFormed.closed p c (List.mem_flatMap.mpr ⟨row, hrow, hc⟩)

theorem replaceArrays_eq (hreplace : Replaces mayFail content count good replace) {p : Policy}
    {arrays : List (String × List FileRef)}
    (heq : ∀ f ∈ arrays.flatMap Prod.snd, ∀ s : Store, s.WellFormed → replace' f s = replace f s) :
    ∀ {s : Store}, s.WellFormed →
      replaceArrays replace' p arrays s = replaceArrays replace p arrays s := by
  induction arrays with
  | nil => exact fun _ => rfl
  | cons array arrays ih =>
    intro s hs
    obtain ⟨key, fs⟩ := array
    rw [List.flatMap_cons] at heq
    apply StoreM.bind_congr
    · exact replacements_eq hreplace (fun f hf => heq f (List.mem_append_left _ hf)) hs
    intro found s₁ hfound
    apply StoreM.bind_congr rfl
    intro _ s₂ hwrite
    cases hwrite
    apply StoreM.bind_congr
    · apply ih fun f hf => heq f (List.mem_append_right _ hf)
      exact wellFormed_fill hreplace key hs hfound
    · exact fun _ _ _ => rfl

theorem sumOver_eq {m n : Nat} {ps : List Policy}
    (hold : ∀ c ∈ ps, c.id < s₀.size → ∀ {done : Finset Policy} {s : Store},
      Progress s₀ content good done s →
      resolveBelow replace' m c s = resolveBelow replace n c s ∧
        (resolveBelow replace n c).Meets s mayFail (Visits s₀ content count good done s [c])) :
    ∀ {done : Finset Policy} {s : Store}, Progress s₀ content good done s →
      (∀ c ∈ ps, s₀.size ≤ c.id → c.id < s.size ∧ s.Clean c) →
      sumOver (resolveBelow replace' m) ps s = sumOver (resolveBelow replace n) ps s := by
  induction ps with
  | nil => exact fun _ _ => rfl
  | cons c ps ih =>
    intro done s h hnew
    have hold' (d : Policy) (hd : d ∈ ps) := hold d (List.mem_cons_of_mem _ hd)
    have hnew' (d : Policy) (hd : d ∈ ps) := hnew d (List.mem_cons_of_mem _ hd)
    by_cases hc : c.id < s₀.size
    · obtain ⟨heq, hmeets⟩ := hold c List.mem_cons_self hc h
      apply StoreM.bind_congr heq
      intro k s₁ hrun
      obtain ⟨hprogress, hkeeps, _⟩ := hmeets.of_ok hrun
      apply StoreM.bind_congr
      · apply ih hold' hprogress
        intro d hd hlow
        obtain ⟨hlt, hclean⟩ := hnew' d hd hlow
        exact ⟨hlt.trans_le hkeeps.size_le,
          hkeeps.clean h.grown.wellFormed h.grown.apart hlow hlt hclean⟩
      · exact fun _ _ _ => rfl
    · have hclean := (hnew c List.mem_cons_self (Nat.le_of_not_lt hc)).2
      have hrun := resolveBelow_of_clean replace n hclean
      apply StoreM.bind_congr
      · rw [resolveBelow_of_clean replace' m hclean, hrun]
      intro k s₁ hk
      rw [hrun] at hk
      cases hk
      apply StoreM.bind_congr (ih hold' h hnew')
      exact fun _ _ _ => rfl

/-- Only the references at the start matter, and no more levels than the policy has. -/
theorem resolveBelow_eq (hreplace : Replaces mayFail content count good replace)
    (hs₀ : s₀.WellFormed) (n : Nat) :
    ∀ {m : Nat} {p : Policy} {done : Finset Policy} {s : Store}, n ≤ m → s₀.Within n p →
      p.id < s₀.size → Progress s₀ content good done s →
      (∀ q, s₀.Reaches p q → ∀ f ∈ s₀.fileRefs q, ∀ s : Store, s.WellFormed →
        replace' f s = replace f s) →
      resolveBelow replace' m p s = resolveBelow replace n p s := by
  induction n with
  | zero => exact fun _ hn => hn.elim
  | succ n ih =>
    intro m p done s hle hn hp h heq
    obtain ⟨m, rfl⟩ : ∃ k, m = k + 1 := ⟨m - 1, by omega⟩
    apply StoreM.bind_congr rfl
    intro s₁ s₂ hget
    cases hget
    have harrays : ∀ f ∈ (references (s.entries p)).flatMap Prod.snd, ∀ s : Store,
        s.WellFormed → replace' f s = replace f s := by
      by_cases hdone : p ∈ done
      · rw [(h.visited p hdone).2.references_eq_nil]
        intro f hf
        cases hf
      · rw [h.grown.entries_eq hp hdone]
        exact heq p .refl
    apply StoreM.bind_congr (replaceArrays_eq hreplace harrays h.grown.wellFormed)
    intro tried s₁ hvisit
    obtain ⟨hprogress, _, _, _⟩ := (visit_meets hreplace h hs₀ hp).of_ok hvisit
    apply StoreM.bind_congr rfl
    intro s₂ s₃ hget
    cases hget
    have hchild (c : Policy)
        (hc : c ∈ others ((references (s.entries p)).map Prod.fst) (s₁.entries p)) :=
      hprogress.child_cases (Finset.mem_insert_self p done) (mem_of_mem_others hc)
    have hold : ∀ c ∈ others ((references (s.entries p)).map Prod.fst) (s₁.entries p),
        c.id < s₀.size → ∀ {done : Finset Policy} {s : Store}, Progress s₀ content good done s →
        resolveBelow replace' m c s = resolveBelow replace n c s ∧
          (resolveBelow replace n c).Meets s mayFail (Visits s₀ content count good done s [c]) := by
      intro c hc hlt done s h
      have hbelow : c ∈ s₀.below p :=
        (hchild c hc).resolve_right fun hnew => absurd hnew.1 (Nat.not_le_of_lt hlt)
      refine ⟨?_, resolveBelow_meets hreplace hs₀ n (hn c hbelow) hlt h⟩
      apply ih (Nat.le_of_succ_le_succ hle) (hn c hbelow) hlt h
      exact fun q hq => heq q (hq.head hbelow)
    apply StoreM.bind_congr
    · apply sumOver_eq hold hprogress
      intro c hc hlow
      rcases hchild c hc with hbelow | hnew
      · exact absurd hlow (Nat.not_le_of_lt (hs₀.closed p c hbelow))
      · exact hnew.2
    · exact fun _ _ _ => rfl

/-- A failure comes from a reference that is there at the start. -/
theorem exists_failing_reference (hreplace : Replaces mayFail content count good replace)
    (hs₀ : s₀.WellFormed) {n : Nat} {p : Policy} {s' : Store} {e : PolicyError}
    (hn : s₀.Within n p) (hp : p.id < s₀.size)
    (hrun : resolveBelow replace n p s₀ = .error e s') :
    ∃ q, s₀.Reaches p q ∧ ∃ f ∈ s₀.fileRefs q, ∃ s₁ s₂, s₁.WellFormed ∧
      replace f s₁ = .error e s₂ := by
  classical
  -- Where it does not matter, this one does not fail.
  let replace' : FileRef → StoreM (Policy × Nat) := fun f s =>
    if s.WellFormed ∧ ∃ q, s₀.Reaches p q ∧ f ∈ s₀.fileRefs q then replace f s else .ok (p, 0) s
  have hrun' : resolveBelow replace' n p s₀ = .error e s' := by
    rw [← hrun]
    apply resolveBelow_eq hreplace hs₀ n (Nat.le_refl n) hn hp (.start hs₀)
    intro q hq f hf s hs
    exact if_pos ⟨hs, q, hq, hf⟩
  obtain ⟨f, s₁, s₂, hf⟩ := resolveBelow_error hrun'
  by_cases hmet : s₁.WellFormed ∧ ∃ q, s₀.Reaches p q ∧ f ∈ s₀.fileRefs q
  · obtain ⟨hs₁, q, hq, hmem⟩ := hmet
    refine ⟨q, hq, f, hmem, s₁, s₂, hs₁, ?_⟩
    rw [← hf]
    exact (if_pos ⟨hs₁, q, hq, hmem⟩).symm
  · have hok : replace' f s₁ = .ok (p, 0) s₁ := if_neg hmet
    rw [hok] at hf
    cases hf

end Include

end PolicyStore
