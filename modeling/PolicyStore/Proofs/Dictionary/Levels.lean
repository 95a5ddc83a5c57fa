import PolicyStore.Proofs.Dictionary.Feeding

set_option autoImplicit false

namespace PolicyStore

/-!
# One round for each level

A round of loading turns the names that there are and includes their files. What is named then is
named in these files, so that each round comes one level deeper into the unfolding.
-/

namespace Dictionary

open Include (Settings)

variable {cfg : Settings} {P : String → Prop} {s s' s'' : Store} {p q : Policy} {f : FileRef}
  {path : String} {m n : Nat}

/-! ## One reference -/

/-- A file without references takes the place of a reference to it. -/
theorem replacement_of_namesOnly (h : NamesOnly cfg (f.resolve cfg.repository)) (s : Store) :
    ∃ own : Store, own.Tidy ∧ 0 < own.size ∧ OnlyNames own (own.entries ⟨0⟩) ∧
      names cfg own (own.entries ⟨0⟩) = namesIn cfg (f.resolve cfg.repository) ∧
      Include.replacement cfg (Include.inner cfg Include.maxDepth) [] f s =
        .ok (⟨s.size⟩, 1) (s.above own) := by
  obtain ⟨r, own, hread, honly⟩ := h
  obtain ⟨htidy, hfile⟩ := ofFile_above s cfg.files true ⟨f.resolve cfg.repository, none⟩
  unfold StoreM.after at htidy
  rw [hread] at htidy hfile
  obtain ⟨rfl, hsize, hfile⟩ := hfile
  have hnames : namesIn cfg (f.resolve cfg.repository) = names cfg own (own.entries ⟨0⟩) := by
    rw [namesIn, hread]
  have hclean : (s.above own).Clean ⟨s.size⟩ := by
    intro q hq
    rw [root_eq_raise, Store.reaches_above_raise_iff] at hq
    obtain ⟨r, rfl, hr⟩ := hq
    rw [Store.entries_above_raise, Store.references_raise]
    exact honly.clean_root r hr
  refine ⟨own, htidy, hsize, honly, hnames.symm, ?_⟩
  have hopen : Include.open? cfg (Include.inner cfg Include.maxDepth) []
      (f.resolve cfg.repository) (Include.keyOf cfg f) s = .ok ⟨s.size⟩ (s.above own) := hfile
  have hinner : Include.inner cfg Include.maxDepth = some (Include.resolve cfg 31) := rfl
  rw [hinner] at hopen ⊢
  rw [Include.replacement_of_ok hopen, Include.resolve_eq, Include.resolveBelow_of_clean _ _ hclean]

/-! ## One inclusion -/

/-- Some files have been included, whose names have come on top. -/
structure Fed (cfg : Settings) (P : String → Prop) (p : Policy) (s : Store) (n : Nat)
    (s' : Store) : Prop where
  prepared : Prepared cfg P p s'
  reaches : ∀ q, s.Reaches p q → s'.Reaches p q
  files : ∃ paths : Multiset String, paths.card = n ∧
    gather (awaited cfg) s (s.entries p) = paths + gather (awaited cfg) s' (s'.entries p) ∧
    names cfg s' (s'.entries p) = names cfg s (s.entries p) + paths.bind (namesIn cfg)

theorem Fed.refl (h : Prepared cfg P p s) : Fed cfg P p s 0 s :=
  ⟨h, fun _ => id, 0, rfl, (zero_add _).symm, by rw [Multiset.zero_bind, add_zero]⟩

theorem Fed.trans (h : Fed cfg P p s m s') (h' : Fed cfg P p s' n s'') :
    Fed cfg P p s (m + n) s'' := by
  obtain ⟨paths, rfl, hawaited, hnames⟩ := h.files
  obtain ⟨paths', rfl, hawaited', hnames'⟩ := h'.files
  refine ⟨h'.prepared, fun q hq => h'.reaches q (h.reaches q hq), paths + paths',
    Multiset.card_add _ _, ?_, ?_⟩
  · rw [hawaited, hawaited', add_assoc]
  · rw [hnames', hnames, Multiset.add_bind, add_assoc]

section Include

variable (hP : ∀ path, P path → NamesOnly cfg path ∧ ∀ next ∈ namesIn cfg path, P next)

include hP

/-- A policy that is reached has its reference replaced, if it holds one. -/
theorem replaceArrays_fed (h : Prepared cfg P p s) (hq : s.Reaches p q) :
    (Include.replaceArrays (Include.replacement cfg (Include.inner cfg Include.maxDepth) []) q
      (Include.references (s.entries q))).Meets s False (Fed cfg P p s) := by
  rcases List.eq_nil_or_concat (Include.references (s.entries q)) with hnil | ⟨_, ⟨key, fs⟩, heq⟩
  · rw [hnil]
    exact .pure (.refl h)
  have hrow : (key, Values.files fs) ∈ s.entries q := by
    apply Include.mem_references_iff.mp
    rw [heq]
    simp
  obtain ⟨_, rfl, f, rfl, hf⟩ := h.references q hq key fs hrow
  have hget := Table.get?_of_mem (h.sorted q) hrow
  obtain ⟨own, htidy, hsize, honly, hnames, hreplace⟩ := replacement_of_namesOnly (hP _ hf).1 s
  have hmeal := h.meal hq hrow htidy hsize
  have hprepared := h.feed hmeal honly fun path hpath => (hP _ hf).2 path (hnames ▸ hpath)
  have hentries : (s.above own).entries q = s.entries q := by
    rw [Store.entries, Store.node_above_of_lt hmeal.block_lt, Store.entries]
  have hrun : Include.replaceArrays
      (Include.replacement cfg (Include.inner cfg Include.maxDepth) []) q
      [(Definition.dictionaryKey, [f])] s = .ok 1 (fed s own q) := by
    simp only [Include.replaceArrays, Include.replacements, bind, EStateM.bind, hreplace, pure,
      EStateM.pure, modify, modifyGet, MonadStateOf.modifyGet, EStateM.modifyGet, hentries]
    rfl
  rw [h.references_waiting hq hget, StoreM.Meets, hrun]
  refine ⟨hprepared, fun r => hmeal.reaches_fed, {f.resolve cfg.repository},
    Multiset.card_singleton _, h.awaited_fed hmeal honly hget, ?_⟩
  rw [hmeal.names_fed, Multiset.singleton_bind, hnames]

omit hP in
theorem sumOver_fed {action : Policy → StoreM Nat}
    (haction : ∀ q s, Prepared cfg P p s → s.Reaches p q → (action q).Meets s False (Fed cfg P p s))
    {ps : List Policy} : ∀ s, Prepared cfg P p s → (∀ q ∈ ps, s.Reaches p q) →
      (Include.sumOver action ps).Meets s False (Fed cfg P p s) := by
  induction ps with
  | nil => exact fun s h _ => .pure (.refl h)
  | cons q ps ih =>
    intro s h hps
    refine (haction q s h (hps q List.mem_cons_self)).bind fun first s₁ hfirst => ?_
    refine (ih s₁ hfirst.prepared fun r hr =>
      hfirst.reaches r (hps r (List.mem_cons_of_mem _ hr))).bind fun rest s₂ hrest => ?_
    exact .pure (hfirst.trans hrest)

theorem resolveBelow_fed (depth : Nat) : ∀ q s, Prepared cfg P p s → s.Reaches p q →
    (Include.resolveBelow (Include.replacement cfg (Include.inner cfg Include.maxDepth) [])
      depth q).Meets s False (Fed cfg P p s) := by
  induction depth with
  | zero => exact fun q s h _ => .pure (.refl h)
  | succ depth ih =>
    intro q s h hq
    refine .get_bind ((replaceArrays_fed hP h hq).bind fun tried s₁ htried => .get_bind ?_)
    refine (sumOver_fed ih s₁ htried.prepared fun c hc => ?_).bind fun rest s₂ hrest => ?_
    · exact (htried.reaches q hq).tail (Include.mem_of_mem_others hc)
    · exact .pure (htried.trans hrest)

/-- All references are replaced, and the names in their files come on top. -/
theorem Prepared.includeFiles (h : Prepared cfg P p s) (hs : s.Grounded p) :
    ∃ s', p.includeFiles cfg s = .ok (gather (awaited cfg) s (s.entries p)).card s' ∧
      Prepared cfg P p s' ∧ s'.Grounded p ∧ s'.Clean p ∧
      names cfg s' (s'.entries p) = names cfg s (s.entries p) +
        (gather (awaited cfg) s (s.entries p)).bind (namesIn cfg) := by
  have hmeets := resolveBelow_fed hP s.size p s h .refl
  rw [StoreM.Meets, ← Include.resolve_eq] at hmeets
  cases hrun : p.includeFiles cfg s with
  | error e s' =>
    unfold Policy.includeFiles at hrun
    rw [hrun] at hmeets
    exact hmeets.elim
  | ok n s' =>
    have hincludes := Include.includes_of_includeFiles hs hrun
    unfold Policy.includeFiles at hrun
    rw [hrun] at hmeets
    obtain ⟨hprepared, _, paths, rfl, hawaited, hnames⟩ := hmeets
    have hnone : gather (awaited cfg) s' (s'.entries p) = 0 := gather_eq_zero fun b hb =>
      awaited_of_references_eq_nil (hincludes.clean b (hprepared.reaches hb))
    rw [hnone, add_zero] at hawaited
    subst hawaited
    exact ⟨s', rfl, hprepared, hincludes.grounded hs, hincludes.clean, hnames⟩

end Include

/-! ## Rounds -/

/-- A dictionary between two rounds. -/
structure Rested (cfg : Settings) (P : String → Prop) (p : Policy) (s : Store) : Prop where
  prepared : Prepared cfg P p s
  grounded : s.Grounded p
  clean : s.Clean p

theorem Rested.awaited_eq (h : Rested cfg P p s) : gather (awaited cfg) s (s.entries p) = 0 :=
  gather_eq_zero fun b hb => awaited_of_references_eq_nil (h.clean b (h.prepared.reaches hb))

theorem loadRounds_succ {turned tried rounds : Nat} {s₁ s₂ : Store}
    (hturn : turnFiles (s.size + 1) (s.entries p) s = .ok turned s₁)
    (hinclude : p.includeFiles cfg s₁ = .ok tried s₂) : loadRounds cfg p (rounds + 1) s =
      if turned = 0 then .ok tried s₂
      else match loadRounds cfg p rounds s₂ with
        | .ok others s₃ => .ok (tried + others) s₃
        | .error e s₃ => .error e s₃ := by
  have hget : (get : StoreM Store) s = .ok s s := rfl
  simp only [loadRounds, bind, EStateM.bind, hget, hturn, hinclude]
  split
  · rfl
  · change EStateM.bind (loadRounds cfg p rounds) _ s₂ = _
    unfold EStateM.bind
    cases loadRounds cfg p rounds s₂ <;> rfl

section Rounds

variable (hP : ∀ path, P path → NamesOnly cfg path ∧ ∀ next ∈ namesIn cfg path, P next)

include hP

/-- A round includes the files that are named, and comes to the names in them. -/
theorem Rested.round (h : Rested cfg P p s) : ∃ s₁ s₂,
    turnFiles (s.size + 1) (s.entries p) s = .ok (names cfg s (s.entries p)).card s₁ ∧
      p.includeFiles cfg s₁ = .ok (names cfg s (s.entries p)).card s₂ ∧ Rested cfg P p s₂ ∧
      names cfg s₂ (s₂.entries p) = (names cfg s (s.entries p)).bind (namesIn cfg) := by
  obtain ⟨s₁, hturn, hturns, hprepared, hnone, hawaited⟩ := h.prepared.turnFiles h.grounded
  have hground := (hturns.turned h.grounded.toWellFormed).grounded h.grounded
  obtain ⟨s₂, hinclude, hprepared', hground', hclean, hnames⟩ := hprepared.includeFiles hP hground
  rw [h.awaited_eq, add_zero] at hawaited
  rw [hawaited] at hinclude hnames
  rw [hnone, zero_add] at hnames
  exact ⟨s₁, s₂, hturn, hinclude, ⟨hprepared', hground', hclean⟩, hnames⟩

/-- With a round to spare for each level, loading includes all files of the unfolding. -/
theorem Rested.loadRounds_ok (rounds : Nat) : ∀ {s : Store}, Rested cfg P p s →
    (∃ i < rounds, level cfg (names cfg s (s.entries p)) i = 0) →
      ∃ s', loadRounds cfg p rounds s =
          .ok (∑ i ∈ Finset.range rounds, (level cfg (names cfg s (s.entries p)) i).card) s' ∧
        Rested cfg P p s' ∧ names cfg s' (s'.entries p) = 0 := by
  induction rounds with
  | zero => exact fun _ ⟨_, hi, _⟩ => (Nat.not_lt_zero _ hi).elim
  | succ rounds ih =>
    intro s h hlevel
    obtain ⟨s₁, s₂, hturn, hinclude, hrested, hnames⟩ := h.round hP
    rw [loadRounds_succ hturn hinclude, Finset.sum_range_succ']
    have hfirst (paths : Multiset String) : level cfg paths 0 = paths := rfl
    split
    · rename_i hzero
      have hnone := Multiset.card_eq_zero.mp hzero
      rw [hnone, Multiset.zero_bind] at hnames
      rw [hnone]
      refine ⟨s₂, ?_, hrested, hnames⟩
      simp only [level_zero, Multiset.card_zero, Finset.sum_const_zero]
    · rename_i hsome
      obtain ⟨s', hrun, hrested', hnone⟩ := ih hrested (by
        obtain ⟨i, hi, hlevel⟩ := hlevel
        cases i with
        | zero => exact (hsome (Multiset.card_eq_zero.mpr hlevel)).elim
        | succ i =>
          rw [hnames]
          exact ⟨i, Nat.lt_of_succ_lt_succ hi, hlevel⟩)
      refine ⟨s', ?_, hrested', hnone⟩
      rw [hrun, hnames, hfirst, add_comm]
      rfl

/-- Where no level is empty the rounds come to an end before the names do. -/
theorem Rested.loadRounds_error (rounds : Nat) : ∀ {s : Store}, Rested cfg P p s →
    (∀ i < rounds, level cfg (names cfg s (s.entries p)) i ≠ 0) →
      ∃ s', loadRounds cfg p rounds s =
        .error (.dictionary (.tooDeep cfg.repository maxDepth)) s' := by
  induction rounds with
  | zero => exact fun _ _ => ⟨_, rfl⟩
  | succ rounds ih =>
    intro s h hlevel
    obtain ⟨s₁, s₂, hturn, hinclude, hrested, hnames⟩ := h.round hP
    obtain ⟨s', hrun⟩ := ih hrested fun i hi => by
      rw [hnames]
      exact hlevel (i + 1) (Nat.succ_lt_succ hi)
    have hsome : (names cfg s (s.entries p)).card ≠ 0 := fun hzero =>
      hlevel 0 (Nat.succ_pos _) (Multiset.card_eq_zero.mp hzero)
    refine ⟨s', ?_⟩
    rw [loadRounds_succ hturn hinclude, if_neg hsome, hrun]

end Rounds

end Dictionary

end PolicyStore
