import PolicyStore.Proofs.Include.Arrays

set_option autoImplicit false

namespace PolicyStore

/-!
# Visiting the policies below one

Resolving visits the policies below one, shared ones several times. The first visit replaces the
references of a policy, and later visits find none.
-/

namespace Store

variable {s : Store} {p q : Policy} {ps : List Policy}

theorem mem_reachedFrom_iff : q ∈ s.reachedFrom ps ↔ q.id < s.size ∧ ∃ p ∈ ps, s.Reaches p q := by
  classical
  rw [reachedFrom, Finset.mem_filter, mem_handles_iff]

theorem reachedFrom_closed (hs : s.WellFormed) (hq : q ∈ s.reachedFrom ps) {c : Policy}
    (hc : c ∈ s.below q) : c ∈ s.reachedFrom ps := by
  obtain ⟨_, p, hp, hreach⟩ := mem_reachedFrom_iff.mp hq
  exact mem_reachedFrom_iff.mpr ⟨hs.closed q c hc, p, hp, hreach.tail hc⟩

theorem reachedFrom_nil (s : Store) : s.reachedFrom [] = ∅ := by
  refine Finset.ext fun q => ?_
  rw [mem_reachedFrom_iff]
  constructor
  · rintro ⟨_, p, hp, _⟩
    cases hp
  · exact fun h => (Finset.notMem_empty q h).elim

theorem reachedFrom_cons (s : Store) (p : Policy) (ps : List Policy) :
    s.reachedFrom (p :: ps) = s.reachedFrom [p] ∪ s.reachedFrom ps := by
  refine Finset.ext fun q => ?_
  simp only [Finset.mem_union, mem_reachedFrom_iff, List.mem_cons, List.not_mem_nil, or_false]
  constructor
  · rintro ⟨hq, r, rfl | hr, hreach⟩
    · exact Or.inl ⟨hq, r, rfl, hreach⟩
    · exact Or.inr ⟨hq, r, hr, hreach⟩
  · rintro (⟨hq, r, rfl, hreach⟩ | ⟨hq, r, hr, hreach⟩)
    · exact ⟨hq, r, Or.inl rfl, hreach⟩
    · exact ⟨hq, r, Or.inr hr, hreach⟩

/-- A handle that the store has not given out reaches none that it has. -/
theorem reachedFrom_of_size_le (h : s.size ≤ p.id) : s.reachedFrom [p] = ∅ := by
  refine Finset.eq_empty_of_forall_notMem fun q hq => ?_
  obtain ⟨hlt, r, hr, hreach⟩ := mem_reachedFrom_iff.mp hq
  cases List.mem_singleton.mp hr
  rcases Relation.ReflTransGen.cases_head hreach with rfl | ⟨c, hc, _⟩
  · omega
  · have := lt_size_of_mem_below hc
    omega

/-- A policy reaches itself and what is reached from those that it holds. New handles may be among
these, as they reach nothing. -/
theorem reachedFrom_singleton (hp : p.id < s.size) (hcover : ∀ c ∈ s.below p, c ∈ ps)
    (hold : ∀ c ∈ ps, c ∈ s.below p ∨ s.size ≤ c.id) :
    s.reachedFrom [p] = insert p (s.reachedFrom ps) := by
  refine Finset.ext fun q => ?_
  simp only [Finset.mem_insert, mem_reachedFrom_iff, List.mem_singleton, exists_eq_left]
  constructor
  · rintro ⟨hq, hreach⟩
    rcases Relation.ReflTransGen.cases_head hreach with rfl | ⟨c, hc, hreach⟩
    · exact Or.inl rfl
    · exact Or.inr ⟨hq, c, hcover c hc, hreach⟩
  · rintro (rfl | ⟨hq, c, hc, hreach⟩)
    · exact ⟨hp, .refl⟩
    · rcases hold c hc with hc | hc
      · exact ⟨hq, hreach.head hc⟩
      · have hmem : q ∈ s.reachedFrom [c] :=
          mem_reachedFrom_iff.mpr ⟨hq, c, List.mem_cons_self, hreach⟩
        rw [reachedFrom_of_size_le hc] at hmem
        exact (Finset.notMem_empty q hmem).elim

end Store

namespace Include

/-! ## Policies without references -/

theorem sumOver_of_zero {action : Policy → StoreM Nat} {s : Store} {ps : List Policy}
    (h : ∀ p ∈ ps, action p s = .ok 0 s) : sumOver action ps s = .ok 0 s := by
  induction ps with
  | nil => rfl
  | cons p ps ih =>
    have hrest := ih fun q hq => h q (List.mem_cons_of_mem _ hq)
    simp only [sumOver, bind, EStateM.bind, h p List.mem_cons_self, hrest]
    rfl

theorem others_nil (rows : Entries Policy) :
    others [] rows = rows.flatMap fun row => row.2.children := by
  have hall : (rows.filter fun row => !List.contains [] row.1) = rows :=
    List.filter_eq_self.mpr fun _ _ => rfl
  rw [others, hall]

/-- Below a policy without references nothing is done. -/
theorem resolveBelow_of_clean (replace : FileRef → StoreM (Policy × Nat)) {s : Store} (n : Nat) :
    ∀ {p : Policy}, s.Clean p → resolveBelow replace n p s = .ok 0 s := by
  induction n with
  | zero => exact fun _ => rfl
  | succ n ih =>
    intro p hp
    have hbelow : sumOver (resolveBelow replace n) (s.below p) s = .ok 0 s :=
      sumOver_of_zero fun c hc => ih fun q hq => hp q (hq.head hc)
    have hget : (get : StoreM Store) s = .ok s s := rfl
    simp only [resolveBelow, bind, EStateM.bind, hget, hp p .refl, replaceArrays, pure, EStateM.pure,
      List.map_nil, others_nil]
    rw [Store.below] at hbelow
    rw [hbelow]

/-! ## Visits -/

/-- The policies in `done` have been visited since `s₀`. Nothing else has been changed, and what is
in the place of their references has none left. -/
structure Progress (s₀ : Store) (content : FileRef → Content) (good : FileRef → Prop)
    (done : Finset Policy) (s : Store) : Prop where
  grown : Extends s₀ s (· ∈ done)
  visited : ∀ q ∈ done, q.id < s₀.size ∧
    FilledRows (Stood s s₀.size content good) (s₀.entries q) (s.entries q)

variable {s₀ s s' : Store} {content : FileRef → Content} {count : FileRef → Nat}
  {good : FileRef → Prop} {done : Finset Policy} {mayFail : Prop}
  {replace : FileRef → StoreM (Policy × Nat)} {p : Policy}

theorem Progress.start (h : s₀.WellFormed) : Progress s₀ content good ∅ s₀ where
  grown := .refl h _
  visited q hq := (Finset.notMem_empty q hq).elim

theorem Progress.lt_size (h : Progress s₀ content good done s) {q : Policy} (hq : q ∈ done) :
    q.id < s₀.size :=
  (h.visited q hq).1

/-- The first visit of a policy. -/
theorem Progress.insert (h : Progress s₀ content good done s) (hext : Extends s s' (· = p))
    (hp : p.id < s₀.size)
    (hfilled : FilledRows (Stood s' s₀.size content good) (s₀.entries p) (s'.entries p)) :
    Progress s₀ content good (insert p done) s' where
  grown := (h.grown.trans hext fun q hq => hq ▸ hp).weaken
    fun q _ hq => Finset.mem_insert.mpr hq.symm
  visited q hq := by
    by_cases hqp : q = p
    · subst hqp
      exact ⟨hp, hfilled⟩
    · have hdone := (Finset.mem_insert.mp hq).resolve_left hqp
      have hlt := h.lt_size hdone
      refine ⟨hlt, ?_⟩
      rw [hext.entries_eq (hlt.trans_le h.grown.size_le) hqp]
      exact (h.visited q hdone).2.mono fun f c hc =>
        ⟨hext.stands h.grown.wellFormed (fun r hr => hr ▸ hp) h.grown.apart hc.1, hc.2⟩

theorem mem_references_iff {rows : Entries Policy} {key : String} {fs : List FileRef} :
    (key, fs) ∈ references rows ↔ (key, Values.files fs) ∈ rows := by
  rw [references, List.mem_filterMap]
  constructor
  · rintro ⟨⟨key', values⟩, hrow, hfiles⟩
    cases values with
    | files gs =>
      cases hfiles
      exact hrow
    | _ => cases hfiles
  · exact fun hrow => ⟨_, hrow, rfl⟩

/-- The policies among the rows that were there before are found under the other keys. -/
theorem mem_others_of_filled {P : FileRef → Policy → Prop} {rows rows' : Entries Policy}
    (hsorted : Table.Sorted rows) (h : FilledRows P rows rows') {c : Policy}
    (hc : c ∈ rows.flatMap fun row => row.2.children) :
    c ∈ others ((references rows).map Prod.fst) rows' := by
  obtain ⟨⟨key, values⟩, hrow, hc⟩ := List.mem_flatMap.mp hc
  cases values with
  | policies children =>
    refine List.mem_flatMap.mpr ⟨(key, .policies children), List.mem_filter.mpr ⟨?_, ?_⟩, hc⟩
    · exact h.child_of_mem hrow
    · rw [Bool.not_eq_true', List.contains_eq_mem, decide_eq_false_iff_not]
      intro hkey
      obtain ⟨⟨key', fs⟩, hfound, rfl⟩ := List.mem_map.mp hkey
      have hfiles := Table.get?_of_mem hsorted (mem_references_iff.mp hfound)
      rw [Table.get?_of_mem hsorted hrow] at hfiles
      cases hfiles
  | _ => cases hc

/-- A policy's own references are replaced unless it has been visited before. -/
theorem visit_meets (hreplace : Replaces mayFail content count good replace)
    (h : Progress s₀ content good done s) (hs₀ : s₀.WellFormed) (hp : p.id < s₀.size) :
    (replaceArrays replace p (references (s.entries p))).Meets s mayFail fun m s' =>
      Progress s₀ content good (insert p done) s' ∧ Keeps s₀.size s s' ∧
        s₀.weigh count done + m = s₀.weigh count (insert p done) ∧
          ∀ c ∈ s₀.below p, c ∈ others ((references (s.entries p)).map Prod.fst) (s'.entries p) := by
  -- A policy that was visited before has no references left, so that it counts only once.
  by_cases hdone : p ∈ done
  · have hfilled := (h.visited p hdone).2
    rw [hfilled.references_eq_nil, Finset.insert_eq_of_mem hdone]
    refine .pure ⟨h, .refl _ _, rfl, fun c hc => ?_⟩
    rw [List.map_nil, others_nil]
    obtain ⟨key, children, hrow, hc⟩ := Store.mem_below_iff.mp hc
    exact List.mem_flatMap.mpr ⟨_, hfilled.child_of_mem hrow, hc⟩
  · have hrows : s.entries p = s₀.entries p := h.grown.entries_eq hp hdone
    have hlow := h.grown.size_le
    rw [hrows]
    refine (replaceArrays_meets hreplace hp (s₀.entries p) [] h.grown.wellFormed hlow
      h.grown.apart hrows).imp fun m s' hm => ?_
    obtain ⟨hcount, hext, rows', hrows', hfilled⟩ := hm
    rw [List.nil_append] at hrows'
    rw [← hrows'] at hfilled
    refine ⟨h.insert hext hp hfilled, hext.keeps fun q hq => hq ▸ hp, ?_, fun c hc => ?_⟩
    · rw [hcount, Store.weigh, Store.weigh, Finset.sum_insert hdone, Nat.add_comm]
      rfl
    · exact mem_others_of_filled (hs₀.sorted p) hfilled hc

/-- All that is below a visited policy now was below it before, or is new and has no references. -/
theorem Progress.child_cases (h : Progress s₀ content good done s) (hp : p ∈ done) {c : Policy}
    (hc : c ∈ s.below p) : c ∈ s₀.below p ∨ s₀.size ≤ c.id ∧ c.id < s.size ∧ s.Clean c :=
  ((h.visited p hp).2.child_cases hc).imp_right fun ⟨_, hstood⟩ =>
    ⟨hstood.1.low_le, hstood.1.lt_size, hstood.1.clean⟩

theorem mem_of_mem_others {keys : List String} {rows : Entries Policy} {c : Policy}
    (h : c ∈ others keys rows) : c ∈ rows.flatMap fun row => row.2.children := by
  obtain ⟨row, hrow, hc⟩ := List.mem_flatMap.mp h
  exact List.mem_flatMap.mpr ⟨row, List.mem_of_mem_filter hrow, hc⟩

/-- What visiting some policies, and those below them, comes to. -/
def Visits (s₀ : Store) (content : FileRef → Content) (count : FileRef → Nat)
    (good : FileRef → Prop) (done : Finset Policy) (s : Store) (ps : List Policy) (m : Nat)
    (s' : Store) : Prop :=
  Progress s₀ content good (done ∪ s₀.reachedFrom ps) s' ∧ Keeps s₀.size s s' ∧
    s₀.weigh count done + m = s₀.weigh count (done ∪ s₀.reachedFrom ps)

theorem sumOver_meets {n : Nat} {ps : List Policy}
    (hold : ∀ c ∈ ps, c.id < s₀.size → ∀ {done : Finset Policy} {s : Store},
      Progress s₀ content good done s →
      (resolveBelow replace n c).Meets s mayFail (Visits s₀ content count good done s [c])) :
    ∀ {done : Finset Policy} {s : Store}, Progress s₀ content good done s →
      (∀ c ∈ ps, s₀.size ≤ c.id → c.id < s.size ∧ s.Clean c) →
      (sumOver (resolveBelow replace n) ps).Meets s mayFail
        (Visits s₀ content count good done s ps) := by
  induction ps with
  | nil =>
    intro done s h _
    refine .pure ?_
    rw [Visits, Store.reachedFrom_nil, Finset.union_empty]
    exact ⟨h, .refl _ _, rfl⟩
  | cons c ps ih =>
    intro done s h hnew
    have hfirst : (resolveBelow replace n c).Meets s mayFail
        (Visits s₀ content count good done s [c]) := by
      by_cases hc : c.id < s₀.size
      · exact hold c List.mem_cons_self hc h
      · have hc := Nat.le_of_not_lt hc
        obtain ⟨_, hclean⟩ := hnew c List.mem_cons_self hc
        rw [StoreM.Meets, resolveBelow_of_clean replace n hclean]
        show Visits s₀ content count good done s [c] 0 s
        rw [Visits, Store.reachedFrom_of_size_le hc, Finset.union_empty]
        exact ⟨h, .refl _ _, rfl⟩
    refine hfirst.bind fun m s₁ hm => ?_
    obtain ⟨hprogress, hkeeps, hcount⟩ := hm
    refine (ih (fun d hd => hold d (List.mem_cons_of_mem _ hd)) hprogress fun d hd hlow => ?_).bind
      fun k s₂ hk => ?_
    · obtain ⟨hlt, hclean⟩ := hnew d (List.mem_cons_of_mem _ hd) hlow
      exact ⟨hlt.trans_le hkeeps.size_le,
        hkeeps.clean h.grown.wellFormed h.grown.apart hlow hlt hclean⟩
    · obtain ⟨hprogress', hkeeps', hcount'⟩ := hk
      refine .pure ?_
      rw [Visits, Store.reachedFrom_cons, ← Finset.union_assoc]
      exact ⟨hprogress', hkeeps.trans hkeeps', by rw [← hcount', ← hcount, Nat.add_assoc]⟩

/-- Resolving below a policy visits all that it reaches. -/
theorem resolveBelow_meets (hreplace : Replaces mayFail content count good replace)
    (hs₀ : s₀.WellFormed) (n : Nat) :
    ∀ {p : Policy} {done : Finset Policy} {s : Store}, s₀.Within n p → p.id < s₀.size →
      Progress s₀ content good done s →
      (resolveBelow replace n p).Meets s mayFail (Visits s₀ content count good done s [p]) := by
  induction n with
  | zero => exact fun hn _ _ => hn.elim
  | succ n ih =>
    intro p done s hn hp h
    refine .get_bind ?_
    refine (visit_meets hreplace h hs₀ hp).bind fun m s₁ hm => .get_bind ?_
    obtain ⟨hprogress, hkeeps, hcount, hcover⟩ := hm
    have hchild (c : Policy)
        (hc : c ∈ others ((references (s.entries p)).map Prod.fst) (s₁.entries p)) :=
      hprogress.child_cases (Finset.mem_insert_self p done) (mem_of_mem_others hc)
    -- Among the policies to visit next there may be new ones, where nothing is left to do.
    generalize others ((references (s.entries p)).map Prod.fst) (s₁.entries p) = ps
      at hcover hchild ⊢
    have hbelow : (sumOver (resolveBelow replace n) ps).Meets s₁ mayFail
        (Visits s₀ content count good (insert p done) s₁ ps) := by
      refine sumOver_meets (fun c hc hlt => ?_) hprogress fun c hc hlow => ?_
      · intro done s h
        refine ih (hn c ?_) hlt h
        exact (hchild c hc).resolve_right fun hnew => absurd hnew.1 (Nat.not_le_of_lt hlt)
      · rcases hchild c hc with hold | hnew
        · exact absurd hlow (Nat.not_le_of_lt (hs₀.closed p c hold))
        · exact hnew.2
    refine hbelow.bind fun k s₂ hk => .pure ?_
    obtain ⟨hprogress', hkeeps', hcount'⟩ := hk
    have hreached : insert p done ∪ s₀.reachedFrom ps = done ∪ s₀.reachedFrom [p] := by
      rw [Store.reachedFrom_singleton hp hcover fun c hc => (hchild c hc).imp_right (·.1),
        Finset.insert_union, Finset.union_insert]
    rw [hreached] at hprogress' hcount'
    exact ⟨hprogress', hkeeps.trans hkeeps', by rw [← hcount', ← hcount, Nat.add_assoc]⟩

/-! ## Afterwards -/

/-- What a visited policy reaches it reached before, or it is new and has no references. -/
theorem Progress.reaches_cases (h : Progress s₀ content good (s₀.reachedFrom [p]) s)
    (hs₀ : s₀.WellFormed) (hp : p.id < s₀.size) {q : Policy} (hq : s.Reaches p q) :
    s₀.Reaches p q ∨ s₀.size ≤ q.id ∧ s.Clean q := by
  induction hq with
  | refl => exact Or.inl .refl
  | @tail b c _ hstep ih =>
    rcases ih with hold | ⟨hlow, hclean⟩
    · have hdone : b ∈ s₀.reachedFrom [p] :=
        Store.mem_reachedFrom_iff.mpr ⟨hs₀.lt_of_reaches hp hold, p, List.mem_cons_self, hold⟩
      rcases h.child_cases hdone hstep with hc | ⟨hlow, _, hclean⟩
      · exact Or.inl (hold.tail hc)
      · exact Or.inr ⟨hlow, hclean⟩
    · exact Or.inr ⟨h.grown.apart b hlow c hstep, fun r hr => hclean r (hr.head hstep)⟩

theorem Progress.clean (h : Progress s₀ content good (s₀.reachedFrom [p]) s)
    (hs₀ : s₀.WellFormed) (hp : p.id < s₀.size) : s.Clean p := by
  intro q hq
  rcases h.reaches_cases hs₀ hp hq with hold | ⟨_, hclean⟩
  · exact (h.visited q (Store.mem_reachedFrom_iff.mpr
      ⟨hs₀.lt_of_reaches hp hold, p, List.mem_cons_self, hold⟩)).2.references_eq_nil
  · exact hclean q .refl

/-- Visited policies hold what they held before with something in the place of each reference. -/
theorem Progress.shows (h : Progress s₀ content good done s)
    (hclosed : ∀ q ∈ done, ∀ c ∈ s₀.below q, c ∈ done) {m : Nat} :
    ∀ {q : Policy}, s₀.Within m q → q ∈ done →
      (∃ n, s.Within n q) ∧ s.content q = s₀.filledTo content m q := by
  induction m with
  | zero => exact fun hm _ => hm.elim
  | succ m ih =>
    intro q hm hq
    obtain ⟨hlt, hfilled⟩ := h.visited q hq
    have hs := h.grown.wellFormed
    have hstood {f : FileRef} {c : Policy} (hc : Stood s s₀.size content good f c) :
        s.content c = content f := by
      obtain ⟨n, hn, hcontent⟩ := hc.1.shows
      rw [hs.content_eq hc.1.lt_size hn, hcontent]
    have hwithin : ∃ n, s.Within n q := by
      refine Store.exists_within fun c hc => ?_
      rcases hfilled.child_cases hc with hc | ⟨f, hf⟩
      · exact (ih (hm c hc) (hclosed q hq c hc)).1
      · exact hf.1.shows.imp fun n hn => hn.1
    refine ⟨hwithin, ?_⟩
    obtain ⟨n, hn⟩ := hwithin
    rw [hs.content_eq_node (hlt.trans_le h.grown.size_le) hn, Store.filledTo]
    exact congrArg Content.node (hfilled.map_eq (fun f c hc => hstood hc) fun c hc =>
      (ih (hm c hc) (hclosed q hq c hc)).2)

end Include

end PolicyStore
