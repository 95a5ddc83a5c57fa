import PolicyStore.Proofs.Include.Growth

set_option autoImplicit false

namespace PolicyStore

/-!
# Policies that share nothing

A policy is a tree if no policy below it is held twice. Trees that share nothing are a forest, and
stay one when other policies are added to the store.
-/

namespace Store

/-- No policy is at or below both. -/
def Disjoint (s : Store) (p q : Policy) : Prop := ∀ r, s.Reaches p r → ¬s.Reaches q r

/-- Trees that share nothing with each other. -/
structure Forest (s : Store) (ps : List Policy) : Prop where
  founded : ∀ p ∈ ps, ∃ n, s.Within n p
  disjoint : ps.Pairwise s.Disjoint
  branches : ∀ p ∈ ps, ∀ q, s.Reaches p q → (s.below q).Pairwise s.Disjoint

variable {s s' : Store} {p q : Policy} {ps qs : List Policy} {P : Policy → Prop} {n : Nat}

theorem Disjoint.symm (h : s.Disjoint p q) : s.Disjoint q p := fun r hq hp => h r hp hq

theorem Disjoint.of_reaches (h : s.Disjoint p q) {p' q' : Policy} (hp : s.Reaches p p')
    (hq : s.Reaches q q') : s.Disjoint p' q' :=
  fun r hr hr' => h r (hp.trans hr) (hq.trans hr')

instance (s : Store) : Std.Symm s.Disjoint := ⟨fun _ _ => Disjoint.symm⟩

theorem not_disjoint_self (p : Policy) : ¬s.Disjoint p p := fun h => h p .refl .refl

theorem nodup_of_disjoint (h : ps.Pairwise s.Disjoint) : ps.Nodup := by
  refine h.imp fun {a b} hab heq => ?_
  subst heq
  exact not_disjoint_self a hab

theorem eq_of_reaches (h : ps.Pairwise s.Disjoint) {a b r : Policy} (ha : a ∈ ps) (hb : b ∈ ps)
    (har : s.Reaches a r) (hbr : s.Reaches b r) : a = b := by
  by_contra hne
  exact h.forall ha hb hne r har hbr

/-- Policies that share nothing are not held under two keys. -/
theorem key_eq_of_mem_children {c : Policy} {key other : String} {vs ws : Values Policy}
    (h : (s.below p).Pairwise s.Disjoint) (hget : Table.get? key (s.entries p) = some vs)
    (hother : Table.get? other (s.entries p) = some ws) (hc : c ∈ vs.children)
    (hc' : c ∈ ws.children) : key = other := by
  by_contra hne
  obtain ⟨-, hrows⟩ := List.nodup_flatMap.mp (nodup_of_disjoint h)
  have hsymm : Std.Symm (Function.onFun List.Disjoint fun row : String × Values Policy =>
    row.2.children) := ⟨fun _ _ hdisjoint => hdisjoint.symm⟩
  have hrow : ((key, vs) : String × Values Policy) ≠ (other, ws) :=
    fun heq => hne (congrArg Prod.fst heq)
  exact hrows.forall (Table.mem_of_get? hget) (Table.mem_of_get? hother) hrow hc hc'

theorem forest_append_iff : s.Forest (ps ++ qs) ↔
    s.Forest ps ∧ s.Forest qs ∧ ∀ p ∈ ps, ∀ q ∈ qs, s.Disjoint p q := by
  constructor
  · intro h
    obtain ⟨hps, hqs, hcross⟩ := List.pairwise_append.mp h.disjoint
    exact ⟨⟨fun p hp => h.founded p (List.mem_append_left _ hp), hps,
        fun p hp => h.branches p (List.mem_append_left _ hp)⟩,
      ⟨fun p hp => h.founded p (List.mem_append_right _ hp), hqs,
        fun p hp => h.branches p (List.mem_append_right _ hp)⟩, hcross⟩
  · rintro ⟨hps, hqs, hcross⟩
    refine ⟨fun p hp => ?_, List.pairwise_append.mpr ⟨hps.disjoint, hqs.disjoint, hcross⟩,
      fun p hp => ?_⟩
    · exact (List.mem_append.mp hp).elim (hps.founded p) (hqs.founded p)
    · exact (List.mem_append.mp hp).elim (hps.branches p) (hqs.branches p)

theorem Forest.of_mem (h : s.Forest ps) (hp : p ∈ ps) : s.Forest [p] where
  founded q hq := h.founded q (List.mem_singleton.mp hq ▸ hp)
  disjoint := List.pairwise_singleton _ _
  branches q hq := h.branches q (List.mem_singleton.mp hq ▸ hp)

theorem forest_nil : s.Forest [] where
  founded _ hp := by cases hp
  disjoint := List.Pairwise.nil
  branches _ hp := by cases hp

theorem Forest.of_below (h : s.Forest (s.below p)) : s.Forest [p] where
  founded q hq := by
    rw [List.mem_singleton.mp hq]
    exact exists_within h.founded
  disjoint := List.pairwise_singleton _ _
  branches q hq r hr := by
    rw [List.mem_singleton.mp hq] at hr
    rcases Relation.ReflTransGen.cases_head hr with rfl | ⟨c, hc, hreach⟩
    · exact h.disjoint
    · exact h.branches c hc r hreach

theorem Forest.below (h : s.Forest [p]) : s.Forest (s.below p) where
  founded c hc := by
    obtain ⟨n, hn⟩ := h.founded p List.mem_cons_self
    exact ⟨n, hn.of_mem_below hc⟩
  disjoint := h.branches p List.mem_cons_self p .refl
  branches c hc q hq := h.branches p List.mem_cons_self q (hq.head hc)

/-! ## Stores that hold no policy twice -/

/-- Where a policy is held by one policy at most, of two that lead to it one leads to the other. -/
theorem Reaches.comparable (honce : ∀ a b c, c ∈ s.below a → c ∈ s.below b → a = b)
    {a b r : Policy} (ha : s.Reaches a r) (hb : s.Reaches b r) : s.Reaches a b ∨ s.Reaches b a := by
  induction ha with
  | refl => exact Or.inr hb
  | tail hreach hstep ih =>
    rcases Relation.ReflTransGen.cases_tail hb with rfl | ⟨x, hx, hstep'⟩
    · exact Or.inl (hreach.tail hstep)
    · rw [honce _ _ _ hstep' hstep] at hx
      exact ih hx

/-- Policies that nobody holds are trees where no policy is held twice. -/
theorem Forest.of_held_once (hfounded : ∀ p ∈ ps, ∃ n, s.Within n p)
    (honce : ∀ i < s.size, ∀ j < s.size, ∀ c ∈ s.below ⟨i⟩, c ∈ s.below ⟨j⟩ → i = j)
    (hnodup : ∀ i < s.size, (s.below ⟨i⟩).Nodup) (hps : ps.Nodup)
    (hroots : ∀ i < s.size, ∀ c ∈ s.below ⟨i⟩, c ∉ ps) : s.Forest ps := by
  have honce' (a b c : Policy) (ha : c ∈ s.below a) (hb : c ∈ s.below b) : a = b :=
    congrArg Policy.mk (honce a.id (lt_size_of_mem_below ha) b.id (lt_size_of_mem_below hb) c ha hb)
  have hroot {a b : Policy} (hb : b ∈ ps) (hab : s.Reaches a b) : a = b := by
    rcases Relation.ReflTransGen.cases_tail hab with rfl | ⟨x, _, hstep⟩
    · rfl
    · exact (hroots x.id (lt_size_of_mem_below hstep) b hstep hb).elim
  refine ⟨hfounded, ?_, fun p hp q hq => ?_⟩
  · refine hps.imp_of_mem fun {a b} ha hb hne r har hbr => hne ?_
    rcases har.comparable honce' hbr with hab | hba
    · exact hroot hb hab
    · exact (hroot ha hba).symm
  · obtain ⟨n, hn⟩ := hfounded p hp
    -- Between siblings there is no way: it would go through the policy that holds both.
    have hsibling {a b : Policy} (ha : a ∈ s.below q) (hb : b ∈ s.below q) (hab : s.Reaches a b) :
        a = b := by
      rcases Relation.ReflTransGen.cases_tail hab with rfl | ⟨x, hx, hstep⟩
      · rfl
      · rw [honce' x q b hstep hb] at hx
        exact ((hn.of_reaches hq).not_reaches ha hx).elim
    by_cases hlt : q.id < s.size
    · refine (hnodup q.id hlt).imp_of_mem fun {a b} ha hb hne r har hbr => hne ?_
      rcases har.comparable honce' hbr with hab | hba
      · exact hsibling ha hb hab
      · exact (hsibling hb ha hba).symm
    · have hnone : s.below q = [] := by
        rw [Store.below, entries_of_size_le (Nat.le_of_not_lt hlt)]
        rfl
      rw [hnone]
      exact List.Pairwise.nil

/-! ## Stores that agree on some policies -/

theorem reaches_congr_iff (hclosed : ∀ q, P q → ∀ c ∈ s.below q, P c)
    (hrows : ∀ q, P q → s'.entries q = s.entries q) (hp : P p) :
    s'.Reaches p q ↔ s.Reaches p q := by
  refine ⟨fun h => (reaches_congr hclosed hrows hp h).1, fun h => ?_⟩
  refine (reaches_congr (fun r hr c hc => ?_) (fun r hr => (hrows r hr).symm) hp h).1
  rw [below_congr (hrows r hr)] at hc
  exact hclosed r hr c hc

theorem Forest.congr (hclosed : ∀ q, P q → ∀ c ∈ s.below q, P c)
    (hrows : ∀ q, P q → s'.entries q = s.entries q) (hps : ∀ p ∈ ps, P p) (h : s.Forest ps) :
    s'.Forest ps := by
  have hiff {p q : Policy} (hp : P p) : s'.Reaches p q ↔ s.Reaches p q :=
    reaches_congr_iff hclosed hrows hp
  have hdisjoint {a b : Policy} (ha : P a) (hb : P b) (hab : s.Disjoint a b) : s'.Disjoint a b :=
    fun r har hbr => hab r ((hiff ha).mp har) ((hiff hb).mp hbr)
  refine ⟨fun p hp => ?_, ?_, fun p hp q hq => ?_⟩
  · obtain ⟨n, hn⟩ := h.founded p hp
    exact ⟨n, within_congr hclosed hrows (hps p hp) hn⟩
  · exact h.disjoint.imp_of_mem fun ha hb => hdisjoint (hps _ ha) (hps _ hb)
  · obtain ⟨hreach, hPq⟩ := reaches_congr hclosed hrows (hps p hp) hq
    rw [below_congr (hrows q hPq)]
    exact (h.branches p hp q hreach).imp_of_mem fun ha hb =>
      hdisjoint (hclosed q hPq _ ha) (hclosed q hPq _ hb)

theorem WellFormed.content_congr (hs : s.WellFormed) (hs' : s'.WellFormed)
    (hclosed : ∀ q, P q → ∀ c ∈ s.below q, P c) (hrows : ∀ q, P q → s'.entries q = s.entries q)
    (hp : P p) (hlt : p.id < s.size) (hlt' : p.id < s'.size) (hn : s.Within n p) :
    s'.content p = s.content p := by
  rw [hs'.content_eq hlt' (within_congr hclosed hrows hp hn), hs.content_eq hlt hn,
    contentTo_congr hclosed hrows hp]

theorem WellFormed.regular_contentTo (hs : s.WellFormed) (hfull : s.Full) (n : Nat) (p : Policy) :
    (s.contentTo n p).Regular := by
  induction n generalizing p with
  | zero => exact .node List.Pairwise.nil nofun nofun
  | succ n ih =>
    refine .node (Table.sorted_map (hs.sorted p) _) (fun row hrow => ?_) fun row hrow c hc => ?_
    · obtain ⟨old, hold, rfl⟩ := List.mem_map.mp hrow
      rw [Values.isEmpty_map]
      exact hfull p old hold
    · obtain ⟨old, hold, rfl⟩ := List.mem_map.mp hrow
      rw [Values.children_map] at hc
      obtain ⟨q, _, rfl⟩ := List.mem_map.mp hc
      exact ih q

/-- Whatever the policies are that hold each other, a tree is read with full rows in their order. -/
theorem WellFormed.regular_content (hs : s.WellFormed) (hfull : s.Full) (p : Policy) :
    (s.content p).Regular := by
  rw [Store.content_eq]
  exact hs.regular_contentTo hfull s.size p

/-! ## Adding policies -/

/-- Nothing happens to the policies that are there, and those that are added do not hold them. -/
def Adds (s s' : Store) : Prop := Extends s s' fun _ => False

namespace Adds

variable {s'' : Store}

theorem refl (hs : s.WellFormed) : s.Adds s := Extends.refl hs _

theorem trans (h : s.Adds s') (h' : s'.Adds s'') : s.Adds s'' :=
  (Extends.trans h h' fun _ hq => hq.elim).weaken fun _ _ hq => hq.elim id id

theorem entries_eq (h : s.Adds s') (hq : q.id < s.size) : s'.entries q = s.entries q :=
  Extends.entries_eq h hq id

variable (h : s.Adds s') (hs : s.WellFormed)

include h hs

theorem reaches_iff (hp : p.id < s.size) : s'.Reaches p q ↔ s.Reaches p q :=
  reaches_congr_iff (fun q _ => hs.closed q) (fun _ => h.entries_eq) hp

theorem within (hp : p.id < s.size) (hn : s.Within n p) : s'.Within n p :=
  within_congr (P := fun q => q.id < s.size) (fun q _ => hs.closed q) (fun _ => h.entries_eq) hp hn

theorem forest (hps : ∀ p ∈ ps, p.id < s.size) (hforest : s.Forest ps) : s'.Forest ps :=
  hforest.congr (P := fun q => q.id < s.size) (fun q _ => hs.closed q) (fun _ => h.entries_eq) hps

theorem content_eq (hp : p.id < s.size) (hn : s.Within n p) : s'.content p = s.content p :=
  hs.content_congr (P := fun q => q.id < s.size) h.wellFormed (fun q _ => hs.closed q)
    (fun _ => h.entries_eq) hp hp (hp.trans_le h.size_le) hn

omit hs in
theorem low_le_of_reaches (hp : s.size ≤ p.id) (hq : s'.Reaches p q) : s.size ≤ q.id := by
  induction hq with
  | refl => exact hp
  | tail _ hstep ih => exact h.apart _ ih _ hstep

theorem disjoint (hp : p.id < s.size) (hq : s.size ≤ q.id) : s'.Disjoint p q := by
  intro r hpr hqr
  have hlt := hs.lt_of_reaches hp ((h.reaches_iff hs hp).mp hpr)
  exact Nat.lt_irrefl _ (hlt.trans_le (h.low_le_of_reaches hq hqr))

end Adds

end Store

end PolicyStore
