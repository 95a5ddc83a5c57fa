import PolicyStore.Proofs.Dictionary.Keeping

set_option autoImplicit false

namespace PolicyStore.Dictionary

/-!
# Definitions that loading keeps

A lookup that succeeds before the files of a dictionary are loaded leads to the same block
afterwards. Its definition is the same up to references, and its dictionary is loaded.
-/

open Include (Settings)

variable {cfg : Settings} {s₀ s s' : Store} {rows : Entries Policy} {d d' : Dictionary}
  {p b c q : Policy} {name : String}

/-! ## Lookups -/

/-- A policy that has been a dictionary of the blocks all the time. -/
structure Place (p : Policy) (s₀ s : Store) (q : Policy) : Prop where
  lt_size : q.id < s₀.size
  started : s₀.Reaches p q
  reached : s.Reaches p q
  inner : Inner s₀ (s₀.entries p) (s₀.entries q)
  layout : Schema.requireLayout (s₀.entries q) = .ok ()

namespace Arrives

variable (h : Arrives p s₀ s)

include h

theorem place_of_child? (hb : IsBlock s₀ (s₀.entries p) b)
    (hchild : Entries.child? Definition.dictionaryKey (s₀.entries b) = some c)
    (hlayout : Schema.requireLayout (s₀.entries c) = .ok ()) : Place p s₀ s c := by
  obtain ⟨hlt, hreach⟩ := h.block hb
  obtain ⟨_, hlt', hreach'⟩ := h.child hlt hreach hchild
  obtain ⟨a, ha, hreach₀⟩ := reaches_of_isBlock h.started.toWellFormed hb
  exact ⟨hlt', (hreach₀.head ha).tail (Entries.mem_of_child? hchild), hreach',
    Or.inr ⟨b, c, hb, hchild, rfl⟩, hlayout⟩

theorem definitionFor_of_place (hseparate : Separate s₀ (s₀.entries p)) (hq : Place p s₀ s q)
    (hname : Name.segments name = .ok [name]) {full : String} {before : Definition}
    (hbefore : (⟨s₀.treesOf (s₀.entries q)⟩ : Schema).definitionFor full name = .ok before) :
    ∃ b, IsBlock s₀ (s₀.entries p) b ∧
      Definition.ofBlock? name (s₀.treesOf (s₀.entries b)) = .ok before ∧
      (⟨s.treesOf (s.entries q)⟩ : Schema).definitionFor full name =
        (Definition.ofBlock? name (s.treesOf (s.entries b))).mapError .dictionary := by
  obtain ⟨b, hb, hmem, _, hread⟩ := exists_block_of_definitionFor h.started.toWellFormed
    (h.bears_started hq.started) hname hbefore
  have hb' := h.describes hseparate hq.lt_size hq.reached hq.inner hq.layout hb
  refine ⟨b, hq.inner.isBlock hmem, hread, ?_⟩
  rw [Schema.definitionFor, definition?_of_describes h.grounded.toWellFormed (h.bears hq.reached)
    hname hb']
  cases Definition.ofBlock? name (s.treesOf (s.entries b)) <;> rfl

/-- A lookup goes the way that it went, and ends at the definition that it ended at. -/
theorem follow_kept (hseparate : Separate s₀ (s₀.entries p)) {full : String}
    {segments : List String} : ∀ {done : List String} {q : Policy} {before : Definition},
      (∀ segment ∈ segments, Name.segments segment = .ok [segment]) → Place p s₀ s q →
      Schema.follow full done ⟨s₀.treesOf (s₀.entries q)⟩ segments = .ok before →
      Kept s before (Schema.follow full done ⟨s.treesOf (s.entries q)⟩ segments) := by
  induction segments with
  | nil =>
    intro done q before _ _ hbefore
    cases hbefore
  | cons segment rest ih =>
    intro done q before hsegments hq hbefore
    have hname := hsegments segment List.mem_cons_self
    cases rest with
    | nil =>
      obtain ⟨b, hb, hread, hafter⟩ := h.definitionFor_of_place hseparate hq hname hbefore
      rw [Schema.follow, hafter]
      exact h.kept_of_block hseparate hb hread
    | cons next rest =>
      obtain ⟨d, hd, hrest⟩ := Except.bind_eq_ok hbefore
      obtain ⟨schema, henter, hrest⟩ := Except.bind_eq_ok hrest
      obtain ⟨b, hb, hread, hafter⟩ := h.definitionFor_of_place hseparate hq hname hd
      -- The lookup went on inside the definition, so no file was named there.
      have hinline : d.sub = .inline schema := by
        unfold Schema.enter at henter
        split at henter
        · rename_i hsub
          cases henter
          exact hsub
        · cases henter
        · cases henter
      obtain ⟨c, after, hchild, hlayout, rfl, hread', hsub⟩ :=
        h.enter_of_block hseparate hb hread hinline
      have hc := h.place_of_child? hb hchild hlayout
      have hkept := ih
        (fun seg hseg => hsegments seg (List.mem_cons_of_mem _ hseg)) hc hrest
      unfold Schema.follow
      simp only [hafter, hread', Except.mapError, bind, Except.bind, Schema.enter, hsub]
      exact hkept

end Arrives

/-! ## Loading -/

namespace Sound

variable (h : d.Sound s)

include h

theorem treesOf_alloc : (s.alloc { entries := d.entries }).2.treesOf d.entries =
    s.treesOf d.entries := by
  refine List.map_congr_left fun row hrow => ?_
  refine congrArg (Prod.mk row.1) (Values.map_congr fun c hc => ?_)
  have hc : c ∈ d.entries.flatMap fun row => row.2.children :=
    List.mem_flatMap.mpr ⟨row, hrow, hc⟩
  have hlt := h.lt_size c hc
  obtain ⟨n, hn⟩ := h.founded c hc
  have hclosed (q : Policy) (_ : q.id < s.size) := h.toWellFormed.closed q
  have hentries (q : Policy) (hq : q.id < s.size) := entries_alloc s { entries := d.entries } hq
  have hn' := Store.within_congr hclosed hentries hlt hn
  have hlt' : c.id < (s.alloc { entries := d.entries }).2.size := by
    rw [Store.size_alloc]
    exact Nat.lt_succ_of_lt hlt
  have htree := h.grounded.tree_eq hlt' hn'
  have htree' := h.toWellFormed.tree_eq hlt hn
  rw [Store.tree] at htree htree'
  rw [htree, htree']
  refine Store.unfold_congr hclosed hentries (fun q hq => ?_) hlt
  rw [Store.dictionary?, Store.node_alloc_of_lt hq, Store.dictionary?]

theorem separate_alloc (hseparate : Separate s d.entries) :
    Separate (s.alloc { entries := d.entries }).2 d.entries := by
  have hnaming {b : Policy} (hb : Naming (s.alloc { entries := d.entries }).2 d.entries b) :
      Naming s d.entries b := by
    have hblock := h.isBlock_alloc_iff.mp hb.1
    refine ⟨hblock, ?_⟩
    rw [← entries_alloc s { entries := d.entries } (h.lt_of_isBlock hblock)]
    exact hb.2
  constructor
  · intro inner definitions hinner hchild hdefinitions
    refine hseparate.definitions inner definitions ?_ hchild (hnaming hdefinitions)
    rcases hinner with rfl | ⟨b, sub, hb, hsub, rfl⟩
    · exact Or.inl rfl
    · have hblock := h.isBlock_alloc_iff.mp hb
      have hlt := h.lt_of_isBlock hblock
      rw [entries_alloc s _ hlt] at hsub
      rw [entries_alloc s _ (h.toWellFormed.closed b sub (Entries.mem_of_child? hsub))]
      exact Or.inr ⟨b, sub, hblock, hsub, rfl⟩
  · intro b hb key hkey vs hget c hc q hreach hq
    have hblock := h.isBlock_alloc_iff.mp hb
    have hlt := h.lt_of_isBlock hblock
    rw [entries_alloc s _ hlt] at hget
    have hlt' := h.toWellFormed.closed b c (Store.mem_below_of_get? hget hc)
    have hreach' := Store.reaches_congr (P := fun q => q.id < s.size)
      (fun q _ => h.toWellFormed.closed q) (fun q hq => entries_alloc s _ hq) hlt' hreach
    exact hseparate.values b hblock key hkey vs hget c hc q hreach'.1 (hnaming hq)

end Sound

end PolicyStore.Dictionary
