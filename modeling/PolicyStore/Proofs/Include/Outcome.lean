import PolicyStore.Proofs.Include.Resolution
import PolicyStore.Proofs.Include.Tracing
import Mathlib.Algebra.Order.BigOperators.Group.List
import Mathlib.Algebra.Order.Group.Nat

set_option autoImplicit false

namespace PolicyStore

/-!
# One inclusion among others

An inclusion can be followed by other operations and by more inclusions. The policy it starts from
stays fit for the next one, whatever the contents of the files are.
-/

/-- The policy is part of a sound store and does not hold itself at any depth. -/
structure Store.Grounded (s : Store) (p : Policy) : Prop extends s.WellFormed where
  full : s.Full
  lt_size : p.id < s.size
  founded : ∃ n, s.Within n p

theorem Store.Grounded.within {s : Store} {p : Policy} (h : s.Grounded p) : s.Within s.size p := by
  obtain ⟨n, hn⟩ := h.founded
  exact hn.acyclic.within h.toWellFormed h.lt_size

namespace Include

/-- What an inclusion that succeeds makes of a store, apart from the contents of the files. -/
structure Includes (s : Store) (p : Policy) (s' : Store) : Prop where
  grown : Extends s s' (s.Reaches p)
  filled : ∀ q, s.Reaches p q → FilledRows (fun _ c => s.size ≤ c.id) (s.entries q) (s'.entries q)
  clean : s'.Clean p
  founded : ∃ n, s'.Within n p

variable {cfg : Settings} {s s' : Store} {p : Policy} {n : Nat}

theorem Includes.grounded (h : Includes s p s') (hs : s.Grounded p) : s'.Grounded p where
  toWellFormed := h.grown.wellFormed
  full := h.grown.full hs.full
  lt_size := hs.lt_size.trans_le h.grown.size_le
  founded := h.founded

theorem Includes.entries_eq (h : Includes s p s') {q : Policy} (hlt : q.id < s.size)
    (hq : ¬s.Reaches p q) : s'.entries q = s.entries q :=
  h.grown.entries_eq hlt hq

theorem visits_of_includeFiles (hs : s.Grounded p) (hrun : p.includeFiles cfg s = .ok n s') :
    Visits s (stand cfg maxDepth []) (tried cfg maxDepth [])
      (fun f => cfg.strict = true → Loads cfg maxDepth [] f) ∅ s [p] n s' := by
  rw [Policy.includeFiles, resolve_eq] at hrun
  have hmeets := resolveBelow_meets (replacement_meets cfg maxDepth []) hs.toWellFormed s.size
    hs.within hs.lt_size (.start hs.toWellFormed)
  exact hmeets.of_ok hrun

theorem includes_of_includeFiles (hs : s.Grounded p) (hrun : p.includeFiles cfg s = .ok n s') :
    Includes s p s' := by
  obtain ⟨hprogress, _⟩ := visits_of_includeFiles hs hrun
  rw [Finset.empty_union] at hprogress
  have hmem {q : Policy} (hq : s.Reaches p q) : q ∈ s.reachedFrom [p] :=
    Store.mem_reachedFrom_iff.mpr
      ⟨hs.toWellFormed.lt_of_reaches hs.lt_size hq, p, List.mem_cons_self, hq⟩
  refine ⟨hprogress.grown.weaken fun q _ hq => ?_, fun q hq => ?_,
    hprogress.clean hs.toWellFormed hs.lt_size, ?_⟩
  · obtain ⟨_, r, hr, hreach⟩ := Store.mem_reachedFrom_iff.mp hq
    cases List.mem_singleton.mp hr
    exact hreach
  · exact (hprogress.visited q (hmem hq)).2.mono fun _ _ hc => hc.1.low_le
  · exact (hprogress.shows (fun _ hq _ hc => Store.reachedFrom_closed hs.toWellFormed hq hc)
      hs.within (hmem .refl)).1

theorem tried_pos (cfg : Settings) (room : Nat) (chain : List String) (f : FileRef) :
    0 < tried cfg room chain f := by
  cases room with
  | zero => exact Nat.one_pos
  | succ room =>
    rw [tried]
    split
    · exact Nat.one_pos
    · exact Nat.add_pos_left Nat.one_pos _

/-- An inclusion that tries no file has met no reference. -/
theorem clean_of_includeFiles_eq_zero (hs : s.Grounded p)
    (hrun : p.includeFiles cfg s = .ok 0 s') : s.Clean p := by
  obtain ⟨_, _, hcount⟩ := visits_of_includeFiles hs hrun
  rw [Finset.empty_union, Nat.add_zero, Store.weigh, Finset.sum_empty, Store.weigh] at hcount
  intro q hq
  have hzero := Finset.sum_eq_zero_iff.mp hcount.symm q (Store.mem_reachedFrom_iff.mpr
    ⟨hs.toWellFormed.lt_of_reaches hs.lt_size hq, p, List.mem_cons_self, hq⟩)
  apply List.eq_nil_iff_forall_not_mem.mpr
  rintro ⟨key, fs⟩ hrow
  have hfull := hs.full q _ (mem_references_iff.mp hrow)
  cases fs with
  | nil => cases hfull
  | cons f fs =>
    have hf : f ∈ s.fileRefs q := List.mem_flatMap.mpr ⟨_, hrow, List.mem_cons_self⟩
    have hle := List.single_le_sum (fun _ _ => Nat.zero_le _) _
      (List.mem_map_of_mem (f := tried cfg maxDepth []) hf)
    have hpos := tried_pos cfg maxDepth [] f
    omega

theorem includeFiles_of_clean (h : s.Clean p) : p.includeFiles cfg s = .ok 0 s := by
  rw [Policy.includeFiles, resolve_eq]
  exact resolveBelow_of_clean _ _ h

end Include

end PolicyStore
