import PolicyStore.Proofs.Include.Visiting
import PolicyStore.Proofs.Paf.Raising

set_option autoImplicit false

namespace PolicyStore

/-!
# Resolving references

A file is read on top of the policies that are there already, and its references are resolved in
the same way. This adds for each reference the policies of one file, or one empty policy.
-/

/-! ## A file on top of a store -/

namespace Store

variable (base : Store) {s : Store} {p : Policy}

theorem references_raise (k : Nat) (rows : Entries Policy) :
    Include.references (rows.raise k) = Include.references rows := by
  rw [Include.references, Entries.raise, List.filterMap_map, Include.references]
  refine List.filterMap_congr fun row _ => ?_
  obtain ⟨key, values⟩ := row
  cases values <;> rfl

theorem fileRefs_above_raise (q : Policy) :
    (base.above s).fileRefs (q.raise base.size) = s.fileRefs q := by
  rw [fileRefs, entries_above_raise, references_raise, fileRefs]

theorem filledTo_above_raise (stand : FileRef → Content) (depth : Nat) (p : Policy) :
    (base.above s).filledTo stand depth (p.raise base.size) = s.filledTo stand depth p := by
  induction depth generalizing p with
  | zero => rfl
  | succ depth ih =>
    rw [filledTo, filledTo, entries_above_raise, Entries.raise, List.map_map]
    have hfill : (base.above s).filledTo stand depth ∘ Policy.raise base.size =
        s.filledTo stand depth := funext ih
    refine congrArg Content.node (List.map_congr_left fun row _ => congrArg (Prod.mk row.1) ?_)
    rw [Values.fill_map, hfill]

theorem reachedFrom_above_raise (p : Policy) :
    (base.above s).reachedFrom [p.raise base.size] =
      (s.reachedFrom [p]).image (Policy.raise base.size) := by
  refine Finset.ext fun r => ?_
  simp only [Finset.mem_image, mem_reachedFrom_iff, List.mem_singleton, exists_eq_left,
    reaches_above_raise_iff, size_above]
  constructor
  · rintro ⟨hr, q, rfl, hq⟩
    change q.id + base.size < base.size + s.size at hr
    exact ⟨q, ⟨by omega, hq⟩, rfl⟩
  · rintro ⟨q, ⟨hlt, hq⟩, rfl⟩
    refine ⟨?_, q, rfl, hq⟩
    show q.id + base.size < base.size + s.size
    omega

theorem weigh_above_raise (weight : FileRef → Nat) (policies : Finset Policy) :
    (base.above s).weigh weight (policies.image (Policy.raise base.size)) =
      s.weigh weight policies := by
  have hinj : Function.Injective (Policy.raise base.size) := by
    intro p q hpq
    cases p
    cases q
    simpa [Policy.raise] using hpq
  rw [weigh, Finset.sum_image fun p _ q _ hpq => hinj hpq, weigh]
  exact Finset.sum_congr rfl fun q _ => by rw [fileRefs_above_raise]

end Store

theorem Extends.above {base s : Store} (hbase : base.WellFormed) (hs : s.Tidy) :
    Extends base (base.above s) fun _ => False where
  size_le := (Nat.le_add_right _ _).trans (Store.size_above base s).ge
  wellFormed := hbase.above hs.toWellFormed
  frame _ hq _ := Store.node_above_of_lt hq
  dictionary q hq := by
    rw [Store.dictionary?, Store.node_above_of_lt hq, Store.dictionary?]
  apart q hq c hc := by
    obtain ⟨r, rfl⟩ := Store.eq_raise_of_le hq
    rw [Store.below_above_raise] at hc
    obtain ⟨d, _, rfl⟩ := List.mem_map.mp hc
    exact Nat.le_add_left _ _
  full hfull := hfull.above hs.full

namespace Include

variable {mayFail : Prop} {content : FileRef → Content} {count : FileRef → Nat}
  {good : FileRef → Prop} {replace : FileRef → StoreM (Policy × Nat)}

theorem exists_of_mem_fileRefs {P : FileRef → Policy → Prop} {rows rows' : Entries Policy}
    (h : FilledRows P rows rows') {f : FileRef} (hf : f ∈ (references rows).flatMap Prod.snd) :
    ∃ c, P f c := by
  obtain ⟨⟨key, fs⟩, hrow, hf⟩ := List.mem_flatMap.mp hf
  obtain ⟨row', _, _, hfilled⟩ := exists_of_mem_left h (mem_references_iff.mp hrow)
  generalize row'.2 = vs' at hfilled
  cases hfilled with
  | files hall => exact (exists_of_mem_left hall hf).imp fun _ hc => hc.2
  | other hkind => exact (hkind rfl).elim

/-- Resolving the references of a file on top of a store. -/
theorem resolveBelow_above_meets (h : Replaces mayFail content count good replace)
    {base s : Store} (hbase : base.WellFormed) (hs : s.Tidy) (hsize : 0 < s.size) :
    (resolveBelow replace (base.above s).size ⟨base.size⟩).Meets (base.above s) mayFail
      fun n s' => n = s.weigh count (s.reachedFrom [⟨0⟩]) ∧ Extends base s' (fun _ => False) ∧
        Stands s' base.size (s.filledTo content s.size ⟨0⟩) ⟨base.size⟩ ∧
          ∀ q, s.Reaches ⟨0⟩ q → ∀ f ∈ s.fileRefs q, good f := by
  have hroot : (⟨base.size⟩ : Policy) = (⟨0⟩ : Policy).raise base.size := by
    rw [Policy.raise, Nat.zero_add]
  have habove := Extends.above hbase hs
  have hlevels : s.Within s.size ⟨0⟩ := by
    obtain ⟨n, hn⟩ := hs.founded ⟨0⟩
    exact hn.acyclic.within hs.toWellFormed hsize
  have hsize_above := Store.size_above base s
  have hroot_lt : (⟨base.size⟩ : Policy).id < (base.above s).size := by
    show base.size < _
    omega
  have hwithin : (base.above s).Within s.size ⟨base.size⟩ := by
    rw [hroot]
    exact Store.within_above_raise hlevels
  refine (resolveBelow_meets h habove.wellFormed _ (hwithin.mono (by omega)) hroot_lt
    (.start habove.wellFormed)).imp fun n s' hvisits => ?_
  obtain ⟨hprogress, _, hcount⟩ := hvisits
  rw [Finset.empty_union] at hprogress hcount
  -- All that the root of the file reaches is above the policies of `base`, which stay as they are.
  have hreached : ∀ q ∈ (base.above s).reachedFrom [⟨base.size⟩], base.size ≤ q.id := by
    intro q hq
    rw [hroot, Store.reachedFrom_above_raise] at hq
    obtain ⟨r, _, rfl⟩ := Finset.mem_image.mp hq
    exact Nat.le_add_left _ _
  have hmem : (⟨base.size⟩ : Policy) ∈ (base.above s).reachedFrom [⟨base.size⟩] :=
    Store.mem_reachedFrom_iff.mpr ⟨hroot_lt, _, List.mem_cons_self, .refl⟩
  refine ⟨?_, ?_, ⟨Nat.le_refl _, hroot_lt.trans_le hprogress.grown.size_le,
    hprogress.clean habove.wellFormed hroot_lt, ?_⟩, fun q hq f hf => ?_⟩
  · rw [Store.weigh, Finset.sum_empty, Nat.zero_add] at hcount
    rw [hcount, hroot, Store.reachedFrom_above_raise, Store.weigh_above_raise]
  · refine (habove.trans_of_apart hprogress.grown fun q hq hle c hc => ?_).weaken fun q hq hmem => ?_
    · rcases hprogress.child_cases hq hc with hold | hnew
      · exact habove.apart q hle c hold
      · exact habove.size_le.trans hnew.1
    · exact Nat.lt_irrefl _ (hq.trans_le (hreached q (hmem.resolve_left id)))
  · obtain ⟨⟨n, hn⟩, hshows⟩ := hprogress.shows
      (fun q hq c hc => Store.reachedFrom_closed habove.wellFormed hq hc) hwithin hmem
    refine ⟨n, hn, ?_⟩
    rw [← hprogress.grown.wellFormed.content_eq (hroot_lt.trans_le hprogress.grown.size_le) hn,
      hshows, hroot, Store.filledTo_above_raise]
  · have hq' : q.raise base.size ∈ (base.above s).reachedFrom [⟨base.size⟩] := by
      rw [hroot, Store.reachedFrom_above_raise]
      refine Finset.mem_image_of_mem _ (Store.mem_reachedFrom_iff.mpr ?_)
      exact ⟨hs.toWellFormed.lt_of_reaches hsize hq, ⟨0⟩, List.mem_cons_self, hq⟩
    rw [← Store.fileRefs_above_raise base] at hf
    obtain ⟨c, hc⟩ := exists_of_mem_fileRefs (hprogress.visited _ hq').2 hf
    exact hc.2

/-! ## Replacements -/

variable {cfg : Settings} {chain : List String} {f : FileRef} {s s' : Store} {e : PolicyError}

/-- The resolver for the references in a file when the chain may grow by a number of files. -/
def inner (cfg : Settings) : Nat → Option Resolver
  | 0 => none
  | room + 1 => some (resolve cfg room)

theorem resolve_eq (cfg : Settings) (room : Nat) (chain : List String) (p : Policy) (s : Store) :
    resolve cfg room chain p s =
      resolveBelow (replacement cfg (inner cfg room) chain) s.size p s := by
  cases room <;> rfl

/-- A file that cannot be included is a failure, or there is an empty policy in its place. -/
theorem replacement_of_error {inner : Option Resolver}
    (h : open? cfg inner chain (f.resolve cfg.repository) (keyOf cfg f) s = .error e s') :
    replacement cfg inner chain f s =
      if cfg.strict then .error e s' else .ok ((s'.alloc {}).1, 1) (s'.alloc {}).2 := by
  have hkey : cfg.files.canonical (f.resolve cfg.repository) = keyOf cfg f := rfl
  unfold replacement
  simp only [hkey, h]
  cases inner <;> rfl

theorem replacement_of_ok {resolve : Resolver} {p : Policy}
    (h : open? cfg (some resolve) chain (f.resolve cfg.repository) (keyOf cfg f) s = .ok p s') :
    replacement cfg (some resolve) chain f s =
      match resolve (keyOf cfg f :: chain) p s' with
      | .ok n s'' => .ok (p, 1 + n) s''
      | .error e s'' => .error e s'' := by
  have hkey : cfg.files.canonical (f.resolve cfg.repository) = keyOf cfg f := rfl
  cases hrun : resolve (keyOf cfg f :: chain) p s' <;> simp only [replacement, hkey, h, hrun]

theorem replacement_meets_of_error {inner : Option Resolver}
    (h : open? cfg inner chain (f.resolve cfg.repository) (keyOf cfg f) s = .error e s')
    (hext : Extends s s' fun _ => False) (hcount : count f = 1) (hcontent : content f = .node [])
    (hgood : cfg.strict = false → good f) :
    (replacement cfg inner chain f).Meets s (cfg.strict = true) fun found s' =>
      found.2 = count f ∧ Extends s s' (fun _ => False) ∧ Stood s' s.size content good f found.1 := by
  rw [StoreM.Meets, replacement_of_error h]
  cases hstrict : cfg.strict with
  | true => rfl
  | false =>
    have hstands := (stands_alloc s').mono hext.size_le
    rw [← hcontent] at hstands
    exact ⟨hcount.symm, (hext.trans (.alloc hext.wellFormed fun _ => False) fun _ hq => hq.elim).weaken
      fun _ _ hq => hq.elim id id, hstands, hgood hstrict⟩

/-- Whatever the chain and however much it may still grow, what is put in the place of a reference
holds the content that stands for it. -/
theorem replacement_meets (cfg : Settings) (room : Nat) : ∀ chain : List String,
    Replaces (cfg.strict = true) (stand cfg room chain) (tried cfg room chain)
      (fun f => cfg.strict = true → Loads cfg room chain f)
      (replacement cfg (inner cfg room) chain) := by
  -- The chain grows by a file at each level, so the induction is on how much it may still grow.
  induction room with
  | zero =>
    intro chain f s hs
    have hopen : open? cfg (inner cfg 0) chain (f.resolve cfg.repository) (keyOf cfg f) s =
        .error (.circularInclude (f.resolve cfg.repository)) s := rfl
    refine replacement_meets_of_error hopen (.refl hs _) rfl rfl fun hlenient hstrict => ?_
    rw [hlenient] at hstrict
    cases hstrict
  | succ room ih =>
    intro chain f s hs
    have hvacuous (hlenient : cfg.strict = false) : cfg.strict = true →
        Loads cfg (room + 1) chain f := by
      intro hstrict
      rw [hlenient] at hstrict
      cases hstrict
    by_cases hchain : chain.any (Path.same (keyOf cfg f)) = true
    · have hopened : opened? cfg chain f = none := if_pos hchain
      refine replacement_meets_of_error (e := .circularInclude (f.resolve cfg.repository)) ?_
        (.refl hs _) ?_ ?_ hvacuous
      · rw [open?, hchain, Bool.or_true, if_pos rfl]
        rfl
      · rw [tried, hopened]
      · rw [stand, hopened]
    · obtain ⟨htidy, hfile⟩ := ofFile_above s cfg.files true ⟨f.resolve cfg.repository, none⟩
      have hopen : open? cfg (inner cfg (room + 1)) chain (f.resolve cfg.repository) (keyOf cfg f) s =
          Policy.ofFile cfg.files true ⟨f.resolve cfg.repository, none⟩ s := by
        rw [open?, Bool.eq_false_iff.mpr hchain]
        rfl
      have hinner : inner cfg (room + 1) = some (resolve cfg room) := rfl
      unfold StoreM.after at htidy
      cases hown : Policy.ofFile cfg.files true ⟨f.resolve cfg.repository, none⟩ .empty with
      | error e s₁ =>
        rw [hown] at htidy hfile
        have hopened : opened? cfg chain f = none := by
          rw [opened?, if_neg hchain, hown]
        refine replacement_meets_of_error (hopen.trans hfile) (.above hs htidy) ?_ ?_
          hvacuous
        · rw [tried, hopened]
        · rw [stand, hopened]
      | ok p s₁ =>
        rw [hown] at htidy hfile
        change s₁.Tidy at htidy
        obtain ⟨rfl, hsize, hfile⟩ := hfile
        have hopened : opened? cfg chain f = some s₁ := by
          rw [opened?, if_neg hchain, hown]
        have hbelow := resolveBelow_above_meets (ih (keyOf cfg f :: chain)) hs htidy hsize
        rw [StoreM.Meets, hinner, replacement_of_ok (hopen.trans hfile), resolve_eq]
        rw [StoreM.Meets] at hbelow
        cases hrun : resolveBelow (replacement cfg (inner cfg room) (keyOf cfg f :: chain))
            (s.above s₁).size ⟨s.size⟩ (s.above s₁) with
        | error e s₂ =>
          rw [hrun] at hbelow
          exact hbelow
        | ok n s₂ =>
          rw [hrun] at hbelow
          obtain ⟨hcount, hext, hstands, hgood⟩ := hbelow
          refine ⟨?_, hext, ?_, fun hstrict => ⟨s₁, hopened, fun q hq g hg => ?_⟩⟩
          · rw [tried, hopened, hcount]
          · rw [stand, hopened]
            exact hstands
          · exact hgood q hq g hg hstrict

/-! ## The policies of a call -/

/-- The references below a policy are resolved, and nothing else is changed. -/
structure Resolved (cfg : Settings) (s : Store) (p : Policy) (n : Nat) (s' : Store) : Prop where
  wellFormed : s'.WellFormed
  clean : ∀ q, s'.Reaches p q → references (s'.entries q) = []
  /-- Each array of references is one of new policies, in the same order. -/
  filled : ∀ q, s.Reaches p q → FilledRows
    (fun f c => s.size ≤ c.id ∧ c.id < s'.size ∧ s'.content c = stand cfg maxDepth [] f ∧
      (cfg.strict = true → Loads cfg maxDepth [] f)) (s.entries q) (s'.entries q)
  content : s'.content p = s.filledTo (stand cfg maxDepth []) s.size p
  frame : ∀ q : Policy, q.id < s.size → ¬s.Reaches p q → s'.node q = s.node q
  dictionary : ∀ q : Policy, q.id < s.size → s'.dictionary? q = s.dictionary? q
  count : n = s.weigh (tried cfg maxDepth []) (s.reachedFrom [p])
  /-- Nothing is left to do. -/
  again : ∀ cfg' : Settings, p.includeFiles cfg' s' = .ok 0 s'

theorem Visits.resolved {p : Policy} {n : Nat} (hs : s.WellFormed) (hp : p.id < s.size)
    (hlevels : s.Within s.size p)
    (h : Visits s (stand cfg maxDepth []) (tried cfg maxDepth [])
      (fun f => cfg.strict = true → Loads cfg maxDepth [] f) ∅ s [p] n s') :
    Resolved cfg s p n s' := by
  obtain ⟨hprogress, _, hcount⟩ := h
  rw [Finset.empty_union] at hprogress hcount
  have hmem {q : Policy} (hq : s.Reaches p q) : q ∈ s.reachedFrom [p] :=
    Store.mem_reachedFrom_iff.mpr ⟨hs.lt_of_reaches hp hq, p, List.mem_cons_self, hq⟩
  have hs' := hprogress.grown.wellFormed
  have hclean := hprogress.clean hs hp
  refine ⟨hs', hclean, fun q hq => ?_, ?_, fun q hlt hq => ?_, hprogress.grown.dictionary, ?_,
    fun cfg' => ?_⟩
  · refine (hprogress.visited q (hmem hq)).2.mono fun f c hc => ?_
    obtain ⟨hstands, hgood⟩ := hc
    obtain ⟨k, hk, hcontent⟩ := hstands.shows
    exact ⟨hstands.low_le, hstands.lt_size, (hs'.content_eq hstands.lt_size hk).trans hcontent, hgood⟩
  · exact (hprogress.shows (fun q hq c hc => Store.reachedFrom_closed hs hq hc) hlevels
      (hmem .refl)).2
  · refine hprogress.grown.frame q hlt fun hdone => hq ?_
    obtain ⟨_, r, hr, hreach⟩ := Store.mem_reachedFrom_iff.mp hdone
    cases List.mem_singleton.mp hr
    exact hreach
  · rw [Store.weigh, Finset.sum_empty, Nat.zero_add] at hcount
    exact hcount
  · rw [Policy.includeFiles, resolve_eq]
    exact resolveBelow_of_clean _ _ hclean

/-- Including files resolves every reference below a policy that does not hold itself, and fails in
strict mode only. -/
theorem includeFiles_resolves_references (cfg : Settings) {s : Store} {p : Policy}
    (hs : s.WellFormed) (hp : p.id < s.size) (hacyclic : s.Acyclic p) :
    match p.includeFiles cfg s with
    | .ok n s' => Resolved cfg s p n s'
    | .error _ _ => cfg.strict = true := by
  have hlevels := hacyclic.within hs hp
  have hmeets := (resolveBelow_meets (replacement_meets cfg maxDepth []) hs s.size hlevels hp
    (.start hs)).imp fun n s' hvisits => hvisits.resolved hs hp hlevels
  rw [Policy.includeFiles, resolve_eq]
  unfold StoreM.Meets at hmeets
  cases hrun : resolveBelow (replacement cfg (inner cfg maxDepth) []) s.size p s with
  | ok n s' =>
    rw [hrun] at hmeets
    exact hmeets
  | error e s' =>
    rw [hrun] at hmeets
    exact hmeets

/-- A reference to a missing file, in a policy that is held under two names. -/
theorem includeFiles_resolves_shared_reference :
    let s : Store := ⟨#[{ entries := [("a", .policies [⟨1⟩]), ("b", .policies [⟨1⟩])] },
      { entries := [("file", .files [⟨"missing.paf", none⟩])] }]⟩
    let cfg : Settings := ⟨⟨fun _ => .error .notFound, id⟩, "", false⟩
    ∃ s', (⟨0⟩ : Policy).includeFiles cfg s = .ok 1 s' ∧ Resolved cfg s ⟨0⟩ 1 s' := by
  intro s cfg
  have hbelow {c : Policy} (hc : c ∈ s.below ⟨0⟩) : c = ⟨1⟩ := by
    have hc : c ∈ [(⟨1⟩ : Policy), ⟨1⟩] := hc
    simpa using hc
  have hout (i : Nat) : s.entries ⟨i + 2⟩ = [] := Store.entries_of_size_le (Nat.le_add_left 2 i)
  have hsorted : ∀ q, Table.Sorted (s.entries q) := by
    rintro ⟨_ | _ | i⟩
    · show List.Pairwise _ ["a", "b"]
      decide
    · exact List.pairwise_singleton _ _
    · rw [hout]
      exact List.Pairwise.nil
  have hclosed : ∀ q, ∀ c ∈ s.below q, c.id < s.size := by
    rintro ⟨_ | _ | i⟩ c hc
    · rw [hbelow hc]
      decide
    · cases hc
    · rw [Store.below, hout] at hc
      cases hc
  have hlevels : s.Within 2 ⟨0⟩ := by
    intro c hc
    rw [hbelow hc]
    exact fun d hd => by cases hd
  obtain ⟨s', hrun⟩ : ∃ s', (⟨0⟩ : Policy).includeFiles cfg s = .ok 1 s' := ⟨_, rfl⟩
  have h := includeFiles_resolves_references cfg ⟨hsorted, hclosed⟩ (p := ⟨0⟩) (by decide)
    hlevels.acyclic
  rw [hrun] at h
  exact ⟨s', hrun, h⟩

end Include

end PolicyStore
