import Mathlib
import PolicyStore.Proofs.Include.Chains

set_option autoImplicit false

namespace PolicyStore

/-!
# Circles of files

A strict inclusion succeeds exactly if each chain of references comes to different files, not too
many of them. The walk over the references ends by itself: the bound on its levels is never what
stops it, and the chain of the files that are being included never repeats a file.
-/

namespace Include

variable {cfg : Settings} {s : Store} {p : Policy}

/-! ## A guard on the chain -/

/-- Leaves a chain that is too long or repeats a file to another resolver. -/
def guard (other resolver : Resolver) : Resolver := fun chain p =>
  if Distinct chain ∧ chain.length ≤ maxDepth then resolver chain p else other chain p

/-- Resolving under a guard, and with more levels to spare. -/
def guarded (cfg : Settings) (other : Resolver) (extra : Nat) : Nat → Resolver
  | 0 => guard other fun chain p => do
    resolveBelow (replacement cfg none chain) ((← get).size + extra) p
  | room + 1 => guard other fun chain p => do
    resolveBelow (replacement cfg (some (guarded cfg other extra room)) chain)
      ((← get).size + extra) p

theorem guard_of_distinct {other resolver : Resolver} {chain : List String}
    (hchain : Distinct chain) (hlength : chain.length ≤ maxDepth) :
    guard other resolver chain p = resolver chain p :=
  if_pos ⟨hchain, hlength⟩

/-- The guard is never used, and the spare levels are not either. -/
theorem guarded_eq (other : Resolver) (extra room : Nat) :
    ∀ {chain : List String} {p : Policy} {s : Store}, s.WellFormed → p.id < s.size →
      s.Within s.size p → Distinct chain → chain.length + room = maxDepth →
      guarded cfg other extra room chain p s = resolve cfg room chain p s := by
  induction room with
  | zero =>
    intro chain p s hs hp hn hchain hlength
    rw [guarded, guard_of_distinct hchain (by omega), resolve_eq]
    exact resolveBelow_eq (replacement_meets cfg 0 chain) hs s.size (Nat.le_add_right _ _) hn hp
      (.start hs) fun _ _ _ _ _ _ => rfl
  | succ room ih =>
    intro chain p s hs hp hn hchain hlength
    rw [guarded, guard_of_distinct hchain (by omega), resolve_eq]
    apply resolveBelow_eq (replacement_meets cfg (room + 1) chain) hs s.size
      (Nat.le_add_right _ _) hn hp (.start hs)
    intro q _ f _ s hs
    by_cases hseen : chain.any (Path.same (keyOf cfg f)) = true
    · rw [inner, replacement_of_error (open?_of_any hseen),
        replacement_of_error (open?_of_any hseen)]
    · have hseen := Bool.eq_false_iff.mpr hseen
      cases hfile : Policy.ofFile cfg.files true ⟨f.resolve cfg.repository, none⟩ s with
      | error e s₁ =>
        rw [inner, replacement_of_error ((open?_of_room hseen).trans hfile),
          replacement_of_error ((open?_of_room hseen).trans hfile)]
      | ok r s₁ =>
        have hopened := opened_of_ofFile hs hfile
        have hkey : Distinct (keyOf cfg f :: chain) :=
          List.pairwise_cons.mpr ⟨any_same_eq_false_iff.mp hseen, hchain⟩
        have hinner := ih hopened.wellFormed hopened.lt_size hopened.within hkey
          (by rw [List.length_cons]; omega)
        rw [inner, replacement_of_ok ((open?_of_room hseen).trans hfile),
          replacement_of_ok ((open?_of_room hseen).trans hfile), hinner]

/-! ## Strict inclusion -/

/-- Every chain of references from the policy comes to different files, and to few enough. -/
def Sound (cfg : Settings) (s : Store) (p : Policy) : Prop :=
  ∀ trail, Leads cfg (Cites cfg s p) trail →
    Distinct (trail.map cfg.files.canonical) ∧ trail.length ≤ maxDepth

theorem distinct_of_fits {trail : List String} (h : Fits cfg maxDepth [] trail) :
    Distinct (trail.map cfg.files.canonical) ∧ trail.length ≤ maxDepth := by
  obtain ⟨hlength, hdistinct, _⟩ := fits_iff.mp h
  exact ⟨hdistinct, hlength⟩

theorem fits_of_sound (h : Sound cfg s p) {trail : List String}
    (htrail : Leads cfg (Cites cfg s p) trail) : Fits cfg maxDepth [] trail := by
  obtain ⟨hdistinct, hlength⟩ := h trail htrail
  exact fits_iff.mpr ⟨hlength, hdistinct, fun _ _ _ hc => by cases hc⟩

theorem sound_of_loads (h : ∀ q, s.Reaches p q → ∀ f ∈ s.fileRefs q, Loads cfg maxDepth [] f) :
    Sound cfg s p := by
  intro trail htrail
  apply distinct_of_fits
  cases htrail with
  | nil => exact trivial
  | cons hcited hleads =>
    obtain ⟨q, hq, f, hf, rfl⟩ := hcited
    exact fits_of_loads (h q hq f hf) hleads

/-- A strict inclusion of files that can be read succeeds if and only if there is no circle and no
chain that is too long, and fails for no other reason; the guarded resolver does the same as the one
without a guard, in both modes. -/
theorem includeFiles_finds_circles (cfg : Settings) {s : Store} {p : Policy} (hs : s.WellFormed)
    (hp : p.id < s.size) (hacyclic : s.Acyclic p) :
    (cfg.strict = true →
      (∀ trail, Leads cfg (Cites cfg s p) trail → ∀ path ∈ trail, Accepted cfg path) →
        match p.includeFiles cfg s with
        | .ok _ _ => Sound cfg s p
        | .error e _ => ¬Sound cfg s p ∧ ∃ path, e = .circularInclude path) ∧
      ∀ (other : Resolver) (extra : Nat),
        guarded cfg other extra maxDepth [] p s = p.includeFiles cfg s := by
  have hlevels := hacyclic.within hs hp
  refine ⟨fun hstrict haccepted => ?_, fun other extra => ?_⟩
  · have hresolved := includeFiles_resolves_references cfg hs hp hacyclic
    cases hrun : p.includeFiles cfg s with
    | ok n s' =>
      rw [hrun] at hresolved
      apply sound_of_loads
      intro q hq f hf
      obtain ⟨c, hc⟩ := exists_of_mem_fileRefs (hresolved.filled q hq) hf
      exact hc.2.2.2 hstrict
    | error e s' =>
      rw [Policy.includeFiles, resolve_eq] at hrun
      obtain ⟨q, hq, f, hf, s₁, s₂, hs₁, hfails⟩ :=
        exists_failing_reference (replacement_meets cfg maxDepth []) hs hlevels hp hrun
      have hcited : Cites cfg s p (f.resolve cfg.repository) := ⟨q, hq, f, hf, rfl⟩
      obtain ⟨hcircular, rest, hleads, hfits⟩ := exists_not_fits_of_error maxDepth hs₁
        (fun trail htrail path hpath => by
          cases htrail with
          | nil => cases hpath
          | cons hfirst hrest =>
            subst hfirst
            exact haccepted _ (.cons hcited hrest) path hpath) hfails
      exact ⟨fun hsound => hfits (fits_of_sound hsound (.cons hcited hleads)), hcircular⟩
  · exact guarded_eq other extra maxDepth hs hp hlevels List.Pairwise.nil (Nat.zero_add _)

theorem forall_mem_of_leads {P : String → Prop}
    (hrefers : ∀ path path', P path → Refers cfg path path' → P path') {trail : List String} :
    ∀ {cited : String → Prop}, (∀ path, cited path → P path) → Leads cfg cited trail →
      ∀ path ∈ trail, P path := by
  induction trail with
  | nil =>
    intro cited _ _ path hpath
    cases hpath
  | cons first rest ih =>
    intro cited hcited h
    cases h with
    | cons hfirst hrest =>
      have hP := hcited first hfirst
      exact List.forall_mem_cons.mpr ⟨hP, ih (fun path => hrefers first path hP) hrest⟩

/-- A file that refers to itself. -/
theorem includeFiles_finds_circle_of_one_file :
    let s : Store := ⟨#[{ entries := [("start", .files [⟨"a.paf", none⟩])] }]⟩
    let cfg : Settings := ⟨⟨fun _ => .ok "again: @a.paf".toUTF8, id⟩, "", true⟩
    ¬Sound cfg s ⟨0⟩ ∧
      (∃ s', (⟨0⟩ : Policy).includeFiles cfg s = .error (.circularInclude "a.paf") s') ∧
      ∀ (other : Resolver) (extra : Nat),
        guarded cfg other extra maxDepth [] ⟨0⟩ s = (⟨0⟩ : Policy).includeFiles cfg s := by
  intro s cfg
  have hbelow : s.below ⟨0⟩ = [] := rfl
  have hout (i : Nat) : s.entries ⟨i + 1⟩ = [] := Store.entries_of_size_le (Nat.le_add_left 1 i)
  have hs : s.WellFormed := by
    refine ⟨?_, ?_⟩
    · rintro ⟨_ | i⟩
      · exact List.pairwise_singleton _ _
      · rw [hout]
        exact List.Pairwise.nil
    · rintro ⟨_ | i⟩ c hc
      · cases hc
      · rw [Store.below, hout] at hc
        cases hc
  have hlevels : s.Within 1 ⟨0⟩ := fun c hc => by cases hc
  obtain ⟨hstrict, hguarded⟩ :=
    includeFiles_finds_circles cfg hs (p := ⟨0⟩) (by decide) hlevels.acyclic
  have hfile : Policy.ofFile cfg.files true ⟨"a.paf", none⟩ .empty =
      .ok ⟨0⟩ ⟨#[{ entries := [("again", .files [⟨"a.paf", none⟩])] }]⟩ := by
    cbv
  -- Every file of a chain is the one file that there is.
  have haccepted : ∀ trail, Leads cfg (Cites cfg s ⟨0⟩) trail → ∀ path ∈ trail, Accepted cfg path := by
    intro trail htrail path hpath
    have hP : path = "a.paf" := by
      apply forall_mem_of_leads (P := (· = "a.paf")) _ _ htrail path hpath
      · rintro _ path rfl ⟨r, s₁, hown, q, hq, f, hf, rfl⟩
        rw [hfile] at hown
        cases hown
        cases hq.eq_of_below_eq_nil rfl
        cases List.mem_singleton.mp hf
        rfl
      · rintro path ⟨q, hq, f, hf, rfl⟩
        cases hq.eq_of_below_eq_nil hbelow
        cases List.mem_singleton.mp hf
        rfl
    rw [hP]
    exact ⟨_, _, hfile⟩
  have hrun : (⟨0⟩ : Policy).includeFiles cfg s = .error (.circularInclude "a.paf")
      ⟨#[{ entries := [("start", .files [⟨"a.paf", none⟩])] },
        { entries := [("again", .files [⟨"a.paf", none⟩])] }]⟩ := by
    cbv
  refine ⟨?_, ⟨_, hrun⟩, hguarded⟩
  have h := hstrict rfl haccepted
  rw [hrun] at h
  exact h.1

end Include

end PolicyStore
