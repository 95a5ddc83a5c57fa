import PolicyStore.Proofs.Include.Resolution
import PolicyStore.Proofs.Paf.Editing

set_option autoImplicit false

namespace PolicyStore

/-!
# Including files in a zone

The policies that take the place of references are new, so that including files keeps to every zone
that the policy belongs to, in whatever way the policies hold each other.
-/

variable {zone : Policy → Prop} {s : Store} {p : Policy}

namespace Include

variable {cfg : Settings} {replace : FileRef → StoreM (Policy × Nat)}

/-- A replacement keeps to the zone, and so does the policy that it puts in the place of a reference. -/
def Confines (zone : Policy → Prop) (replace : FileRef → StoreM (Policy × Nat)) : Prop :=
  ∀ f s, s.Zoned zone → (replace f).Edits zone s fun found s' => s'.Inner zone found.1

theorem edits_replacements (hreplace : Confines zone replace) (fs : List FileRef) : ∀ {s : Store},
    s.Zoned zone → (replacements replace fs).Edits zone s fun found s' =>
      found.1.length = fs.length ∧ ∀ q ∈ found.1, s'.Inner zone q := by
  induction fs with
  | nil => exact fun h => Confined.pure h ⟨rfl, nofun⟩
  | cons f fs ih =>
    intro s h
    refine (hreplace f s h).bind fun first s₁ h₁ hfirst => ?_
    refine (ih h₁.toZoned).bind fun others s₂ h₂ hothers => ?_
    refine Confined.pure h₂.toZoned ⟨congrArg (· + 1) hothers.1, fun q hq => ?_⟩
    rcases List.mem_cons.mp hq with rfl | hq
    · exact hfirst.mono h₂.size_le
    · exact hothers.2 q hq

theorem edits_replaceArrays (hreplace : Confines zone replace) (hp : zone p)
    (arrays : List (String × List FileRef)) : ∀ {s : Store}, s.Zoned zone →
      (∀ row ∈ arrays, Name.segments row.1 = .ok [row.1] ∧ row.2 ≠ []) →
        (replaceArrays replace p arrays).Edits zone s fun _ _ => True := by
  induction arrays with
  | nil => exact fun h _ => Confined.pure h trivial
  | cons row rest ih =>
    intro s h harrays
    obtain ⟨key, files⟩ := row
    obtain ⟨hkey, hfiles⟩ := harrays _ List.mem_cons_self
    refine (edits_replacements hreplace files h).bind fun loaded s₁ h₁ hloaded => ?_
    have hne : (Values.policies loaded.1).isEmpty = false := by
      rw [Values.isEmpty_policies_eq hloaded.1.symm]
      cases files with
      | nil => exact (hfiles rfl).elim
      | cons f fs => rfl
    have hlink : Store.Edits zone s₁ (s₁.link p key (.policies loaded.1)) :=
      h₁.toZoned.link hp hkey hne hloaded.2
    refine StoreM.Edits.modify_bind hlink ?_
    refine (ih hlink.toZoned fun row hrow => harrays row (List.mem_cons_of_mem _ hrow)).bind
      fun _ s₂ h₂ _ => ?_
    exact Confined.pure h₂.toZoned trivial

theorem edits_sumOver {action : Policy → StoreM Nat} {ps : List Policy}
    (haction : ∀ q ∈ ps, ∀ s, s.Zoned zone → (action q).Edits zone s fun _ _ => True) :
    ∀ {s : Store}, s.Zoned zone → (sumOver action ps).Edits zone s fun _ _ => True := by
  induction ps with
  | nil => exact fun h => Confined.pure h trivial
  | cons q ps ih =>
    intro s h
    refine (haction q List.mem_cons_self s h).bind fun _ s₁ h₁ _ => ?_
    refine (ih (fun r hr => haction r (List.mem_cons_of_mem _ hr)) h₁.toZoned).bind
      fun _ s₂ h₂ _ => ?_
    exact Confined.pure h₂.toZoned trivial

theorem edits_resolveBelow (hreplace : Confines zone replace) (n : Nat) : ∀ {p : Policy} {s : Store},
    s.Zoned zone → zone p → (resolveBelow replace n p).Edits zone s fun _ _ => True := by
  induction n with
  | zero => exact fun h _ => Confined.pure h trivial
  | succ n ih =>
    intro p s h hp
    refine Confined.get_bind ?_
    refine (edits_replaceArrays hreplace hp _ h fun row hrow => ?_).bind fun _ s₁ h₁ _ => ?_
    · have hmem := mem_references_iff.mp hrow
      refine ⟨(h.rows p).legal _ hmem, ?_⟩
      rintro hnil
      have hfull := (h.rows p).full _ hmem
      rw [hnil] at hfull
      cases hfull
    · refine Confined.get_bind ?_
      refine (edits_sumOver (fun q hq s hs => ?_) h₁.toZoned).bind fun _ s₂ h₂ _ => ?_
      · exact ih hs (h₁.inside p hp q (mem_of_mem_others hq))
      · exact Confined.pure h₂.toZoned trivial

theorem edits_open? {inner : Option Resolver} {chain : List String} {path key : String}
    (h : s.Zoned zone) :
    (open? cfg inner chain path key).Edits zone s fun q s' => s'.Inner zone q := by
  unfold open?
  split
  · exact Confined.throw h _
  · exact Policy.edits_ofFile h _ _ _

/-- A failure to read a file leaves the zone in order, so an empty policy can be put in its place. -/
theorem edits_replacement_of_error {inner : Option Resolver} {chain : List String} {f : FileRef}
    {e : PolicyError} {s' : Store} (hedits : Store.Edits zone s s')
    (hopen : open? cfg inner chain (f.resolve cfg.repository) (keyOf cfg f) s = .error e s') :
    (replacement cfg inner chain f).Edits zone s fun found s' => s'.Inner zone found.1 := by
  have hrun := replacement_of_error hopen
  cases hstrict : cfg.strict with
  | true =>
    rw [hstrict, if_pos rfl] at hrun
    exact Confined.error hrun hedits
  | false =>
    rw [hstrict, if_neg Bool.false_ne_true] at hrun
    exact Confined.ok hrun (hedits.trans (hedits.toZoned.alloc .nil nofun))
      (hedits.toZoned.inner_alloc {})

theorem confines_replacement (cfg : Settings) (room : Nat) : ∀ chain : List String,
    Confines zone (replacement cfg (inner cfg room) chain) := by
  -- The files that a file refers to are read with less room on the chain.
  induction room with
  | zero =>
    intro chain f s h
    exact edits_replacement_of_error (.refl h) rfl
  | succ room ih =>
    intro chain f s h
    have hopen : (open? cfg (inner cfg (room + 1)) chain (f.resolve cfg.repository)
        (keyOf cfg f)).Edits zone s fun q s' => s'.Inner zone q :=
      edits_open? h
    cases hfile : open? cfg (inner cfg (room + 1)) chain (f.resolve cfg.repository) (keyOf cfg f) s with
    | error e s₁ => exact edits_replacement_of_error (hopen.of_error hfile) hfile
    | ok q s₁ =>
      obtain ⟨h₁, hq⟩ := hopen.of_ok hfile
      have hrun := replacement_of_ok hfile
      have hresolve := edits_resolveBelow (ih (keyOf cfg f :: chain)) s₁.size h₁.toZoned hq.1
      cases hnested : resolve cfg room (keyOf cfg f :: chain) q s₁ with
      | ok n s₂ =>
        rw [hnested] at hrun
        rw [resolve_eq] at hnested
        obtain ⟨h₂, -⟩ := hresolve.of_ok hnested
        exact Confined.ok hrun (h₁.trans h₂) (hq.mono h₂.size_le)
      | error e s₂ =>
        rw [hnested] at hrun
        rw [resolve_eq] at hnested
        exact Confined.error hrun (h₁.trans (hresolve.of_error hnested))

end Include

/-- Including files changes the zone of the policy alone. -/
theorem Policy.edits_includeFiles (h : s.Zoned zone) (hp : zone p) (cfg : Include.Settings) :
    (p.includeFiles cfg).Edits zone s fun _ _ => True := by
  have hresolve := Include.edits_resolveBelow
    (Include.confines_replacement cfg Include.maxDepth []) s.size h hp
  cases hrun : p.includeFiles cfg s with
  | ok n s' =>
    exact Confined.ok hrun (hresolve.of_ok ((Include.resolve_eq ..).symm.trans hrun)).1 trivial
  | error e s' =>
    exact Confined.error hrun (hresolve.of_error ((Include.resolve_eq ..).symm.trans hrun))

end PolicyStore
