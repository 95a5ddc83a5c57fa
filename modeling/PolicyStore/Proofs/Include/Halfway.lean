import Mathlib
import PolicyStore.Proofs.Include.Editing
import PolicyStore.Proofs.Include.Modes
import PolicyStore.Proofs.Store.Trees

set_option autoImplicit false

namespace PolicyStore

/-!
# What a failed inclusion leaves

Arrays of references are written one after the other, each when all of it is loaded. So a run that
fails on the way leaves whole arrays behind: those that it came to before the failing one are
replaced, and all others are as they were.
-/

namespace Include

variable {p q : Policy} {key : String} {s₀ s s' s₁ t : Store} {e : PolicyError} {spot : Spot}
  {replace : FileRef → StoreM (Policy × Nat)}

/-- A policy in the place of a reference: it is new, and no reference is at or below it. -/
structure Loaded (low : Nat) (s : Store) (c : Policy) : Prop where
  low_le : low ≤ c.id
  lt_size : c.id < s.size
  clean : s.Clean c

/-- An array is as it was, or each reference in it has a loaded policy in its place. -/
def Whole (low : Nat) (s : Store) (vs vs' : Values Policy) : Prop :=
  vs' = vs ∨ Filled (fun _ => Loaded low s) vs vs'

/-- What a run that has started from a store leaves, wherever it stops. -/
structure Halfway (s₀ s : Store) : Prop where
  proper : s.Proper
  size_le : s₀.size ≤ s.size
  dictionary : ∀ q : Policy, q.id < s₀.size → s.dictionary? q = s₀.dictionary? q
  arrays : ∀ q : Policy, q.id < s₀.size → ∀ key,
    Option.Rel (Whole s₀.size s) (Table.get? key (s₀.entries q)) (Table.get? key (s.entries q))
  apart : ApartFrom s₀.size s

theorem Loaded.mono (h : Loaded s₀.size s p) (hs : Halfway s₀ s) (hkeeps : Keeps s₀.size s s') :
    Loaded s₀.size s' p where
  low_le := h.low_le
  lt_size := h.lt_size.trans_le hkeeps.size_le
  clean := hkeeps.clean hs.proper.wellFormed hs.apart h.low_le h.lt_size h.clean

namespace Halfway

theorem refl (hs : s.Proper) : Halfway s s where
  proper := hs
  size_le := Nat.le_refl _
  dictionary _ _ := rfl
  arrays q _ key := by
    cases Table.get? key (s.entries q) with
    | none => exact .none
    | some vs => exact .some (Or.inl rfl)
  apart _ hq _ hc := (Nat.lt_irrefl _ ((Store.lt_size_of_mem_below hc).trans_le hq)).elim

theorem rel_mono {low : Nat} (hPQ : ∀ c, Loaded low s c → Loaded low s' c)
    {found found' : Option (Values Policy)} (h : Option.Rel (Whole low s) found found') :
    Option.Rel (Whole low s') found found' := by
  cases h with
  | none => exact .none
  | some hvs => exact .some (hvs.imp_right fun hfilled => hfilled.mono fun _ c => hPQ c)

/-- An array of references is one that the store has had from the start. -/
theorem get?_of_files (h : Halfway s₀ s) (hq : q.id < s₀.size) {fs : List FileRef}
    (hget : Table.get? key (s.entries q) = some (.files fs)) :
    Table.get? key (s₀.entries q) = some (.files fs) := by
  have hrel := h.arrays q hq key
  rw [hget] at hrel
  generalize Table.get? key (s₀.entries q) = found at hrel ⊢
  cases hrel with
  | some hwhole =>
    rcases hwhole with hsame | hfilled
    · rw [hsame]
    · exact (hfilled.kind_ne rfl).elim

/-- What an old policy holds it has held from the start, or it is loaded. -/
theorem child_cases (h : Halfway s₀ s) (hq : q.id < s₀.size) {c : Policy} (hc : c ∈ s.below q) :
    c ∈ s₀.below q ∨ Loaded s₀.size s c := by
  obtain ⟨key, children, hrow, hc⟩ := Store.mem_below_iff.mp hc
  have hrel := h.arrays q hq key
  rw [Table.get?_of_mem (h.proper.rows q).sorted hrow] at hrel
  generalize hold : Table.get? key (s₀.entries q) = found at hrel
  cases hrel with
  | some hwhole =>
    rcases hwhole with rfl | hfilled
    · exact Or.inl (Store.mem_below_of_get? hold hc)
    · refine (hfilled.child_cases hc).imp (fun hmem => ?_) fun ⟨_, hloaded⟩ => hloaded
      exact Store.mem_below_of_get? hold hmem

end Halfway

/-- A run goes on from one store to another, and leaves loaded policies as they are. -/
structure Onward (s₀ s s' : Store) : Prop extends Halfway s₀ s' where
  keeps : Keeps s₀.size s s'

namespace Onward

theorem refl (h : Halfway s₀ s) : Onward s₀ s s := ⟨h, .refl _ _⟩

theorem trans (h : Onward s₀ s s₁) (h' : Onward s₀ s₁ s') : Onward s₀ s s' :=
  ⟨h'.toHalfway, h.keeps.trans h'.keeps⟩

theorem of_ok {α : Type} {m : StoreM α} {a : α} (h : Onward s₀ s (m.after s))
    (hrun : m s = .ok a s') : Onward s₀ s s' := by
  rw [StoreM.after, hrun] at h
  exact h

theorem bind {α β : Type} {m : StoreM α} {f : α → StoreM β} (h : Onward s₀ s (m.after s))
    (hf : ∀ a s', m s = .ok a s' → Onward s₀ s s' → Onward s₀ s' ((f a).after s')) :
    Onward s₀ s ((m >>= f).after s) := by
  unfold StoreM.after at h ⊢
  cases hm : m s with
  | ok a s' =>
    rw [hm] at h
    rw [StoreM.bind_of_ok hm]
    exact h.trans (hf a s' hm h)
  | error e s' =>
    rw [hm] at h
    rw [StoreM.bind_of_error hm]
    exact h

theorem get_bind {α : Type} {f : Store → StoreM α} (h : Onward s₀ s ((f s).after s)) :
    Onward s₀ s ((get >>= f : StoreM α).after s) := h

/-- Adding policies that hold new ones changes nothing of what is there. -/
theorem grow (h : Halfway s₀ s) (hedits : Store.Edits (fun q => s.size ≤ q.id) s s') :
    Onward s₀ s s' := by
  have hsame (q : Policy) (hq : q.id < s.size) : s'.node q = s.node q :=
    hedits.node_eq q hq (Nat.not_le.mpr hq)
  have hkeeps : Keeps s₀.size s s' := ⟨hedits.size_le, fun q _ => hsame q⟩
  refine ⟨⟨hedits.toProper, h.size_le.trans hedits.size_le, fun q hq => ?_, fun q hq key => ?_,
    fun q hq c hc => ?_⟩, hkeeps⟩
  · rw [Store.dictionary?, hsame q (hq.trans_le h.size_le)]
    exact h.dictionary q hq
  · rw [show s'.entries q = s.entries q from congrArg Node.entries (hsame q (hq.trans_le h.size_le))]
    exact Halfway.rel_mono (fun c hc => hc.mono h hkeeps) (h.arrays q hq key)
  · by_cases hold : q.id < s.size
    · have hrows : s'.entries q = s.entries q := congrArg Node.entries (hsame q hold)
      rw [Store.below_congr hrows] at hc
      exact h.apart q hq c hc
    · exact h.size_le.trans (hedits.inside q (Nat.le_of_not_lt hold) c hc)

/-- An array is written that has been loaded. -/
theorem link (h : Halfway s₀ s) (hp : p.id < s₀.size) {fs : List FileRef} {ps : List Policy}
    (hget : Table.get? key (s.entries p) = some (.files fs))
    (hloaded : List.Forall₂ (fun _ => Loaded s₀.size s) fs ps) :
    Onward s₀ s (s.link p key (.policies ps)) := by
  have hrow := Table.mem_of_get? hget
  have hlt := hp.trans_le h.size_le
  have hne : (Values.policies ps).isEmpty = false := by
    rw [Values.isEmpty_policies_eq hloaded.length_eq]
    exact (h.proper.rows p).full _ hrow
  have hinner : ∀ c ∈ ps, s.Inner (fun _ => True) c := by
    intro c hc
    obtain ⟨_, _, hc⟩ := exists_of_mem_right hloaded hc
    exact ⟨trivial, hc.lt_size⟩
  have hproper : Store.Edits (fun _ => True) s (s.link p key (.policies ps)) :=
    h.proper.zoned.link trivial ((h.proper.rows p).legal _ hrow) hne hinner
  have hother {q : Policy} (hq : s₀.size ≤ q.id) : q ≠ p := by
    rintro rfl
    omega
  have hkeeps : Keeps s₀.size s (s.link p key (.policies ps)) :=
    ⟨(Store.size_link ..).ge, fun q hq _ => Store.node_setEntries_of_ne (hother hq) _ _⟩
  refine ⟨⟨hproper.toProper, h.size_le.trans hkeeps.size_le, fun q hq => ?_, fun q hq other => ?_,
    fun q hq c hc => ?_⟩, hkeeps⟩
  · rw [Store.link, Store.dictionary?_setEntries]
    exact h.dictionary q hq
  · by_cases hwritten : q = p ∧ other = key
    · obtain ⟨rfl, rfl⟩ := hwritten
      rw [h.get?_of_files hq hget, Store.get?_link hlt]
      exact .some (Or.inr (.files (hloaded.imp fun _ _ hc => hc.mono h hkeeps)))
    · rw [Store.get?_link_of_ne hlt hwritten]
      exact Halfway.rel_mono (fun c hc => hc.mono h hkeeps) (h.arrays q hq other)
  · have hrows : (s.link p key (.policies ps)).entries q = s.entries q :=
      congrArg Node.entries (Store.node_setEntries_of_ne (hother hq) _ _)
    rw [Store.below_congr hrows] at hc
    exact h.apart q hq c hc

end Onward

/-! ## Runs -/

/-- A run stops at no policy that has no references below it. -/
theorem not_clean_of_stopsAt {n : Nat} (h : StopsAt replace e t spot n p s) : ¬s.Clean p := by
  induction h with
  | here hcomes _ =>
    intro hclean
    obtain ⟨done, before, after, rest, -, -, -, hrefs, -⟩ := hcomes
    rw [hclean _ .refl] at hrefs
    exact List.append_ne_nil_of_right_ne_nil done (List.cons_ne_nil _ rest) hrefs.symm
  | @deeper depth p c s s₁ s₂ before after _ _ harrays hothers hbefore _ ih =>
    intro hclean
    -- Nothing has been done to come here, so `c` is clean as well.
    rw [hclean p .refl] at harrays hothers
    cases harrays
    rw [List.map_nil, others_nil] at hothers
    have hbelow {d : Policy} (hd : d ∈ before ++ c :: after) : s.Clean d := by
      rw [← hothers] at hd
      exact fun r hr => hclean r (hr.head hd)
    have hnothing : sumOver (resolveBelow replace depth) before s = .ok 0 s :=
      sumOver_of_zero fun d hd => resolveBelow_of_clean replace depth
        (hbelow (List.mem_append_left _ hd))
    cases hnothing.symm.trans hbefore
    exact ih (hbelow (List.mem_append_right _ List.mem_cons_self))

section Runs

variable {mayFail : Prop} {content : FileRef → Content} {count : FileRef → Nat}
  {good : FileRef → Prop}

/-- What has been loaded already does not matter: a run below such policies does nothing. -/
theorem onward_sumOver {n : Nat} {ps : List Policy}
    (hold : ∀ c : Policy, c.id < s₀.size → ∀ s, Halfway s₀ s →
      Onward s₀ s ((resolveBelow replace n c).after s)) :
    ∀ {s : Store}, Halfway s₀ s → (∀ c ∈ ps, c.id < s₀.size ∨ Loaded s₀.size s c) →
      Onward s₀ s ((sumOver (resolveBelow replace n) ps).after s) := by
  induction ps with
  | nil => exact fun h _ => .refl h
  | cons c ps ih =>
    intro s h hps
    have hfirst : Onward s₀ s ((resolveBelow replace n c).after s) := by
      rcases hps c List.mem_cons_self with hc | hloaded
      · exact hold c hc s h
      · rw [StoreM.after, resolveBelow_of_clean replace n hloaded.clean]
        exact .refl h
    refine hfirst.bind fun _ s₁ _ h₁ => ?_
    refine (ih h₁.toHalfway fun d hd => ?_).bind fun _ _ _ h₂ => .refl h₂.toHalfway
    exact (hps d (List.mem_cons_of_mem _ hd)).imp_right fun hloaded => hloaded.mono h h₁.keeps

variable (hmeets : Replaces mayFail content count good replace)
  (hconfines : ∀ zone, Confines zone replace)

include hconfines in
theorem onward_replacements (h : Halfway s₀ s) (fs : List FileRef) :
    Onward s₀ s ((replacements replace fs).after s) :=
  .grow h (edits_replacements (hconfines _) fs h.proper.zoned_new).after

include hmeets in
theorem loaded_of_replacements (h : Halfway s₀ s) {fs : List FileRef} {found : List Policy × Nat}
    (hrun : replacements replace fs s = .ok found s') :
    List.Forall₂ (fun _ => Loaded s₀.size s') fs found.1 := by
  obtain ⟨-, -, hall⟩ :=
    (replacements_meets hmeets fs h.proper.wellFormed h.size_le h.apart).of_ok hrun
  exact hall.imp fun _ _ hc => ⟨hc.1.low_le, hc.1.lt_size, hc.1.clean⟩

include hmeets hconfines

theorem onward_replaceArrays (hp : p.id < s₀.size) (arrays : List (String × List FileRef)) :
    ∀ {s : Store}, Halfway s₀ s → Awaits s p arrays →
      Onward s₀ s ((replaceArrays replace p arrays).after s) := by
  induction arrays with
  | nil => exact fun h _ => .refl h
  | cons array arrays ih =>
    intro s h hawaits
    obtain ⟨key, fs⟩ := array
    refine (onward_replacements hconfines h fs).bind fun found s₁ hfound h₁ => ?_
    have hs := h.proper.wellFormed
    have hfiles := hawaits.1 _ List.mem_cons_self
    obtain ⟨hext, -⟩ := (replacements_extends hmeets hs fs).of_ok hfound
    rw [← hext.entries_eq (Store.lt_size_of_get? hfiles) id] at hfiles
    have hlink := Onward.link h₁.toHalfway hp hfiles (loaded_of_replacements hmeets h hfound)
    obtain ⟨-, hrest, -⟩ := hawaits.fill hmeets hs hfound
    have hothers := (ih hlink.toHalfway hrest).bind (f := fun others => pure (found.2 + others))
      fun _ _ _ h₂ => .refl h₂.toHalfway
    exact hlink.trans hothers

theorem onward_resolveBelow (hs₀ : s₀.WellFormed) (n : Nat) : ∀ p : Policy, p.id < s₀.size →
    ∀ s, Halfway s₀ s → Onward s₀ s ((resolveBelow replace n p).after s) := by
  induction n with
  | zero => exact fun _ _ _ h => .refl h
  | succ n ih =>
    intro p hp s h
    refine .get_bind ((onward_replaceArrays hmeets hconfines hp _ h
      (awaits_references h.proper.wellFormed p)).bind fun _ s₁ _ h₁ => .get_bind ?_)
    refine (onward_sumOver ih h₁.toHalfway fun c hc => ?_).bind fun _ _ _ h₂ => .refl h₂.toHalfway
    exact (h₁.child_cases hp (mem_of_mem_others hc)).imp_left (hs₀.closed p c)

/-! ## The array where a run stops -/

theorem onward_comesTo (h : Halfway s₀ s) (howner : spot.owner.id < s₀.size)
    (hcomes : ComesTo replace s spot s₁) : Onward s₀ s s₁ := by
  obtain ⟨done, before, after, rest, tried, s₂, found, hrefs, -, hdone, hbefore⟩ := hcomes
  have hawaits := awaits_references h.proper.wellFormed spot.owner
  rw [hrefs] at hawaits
  have hfirst : Awaits s spot.owner done := by
    refine ⟨fun row hrow => hawaits.1 row (List.mem_append_left _ hrow), ?_⟩
    have hnodup := hawaits.2
    rw [List.map_append] at hnodup
    exact hnodup.of_append_left
  have h₂ := (onward_replaceArrays hmeets hconfines howner done h hfirst).of_ok hdone
  exact h₂.trans ((onward_replacements hconfines h₂.toHalfway before).of_ok hbefore)

/-- The array of the failing reference is there before and after the run. -/
theorem awaits_of_stopsAt (hs₀ : s₀.WellFormed) {n : Nat}
    (hstops : StopsAt replace e t spot n p s) : p.id < s₀.size → Halfway s₀ s →
      s₀.Reaches p spot.owner ∧ ∃ fs, fs[spot.index]? = some spot.file ∧
        Table.get? spot.key (s₀.entries spot.owner) = some (.files fs) ∧
        Table.get? spot.key (t.entries spot.owner) = some (.files fs) := by
  induction hstops with
  | @here _ s s₁ hcomes hfails =>
    intro howner h
    have h₁ := onward_comesTo hmeets hconfines h howner hcomes
    obtain ⟨-, fs, hfiles, hindex⟩ := hcomes.awaits hmeets h.proper.wellFormed
    have hedits : Store.Edits (fun q => s₁.size ≤ q.id) s₁ t :=
      (hconfines _ spot.file s₁ h₁.proper.zoned_new).of_error hfails
    have hlt := howner.trans_le h₁.size_le
    refine ⟨.refl, fs, hindex, h₁.get?_of_files howner hfiles, ?_⟩
    rw [hedits.entries_eq hlt (Nat.not_le.mpr hlt)]
    exact hfiles
  | @deeper _ p c s s₁ s₂ before after _ _ harrays hothers hbefore hstops ih =>
    intro hp h
    have h₁ := (onward_replaceArrays hmeets hconfines hp _ h
      (awaits_references h.proper.wellFormed p)).of_ok harrays
    have hchild (d : Policy) (hd : d ∈ before ++ c :: after) :
        d ∈ s₀.below p ∨ Loaded s₀.size s₁ d :=
      h₁.child_cases hp (mem_of_mem_others (hothers ▸ hd))
    have h₂ := (onward_sumOver (onward_resolveBelow hmeets hconfines hs₀ _) h₁.toHalfway fun d hd =>
      (hchild d (List.mem_append_left _ hd)).imp_left (hs₀.closed p d)).of_ok hbefore
    rcases hchild c (List.mem_append_right _ List.mem_cons_self) with hc | hloaded
    · obtain ⟨hreach, hspot⟩ := ih (hs₀.closed p c hc) h₂.toHalfway
      exact ⟨hreach.head hc, hspot⟩
    · exact (not_clean_of_stopsAt hstops (hloaded.mono h₁.toHalfway h₂.keeps).clean).elim

end Runs

/-- Where an inclusion fails, each array of the policies that were there before is as it was, or one
of references that all have been replaced; and the array that the failing reference stands in, or
through which its file was reached, is as it was. -/
theorem includeFiles_error_leaves (cfg : Settings) {s : Store} {p : Policy} (hs : s.Proper)
    (hp : p.id < s.size) {e : PolicyError} {s' : Store}
    (hrun : p.includeFiles cfg s = .error e s') :
    Halfway s s' ∧ ∃ spot : Spot,
      StopsAt (replacement cfg (inner cfg maxDepth) []) e s' spot s.size p s ∧
      s.Reaches p spot.owner ∧ ∃ fs, fs[spot.index]? = some spot.file ∧
        Table.get? spot.key (s.entries spot.owner) = some (.files fs) ∧
        Table.get? spot.key (s'.entries spot.owner) = some (.files fs) := by
  rw [Policy.includeFiles, resolve_eq] at hrun
  have hmeets := replacement_meets cfg maxDepth []
  have hconfines (zone : Policy → Prop) : Confines zone (replacement cfg (inner cfg maxDepth) []) :=
    confines_replacement cfg maxDepth []
  have hend := onward_resolveBelow hmeets hconfines hs.wellFormed s.size p hp s (.refl hs)
  rw [StoreM.after, hrun] at hend
  obtain ⟨spot, hstops⟩ := exists_stopsAt s.size hrun
  exact ⟨hend.toHalfway, spot, hstops,
    awaits_of_stopsAt hmeets hconfines hs.wellFormed hstops hp (.refl hs)⟩

/-- A file that is included, and one that is missing when its array has been begun. -/
theorem includeFiles_error_leaves_begun_array :
    let s : Store := ⟨#[{ entries := [("a", .files [⟨"x.paf", none⟩]), ("b", .policies [⟨1⟩])] },
      { entries := [("c", .files [⟨"x.paf", none⟩, ⟨"y.paf", none⟩])] }]⟩
    let read : String → Except FileFault ByteArray := fun path =>
      if path = "x.paf" then .ok "v: 1".toUTF8 else .error .notFound
    let cfg : Settings := ⟨⟨read, id⟩, "", true⟩
    ∃ e s', (⟨0⟩ : Policy).includeFiles cfg s = .error e s' ∧ Halfway s s' ∧
      s'.entries ⟨0⟩ = [("a", .policies [⟨2⟩]), ("b", .policies [⟨1⟩])] ∧
      s'.entries ⟨1⟩ = s.entries ⟨1⟩ := by
  intro s read cfg
  have hs : s.Proper :=
    .of_parts (.of_lt (by decide) (by decide)) (.of_lt (by decide)) (.of_lt (by decide))
  obtain ⟨e, s', hrun, hrows⟩ : ∃ e s', (⟨0⟩ : Policy).includeFiles cfg s = .error e s' ∧
      s'.entries ⟨0⟩ = [("a", .policies [⟨2⟩]), ("b", .policies [⟨1⟩])] ∧
      s'.entries ⟨1⟩ = s.entries ⟨1⟩ := ⟨_, _, by cbv, by cbv, by cbv⟩
  exact ⟨e, s', hrun, (includeFiles_error_leaves cfg hs (by decide) hrun).1, hrows⟩

end Include

end PolicyStore
