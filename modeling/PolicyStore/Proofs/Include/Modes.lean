import PolicyStore.Proofs.Include.Advancing

set_option autoImplicit false

namespace PolicyStore

/-!
# Strict and lenient inclusion

A strict run ends at the first reference whose file cannot be opened; a lenient run puts an empty
policy there and goes on. Up to that reference the two runs are one and the same.
-/

namespace Include

open StoreM (bind_of_ok)

/-- The settings with an empty policy in the place of each file that cannot be included. -/
def Settings.lenient (cfg : Settings) : Settings := { cfg with strict := false }

variable {cfg : Settings} {room depth : Nat} {chain : List String} {p : Policy} {e : PolicyError}
  {s s' t : Store} {replace replace' : FileRef → StoreM (Policy × Nat)}

/-! ## Runs that succeed -/

/-- Where the one operation succeeds the other does the same. -/
def Follows {α β : Type} (action' action : α → StoreM β) : Prop :=
  ∀ a s b s', action a s = .ok b s' → action' a s = .ok b s'

section Follows

variable (h : Follows replace' replace)

include h

theorem replacements_follows : Follows (replacements replace') (replacements replace) := by
  intro fs
  induction fs with
  | nil => exact fun _ _ _ hrun => hrun
  | cons f fs ih =>
    intro s found s' hrun
    obtain ⟨first, s₁, hfirst, hrun⟩ := StoreM.bind_eq_ok hrun
    obtain ⟨rest, s₂, hrest, hrun⟩ := StoreM.bind_eq_ok hrun
    exact (bind_of_ok (h _ _ _ _ hfirst)).trans ((bind_of_ok (ih _ _ _ hrest)).trans hrun)

theorem replaceArrays_follows (p : Policy) :
    Follows (replaceArrays replace' p) (replaceArrays replace p) := by
  intro arrays
  induction arrays with
  | nil => exact fun _ _ _ hrun => hrun
  | cons array arrays ih =>
    intro s n s' hrun
    obtain ⟨found, s₁, hfound, hrun⟩ := StoreM.bind_eq_ok hrun
    obtain ⟨_, s₂, hwrite, hrun⟩ := StoreM.bind_eq_ok hrun
    obtain ⟨others, s₃, hothers, hrun⟩ := StoreM.bind_eq_ok hrun
    exact (bind_of_ok (replacements_follows h _ _ _ _ hfound)).trans
      ((bind_of_ok hwrite).trans ((bind_of_ok (ih _ _ _ hothers)).trans hrun))

omit h in
theorem sumOver_follows {action action' : Policy → StoreM Nat} (h : Follows action' action) :
    Follows (sumOver action') (sumOver action) := by
  intro ps
  induction ps with
  | nil => exact fun _ _ _ hrun => hrun
  | cons p ps ih =>
    intro s n s' hrun
    obtain ⟨first, s₁, hfirst, hrun⟩ := StoreM.bind_eq_ok hrun
    obtain ⟨others, s₂, hothers, hrun⟩ := StoreM.bind_eq_ok hrun
    exact (bind_of_ok (h _ _ _ _ hfirst)).trans ((bind_of_ok (ih _ _ _ hothers)).trans hrun)

theorem resolveBelow_follows (depth : Nat) :
    Follows (resolveBelow replace' depth) (resolveBelow replace depth) := by
  induction depth with
  | zero => exact fun _ _ _ _ hrun => hrun
  | succ depth ih =>
    intro p s n s' hrun
    obtain ⟨_, s₁, hget, hrun⟩ := StoreM.bind_eq_ok hrun
    obtain ⟨tried, s₂, htried, hrun⟩ := StoreM.bind_eq_ok hrun
    obtain ⟨_, s₃, hget', hrun⟩ := StoreM.bind_eq_ok hrun
    obtain ⟨below, s₄, hbelow, hrun⟩ := StoreM.bind_eq_ok hrun
    exact (bind_of_ok hget).trans ((bind_of_ok (replaceArrays_follows h p _ _ _ _ htried)).trans
      ((bind_of_ok hget').trans ((bind_of_ok (sumOver_follows ih _ _ _ _ hbelow)).trans hrun)))

end Follows

/-- The mode has no part in how files are opened. -/
theorem open?_lenient (cfg : Settings) (room : Nat) (chain : List String) (path key : String) :
    open? cfg.lenient (inner cfg.lenient room) chain path key =
      open? cfg (inner cfg room) chain path key := by
  cases room <;> rfl

section Opened

variable {f : FileRef} {q : Policy} {s₁ s₂ : Store} {n : Nat}

theorem replacement_lenient_of_error
    (hopen : open? cfg (inner cfg room) chain (f.resolve cfg.repository) (keyOf cfg f) s =
      .error e s₁) :
    replacement cfg.lenient (inner cfg.lenient room) chain f s =
      .ok (⟨s₁.size⟩, 1) (s₁.alloc {}).2 := by
  rw [← open?_lenient] at hopen
  exact replacement_of_error hopen

theorem replacement_of_nested
    (hopen : open? cfg (inner cfg (room + 1)) chain (f.resolve cfg.repository) (keyOf cfg f) s =
      .ok q s₁)
    (hnested : resolveBelow (replacement cfg (inner cfg room) (keyOf cfg f :: chain)) s₁.size q s₁ =
      .ok n s₂) :
    replacement cfg (inner cfg (room + 1)) chain f s = .ok (q, 1 + n) s₂ := by
  have hrun := replacement_of_ok hopen
  rw [resolve_eq, hnested] at hrun
  exact hrun

/-- A replacement is the empty policy, or a file that is opened and resolved. -/
theorem replacement_eq_ok {found : Policy × Nat}
    (hrun : replacement cfg (inner cfg room) chain f s = .ok found s') :
    (∃ e s₁, open? cfg (inner cfg room) chain (f.resolve cfg.repository) (keyOf cfg f) s =
        .error e s₁ ∧ found = (⟨s₁.size⟩, 1) ∧ s' = (s₁.alloc {}).2) ∨
      ∃ less q s₁ n, room = less + 1 ∧
        open? cfg (inner cfg room) chain (f.resolve cfg.repository) (keyOf cfg f) s = .ok q s₁ ∧
        resolveBelow (replacement cfg (inner cfg less) (keyOf cfg f :: chain)) s₁.size q s₁ =
          .ok n s' ∧ found = (q, 1 + n) := by
  cases hopen : open? cfg (inner cfg room) chain (f.resolve cfg.repository) (keyOf cfg f) s with
  | error e s₁ =>
    rw [replacement_of_error hopen] at hrun
    split at hrun
    · cases hrun
    · cases hrun
      exact Or.inl ⟨e, s₁, rfl, rfl, rfl⟩
  | ok q s₁ =>
    cases room with
    | zero => cases hopen
    | succ room =>
      have hwhole := (replacement_of_ok hopen).symm.trans hrun
      rw [resolve_eq] at hwhole
      split at hwhole
      · rename_i n s₂ hnested
        cases hwhole
        exact Or.inr ⟨room, q, s₁, n, rfl, rfl, hnested, rfl⟩
      · cases hwhole

/-- A replacement fails where its file cannot be opened, or inside the file. -/
theorem replacement_eq_error
    (hrun : replacement cfg (inner cfg room) chain f s = .error e s') :
    open? cfg (inner cfg room) chain (f.resolve cfg.repository) (keyOf cfg f) s = .error e s' ∨
      ∃ less q s₁, room = less + 1 ∧
        open? cfg (inner cfg room) chain (f.resolve cfg.repository) (keyOf cfg f) s = .ok q s₁ ∧
        resolveBelow (replacement cfg (inner cfg less) (keyOf cfg f :: chain)) s₁.size q s₁ =
          .error e s' := by
  cases hopen : open? cfg (inner cfg room) chain (f.resolve cfg.repository) (keyOf cfg f) s with
  | error e₁ s₁ =>
    rw [replacement_of_error hopen] at hrun
    split at hrun
    · cases hrun
      exact Or.inl rfl
    · cases hrun
  | ok q s₁ =>
    cases room with
    | zero => cases hopen
    | succ room =>
      have hwhole := (replacement_of_ok hopen).symm.trans hrun
      rw [resolve_eq] at hwhole
      split at hwhole
      · cases hwhole
      · rename_i e₂ s₂ hnested
        cases hwhole
        exact Or.inr ⟨room, q, s₁, rfl, rfl, hnested⟩

end Opened

theorem replacement_follows (cfg : Settings) (room : Nat) : ∀ chain : List String,
    Follows (replacement cfg.lenient (inner cfg.lenient room) chain)
      (replacement cfg (inner cfg room) chain) := by
  -- The files that a file refers to are read with less room on the chain.
  induction room with
  | zero =>
    intro chain f s found s' hrun
    rcases replacement_eq_ok hrun with ⟨e, s₁, hopen, rfl, rfl⟩ | ⟨less, _, _, _, hroom, _⟩
    · exact replacement_lenient_of_error hopen
    · cases hroom
  | succ room ih =>
    intro chain f s found s' hrun
    rcases replacement_eq_ok hrun with ⟨e, s₁, hopen, rfl, rfl⟩ | ⟨less, q, s₁, n, hroom, hopen, hnested, rfl⟩
    · exact replacement_lenient_of_error hopen
    · cases hroom
      rw [← open?_lenient] at hopen
      exact replacement_of_nested hopen
        (resolveBelow_follows (ih (keyOf cfg f :: chain)) _ _ _ _ _ hnested)

/-! ## Where a run fails -/

/-- A reference in an array of a policy. -/
structure Spot where
  owner : Policy
  key : String
  index : Nat
  file : FileRef

/-- Resolving the arrays of a policy, a run comes to a reference of an array. -/
def ComesTo (replace : FileRef → StoreM (Policy × Nat)) (s : Store) (spot : Spot) (s' : Store) : Prop :=
  ∃ done before after rest tried s₁ found,
    references (s.entries spot.owner) = done ++ (spot.key, before ++ spot.file :: after) :: rest ∧
      spot.index = before.length ∧
      replaceArrays replace spot.owner done s = .ok tried s₁ ∧
      replacements replace before s₁ = .ok found s'

/-- A run below a policy stops at a reference whose replacement fails, which leaves a store. It is met
among the references of the policy, or further below. -/
inductive StopsAt (replace : FileRef → StoreM (Policy × Nat)) (e : PolicyError) (t : Store)
    (spot : Spot) : Nat → Policy → Store → Prop
  | here {depth : Nat} {s s₁ : Store} :
      ComesTo replace s spot s₁ → replace spot.file s₁ = .error e t →
      StopsAt replace e t spot (depth + 1) spot.owner s
  | deeper {depth : Nat} {p c : Policy} {s s₁ s₂ : Store} {before after : List Policy}
      {tried others' : Nat} :
      replaceArrays replace p (references (s.entries p)) s = .ok tried s₁ →
      others ((references (s.entries p)).map Prod.fst) (s₁.entries p) = before ++ c :: after →
      sumOver (resolveBelow replace depth) before s₁ = .ok others' s₂ →
      StopsAt replace e t spot depth c s₂ → StopsAt replace e t spot (depth + 1) p s

theorem exists_stopsAt (depth : Nat) : ∀ {p : Policy} {s : Store},
    resolveBelow replace depth p s = .error e t → ∃ spot, StopsAt replace e t spot depth p s := by
  induction depth with
  | zero => exact fun h => by cases h
  | succ depth ih =>
    intro p s h
    rcases StoreM.bind_eq_error h with hget | ⟨_, s₁, hget, h⟩
    · cases hget
    cases hget
    rcases StoreM.bind_eq_error h with harrays | ⟨tried, s₁, harrays, h⟩
    · obtain ⟨done, key, fs, rest, tried, s₁, hfound, hdone, hfs⟩ :=
        exists_of_replaceArrays_error harrays
      obtain ⟨before, f, after, loaded, s₂, rfl, hbefore, hf⟩ := exists_of_replacements_error hfs
      have hcomes : ComesTo replace s ⟨p, key, before.length, f⟩ s₂ :=
        ⟨done, before, after, rest, tried, s₁, loaded, hfound, rfl, hdone, hbefore⟩
      exact ⟨_, .here hcomes hf⟩
    rcases StoreM.bind_eq_error h with hget | ⟨_, s₂, hget, h⟩
    · cases hget
    cases hget
    rcases StoreM.bind_eq_error h with hbelow | ⟨_, _, _, h⟩
    · obtain ⟨before, c, after, k, s₂, hothers, hbefore, hc⟩ := exists_of_sumOver_error hbelow
      obtain ⟨spot, hspot⟩ := ih hc
      exact ⟨spot, .deeper harrays hothers hbefore hspot⟩
    · cases h

/-- A run below a policy fails at a reference, which leaves a store: its file cannot be opened. It
is met among the references of the policy, inside a file that these refer to, or further below. -/
inductive FailsAt (cfg : Settings) (e : PolicyError) (t : Store) (spot : Spot) :
    Nat → List String → Nat → Policy → Store → Prop
  | opening {room : Nat} {chain : List String} {depth : Nat} {s s₁ : Store} :
      ComesTo (replacement cfg (inner cfg room) chain) s spot s₁ →
      open? cfg (inner cfg room) chain (spot.file.resolve cfg.repository) (keyOf cfg spot.file) s₁ =
        .error e t →
      FailsAt cfg e t spot room chain (depth + 1) spot.owner s
  | inside {room : Nat} {chain : List String} {depth : Nat} {s s₁ s₂ : Store} {outer : Spot}
      {q : Policy} :
      ComesTo (replacement cfg (inner cfg (room + 1)) chain) s outer s₁ →
      open? cfg (inner cfg (room + 1)) chain (outer.file.resolve cfg.repository)
        (keyOf cfg outer.file) s₁ = .ok q s₂ →
      FailsAt cfg e t spot room (keyOf cfg outer.file :: chain) s₂.size q s₂ →
      FailsAt cfg e t spot (room + 1) chain (depth + 1) outer.owner s
  | deeper {room : Nat} {chain : List String} {depth : Nat} {p c : Policy} {s s₁ s₂ : Store}
      {before after : List Policy} {tried others' : Nat} :
      replaceArrays (replacement cfg (inner cfg room) chain) p (references (s.entries p)) s =
        .ok tried s₁ →
      others ((references (s.entries p)).map Prod.fst) (s₁.entries p) = before ++ c :: after →
      sumOver (resolveBelow (replacement cfg (inner cfg room) chain) depth) before s₁ =
        .ok others' s₂ →
      FailsAt cfg e t spot room chain depth c s₂ →
      FailsAt cfg e t spot room chain (depth + 1) p s

/-- A run that fails does so at a reference, if runs inside of files do. -/
theorem exists_failsAt_of_inside (hinside : ∀ less, room = less + 1 → ∀ {chain : List String}
      {q : Policy} {s : Store},
      resolveBelow (replacement cfg (inner cfg less) chain) s.size q s = .error e t →
      ∃ spot, FailsAt cfg e t spot less chain s.size q s) (depth : Nat) :
    ∀ {p : Policy} {s : Store},
      resolveBelow (replacement cfg (inner cfg room) chain) depth p s = .error e t →
      ∃ spot, FailsAt cfg e t spot room chain depth p s := by
  intro p s h
  obtain ⟨outer, hstops⟩ := exists_stopsAt depth h
  clear h
  induction hstops with
  | here hcomes hf =>
    rcases replacement_eq_error hf with hopen | ⟨less, q, s₂, rfl, hopen, hnested⟩
    · exact ⟨_, .opening hcomes hopen⟩
    · obtain ⟨spot, hspot⟩ := hinside less rfl hnested
      exact ⟨spot, .inside hcomes hopen hspot⟩
  | deeper harrays hothers hbefore _ ih =>
    obtain ⟨spot, hspot⟩ := ih
    exact ⟨spot, .deeper harrays hothers hbefore hspot⟩

theorem exists_failsAt (cfg : Settings) (room : Nat) : ∀ {chain : List String} {depth : Nat}
    {p : Policy} {s : Store},
    resolveBelow (replacement cfg (inner cfg room) chain) depth p s = .error e t →
      ∃ spot, FailsAt cfg e t spot room chain depth p s := by
  induction room with
  | zero => exact exists_failsAt_of_inside (fun _ hroom => by cases hroom) _
  | succ room ih =>
    refine exists_failsAt_of_inside (fun less hroom => ?_) _
    cases hroom
    exact ih

/-! ## The lenient run goes on -/

/-- The reference is there in the one store, and the other has an empty policy in its place, which
is the first that was made since. -/
def Spot.Emptied (spot : Spot) (t s' : Store) : Prop :=
  ∃ fs ps, Table.get? spot.key (t.entries spot.owner) = some (.files fs) ∧
    fs[spot.index]? = some spot.file ∧
    Table.get? spot.key (s'.entries spot.owner) = some (.policies ps) ∧ ps.length = fs.length ∧
    ps[spot.index]? = some ⟨t.size⟩ ∧ t.size < s'.size ∧ s'.node ⟨t.size⟩ = {}

theorem Spot.Emptied.advances {spot : Spot} (h : spot.Emptied t s) (hadvances : Advances s s') :
    spot.Emptied t s' := by
  obtain ⟨fs, ps, hfiles, hfile, hpolicies, hlength, hempty, hlt, hnode⟩ := h
  refine ⟨fs, ps, hfiles, hfile, hadvances.rows _ _ _ hpolicies nofun, hlength, hempty,
    hlt.trans_le hadvances.size_le, ?_⟩
  rw [hadvances.same ⟨t.size⟩ hlt, hnode]
  rw [Store.entries, hnode]
  rfl

variable {mayFail : Prop} {content : FileRef → Content} {count : FileRef → Nat}
  {good : FileRef → Prop} {s₁ : Store}

theorem ComesTo.follows (h : Follows replace' replace) {spot : Spot} (hcomes : ComesTo replace s spot s') :
    ComesTo replace' s spot s' := by
  obtain ⟨done, before, after, rest, tried, s₁, found, hrefs, hindex, hdone, hbefore⟩ := hcomes
  exact ⟨done, before, after, rest, tried, s₁, found, hrefs, hindex,
    replaceArrays_follows h _ _ _ _ _ hdone, replacements_follows h _ _ _ _ hbefore⟩

/-- When a run comes to a reference, the array that it stands in is still there. -/
theorem ComesTo.awaits (hreplace : Replaces mayFail content count good replace) (hs : s.WellFormed)
    {spot : Spot} (hcomes : ComesTo replace s spot s₁) : s₁.WellFormed ∧
      ∃ fs, Table.get? spot.key (s₁.entries spot.owner) = some (.files fs) ∧
        fs[spot.index]? = some spot.file := by
  obtain ⟨done, before, after, rest, tried, s₀, found, hrefs, hindex, hdone, hbefore⟩ := hcomes
  have hawaits := awaits_references hs spot.owner
  rw [hrefs] at hawaits
  obtain ⟨h₀, hawaits₀⟩ := (replaceArrays_advances hreplace spot.owner done hs hawaits).of_ok hdone
  obtain ⟨hext₁, -⟩ := (replacements_extends hreplace h₀.wellFormed before).of_ok hbefore
  have hfiles := hawaits₀.1 _ List.mem_cons_self
  refine ⟨hext₁.wellFormed, before ++ spot.file :: after, ?_, ?_⟩
  · rw [hext₁.entries_eq (Store.lt_size_of_get? hfiles) id]
    exact hfiles
  · rw [hindex, List.getElem?_append_right (Nat.le_refl _), Nat.sub_self]
    rfl

/-- Whatever is put in the place of a reference, the run goes on to the end and leaves it there. -/
theorem ComesTo.resumes (hreplace : Replaces mayFail content count good replace) (hmay : ¬mayFail)
    (hs : s.WellFormed) {spot : Spot} (hcomes : ComesTo replace s spot s₁) {c : Policy} {k : Nat}
    {s₂ : Store} (hrun : replace spot.file s₁ = .ok (c, k) s₂) (hs₁ : s₁.WellFormed)
    {fs : List FileRef} (hget : Table.get? spot.key (s₁.entries spot.owner) = some (.files fs))
    (depth : Nat) :
    ∃ n s', resolveBelow replace (depth + 1) spot.owner s = .ok n s' ∧ Advances s₂ s' ∧
      ∃ ps, Table.get? spot.key (s'.entries spot.owner) = some (.policies ps) ∧
        ps.length = fs.length ∧ ps[spot.index]? = some c := by
  obtain ⟨done, before, after, rest, tried, s₀, found, hrefs, hindex, hdone, hbefore⟩ := hcomes
  have hawaits := awaits_references hs spot.owner
  rw [hrefs] at hawaits
  obtain ⟨h₀, hawaits₀⟩ := (replaceArrays_advances hreplace spot.owner done hs hawaits).of_ok hdone
  obtain ⟨hext₁, hlength⟩ := (replacements_extends hreplace h₀.wellFormed before).of_ok hbefore
  have hfiles := hawaits₀.1 _ List.mem_cons_self
  rw [hext₁.entries_eq (Store.lt_size_of_get? hfiles) id] at hget
  cases hfiles.symm.trans hget
  obtain ⟨-, hext₂, -⟩ := (hreplace spot.file s₁ hs₁).of_ok hrun
  -- The rest of the array is loaded, and the array is written.
  obtain ⟨loaded, s₃, hafter, hext₃, hlength'⟩ :=
    (replacements_extends hreplace hext₂.wellFormed after).exists_ok hmay
  have hfile : replacements replace (spot.file :: after) s₁ =
      .ok (c :: loaded.1, k + loaded.2) s₃ := (bind_of_ok hrun).trans (bind_of_ok hafter)
  have hload := replacements_append hbefore hfile
  obtain ⟨hfill, hawaits₄, hwritten⟩ := hawaits₀.fill hreplace h₀.wellFormed hload
  -- The other arrays follow, and what is below the policy.
  rw [← List.append_nil rest] at hawaits₄
  obtain ⟨tried', s₅, hrest, h₅, -⟩ :=
    (replaceArrays_advances hreplace spot.owner rest hfill.wellFormed hawaits₄).exists_ok hmay
  have harrays := replaceArrays_append hdone (replaceArrays_cons hload hrest)
  rw [← hrefs] at harrays
  obtain ⟨below, s', hbelow, h'⟩ := (sumOver_advances (others
    ((references (s.entries spot.owner)).map Prod.fst) (s₅.entries spot.owner))
    (fun q _ => resolveBelow_advances hreplace depth q) h₅.wellFormed).exists_ok hmay
  refine ⟨_, s', resolveBelow_of_parts harrays hbelow, ?_, _,
    (h₅.trans h').rows _ _ _ hwritten nofun, ?_, ?_⟩
  · exact (Advances.of_extends hext₃).trans (hfill.trans (h₅.trans h'))
  · rw [List.length_append, List.length_append, List.length_cons, List.length_cons, hlength, hlength']
  · rw [hindex, ← hlength, List.getElem?_append_right (Nat.le_refl _), Nat.sub_self]
    rfl

/-- Below a policy the lenient run goes on to the end, and leaves an empty policy in the place of a
reference that the policy reaches. -/
def Recovers (cfg : Settings) (t : Store) (spot : Spot) (room : Nat) (chain : List String)
    (depth : Nat) (p : Policy) (s : Store) : Prop :=
  ∃ n s', resolveBelow (replacement cfg.lenient (inner cfg.lenient room) chain) depth p s = .ok n s' ∧
    spot.Emptied t s' ∧ s'.Reaches p spot.owner

theorem lenient_mayFail (cfg : Settings) : ¬cfg.lenient.strict = true := Bool.false_ne_true

theorem recovers_of_opening {spot : Spot} (hs : s.WellFormed)
    (hcomes : ComesTo (replacement cfg (inner cfg room) chain) s spot s₁)
    (hopen : open? cfg (inner cfg room) chain (spot.file.resolve cfg.repository)
      (keyOf cfg spot.file) s₁ = .error e t) :
    Recovers cfg t spot room chain (depth + 1) spot.owner s := by
  have hreplace := replacement_meets cfg.lenient room chain
  have hrun := replacement_lenient_of_error hopen
  have hcomes := hcomes.follows (replacement_follows cfg room chain)
  obtain ⟨hs₁, fs, hfiles, hfile⟩ := hcomes.awaits hreplace hs
  obtain ⟨n, s', hwhole, hadvances, ps, hpolicies, hlength, hplace⟩ :=
    hcomes.resumes hreplace (lenient_mayFail cfg) hs hrun hs₁ hfiles depth
  have hext := open?_extends cfg (inner cfg room) chain (spot.file.resolve cfg.repository)
    (keyOf cfg spot.file) hs₁
  rw [StoreM.after, hopen] at hext
  have hheld : Table.get? spot.key (t.entries spot.owner) = some (.files fs) := by
    rw [hext.entries_eq (Store.lt_size_of_get? hfiles) id]
    exact hfiles
  have hlt : t.size < (t.alloc {}).2.size := by
    rw [Store.size_alloc]
    exact Nat.lt_succ_self _
  have hnew : (t.alloc {}).2.node ⟨t.size⟩ = {} := Store.node_alloc_self t {}
  have hnode : s'.node ⟨t.size⟩ = {} := by
    rw [hadvances.same ⟨t.size⟩ hlt, hnew]
    rw [Store.entries, hnew]
    rfl
  exact ⟨n, s', hwhole, ⟨fs, ps, hheld, hfile, hpolicies, hlength, hplace,
    hlt.trans_le hadvances.size_le, hnode⟩, .refl⟩

theorem recovers_of_inside {spot outer : Spot} {q : Policy} {s₂ : Store} (hs : s.WellFormed)
    (hcomes : ComesTo (replacement cfg (inner cfg (room + 1)) chain) s outer s₁)
    (hopen : open? cfg (inner cfg (room + 1)) chain (outer.file.resolve cfg.repository)
      (keyOf cfg outer.file) s₁ = .ok q s₂)
    (hinside : s₂.WellFormed →
      Recovers cfg t spot room (keyOf cfg outer.file :: chain) s₂.size q s₂) :
    Recovers cfg t spot (room + 1) chain (depth + 1) outer.owner s := by
  have hreplace := replacement_meets cfg.lenient (room + 1) chain
  have hcomes := hcomes.follows (replacement_follows cfg (room + 1) chain)
  obtain ⟨hs₁, fs, hfiles, -⟩ := hcomes.awaits hreplace hs
  have hext := open?_extends cfg (inner cfg (room + 1)) chain (outer.file.resolve cfg.repository)
    (keyOf cfg outer.file) hs₁
  rw [StoreM.after, hopen] at hext
  obtain ⟨k, s₃, hnested, hempty, hreach⟩ := hinside hext.wellFormed
  have hs₃ := ((resolveBelow_advances (replacement_meets cfg.lenient room
    (keyOf cfg outer.file :: chain)) s₂.size q s₂ hext.wellFormed).of_ok hnested).wellFormed
  rw [← open?_lenient] at hopen
  have hrun := replacement_of_nested hopen hnested
  obtain ⟨n, s', hwhole, hadvances, ps, hpolicies, -, hplace⟩ :=
    hcomes.resumes hreplace (lenient_mayFail cfg) hs hrun hs₁ hfiles depth
  have hq : q ∈ s'.below outer.owner := Store.mem_below_iff.mpr
    ⟨_, ps, Table.mem_of_get? hpolicies, List.mem_of_getElem? hplace⟩
  exact ⟨n, s', hwhole, hempty.advances hadvances, (hadvances.reaches hs₃ hreach).head hq⟩

theorem recovers_of_deeper {spot : Spot} {c : Policy} {before after : List Policy} {tried k : Nat}
    {s₂ : Store} (hs : s.WellFormed)
    (harrays : replaceArrays (replacement cfg (inner cfg room) chain) p (references (s.entries p)) s =
      .ok tried s₁)
    (hothers : others ((references (s.entries p)).map Prod.fst) (s₁.entries p) = before ++ c :: after)
    (hbefore : sumOver (resolveBelow (replacement cfg (inner cfg room) chain) depth) before s₁ =
      .ok k s₂)
    (hdeeper : s₂.WellFormed → Recovers cfg t spot room chain depth c s₂) :
    Recovers cfg t spot room chain (depth + 1) p s := by
  have hreplace := replacement_meets cfg.lenient room chain
  have hfollows := replacement_follows cfg room chain
  have harrays := replaceArrays_follows hfollows _ _ _ _ _ harrays
  have hbefore := sumOver_follows (resolveBelow_follows hfollows depth) _ _ _ _ hbefore
  have hawaits := awaits_references hs p
  rw [← List.append_nil (references (s.entries p))] at hawaits
  obtain ⟨h₁, -⟩ := (replaceArrays_advances hreplace p _ hs hawaits).of_ok harrays
  have haction (q : Policy) (u : Store) (hu : u.WellFormed) :=
    resolveBelow_advances hreplace depth q u hu
  have h₂ := (sumOver_advances before (fun q _ => haction q) h₁.wellFormed).of_ok hbefore
  obtain ⟨j, s₃, hc, hempty, hreach⟩ := hdeeper h₂.wellFormed
  have h₃ := (haction c s₂ h₂.wellFormed).of_ok hc
  obtain ⟨l, s', hafter, h'⟩ := (sumOver_advances after (fun q _ => haction q)
    h₃.wellFormed).exists_ok (lenient_mayFail cfg)
  have hcons : sumOver (resolveBelow (replacement cfg.lenient (inner cfg.lenient room) chain) depth)
      (c :: after) s₂ = .ok (j + l) s' := (bind_of_ok hc).trans (bind_of_ok hafter)
  have hrest := sumOver_append hbefore hcons
  rw [← hothers] at hrest
  have hmem : c ∈ s₁.below p := by
    apply mem_of_mem_others
    rw [hothers]
    exact List.mem_append_right _ List.mem_cons_self
  have hheld := (h₂.trans (h₃.trans h')).below h₁.wellFormed hmem
  exact ⟨_, s', resolveBelow_of_parts harrays hrest, hempty.advances h',
    (h'.reaches h₃.wellFormed hreach).head hheld⟩

/-- Where a run fails, the lenient run puts an empty policy and goes on to the end. -/
theorem FailsAt.recovers {spot : Spot} (h : FailsAt cfg e t spot room chain depth p s)
    (hs : s.WellFormed) : Recovers cfg t spot room chain depth p s := by
  induction h with
  | opening hcomes hopen => exact recovers_of_opening hs hcomes hopen
  | inside hcomes hopen _ ih => exact recovers_of_inside hs hcomes hopen ih
  | deeper harrays hothers hbefore _ ih => exact recovers_of_deeper hs harrays hothers hbefore ih

/-- A strict inclusion that succeeds is a lenient one as well. If it fails at a reference, the lenient
one puts an empty policy there and resolves all the others. -/
theorem includeFiles_lenient_of_strict (files : FileSystem) (repository : String) (p : Policy)
    (s : Store) :
    let strict : Settings := ⟨files, repository, true⟩
    let lenient : Settings := ⟨files, repository, false⟩
    (∀ n s', p.includeFiles strict s = .ok n s' → p.includeFiles lenient s = .ok n s') ∧
      ∀ e t, p.includeFiles strict s = .error e t → s.WellFormed → p.id < s.size → s.Acyclic p →
        ∃ spot n s', FailsAt strict e t spot maxDepth [] s.size p s ∧
          p.includeFiles lenient s = .ok n s' ∧ spot.Emptied t s' ∧ s'.Reaches p spot.owner ∧
            Resolved lenient s p n s' := by
  intro strict lenient
  refine ⟨fun n s' hrun => ?_, fun e t hrun hs hp hacyclic => ?_⟩
  · rw [Policy.includeFiles, resolve_eq] at hrun ⊢
    exact resolveBelow_follows (replacement_follows strict maxDepth []) _ _ _ _ _ hrun
  · rw [Policy.includeFiles, resolve_eq] at hrun
    obtain ⟨spot, hfails⟩ := exists_failsAt strict maxDepth hrun
    obtain ⟨n, s', hlenient, hempty, hreach⟩ := hfails.recovers hs
    have hlevels := hacyclic.within hs hp
    have hvisits := (resolveBelow_meets (replacement_meets lenient maxDepth []) hs s.size hlevels hp
      (.start hs)).of_ok hlenient
    refine ⟨spot, n, s', hfails, ?_, hempty, hreach, hvisits.resolved hs hp hlevels⟩
    rw [Policy.includeFiles, resolve_eq]
    exact hlenient

/-- References to missing files, the first of which fails. -/
theorem includeFiles_lenient_of_missing :
    let s : Store := ⟨#[{ entries := [("file", .files [⟨"one.paf", none⟩, ⟨"two.paf", none⟩])] }]⟩
    let files : FileSystem := ⟨fun _ => .error .notFound, id⟩
    ∃ (e : PolicyError) (t : Store) (spot : Spot) (n : Nat) (s' : Store),
      (⟨0⟩ : Policy).includeFiles ⟨files, "", true⟩ s = .error e t ∧
      (⟨0⟩ : Policy).includeFiles ⟨files, "", false⟩ s = .ok n s' ∧ spot.Emptied t s' ∧
        s'.Reaches ⟨0⟩ spot.owner ∧ Resolved ⟨files, "", false⟩ s ⟨0⟩ n s' := by
  intro s files
  have hs : s.WellFormed := .of_lt (by decide) (by decide)
  have hlevels : s.Within 1 ⟨0⟩ := fun c hc => by cases hc
  obtain ⟨e, t, hrun⟩ : ∃ e t, (⟨0⟩ : Policy).includeFiles ⟨files, "", true⟩ s = .error e t :=
    ⟨_, _, rfl⟩
  obtain ⟨spot, n, s', -, hlenient, hempty, hreach, hresolved⟩ :=
    (includeFiles_lenient_of_strict files "" ⟨0⟩ s).2 e t hrun hs (by decide) hlevels.acyclic
  exact ⟨e, t, spot, n, s', hrun, hlenient, hempty, hreach, hresolved⟩

end Include

end PolicyStore
