import PolicyStore.Proofs.Include.Resolution
import PolicyStore.Proofs.Include.Tracing

set_option autoImplicit false

namespace PolicyStore

/-!
# Chains of files

References lead from a policy to files and from these to others. All of them can be included exactly
if no chain of references comes to a file twice or is too long, and the files that are being included
form such a chain at any time.
-/

namespace Include

/-- The paths that the references at and below a policy lead to. -/
def Cites (cfg : Settings) (s : Store) (p : Policy) (path : String) : Prop :=
  ∃ q, s.Reaches p q ∧ ∃ f ∈ s.fileRefs q, f.resolve cfg.repository = path

/-- The file can be read by itself. -/
def Accepted (cfg : Settings) (path : String) : Prop :=
  ∃ r s, Policy.ofFile cfg.files true ⟨path, none⟩ .empty = .ok r s

/-- The edges of the include graph. -/
def Refers (cfg : Settings) (path path' : String) : Prop :=
  ∃ r s, Policy.ofFile cfg.files true ⟨path, none⟩ .empty = .ok r s ∧ Cites cfg s r path'

/-- A chain of references, the first of them to one of the cited paths. -/
inductive Leads (cfg : Settings) : (String → Prop) → List String → Prop
  | nil {cited : String → Prop} : Leads cfg cited []
  | cons {cited : String → Prop} {path : String} {rest : List String} : cited path →
      Leads cfg (Refers cfg path) rest → Leads cfg cited (path :: rest)

/-- No two paths belong to the same file. -/
def Distinct (keys : List String) : Prop := keys.Pairwise fun a b => Path.same a b = false

instance (keys : List String) : Decidable (Distinct keys) :=
  inferInstanceAs (Decidable (keys.Pairwise fun a b => Path.same a b = false))

/-- The files of a chain differ from each other and from those seen before, and there is room for
all of them. -/
def Fits (cfg : Settings) : Nat → List String → List String → Prop
  | _, _, [] => True
  | 0, _, _ :: _ => False
  | room + 1, seen, path :: rest =>
    seen.any (Path.same (cfg.files.canonical path)) = false ∧
      Fits cfg room (cfg.files.canonical path :: seen) rest

theorem any_same_eq_false_iff {key : String} {keys : List String} :
    keys.any (Path.same key) = false ↔ ∀ c ∈ keys, Path.same key c = false := by
  simp only [List.any_eq_false, Bool.not_eq_true]

theorem same_comm (a b : String) : Path.same a b = Path.same b a := by
  simp only [Path.same, eq_comm]

theorem fits_iff {cfg : Settings} {trail : List String} : ∀ {room : Nat} {seen : List String},
    Fits cfg room seen trail ↔ trail.length ≤ room ∧
      Distinct (trail.map cfg.files.canonical) ∧
        ∀ path ∈ trail, ∀ c ∈ seen, Path.same (cfg.files.canonical path) c = false := by
  induction trail with
  | nil =>
    intro room seen
    cases room <;> simp [Fits, Distinct]
  | cons path rest ih =>
    intro room seen
    cases room with
    | zero => simp [Fits]
    | succ room =>
      simp only [Fits, ih, any_same_eq_false_iff, List.length_cons, Nat.add_le_add_iff_right,
        List.map_cons, Distinct, List.pairwise_cons, List.forall_mem_cons, List.forall_mem_map]
      constructor
      · rintro ⟨hseen, hlength, hdistinct, hrest⟩
        refine ⟨hlength, ⟨fun other hother => ?_, hdistinct⟩, hseen, fun other hother => ?_⟩
        · rw [same_comm]
          exact (hrest other hother).1
        · exact (hrest other hother).2
      · rintro ⟨hlength, ⟨hfirst, hdistinct⟩, hseen, hrest⟩
        refine ⟨hseen, hlength, hdistinct, fun other hother => ⟨?_, hrest other hother⟩⟩
        rw [same_comm]
        exact hfirst other hother

/-! ## Files on top of a store -/

section Opened

variable {cfg : Settings} {s s' : Store} {path : String} {p : Policy}

/-- What there is after a file has been read. -/
structure Opened (cfg : Settings) (path : String) (s : Store) (p : Policy) (s' : Store) : Prop where
  root : p = ⟨s.size⟩
  wellFormed : s'.WellFormed
  lt_size : p.id < s'.size
  within : s'.Within s'.size p
  cites : ∀ q, s'.Reaches p q → ∀ f ∈ s'.fileRefs q, Refers cfg path (f.resolve cfg.repository)

theorem opened_of_ofFile (hs : s.WellFormed)
    (h : Policy.ofFile cfg.files true ⟨path, none⟩ s = .ok p s') : Opened cfg path s p s' := by
  obtain ⟨htidy, hfile⟩ := ofFile_above s cfg.files true ⟨path, none⟩
  unfold StoreM.after at htidy
  cases hown : Policy.ofFile cfg.files true ⟨path, none⟩ .empty with
  | error e s₁ =>
    rw [hown] at hfile
    rw [hfile] at h
    cases h
  | ok r s₁ =>
    rw [hown] at htidy hfile
    change s₁.Tidy at htidy
    obtain ⟨rfl, hsize, hfile⟩ := hfile
    rw [hfile] at h
    cases h
    have hroot : (⟨s.size⟩ : Policy) = (⟨0⟩ : Policy).raise s.size := by
      rw [Policy.raise, Nat.zero_add]
    have hsize_above := Store.size_above s s₁
    refine ⟨rfl, hs.above htidy.toWellFormed, ?_, ?_, fun q hq f hf => ?_⟩
    · show s.size < _
      omega
    · obtain ⟨n, hn⟩ := htidy.founded ⟨0⟩
      have hlevels := hn.acyclic.within htidy.toWellFormed hsize
      rw [hroot]
      exact (Store.within_above_raise hlevels).mono (by omega)
    · rw [hroot, Store.reaches_above_raise_iff] at hq
      obtain ⟨r, rfl, hr⟩ := hq
      rw [Store.fileRefs_above_raise] at hf
      exact ⟨⟨0⟩, s₁, hown, r, hr, f, hf, rfl⟩

theorem Accepted.ofFile (h : Accepted cfg path) (s : Store) :
    ∃ p s', Policy.ofFile cfg.files true ⟨path, none⟩ s = .ok p s' := by
  obtain ⟨r, s₁, hown⟩ := h
  obtain ⟨_, hfile⟩ := ofFile_above s cfg.files true ⟨path, none⟩
  rw [hown] at hfile
  exact ⟨_, _, hfile.2.2⟩

theorem open?_of_any {inner : Option Resolver} {chain : List String} {key : String}
    (h : chain.any (Path.same key) = true) :
    open? cfg inner chain path key s = .error (.circularInclude path) s := by
  rw [open?, h, Bool.or_true, if_pos rfl]
  rfl

theorem open?_of_room {resolve : Resolver} {chain : List String} {key : String}
    (h : chain.any (Path.same key) = false) :
    open? cfg (some resolve) chain path key s =
      Policy.ofFile cfg.files true ⟨path, none⟩ s := by
  rw [open?, h]
  rfl

end Opened

/-! ## Chains that do not fit -/

variable {cfg : Settings}

theorem fits_of_loads {room : Nat} : ∀ {seen : List String} {f : FileRef} {rest : List String},
    Loads cfg room seen f → Leads cfg (Refers cfg (f.resolve cfg.repository)) rest →
      Fits cfg room seen (f.resolve cfg.repository :: rest) := by
  induction room with
  | zero => exact fun h _ => h.elim
  | succ room ih =>
    intro seen f rest hloads hleads
    obtain ⟨s, hopened, hinner⟩ := hloads
    unfold opened? at hopened
    split at hopened
    · cases hopened
    rename_i hseen
    refine ⟨Bool.eq_false_iff.mpr hseen, ?_⟩
    cases hleads with
    | nil => cases room <;> exact trivial
    | cons hcited hleads =>
      obtain ⟨r, s₁, hfile, q, hq, g, hg, rfl⟩ := hcited
      rw [hfile] at hopened
      cases hopened
      have hroot : r = ⟨0⟩ := by
        obtain ⟨_, habove⟩ := ofFile_above .empty cfg.files true ⟨f.resolve cfg.repository, none⟩
        rw [hfile] at habove
        exact habove.1
      rw [hroot] at hq
      exact ih (hinner q hq g hg) hleads

/-- Where each file can be read by itself, a failure comes from a chain that does not fit. -/
theorem exists_not_fits_of_error (room : Nat) :
    ∀ {seen : List String} {f : FileRef} {s s' : Store} {e : PolicyError}, s.WellFormed →
      (∀ trail, Leads cfg (· = f.resolve cfg.repository) trail →
        ∀ path ∈ trail, Accepted cfg path) →
      replacement cfg (inner cfg room) seen f s = .error e s' →
      (∃ path, e = .circularInclude path) ∧
        ∃ rest, Leads cfg (Refers cfg (f.resolve cfg.repository)) rest ∧
          ¬Fits cfg room seen (f.resolve cfg.repository :: rest) := by
  induction room with
  | zero =>
    intro seen f s s' e _ _ hrun
    have hopen : open? cfg (inner cfg 0) seen (f.resolve cfg.repository) (keyOf cfg f) s =
        .error (.circularInclude (f.resolve cfg.repository)) s := rfl
    rw [replacement_of_error hopen] at hrun
    split at hrun
    · cases hrun
      exact ⟨⟨_, rfl⟩, [], .nil, fun h => h⟩
    · cases hrun
  | succ room ih =>
    intro seen f s s' e hs haccepted hrun
    by_cases hseen : seen.any (Path.same (keyOf cfg f)) = true
    · rw [replacement_of_error (open?_of_any hseen)] at hrun
      split at hrun
      · cases hrun
        exact ⟨⟨_, rfl⟩, [], .nil, fun h => Bool.eq_false_iff.mp h.1 hseen⟩
      · cases hrun
    · have hseen := Bool.eq_false_iff.mpr hseen
      have hself : Accepted cfg (f.resolve cfg.repository) :=
        haccepted _ (.cons rfl .nil) _ List.mem_cons_self
      obtain ⟨p, s₁, hfile⟩ := hself.ofFile s
      have hopened := opened_of_ofFile hs hfile
      rw [inner, replacement_of_ok ((open?_of_room hseen).trans hfile), resolve_eq] at hrun
      split at hrun
      · cases hrun
      · -- The file itself could be read, so a reference in it has failed.
        rename_i e₁ s₂ hbelow
        cases hrun
        obtain ⟨q, hq, g, hg, s₃, s₄, hs₃, hfails⟩ :=
          exists_failing_reference (replacement_meets cfg room (keyOf cfg f :: seen))
            hopened.wellFormed hopened.within hopened.lt_size hbelow
        have hrefers := hopened.cites q hq g hg
        obtain ⟨hcircular, rest, hleads, hfits⟩ := ih hs₃ (fun trail htrail path hpath => by
          cases htrail with
          | nil => cases hpath
          | cons hfirst hrest =>
            subst hfirst
            exact haccepted _ (.cons rfl (.cons hrefers hrest)) _ (List.mem_cons_of_mem _ hpath))
          hfails
        exact ⟨hcircular, _, .cons hrefers hleads, fun h => hfits h.2⟩

end Include

end PolicyStore
