import PolicyStore.Proofs.Include.Modes
import PolicyStore.Proofs.Loading.Detaching
import PolicyStore.Proofs.Paf.Recognition
import PolicyStore.Proofs.Paf.Strictness

set_option autoImplicit false

namespace PolicyStore

/-!
# The modes of a load

A strict load that succeeds is a lenient load as well. Reading a text, including files, loading the
files of a dictionary and completing the policy succeed strictly only where the lenient mode has
nothing to be lenient about.
-/

/-- Wherever the one operation succeeds, the other does the same. -/
def StoreM.Refines {α : Type} (m m' : StoreM α) : Prop :=
  ∀ s a s', m s = .ok a s' → m' s = .ok a s'

namespace StoreM.Refines

variable {α β : Type} {m m' : StoreM α}

theorem refl (m : StoreM α) : m.Refines m := fun _ _ _ h => h

theorem bind {f f' : α → StoreM β} (hm : m.Refines m') (hf : ∀ a, (f a).Refines (f' a)) :
    (m >>= f).Refines (m' >>= f') := by
  intro s b s' h
  obtain ⟨a, s₁, hfirst, hrest⟩ := StoreM.bind_eq_ok h
  exact (StoreM.bind_of_ok (hm s a s₁ hfirst)).trans (hf a s₁ b s' hrest)

theorem mapError (h : m.Refines m') (f : PolicyError → PolicyError) :
    (StoreM.mapError f m).Refines (StoreM.mapError f m') := by
  intro s a s' hrun
  unfold StoreM.mapError at hrun ⊢
  split at hrun
  · rename_i hm
    cases hrun
    rw [h s a s' hm]
  · cases hrun

end StoreM.Refines

open StoreM (Refines)

/-! ## Reading -/

/-- A strict parser that reads all lines has met no fault, and neither does a lenient one. -/
theorem Paf.parseFresh_refines (target : Policy) (lines : List Line) :
    (parseFresh true target lines).Refines (parseFresh false target lines) := by
  intro s n s' h
  obtain ⟨u, hparse, rfl⟩ := ok_of_parseFresh h
  obtain ⟨-, -, noted, -, hstops⟩ := strictable_parse target lines ⟨s, { strict := false }⟩ rfl
  have hanswer : answer (parse target lines) ⟨s, { strict := true }⟩ = .ok n := by
    rw [answer, hparse]
  cases noted with
  | nil =>
    have hlenient := ok_of_answer (hstops.1.symm.trans hanswer)
    have hstore : (after (parse target lines) ⟨s, { strict := false }⟩).store = u.store := by
      have hafter := congrArg Session.store hstops.2
      rw [show (Session.strictly ⟨s, { strict := false }⟩) = ⟨s, { strict := true }⟩ from rfl,
        after, hparse] at hafter
      exact hafter.symm
    rw [parseFresh, hlenient, ← hstore]
  | cons first rest => cases hstops.symm.trans hanswer

namespace Policy

theorem loadText_refines (p : Policy) (text : String) :
    (p.loadText true text).Refines (p.loadText false text) := by
  intro s n s' h
  obtain ⟨hformat, hparse⟩ := loadText_eq_ok_iff.mp h
  exact loadText_eq_ok_iff.mpr ⟨hformat, Paf.parseFresh_refines p _ s n s' hparse⟩

theorem loadFile_refines (p : Policy) (fs : FileSystem) (f : FileRef) :
    (p.loadFile fs true f).Refines (p.loadFile fs false f) :=
  (Refines.refl _).bind fun _ => (p.loadText_refines _).mapError _

theorem ofText_refines (text : String) : (ofText true text).Refines (ofText false text) :=
  (Refines.refl _).bind fun p => (p.loadText_refines text).bind fun _ => .refl _

theorem ofFile_refines (fs : FileSystem) (f : FileRef) :
    (ofFile fs true f).Refines (ofFile fs false f) :=
  (Refines.refl _).bind fun p => (p.loadFile_refines fs f).bind fun _ => .refl _

theorem includeFiles_refines (p : Policy) (cfg : Include.Settings) :
    (p.includeFiles cfg).Refines (p.includeFiles cfg.lenient) := by
  intro s n s' h
  rw [includeFiles, Include.resolve_eq] at h ⊢
  have hfollows := Include.replacement_follows cfg Include.maxDepth []
  exact Include.resolveBelow_follows hfollows _ _ _ _ _ h

end Policy

/-! ## Dictionaries -/

namespace Dictionary

theorem loadRounds_refines (cfg : Include.Settings) (p : Policy) (rounds : Nat) :
    (loadRounds cfg p rounds).Refines (loadRounds cfg.lenient p rounds) := by
  induction rounds with
  | zero => exact fun _ _ _ h => by cases h
  | succ rounds ih =>
    refine (Refines.refl _).bind fun _ => (Refines.refl _).bind fun _ => ?_
    refine (Refines.refl _).bind fun _ => (p.includeFiles_refines cfg).bind fun _ => ?_
    split
    · exact .refl _
    · exact ih.bind fun _ => .refl _

/-- Where all files of a dictionary are loaded strictly, they are loaded in the lenient mode too. -/
theorem loadFiles_lenient {cfg : Include.Settings} {d found : Dictionary} {tried : Nat}
    {s s' : Store} (h : d.loadFiles cfg s = .ok (found, .ok tried) s') :
    d.loadFiles cfg.lenient s = .ok (found, .ok tried) s' := by
  unfold loadFiles at h ⊢
  dsimp only at h ⊢
  split at h
  · rename_i n t hrun
    cases h
    rw [loadRounds_refines cfg _ _ _ _ _ hrun]
  · cases h

end Dictionary

namespace Loader

/-! ## Loading -/

variable (loader : Loader) (fs : FileSystem)

/-- The loader in one of its modes. -/
def inMode (strict : Bool) : Loader := { loader with strict }

theorem loadInput_refines (input : PolicyInput) :
    ((loader.inMode true).loadInput fs input).Refines
      ((loader.inMode false).loadInput fs input) := by
  have hinclude (found : Policy × Option String) :=
    (found.1.includeFiles_refines ⟨fs, loader.repositoryFor found.2, true⟩).bind fun files =>
      Refines.refl (pure (found.1, files))
  cases input with
  | file path =>
    exact (Policy.ofFile_refines fs _).bind fun _ => (Refines.refl _).bind hinclude
  | text text =>
    exact (Policy.ofText_refines text).bind fun _ => (Refines.refl _).bind hinclude

theorem loadDictionary_refines (path : String) :
    ((loader.inMode true).loadDictionary fs path).Refines
      ((loader.inMode false).loadDictionary fs path) := by
  refine (Refines.refl _).bind fun d => ?_
  intro s found s' h
  obtain ⟨⟨d', tried⟩, s₁, hfiles, h⟩ := StoreM.bind_eq_ok h
  cases tried with
  | ok n => exact (StoreM.bind_of_ok (Dictionary.loadFiles_lenient hfiles)).trans h
  | error e => cases h

theorem loadFrom_refines (input : PolicyInput) :
    ((loader.inMode true).loadFrom fs input).Refines ((loader.inMode false).loadFrom fs input) := by
  rw [loadFrom_eq, loadFrom_eq]
  refine (loader.loadInput_refines fs input).bind fun found => ?_
  unfold finish
  cases hdictionary : loader.dictionary with
  | none =>
    simp only [inMode, hdictionary]
    exact .refl _
  | some path =>
    simp only [inMode, hdictionary]
    exact (loader.loadDictionary_refines fs path).bind fun _ => .refl _

section Input

variable {loader : Loader} {fs : FileSystem} {input : PolicyInput} {loaded : Loaded} {s : Store}

theorem load_of_ok (h : loader.loadFrom fs input .empty = .ok loaded s)
    (hinput : loader.input = some input) : loader.load fs = .ok (loaded, s) := by
  rw [load, hinput]
  dsimp only
  rw [h]

theorem load_of_error {e : PolicyError} (h : loader.loadFrom fs input .empty = .error e s)
    (hinput : loader.input = some input) : loader.load fs = .error (.policy e) := by
  rw [load, hinput]
  dsimp only
  rw [h]

theorem exists_of_load (h : loader.load fs = .ok (loaded, s)) :
    ∃ input, loader.input = some input ∧ loader.loadFrom fs input .empty = .ok loaded s := by
  unfold load at h
  split at h
  · cases h
  · rename_i input hinput
    split at h
    · rename_i hrun
      cases h
      exact ⟨input, hinput, hrun⟩
    · cases h

end Input

theorem load_keep (loader : Loader) (fs : FileSystem) :
    (∃ e, ∀ keep, ({ loader with keep } : Loader).load fs = .error e) ∨
      ∃ loaded s s', ({ loader with keep := false } : Loader).load fs = .ok (loaded, s) ∧
        ({ loader with keep := true } : Loader).load fs = .ok (loaded, s') ∧
        (∀ q, s'.content q = s.content q) ∧ s.dictionary? loaded.policy = none ∧
        loader.Attaches fs loaded.policy s s' := by
  rcases Option.eq_none_or_eq_some loader.input with hnone | ⟨input, hinput⟩
  · refine Or.inl ⟨.noSource, fun keep => ?_⟩
    rw [load]
    dsimp only
    rw [hnone]
  · rcases loader.loadFrom_keep fs input with
      ⟨e, t, herror⟩ | ⟨loaded, s, s', hbare, hattaches, hdetached, hkept⟩
    · exact Or.inl ⟨.policy e, fun keep => load_of_error (herror keep) hinput⟩
    · exact Or.inr ⟨loaded, s, s', load_of_ok hdetached hinput, load_of_ok hkept hinput,
        hattaches.content_eq, hbare.plain, hattaches⟩

theorem load_lenient (loader : Loader) {fs : FileSystem} {result : Loaded × Store}
    (h : (loader.inMode true).load fs = .ok result) :
    (loader.inMode false).load fs = .ok result := by
  obtain ⟨input, hinput, hrun⟩ := exists_of_load h
  exact load_of_ok (loader.loadFrom_refines fs input _ _ _ hrun) hinput

/-- Neither flag of a loader changes what a successful load comes to. With the dictionary kept and
without, both loads fail alike or both come to the same policy, number of files and report; the
stores differ in the attached dictionary alone. And what a strict load comes to, a lenient load
comes to. -/
theorem load_of_flags :
    ((∃ e, ∀ keep, ({ loader with keep } : Loader).load fs = .error e) ∨
      ∃ loaded s s', ({ loader with keep := false } : Loader).load fs = .ok (loaded, s) ∧
        ({ loader with keep := true } : Loader).load fs = .ok (loaded, s') ∧
        (∀ q, s'.content q = s.content q) ∧ s.dictionary? loaded.policy = none ∧
        loader.Attaches fs loaded.policy s s') ∧
      ∀ result, ({ loader with strict := true } : Loader).load fs = .ok result →
        ({ loader with strict := false } : Loader).load fs = .ok result :=
  ⟨loader.load_keep fs, fun _ => loader.load_lenient⟩

/-- A file system in which every file declares a default. -/
def defaultEverywhere : FileSystem :=
  ⟨fun _ => .ok "definitions: \x7b\nb: \x7b\ndefault: 5\n\x7d\n\x7d".toUTF8, id⟩

set_option maxRecDepth 4000 in
theorem loadDictionary_of_defaultEverywhere :
    let loader : Loader := { input := some (.text "a: x"), dictionary := some "d.paf" }
    loader.loadDictionary defaultEverywhere "d.paf" ⟨#[{ entries := [("a", .strings ["x"])] }]⟩ =
      .ok (⟨[("definitions", .policies [⟨2⟩])]⟩, 0)
        ⟨#[{ entries := [("a", .strings ["x"])] }, { entries := [("definitions", .policies [⟨2⟩])] },
          { entries := [("b", .policies [⟨3⟩])] }, { entries := [("default", .ints [5])] },
          { entries := [("definitions", .policies [⟨2⟩])] }]⟩ := by
  cbv

/-- A text with a name that its dictionary does not define, and without one that has a default. -/
theorem load_of_flags_of_text :
    let loader : Loader := { input := some (.text "a: x"), dictionary := some "d.paf" }
    ∃ loaded s, ({ loader with strict := true } : Loader).load defaultEverywhere = .ok (loaded, s) ∧
      ({ loader with strict := false } : Loader).load defaultEverywhere = .ok (loaded, s) ∧
      s.entries loaded.policy = [("a", .strings ["x"]), ("b", .ints [5])] ∧
      loaded.report.codeAt "a" = .unknownName := by
  intro loader
  let d : Dictionary := ⟨[("definitions", .policies [⟨2⟩])]⟩
  let read : List Node := [{ entries := [("definitions", .policies [⟨2⟩])] },
    { entries := [("b", .policies [⟨3⟩])] }, { entries := [("default", .ints [5])] },
    { entries := [("definitions", .policies [⟨2⟩])] }]
  let extracted : Node := { entries := [("b", .ints [5])] }
  let filled : Node := { entries := [("a", .strings ["x"]), ("b", .ints [5])] }
  let s₁ : Store := ⟨⟨{ entries := [("a", .strings ["x"])] } :: read⟩⟩
  let s₂ : Store := ⟨⟨{ entries := [("a", .strings ["x"])] } :: read ++ [extracted]⟩⟩
  let s₃ : Store := ⟨⟨filled :: read ++ [extracted]⟩⟩
  let s₄ := s₃.setDictionary ⟨0⟩ d
  let report := verdict s₄ ⟨0⟩ d .empty
  have hinput : loader.loadInput defaultEverywhere (.text "a: x") .empty =
      .ok (⟨0⟩, 0) ⟨#[{ entries := [("a", .strings ["x"])] }]⟩ := by
    cbv
  have hdefined : (s₁.schema d).childBlock? = none ∧ (s₁.schema d).definedNames = ["b"] ∧
      (s₁.schema d).definition? "b" = some (.ok { name := "b", default := some (.ints [5]) }) := by
    refine ⟨?_, ?_, ?_⟩ <;> cbv
  have hdefaults : (s₁.schema d).defaults = ⟨[("b", .ints [5])], []⟩ := by
    rw [Schema.defaults_of_single hdefined.2.1, Schema.defaultOf, hdefined.2.2]
    cbv
  have hextract : Policy.ofDefaults d false (some .empty) s₁ = .ok (⟨5⟩, some .empty) s₂ := by
    rw [Policy.ofDefaults_of_defaults hdefaults]
    rfl
  have hmerge : (⟨0⟩ : Policy).mergeNames ⟨5⟩ (s₂.names ⟨5⟩ .all false) s₂ = .ok 1 s₃ := by
    cbv
  have hcomplete : loader.complete ⟨0⟩ d s₁ = .ok report s₄ :=
    complete_of_merge hextract (by decide) rfl hmerge
  have hfinish : loader.finish defaultEverywhere ⟨0⟩ 0 ⟨#[{ entries := [("a", .strings ["x"])] }]⟩ =
      .ok ⟨⟨0⟩, 0, report⟩ s₄ :=
    finish_of_ok rfl loadDictionary_of_defaultEverywhere hcomplete 0
  have hload : loader.load defaultEverywhere = .ok (⟨⟨0⟩, 0, report⟩, s₄) :=
    load_of_ok ((StoreM.bind_of_ok hinput).trans hfinish) rfl
  have hcode : report.codeAt "a" = .unknownName := by
    decide +kernel
  exact ⟨⟨⟨0⟩, 0, report⟩, s₄, hload, (loader.load_of_flags defaultEverywhere).2 _ hload, rfl, hcode⟩

end Loader

end PolicyStore
