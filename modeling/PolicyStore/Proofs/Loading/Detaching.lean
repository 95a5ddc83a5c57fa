import PolicyStore.Loader
import PolicyStore.Proofs.Dictionary.Editing
import PolicyStore.Proofs.Include.Tracing
import PolicyStore.Proofs.Store.Attaching
import PolicyStore.Proofs.Update.Runs

set_option autoImplicit false

namespace PolicyStore

/-!
# Loading with and without attaching

A policy that is loaded with a dictionary is completed and validated by it, whether the dictionary
stays attached or not. What is attached to policies has no part in what a schema finds, and the
dictionary shares no policy with the one that is loaded.
-/

variable {s s' s₁ s₂ : Store} {p : Policy} {d : Dictionary}

/-! ## Findings without regard to dictionaries -/

namespace Definition

variable {f g : Policy → Tree}

theorem judgeLoaded_map (d : Definition) (f g : Policy → Tree) (v : Value Policy) :
    d.judgeLoaded (v.map f) = d.judgeLoaded (v.map g) := by
  cases v with
  | policy q =>
    unfold judgeLoaded
    cases d.sub <;> rfl
  | _ => rfl

theorem judgeArray_map (d : Definition) (hf : ∀ q, (f q).handle = q) (hg : ∀ q, (g q).handle = q)
    (vs : Values Policy) : d.judgeArray (vs.map f) = d.judgeArray (vs.map g) := by
  have hcount : (vs.map f).length = (vs.map g).length := by
    simp only [Values.length, Values.toList_map, List.length_map]
  have heach (acc : Code) (v : Value Policy) :
      acc.union ((d.allowed.judge (v.map f)).union (d.judgeLoaded (v.map f))) =
        acc.union ((d.allowed.judge (v.map g)).union (d.judgeLoaded (v.map g))) := by
    rw [d.allowed.judge_map hf hg, d.judgeLoaded_map f g]
  simp only [judgeArray, hcount, Values.kind_map, Values.toList_map, List.foldl_map, heach]

end Definition

namespace Schema

theorem judgeRow_map (S : Schema) {f g : Policy → Tree} (hf : ∀ q, (f q).handle = q)
    (hg : ∀ q, (g q).handle = q) (name : String) (vs : Values Policy) :
    S.judgeRow name (vs.map f) = S.judgeRow name (vs.map g) := by
  unfold judgeRow
  split
  · rfl
  · rfl
  · rename_i d _
    exact d.judgeArray_map hf hg vs

theorem findingsBelow_map {f g : Policy → Tree}
    (h : ∀ (S : Schema) q, S.findings (f q) = S.findings (g q)) (S : Option Schema)
    (name : String) (ps : List Policy) :
    findingsBelow S name (ps.map f) = findingsBelow S name (ps.map g) := by
  induction ps with
  | nil => rfl
  | cons q ps ih => cases S <;> simp only [List.map_cons, findingsBelow, h, ih]

/-- Trees with the same handles are judged alike, if the policies below them are. -/
theorem findingsOfRows_map {f g : Policy → Tree} (hf : ∀ q, (f q).handle = q)
    (hg : ∀ q, (g q).handle = q) (h : ∀ (S : Schema) q, S.findings (f q) = S.findings (g q))
    (S : Schema) (rows : Entries Policy) :
    S.findingsOfRows (rows.map fun row => (row.1, row.2.map f)) =
      S.findingsOfRows (rows.map fun row => (row.1, row.2.map g)) := by
  induction rows with
  | nil => rfl
  | cons row rows ih =>
    rw [List.map_cons, List.map_cons, findingsOfRows_cons, findingsOfRows_cons, ih,
      S.judgeRow_map hf hg row.1 row.2, Values.children_map, Values.children_map,
      findingsBelow_map h]

theorem absences_map (S : Schema) (f g : Policy → Tree) (rows : Entries Policy) :
    S.absences (rows.map fun row => (row.1, row.2.map f)) =
      S.absences (rows.map fun row => (row.1, row.2.map g)) := by
  simp only [absences, Table.get?_map, Option.isNone_map]

/-- A policy is judged by its rows and by those of the policies below it. -/
theorem findings_unfold (h : ∀ q, s'.entries q = s.entries q) (depth : Nat) :
    ∀ (S : Schema) (p : Policy), S.findings (s'.unfold depth p) = S.findings (s.unfold depth p) := by
  induction depth with
  | zero => exact fun _ _ => rfl
  | succ depth ih =>
    intro S p
    rw [Store.unfold, Store.unfold, h, findings, findings,
      findingsOfRows_map (s'.handle_unfold depth) (s.handle_unfold depth) ih, S.absences_map]

theorem findings_tree_setDictionary (S : Schema) (s : Store) (p q : Policy) (d : Dictionary) :
    S.findings ((s.setDictionary p d).tree q) = S.findings (s.tree q) := by
  rw [Store.tree, Store.tree, Store.size_setDictionary]
  exact findings_unfold (fun r => s.entries_setDictionary p r d) s.size S q

end Schema

/-! ## Dictionaries in a zone -/

namespace Store

/-- All policies of a dictionary and those below them are in the zone. -/
structure Encloses (s : Store) (zone : Policy → Prop) (d : Dictionary) : Prop where
  held : Dictionary.Within zone d.entries
  closed : ∀ q, zone q → ∀ c ∈ s.below q, zone c

/-- A dictionary reads as before when it is attached to a policy outside of its zone. -/
theorem Encloses.schema_setDictionary {zone : Policy → Prop} (h : s.Encloses zone d)
    (hp : ¬zone p) : (s.setDictionary p d).schema d = s.schema d := by
  have hdictionary (q : Policy) (hq : zone q) :
      (s.setDictionary p d).dictionary? q = s.dictionary? q := by
    have hne : q ≠ p := by
      rintro rfl
      exact hp hq
    rw [dictionary?, node_setDictionary_of_ne hne, dictionary?]
  unfold schema treesOf
  rw [size_setDictionary]
  refine congrArg Schema.mk (List.map_congr_left fun row hrow => ?_)
  refine congrArg (Prod.mk row.1) (Values.map_congr fun c hc => ?_)
  exact unfold_congr h.closed (fun q _ => s.entries_setDictionary p q d) hdictionary
    (h.held c (List.mem_flatMap.mpr ⟨row, hrow, hc⟩))

/-- Policies that were there before some others and those still to be made. -/
def Around (s s₁ : Store) (q : Policy) : Prop := q.id < s.size ∨ s₁.size ≤ q.id

/-- Policies that were made together, without a change to those before them, are left alone from
there on by what keeps to the others. -/
theorem Edits.zoned_around (h : Edits (fun q => s.size ≤ q.id) s s₁) (hs : s.Proper) :
    s₁.Zoned (Around s s₁) where
  toProper := h.toProper
  inside q hq c hc := by
    rcases hq with hold | hnew
    · rw [below, h.entries_eq hold (Nat.not_le.mpr hold)] at hc
      exact Or.inl (hs.closed q c hc)
    · exact absurd (lt_size_of_mem_below hc) (Nat.not_lt.mpr hnew)
  fresh q hq := Or.inr hq

theorem Edits.encloses (h : Edits (fun q => s.size ≤ q.id) s s₁) (hd : s₁.Bound d)
    (hwithin : Dictionary.Within (fun q => s.size ≤ q.id) d.entries)
    (hlater : Edits (Around s s₁) s₁ s₂) : s₂.Encloses (fun q => ¬Around s s₁ q) d where
  held c hc := not_or.mpr ⟨Nat.not_lt.mpr (hwithin c hc), Nat.not_le.mpr (hd.2 c hc)⟩
  closed q hq c hc := by
    obtain ⟨hold, hnew⟩ := not_or.mp hq
    rw [below, hlater.entries_eq (Nat.lt_of_not_le hnew) hq] at hc
    exact not_or.mpr ⟨Nat.not_lt.mpr (h.inside q (Nat.le_of_not_lt hold) c hc),
      Nat.not_le.mpr (h.closed q c hc)⟩

/-- A policy without a dictionary, in a store as it has to be. -/
structure Bare (s : Store) (p : Policy) : Prop extends s.Proper where
  lt_size : p.id < s.size
  plain : s.dictionary? p = none

theorem Proper.bare_create (h : s.Proper) : (s.alloc { entries := [] }).2.Bare ⟨s.size⟩ where
  toProper := (h.zoned.alloc .nil fun _ hc => by cases hc).toProper
  lt_size := by
    rw [size_alloc]
    exact Nat.lt_succ_self _
  plain := by rw [dictionary?, show (⟨s.size⟩ : Policy) = (s.alloc { entries := [] }).1 from rfl,
    node_alloc_self]

/-- A policy stays without a dictionary in what attaches none. -/
theorem Bare.run {α : Type} {m : StoreM α} {a : α} {P : α → Store → Prop} (h : s.Bare p)
    (hedits : m.Edits (fun _ => True) s P) (hattach : m.Attachless) (hrun : m s = .ok a s') :
    s'.Bare p where
  toProper := (hedits.of_ok hrun).1.toProper
  lt_size := h.lt_size.trans_le (hattach.of_ok hrun).size_le
  plain := ((hattach.of_ok hrun).dictionary_eq p h.lt_size).trans h.plain

theorem Bare.edits {zone : Policy → Prop} (h : s.Bare p) (hp : ¬zone p) (hedits : Edits zone s s') :
    s'.Bare p where
  toProper := hedits.toProper
  lt_size := h.lt_size.trans_le hedits.size_le
  plain := by rw [dictionary?, hedits.node_eq p h.lt_size hp, ← dictionary?, h.plain]

end Store

/-! ## The parts of a load -/

namespace Policy

/-- A policy that is made and then loaded has no dictionary, if the load attaches none. -/
theorem bare_of_load (hs : s.Proper) {load : Policy → StoreM Nat}
    (hedits : ∀ {s : Store} {zone : Policy → Prop} {q : Policy}, s.Zoned zone → zone q →
      (load q).Edits zone s fun _ _ => True)
    (hattach : ∀ q, (load q).Attachless)
    (h : (create [] >>= fun q => load q >>= fun _ => pure q) s = .ok p s') : s'.Bare p := by
  obtain ⟨q, s₁, hcreate, h⟩ := StoreM.bind_eq_ok h
  obtain ⟨n, s₂, hload, h⟩ := StoreM.bind_eq_ok h
  cases h
  cases hcreate
  exact hs.bare_create.run (hedits hs.bare_create.zoned trivial) (hattach _) hload

theorem bare_ofText (hs : s.Proper) {strict : Bool} {text : String}
    (h : ofText strict text s = .ok p s') : s'.Bare p :=
  bare_of_load hs (fun hs hq => edits_loadText hs hq strict text)
    (fun q => attachless_loadText q strict text) h

theorem bare_ofFile (hs : s.Proper) {fs : FileSystem} {strict : Bool} {f : FileRef}
    (h : ofFile fs strict f s = .ok p s') : s'.Bare p :=
  bare_of_load hs (fun hs hq => edits_loadFile hs hq fs strict f)
    (fun q => attachless_loadFile q fs strict f) h

end Policy

theorem Dictionary.edits_ofFile {zone : Policy → Prop} (h : s.Zoned zone) (fs : FileSystem)
    (f : FileRef) :
    (Dictionary.ofFile fs f).Edits zone s fun d s' => s'.Bound d ∧ Within zone d.entries := by
  refine (Policy.edits_ofFile h fs true f).bind fun q s₁ h₁ hq => ?_
  refine StoreM.Edits.ask h₁.toZoned fun d hd => ?_
  obtain rfl : d = ⟨s₁.entries q⟩ := by
    unfold ofEntries? at hd
    split at hd
    · exact (Except.ok.inj hd).symm
    · cases hd
  exact ⟨h₁.toProper.bound q, h₁.inside q hq.1⟩

namespace Loader

variable {loader : Loader} {fs : FileSystem}

theorem bare_loadInput (hs : s.Proper) {input : PolicyInput} {n : Nat}
    (h : loader.loadInput fs input s = .ok (p, n) s') : s'.Bare p := by
  have hinclude (s₁ : Store) (read : Policy × Option String) (hread : s₁.Bare read.1)
      (h : (read.1.includeFiles ⟨fs, loader.repositoryFor read.2, loader.strict⟩ >>= fun files =>
        pure (read.1, files)) s₁ = .ok (p, n) s') : s'.Bare p := by
    obtain ⟨files, s₂, hrun, h⟩ := StoreM.bind_eq_ok h
    cases h
    exact hread.run (Policy.edits_includeFiles hread.zoned trivial _)
      (Policy.attachless_includeFiles _ _) hrun
  cases input with
  | file path =>
    obtain ⟨q, s₁, hread, h⟩ := StoreM.bind_eq_ok h
    exact hinclude s₁ (q, some path) (Policy.bare_ofFile hs hread) h
  | text text =>
    obtain ⟨q, s₁, hread, h⟩ := StoreM.bind_eq_ok h
    exact hinclude s₁ (q, none) (Policy.bare_ofText hs hread) h

theorem edits_loadDictionary {zone : Policy → Prop} (loader : Loader) (h : s.Zoned zone)
    (fs : FileSystem) (path : String) :
    (loader.loadDictionary fs path).Edits zone s fun found s' =>
      s'.Bound found.1 ∧ Dictionary.Within zone found.1.entries := by
  refine (Dictionary.edits_ofFile h fs _).bind fun d s₁ h₁ hd => ?_
  refine (Dictionary.edits_loadFiles h₁.toZoned hd.1 hd.2 _).bind fun found s₂ h₂ hfound => ?_
  refine (StoreM.Edits.lift h₂.toZoned).bind fun n s₃ h₃ _ => ?_
  exact Confined.pure h₃.toZoned ⟨hfound.1.mono h₃.size_le, hfound.2⟩

/-! ## Completing -/

/-- The report on a policy that has been completed, after the one on the defaults. -/
def verdict (s : Store) (p : Policy) (d : Dictionary) (defaults : Report) : Report :=
  defaults.absorb "" (Report.empty.record ((s.schema d).findings (s.tree p)))

section Merging

variable {defaults : Policy} {acc : Report}
  (hextract : Policy.ofDefaults d false (some .empty) s = .ok (defaults, some acc) s₁)

include hextract

/-- Completing merges names from a policy that has the defaults, and validates what it comes to. -/
theorem complete_of_merge {n : Nat} (hp : p.id < s'.size) (hplain : s'.dictionary? p = none)
    (hmerge : p.mergeNames defaults (s₁.names defaults .all false) s₁ = .ok n s') :
    loader.complete p d s = if loader.keep then
        .ok (verdict (s'.setDictionary p d) p d acc) (s'.setDictionary p d)
      else .ok (verdict s' p d acc) s' := by
  have hattached := Store.dictionary?_setDictionary_self hp d
  cases hkeep : loader.keep <;>
    simp [complete, Policy.mergeDefaults, bind, EStateM.bind, hextract, pure, EStateM.pure, get,
      getThe, MonadStateOf.get, EStateM.get, hmerge, hkeep, Policy.attach, modify, modifyGet,
      MonadStateOf.modifyGet, EStateM.modifyGet, hattached, hplain, StoreM.ask, Store.validate,
      Store.validateBy, settle, verdict]

theorem complete_of_merge_error {e : PolicyError}
    (hmerge : p.mergeNames defaults (s₁.names defaults .all false) s₁ = .error e s') :
    loader.complete p d s = .error e s' := by
  simp [complete, Policy.mergeDefaults, bind, EStateM.bind, hextract, pure, EStateM.pure, get,
    getThe, MonadStateOf.get, EStateM.get, hmerge]

end Merging

/-- A dictionary outside of the zone of a policy is kept or not: the policy is completed alike. -/
theorem complete_keep {zone : Policy → Prop} (loader : Loader) (hbare : s.Bare p)
    (hzone : s.Zoned zone) (hp : zone p)
    (hd : ∀ t, Store.Edits zone s t → t.Encloses (fun q => ¬zone q) d) :
    (∃ e t, ∀ keep, ({ loader with keep } : Loader).complete p d s = .error e t) ∨
      ∃ report t, t.Bare p ∧
        ({ loader with keep := false } : Loader).complete p d s = .ok report t ∧
        ({ loader with keep := true } : Loader).complete p d s =
          .ok report (t.setDictionary p d) := by
  obtain ⟨acc, hsettle⟩ : ∃ acc, settle (s.schema d).defaults.findings (some .empty) =
      .ok (some acc) := ⟨_, rfl⟩
  generalize hdefaults : (Tree.fresh (s.schema d).defaults.entries).plant s = made
  obtain ⟨defaults, s₁⟩ := made
  have hextract : Policy.ofDefaults d false (some .empty) s = .ok (defaults, some acc) s₁ := by
    rw [Policy.ofDefaults_eq hsettle false, hdefaults]
    rfl
  have hedits₁ := ((Policy.edits_ofDefaults hzone d false (some .empty)).of_ok hextract).1
  have hbare₁ := hbare.run (Policy.edits_ofDefaults hbare.zoned d false (some .empty))
    (Policy.attachless_ofDefaults d (some .empty)) hextract
  let names := s₁.names defaults .all false
  cases hmerge : p.mergeNames defaults names s₁ with
  | error e t => exact Or.inl ⟨e, t, fun keep => complete_of_merge_error hextract hmerge⟩
  | ok n t =>
    have hedits := Policy.edits_mergeNames hp defaults names hedits₁.toZoned
    have hbare₂ := hbare₁.run (Policy.edits_mergeNames trivial defaults names hbare₁.zoned)
      (p.attachless_mergeNames defaults names) hmerge
    have hencloses := hd t (hedits₁.trans (hedits.of_ok hmerge).1)
    have hverdict : verdict (t.setDictionary p d) p d acc = verdict t p d acc := by
      rw [verdict, verdict, hencloses.schema_setDictionary (not_not_intro hp),
        Schema.findings_tree_setDictionary]
    refine Or.inr ⟨verdict t p d acc, t, hbare₂, ?_, ?_⟩
    · exact complete_of_merge hextract hbare₂.lt_size hbare₂.plain hmerge
    · rw [← hverdict]
      exact complete_of_merge hextract hbare₂.lt_size hbare₂.plain hmerge

/-! ## Loading -/

/-- A load with the dictionary kept comes to the same store as one without, but for the dictionary
that is attached in the end: the one that was loaded. -/
def Attaches (loader : Loader) (fs : FileSystem) (p : Policy) (t t' : Store) : Prop :=
  match loader.dictionary with
  | none => t' = t
  | some path => ∃ s d more s', loader.loadDictionary fs path s = .ok (d, more) s' ∧
      t' = t.setDictionary p d

theorem Attaches.content_eq {loader : Loader} {fs : FileSystem} {t t' : Store}
    (h : loader.Attaches fs p t t') (q : Policy) : t'.content q = t.content q := by
  unfold Attaches at h
  split at h
  · rw [h]
  · obtain ⟨_, d, _, _, _, rfl⟩ := h
    exact Store.content_setDictionary t p q d

/-- What follows once the policy has been read. -/
def finish (loader : Loader) (fs : FileSystem) (p : Policy) (files : Nat) : StoreM Loaded := do
  match loader.dictionary with
  | none => return ⟨p, files, .empty⟩
  | some path =>
    let (d, more) ← loader.loadDictionary fs path
    return ⟨p, files + more, ← loader.complete p d⟩

theorem loadFrom_eq (loader : Loader) (fs : FileSystem) (input : PolicyInput) :
    loader.loadFrom fs input =
      loader.loadInput fs input >>= fun found => loader.finish fs found.1 found.2 := by
  rfl

section Finish

variable {path : String} {more : Nat} {report : Report} {e : PolicyError} {t : Store}

theorem finish_of_none (h : loader.dictionary = none) (n : Nat) :
    loader.finish fs p n s = .ok ⟨p, n, .empty⟩ s := by
  rw [finish, h]
  rfl

theorem finish_of_load_error (hdictionary : loader.dictionary = some path)
    (hload : loader.loadDictionary fs path s = .error e t) (n : Nat) :
    loader.finish fs p n s = .error e t := by
  rw [finish, hdictionary]
  exact StoreM.bind_of_error hload _

theorem finish_of_complete_error (hdictionary : loader.dictionary = some path)
    (hload : loader.loadDictionary fs path s = .ok (d, more) s₁)
    (hcomplete : loader.complete p d s₁ = .error e t) (n : Nat) :
    loader.finish fs p n s = .error e t := by
  rw [finish, hdictionary]
  exact (StoreM.bind_of_ok hload).trans (StoreM.bind_of_error hcomplete _)

theorem finish_of_ok (hdictionary : loader.dictionary = some path)
    (hload : loader.loadDictionary fs path s = .ok (d, more) s₁)
    (hcomplete : loader.complete p d s₁ = .ok report t) (n : Nat) :
    loader.finish fs p n s = .ok ⟨p, n + more, report⟩ t := by
  rw [finish, hdictionary]
  exact (StoreM.bind_of_ok hload).trans (StoreM.bind_of_ok hcomplete)

end Finish

/-- Once a policy has been read, all goes the same way whether the dictionary is kept or not. -/
theorem finish_keep (loader : Loader) (fs : FileSystem) (hbare : s.Bare p) (n : Nat) :
    (∃ e t, ∀ keep, ({ loader with keep } : Loader).finish fs p n s = .error e t) ∨
      ∃ loaded t t', t.Bare loaded.policy ∧ loader.Attaches fs loaded.policy t t' ∧
        ({ loader with keep := false } : Loader).finish fs p n s = .ok loaded t ∧
        ({ loader with keep := true } : Loader).finish fs p n s = .ok loaded t' := by
  rcases Option.eq_none_or_eq_some loader.dictionary with hnone | ⟨path, hdictionary⟩
  · have hnone' (keep : Bool) : ({ loader with keep } : Loader).dictionary = none := hnone
    refine Or.inr ⟨⟨p, n, .empty⟩, s, s, hbare, ?_, finish_of_none (hnone' false) n,
      finish_of_none (hnone' true) n⟩
    rw [Attaches, hnone]
  have hsome (keep : Bool) : ({ loader with keep } : Loader).dictionary = some path := hdictionary
  cases hload : loader.loadDictionary fs path s with
  | error e t => exact Or.inl ⟨e, t, fun keep => finish_of_load_error (hsome keep) hload n⟩
  | ok found s₁ =>
    obtain ⟨d, more⟩ := found
    obtain ⟨hedits, hbound, hwithin⟩ :=
      (loader.edits_loadDictionary hbare.zoned_new fs path).of_ok hload
    have hbare₁ := hbare.edits (Nat.not_le.mpr hbare.lt_size) hedits
    -- The policy was there before the dictionary, and all policies of the dictionary are newer.
    rcases complete_keep loader hbare₁ (hedits.zoned_around hbare.toProper)
      (Or.inl hbare.lt_size) (fun t => hedits.encloses hbound hwithin) with
      ⟨e, t, herror⟩ | ⟨report, t, hbare₂, hdetached, hkept⟩
    · exact Or.inl ⟨e, t, fun keep => finish_of_complete_error (hsome keep) hload (herror keep) n⟩
    · refine Or.inr ⟨⟨p, n + more, report⟩, t, t.setDictionary p d, hbare₂, ?_,
        finish_of_ok (hsome false) hload hdetached n, finish_of_ok (hsome true) hload hkept n⟩
      rw [Attaches, hdictionary]
      exact ⟨s, d, more, s₁, hload, rfl⟩

theorem loadFrom_keep (loader : Loader) (fs : FileSystem) (input : PolicyInput) :
    (∃ e t, ∀ keep, ({ loader with keep } : Loader).loadFrom fs input .empty = .error e t) ∨
      ∃ loaded t t', t.Bare loaded.policy ∧ loader.Attaches fs loaded.policy t t' ∧
        ({ loader with keep := false } : Loader).loadFrom fs input .empty = .ok loaded t ∧
        ({ loader with keep := true } : Loader).loadFrom fs input .empty = .ok loaded t' := by
  have hempty : Store.empty.Proper := ⟨fun _ => .nil, Store.tidy_empty.closed⟩
  simp only [loadFrom_eq]
  cases hinput : loader.loadInput fs input .empty with
  | error e t => exact Or.inl ⟨e, t, fun keep => StoreM.bind_of_error hinput _⟩
  | ok found s =>
    rcases loader.finish_keep fs (bare_loadInput hempty hinput) found.2 with
      ⟨e, t, herror⟩ | ⟨loaded, t, t', hbare, hattaches, hdetached, hkept⟩
    · exact Or.inl ⟨e, t, fun keep => (StoreM.bind_of_ok hinput).trans (herror keep)⟩
    · exact Or.inr ⟨loaded, t, t', hbare, hattaches, (StoreM.bind_of_ok hinput).trans hdetached,
        (StoreM.bind_of_ok hinput).trans hkept⟩

end Loader

end PolicyStore
