import Mathlib
import PolicyStore.Proofs.Schema.Inside

set_option autoImplicit false

namespace PolicyStore

/-!
# Looking up a name in two parts

A dotted name may be cut at any dot: its definition is found by going down to the schema below the
first part and looking up the second part there. The second lookup fails as the first one does, but
for the names that it tells.
-/

/-- An error is changed before or after what follows. -/
theorem Except.mapError_bind {ε ε' α β : Type} (g : ε → ε') (x : Except ε α)
    (f : α → Except ε β) :
    (x >>= f).mapError g = x.mapError g >>= fun a => (f a).mapError g := by
  cases x <;> rfl

namespace PolicyError

/-- Tells a failed lookup for another name: `missing` is the name that is not found, and `place`
gives the name of a dictionary that is not loaded. -/
def retold (missing : String) (place : String → String) : PolicyError → PolicyError
  | nameNotFound _ => nameNotFound missing
  | dictionaryNotLoaded name path => dictionaryNotLoaded (place name) path
  | error => error

/-- The ways in which the lookup of a name fails. -/
inductive OfLookup (name : String) : PolicyError → Prop
  | missing : OfLookup name (nameNotFound name)
  | unloaded (done path : String) : OfLookup name (dictionaryNotLoaded done path)
  | broken (fault : DictionaryFault) : OfLookup name (dictionary fault)

/-- How the lookup of a name fails below the dictionary of another, and how the lookup of both
together fails then. -/
inductive Below (above name : String) : PolicyError → PolicyError → Prop
  | missing : Below above name (nameNotFound name) (nameNotFound (above ++ "." ++ name))
  | unloaded (done path : String) : Below above name (dictionaryNotLoaded done path)
      (dictionaryNotLoaded (above ++ "." ++ done) path)
  | broken (fault : DictionaryFault) : Below above name (dictionary fault) (dictionary fault)

theorem OfLookup.below {above name : String} {e : PolicyError} (h : OfLookup name e) :
    Below above name e (e.retold (above ++ "." ++ name) (above ++ "." ++ ·)) := by
  cases h with
  | missing => exact .missing
  | unloaded done path => exact .unloaded done path
  | broken fault => exact .broken fault

end PolicyError

namespace Schema

open PolicyError (OfLookup Below)

variable {s : Schema} {d : Definition} {full other segment : String} {place : String → String}
  {done done' : List String}

/-! ## One segment -/

variable (full place) in
theorem definitionFor_retold : s.definitionFor other segment =
    (s.definitionFor full segment).mapError (PolicyError.retold other place) := by
  unfold definitionFor
  split <;> rfl

variable (full) in
theorem enter_retold (hplace : Name.join done' = place (Name.join done)) :
    enter d other done' = (enter d full done).mapError (PolicyError.retold other place) := by
  unfold enter
  split
  · rfl
  · rw [hplace]
    rfl
  · rfl

theorem ofLookup_of_definitionFor {e : PolicyError} (h : s.definitionFor full segment = .error e) :
    OfLookup full e := by
  unfold definitionFor at h
  split at h
  · cases h
    exact .missing
  · cases h
    exact .broken _
  · cases h

theorem ofLookup_of_enter {e : PolicyError} (h : enter d full done = .error e) :
    OfLookup full e := by
  unfold enter at h
  split at h
  · cases h
  · cases h
    exact .unloaded _ _
  · cases h
    exact .missing

/-! ## Paths -/

/-- A path is followed part by part. -/
theorem follow_append {back : List String} (hback : back ≠ []) : ∀ {front : List String}
    {done : List String} {s : Schema}, front ≠ [] →
      follow full done s (front ++ back) = (do
        let d ← follow full done s front
        follow full (done ++ front) (← enter d full (done ++ front)) back) := by
  intro front
  induction front with
  | nil => exact fun h => (h rfl).elim
  | cons segment front ih =>
    intro done s _
    obtain ⟨next, rest, hnext⟩ := List.exists_cons_of_ne_nil
      (List.append_ne_nil_of_right_ne_nil front hback)
    have hstep : follow full done s (segment :: (front ++ back)) = (do
        let d ← s.definitionFor full segment
        follow full (done ++ [segment]) (← enter d full (done ++ [segment])) (front ++ back)) := by
      rw [hnext]
      rfl
    rw [List.cons_append, hstep]
    cases front with
    | nil => rfl
    | cons first front =>
      simp only [ih (List.cons_ne_nil first front), follow, bind_assoc, List.append_assoc,
        List.singleton_append]

variable (full place) in
/-- Following a path for another name, and from another place, changes the names in an error and
nothing else. -/
theorem follow_retold {segments : List String} : ∀ {done done' : List String} {s : Schema},
    (∀ front, front ≠ [] → Name.join (done' ++ front) = place (Name.join (done ++ front))) →
    follow other done' s segments =
      (follow full done s segments).mapError (PolicyError.retold other place) := by
  induction segments with
  | nil =>
    intro done done' s _
    rfl
  | cons segment rest ih =>
    intro done done' s hplace
    cases rest with
    | nil => exact definitionFor_retold full place
    | cons next rest =>
      unfold follow
      rw [Except.mapError_bind, definitionFor_retold full place]
      refine bind_congr fun d => ?_
      rw [Except.mapError_bind, enter_retold full
        (hplace [segment] (List.cons_ne_nil _ _))]
      refine bind_congr fun inner => ih fun front hfront => ?_
      simp only [List.append_assoc]
      exact hplace _ (List.append_ne_nil_of_right_ne_nil _ hfront)

theorem ofLookup_of_follow {segments : List String} {e : PolicyError} :
    ∀ {done : List String} {s : Schema}, follow full done s segments = .error e →
      OfLookup full e := by
  induction segments with
  | nil =>
    intro done s h
    cases h
    exact .missing
  | cons segment rest ih =>
    intro done s h
    cases rest with
    | nil => exact ofLookup_of_definitionFor h
    | cons next rest =>
      unfold follow at h
      cases hd : s.definitionFor full segment with
      | error e' =>
        rw [hd] at h
        cases h
        exact ofLookup_of_definitionFor hd
      | ok d =>
        cases hinner : enter d full (done ++ [segment]) with
        | error e' =>
          simp only [hd, hinner, bind, Except.bind] at h
          cases h
          exact ofLookup_of_enter hinner
        | ok inner =>
          simp only [hd, hinner, bind, Except.bind] at h
          exact ih h

/-! ## Names -/

variable {p q : String} {front back : List String}

/-- The second part of a name is looked up where the first part leads. -/
theorem lookup_concat_eq (hp : Name.segments p = .ok front) (hq : Name.segments q = .ok back) :
    s.lookup (p ++ "." ++ q) = (do
      let d ← (s.lookup p).mapError (PolicyError.retold (p ++ "." ++ q) id)
      let inner ← enter d (p ++ "." ++ q) front
      (inner.lookup q).mapError (PolicyError.retold (p ++ "." ++ q) (p ++ "." ++ ·))) := by
  have hpq := Name.segments_concat_iff.mpr ⟨front, back, hp, hq, rfl⟩
  have hfront := Name.segments_ne_nil hp
  have hback := Name.segments_ne_nil hq
  rw [lookup, hpq, lookup, hp]
  change follow _ [] s (front ++ back) = _ >>= _
  rw [follow_append hback hfront, follow_retold p id fun _ _ => rfl]
  refine bind_congr fun d => ?_
  refine bind_congr fun inner => ?_
  rw [lookup, hq]
  refine follow_retold q (p ++ "." ++ ·) fun rest hrest => ?_
  rw [List.nil_append, List.nil_append, Name.join, String.intercalate_append_of_ne_nil hfront hrest,
    ← Name.join_of_segments hp]
  rfl

theorem ofLookup_of_lookup {e : PolicyError} (hq : Name.segments q = .ok back)
    (h : s.lookup q = .error e) : OfLookup q e := by
  rw [lookup, hq] at h
  exact ofLookup_of_follow h

/-- Looking up a dotted name is looking up its second part in the dictionary below its first part:
both give the same definition, or fail alike. Where there is no such dictionary the dotted name is
not found; where it is not to be had, the lookup fails for the same reason. -/
theorem lookup_concat (s : Schema) (hp : Name.segments p = .ok front)
    (hq : Name.segments q = .ok back) :
    match s.subSchema? p with
    | .ok (some inner) =>
      (∃ d, inner.lookup q = .ok d ∧ s.lookup (p ++ "." ++ q) = .ok d) ∨
      ∃ e e', inner.lookup q = .error e ∧ s.lookup (p ++ "." ++ q) = .error e' ∧ Below p q e e'
    | .ok none => s.lookup (p ++ "." ++ q) = .error (.nameNotFound (p ++ "." ++ q))
    | .error (.nameNotFound _) => s.lookup (p ++ "." ++ q) = .error (.nameNotFound (p ++ "." ++ q))
    | .error e => OfLookup p e ∧ s.lookup (p ++ "." ++ q) = .error e := by
  rw [lookup_concat_eq hp hq, subSchema?]
  cases hd : s.lookup p with
  | error e =>
    cases ofLookup_of_lookup hp hd with
    | missing => rfl
    | unloaded done path => exact ⟨.unloaded done path, rfl⟩
    | broken fault => exact ⟨.broken fault, rfl⟩
  | ok d =>
    simp only [Except.mapError, bind, Except.bind, enter]
    cases hsub : d.sub with
    | none => rfl
    | unloaded path =>
      rw [Name.join_of_segments hp]
      exact ⟨.unloaded p path, rfl⟩
    | «inline» inner =>
      cases hinner : inner.lookup q with
      | ok e =>
        refine Or.inl ⟨e, hinner, ?_⟩
        simp only [hinner]
      | error e =>
        refine Or.inr ⟨e, _, hinner, ?_, (ofLookup_of_lookup hq hinner).below⟩
        simp only [hinner]

theorem lookup_concat_of_unloaded :
    let block (rows : Entries Tree) : Values Tree := .policies [.node ⟨0⟩ none rows]
    let dictionary (name key : String) (values : Values Tree) : Schema :=
      ⟨[("definitions", block [(name, block [(key, values)])])]⟩
    let inner := dictionary "b" "dictionaryFile" (.strings ["f"])
    let s := dictionary "a" "dictionary" (block inner.entries)
    s.subSchema? "a" = .ok (some inner) ∧ Name.segments "a" = .ok ["a"] ∧
      Name.segments "b.c" = .ok ["b", "c"] ∧
      ∃ e e', inner.lookup "b.c" = .error e ∧ s.lookup "a.b.c" = .error e' ∧ Below "a" "b.c" e e' ∧
        e' = .dictionaryNotLoaded "a.b" "f" := by
  intro block dictionary inner s
  have ha : Name.segments "a" = .ok ["a"] := by decide
  have hb : Name.segments "b.c" = .ok ["b", "c"] := by decide
  have hsub : s.subSchema? "a" = .ok (some inner) := by cbv
  have hlookup : s.lookup "a.b.c" = .error (.dictionaryNotLoaded "a.b" "f") := by cbv
  refine ⟨hsub, ha, hb, ?_⟩
  have h := lookup_concat s ha hb
  rw [hsub] at h
  obtain ⟨d, -, hd⟩ | ⟨e, e', he, he', hbelow⟩ := h
  · cases hd.symm.trans hlookup
  · refine ⟨e, e', he, he', hbelow, ?_⟩
    exact Except.error.inj (he'.symm.trans hlookup)

end Schema

end PolicyStore
