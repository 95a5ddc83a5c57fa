import PolicyStore.Proofs.Schema.Blame
import PolicyStore.Proofs.Store.Above

set_option autoImplicit false

namespace PolicyStore

/-!
# Admission

A write is asked about value by value, each with the number of those before it, and a validation
looks at the array as a whole. A definition that has nothing against the values one by one has
nothing against their array but that there are too few of them.
-/

namespace Definition

/-- The array is of an accepted kind and within the upper bound, and all its values are allowed. -/
structure Admits (d : Definition) (values : Values Tree) : Prop where
  kind : d.Accepts values.kind
  count : d.excess values.length = .none
  each : ∀ v ∈ values.toList, d.allowed.judge v = .none

variable {d : Definition} {values : Values Tree} {v : Value Tree} {count : Nat} {u : Code}

theorem excess_mono {m n : Nat} (hle : m ≤ n) : d.excess m ≤ d.excess n :=
  excess_le_iff.mpr fun most hmax hlt => excess_le_iff.mp le_rfl most hmax (hlt.trans_le hle)

theorem isNone_of_kindFault? {kind : Kind} {code : Code} (h : d.kindFault? kind = some code) :
    code.isNone = false := by
  rcases kindFault?_eq_some_iff.mp h with ⟨_, _, rfl⟩ | ⟨_, _, _, _, rfl⟩ <;> rfl

theorem judgeValue_le_iff (hkind : d.Accepts v.kind) :
    d.judgeValue v (some count) ≤ u ↔ d.excess (count + 1) ≤ u ∧ d.allowed.judge v ≤ u := by
  rw [judgeValue, kindFault?_eq_none_iff.mpr hkind]
  exact sup_le_iff

/-- The values are too many one by one just if the last of them is one too many. -/
theorem judgeValues_le_iff (hkind : d.Accepts values.kind) (hne : values.isEmpty = false) :
    (∀ i v, values.toList[i]? = some v → d.judgeValue v (some i) ≤ u) ↔
      d.excess values.length ≤ u ∧ ∀ v ∈ values.toList, d.allowed.judge v ≤ u := by
  have haccept {v : Value Tree} (hv : v ∈ values.toList) : d.Accepts v.kind := by
    rwa [Values.kind_of_mem_toList hv]
  constructor
  · intro h
    have hpos : 0 < values.length := by
      rw [Values.length, List.length_pos_iff]
      simpa [Values.isEmpty] using hne
    have hlast := h (values.length - 1) _ (List.getElem?_eq_getElem (Nat.sub_lt hpos Nat.one_pos))
    have hcount := (judgeValue_le_iff (haccept (List.getElem_mem _))).mp hlast |>.1
    rw [Nat.sub_add_cancel hpos] at hcount
    refine ⟨hcount, fun v hv => ?_⟩
    obtain ⟨i, hi⟩ := List.mem_iff_getElem?.mp hv
    exact (judgeValue_le_iff (haccept hv)).mp (h i v hi) |>.2
  · rintro ⟨hcount, heach⟩ i v hi
    have hv := List.mem_of_getElem? hi
    obtain ⟨hlt, -⟩ := List.getElem?_eq_some_iff.mp hi
    exact (judgeValue_le_iff (haccept hv)).mpr ⟨(excess_mono hlt).trans hcount, heach v hv⟩

theorem judgeValue_eq_none_iff :
    d.judgeValue v (some count) = .none ↔
      d.Accepts v.kind ∧ d.excess (count + 1) = .none ∧ d.allowed.judge v = .none := by
  unfold judgeValue
  rw [← kindFault?_eq_none_iff]
  cases hfault : d.kindFault? v.kind with
  | none => exact ⟨fun h => ⟨rfl, sup_eq_bot_iff.mp h⟩, fun h => sup_eq_bot_iff.mpr h.2⟩
  | some code =>
    have hcode := isNone_of_kindFault? hfault
    refine ⟨fun h => ?_, fun h => by cases h.1⟩
    rw [Code.isNone_iff.mpr h] at hcode
    cases hcode

/-- An array is admitted just if no value is objected to as one more than those before it. -/
theorem admits_iff_judgeValue (hne : values.isEmpty = false) : d.Admits values ↔
    ∀ i v, values.toList[i]? = some v → d.judgeValue v (some i) = .none := by
  constructor
  · intro h i v hi
    have heach := (judgeValues_le_iff h.kind hne).mpr ⟨h.count.le, fun v hv => (h.each v hv).le⟩
    exact le_bot_iff.mp (heach i v hi)
  · intro h
    have hkind : d.Accepts values.kind := by
      obtain ⟨v, hv⟩ := List.exists_mem_of_ne_nil values.toList (by simpa [Values.isEmpty] using hne)
      obtain ⟨i, hi⟩ := List.mem_iff_getElem?.mp hv
      rw [← Values.kind_of_mem_toList hv]
      exact (judgeValue_eq_none_iff.mp (h i v hi)).1
    obtain ⟨hcount, heach⟩ := (judgeValues_le_iff hkind hne).mp fun i v hi => (h i v hi).le
    exact ⟨hkind, le_bot_iff.mp hcount, fun v hv => le_bot_iff.mp (heach v hv)⟩

/-- A value that is not objected to as one more can be appended to allowed values. -/
theorem admits_of_push? {old new : Values Tree} (hpush : old.push? v = some new)
    (hold : ∀ w ∈ old.toList, d.allowed.judge w = .none)
    (hjudge : d.judgeValue v (some old.length) = .none) : d.Admits new := by
  obtain ⟨hkind, hcount, hallowed⟩ := judgeValue_eq_none_iff.mp hjudge
  have hlist := Values.toList_push? hpush
  have hsame : old.kind = v.kind := by
    by_contra hne
    rw [Values.push?_eq_none_iff.mpr hne] at hpush
    cases hpush
  refine ⟨?_, ?_, fun w hw => ?_⟩
  · rwa [Values.kind_push? hpush, hsame]
  · rwa [Values.length, hlist, List.length_append]
  · rw [hlist, List.mem_append, List.mem_singleton] at hw
    rcases hw with hw | rfl
    · exact hold w hw
    · exact hallowed

/-- An array that nothing is wrong with is admitted. -/
theorem admits_of_judgeArray (h : d.judgeArray values = .none) : d.Admits values := by
  obtain ⟨hcount, hkind⟩ := sup_eq_bot_iff.mp h
  cases hfault : d.kindFault? values.kind with
  | some code =>
    have hcode := isNone_of_kindFault? hfault
    rw [hfault] at hkind
    rw [Code.isNone_iff.mpr hkind] at hcode
    cases hcode
  | none =>
    rw [hfault] at hkind
    have heach := ((Code.foldl_union_le_iff _ _).mp hkind.le).2
    refine ⟨kindFault?_eq_none_iff.mp hfault, (sup_eq_bot_iff.mp hcount).2, fun v hv => ?_⟩
    exact (sup_eq_bot_iff.mp (le_bot_iff.mp (heach v hv))).1

/-- Of an admitted array a validation can only say that there are too few values, unless their
dictionary has not been loaded. -/
theorem Admits.judgeArray_le (h : d.Admits values) (hloaded : ∀ path, d.sub ≠ .unloaded path) :
    d.judgeArray values ≤ .tooFewValues := by
  have hallowed {v : Value Tree} (hv : v ∈ values.toList) :=
    Allowed.judge_le_iff.mp (h.each v hv).le
  have hnot {code : Code} (hcode : code ≤ .none) (hsome : code.isNone = false) :
      code ≤ .tooFewValues := by
    rw [le_bot_iff.mp hcode] at hsome
    cases hsome
  refine judgeArray_le_iff.mpr fun code hblame => ?_
  cases hblame with
  | missing _ _ => decide
  | notAnArray _ _ => decide
  | tooShort _ _ => decide
  | tooMany hmax hlt => exact hnot (excess_le_iff.mp h.count.le _ hmax hlt) rfl
  | fileForPolicy hpolicy hfile =>
    have hkind := h.kind
    rw [Accepts, hpolicy, hfile] at hkind
    simp at hkind
  | wrongType hdeclared hne _ =>
    have hkind := h.kind
    rw [Accepts, hdeclared] at hkind
    exact (hkind.elim nofun fun heq => hne (Option.some.inj heq)).elim
  | belowMin _ hv hmin hless => exact hnot ((hallowed hv).1 _ hmin hless) rfl
  | aboveMax _ hv hmax hless => exact hnot ((hallowed hv).2.1 _ hmax hless) rfl
  | disallowed _ hv hne hall => exact hnot ((hallowed hv).2.2 hne hall) rfl
  | schemaNotLoaded _ _ hsub => exact (hloaded _ hsub).elim

end Definition

/-! ## Approval -/

namespace Store

variable {s : Store} {p : Policy} {d : Dictionary} {name : String} {definition : Definition}

theorem approve_eq_ok_iff {v : Value Policy} {count : Nat} :
    s.approve p name v count = .ok () ↔ s.objection p name v count = .ok .none := by
  unfold approve
  cases hobjection : s.objection p name v count with
  | error e => simp [bind, Except.bind]
  | ok code =>
    by_cases hcode : code.isNone = true
    · rw [Code.isNone_iff.mp hcode]
      exact ⟨fun _ => rfl, fun _ => rfl⟩
    · simp [bind, Except.bind, hcode, ← Code.isNone_iff]

theorem approveAll_eq_ok_iff {vs : List (Value Policy)} : ∀ {count : Nat},
    s.approveAll p name count vs = .ok () ↔
      ∀ i v, vs[i]? = some v → s.approve p name v (count + i) = .ok () := by
  induction vs with
  | nil => simp [approveAll]
  | cons v vs ih =>
    intro count
    have hstep : s.approveAll p name count (v :: vs) = .ok () ↔
        s.approve p name v count = .ok () ∧ s.approveAll p name (count + 1) vs = .ok () := by
      rw [approveAll]
      cases s.approve p name v count <;> simp [bind, Except.bind]
    rw [hstep, ih]
    constructor
    · rintro ⟨hfirst, hrest⟩ i w hw
      cases i with
      | zero =>
        cases hw
        exact hfirst
      | succ i =>
        have hi := hrest i w (by simpa using hw)
        rwa [Nat.add_assoc, Nat.add_comm 1] at hi
    · intro h
      refine ⟨h 0 v rfl, fun i w hw => ?_⟩
      have hi := h (i + 1) w (by simpa using hw)
      rwa [Nat.add_assoc, Nat.add_comm 1]

section Lookups

variable (hdict : s.dictionary? p = some d) (hfound : (s.schema d).lookup name = .ok definition)

include hdict hfound

theorem approve_eq_ok_iff_of_lookup {v : Value Policy} {count : Nat} :
    s.approve p name v count = .ok () ↔
      definition.judgeValue (v.map s.tree) (some count) = .none := by
  rw [approve_eq_ok_iff, objection]
  simp only [hdict, hfound, Except.ok.injEq]

/-- Where a name has a definition, an array can be written just if the definition admits it. -/
theorem approveAll_eq_ok_iff_admits {values : Values Policy} (hne : values.isEmpty = false) :
    s.approveAll p name 0 values.toList = .ok () ↔ definition.Admits (values.map s.tree) := by
  rw [approveAll_eq_ok_iff, Definition.admits_iff_judgeValue (by rwa [Values.isEmpty_map])]
  simp only [approve_eq_ok_iff_of_lookup hdict hfound, Nat.zero_add, Values.toList_map,
    List.getElem?_map, Option.map_eq_some_iff]
  constructor
  · rintro h i _ ⟨v, hv, rfl⟩
    exact h i v hv
  · exact fun h i v hv => h i _ ⟨v, hv, rfl⟩

end Lookups

end Store

end PolicyStore
