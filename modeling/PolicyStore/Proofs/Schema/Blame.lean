import PolicyStore.Merge
import PolicyStore.Proofs.Report.Union

set_option autoImplicit false

namespace PolicyStore

/-!
# Blame

What a schema has against a policy, stated fault by fault and without any order of checks. The
report of a validation gives each name the union of exactly these faults.
-/

/-! ## Arrays -/

namespace Definition

def Accepts (d : Definition) (kind : Kind) : Prop := d.kind = none ∨ d.kind = some kind

/-- What a definition has against an array, leaving aside the rows of the policies in it. -/
inductive BlamesArray (d : Definition) (values : Values Tree) : Code → Prop
  | missing : values.length = 0 → 0 < d.minOccurs → BlamesArray d values .missingRequired
  | notAnArray : values.length = 1 → 1 < d.minOccurs → BlamesArray d values .notAnArray
  | tooShort : 1 < values.length → values.length < d.minOccurs → BlamesArray d values .arrayTooShort
  | tooMany {most : Nat} : d.maxOccurs = some most → most < values.length →
      BlamesArray d values .tooManyValues
  | fileForPolicy : d.kind = some .policy → values.kind = .file → BlamesArray d values .notLoaded
  | wrongType {declared : Kind} : d.kind = some declared → declared ≠ values.kind →
      ¬(declared = .policy ∧ values.kind = .file) → BlamesArray d values .wrongType
  | belowMin {v bound : Value Tree} : d.Accepts values.kind → v ∈ values.toList →
      d.allowed.min = some bound → v.less bound = true → BlamesArray d values .valueOutOfRange
  | aboveMax {v bound : Value Tree} : d.Accepts values.kind → v ∈ values.toList →
      d.allowed.max = some bound → bound.less v = true → BlamesArray d values .valueOutOfRange
  | disallowed {v : Value Tree} : d.Accepts values.kind → v ∈ values.toList →
      d.allowed.values ≠ [] → (∀ w ∈ d.allowed.values, v.sameNumber w = false) →
      BlamesArray d values .valueDisallowed
  | schemaNotLoaded {t : Tree} {path : String} : d.Accepts values.kind →
      .policy t ∈ values.toList → d.sub = .unloaded path → BlamesArray d values .notLoaded

theorem kindFault?_eq_none_iff {d : Definition} {kind : Kind} :
    d.kindFault? kind = none ↔ d.Accepts kind := by
  unfold kindFault? Accepts
  cases hkind : d.kind with
  | none => simp
  | some declared =>
    by_cases h : declared = kind
    · simp [h]
    · by_cases hfile : declared = .policy ∧ kind = .file <;> simp [h, hfile]

theorem kindFault?_eq_some_iff {d : Definition} {kind : Kind} {code : Code} :
    d.kindFault? kind = some code ↔
      (d.kind = some .policy ∧ kind = .file ∧ code = .notLoaded) ∨
        ∃ declared, d.kind = some declared ∧ declared ≠ kind ∧
          ¬(declared = .policy ∧ kind = .file) ∧ code = .wrongType := by
  unfold kindFault?
  cases hkind : d.kind with
  | none => simp
  | some declared =>
    by_cases h : declared = kind
    · subst h
      cases declared <;> simp
    · by_cases hfile : declared = .policy ∧ kind = .file
      · obtain ⟨rfl, rfl⟩ := hfile
        simp [eq_comm]
      · simp only [h, hfile, if_false, Option.some.injEq]
        constructor
        · rintro rfl
          exact Or.inr ⟨declared, rfl, h, hfile, rfl⟩
        · rintro (⟨hpolicy, hkind', _⟩ | ⟨_, _, _, _, rfl⟩)
          · exact (hfile ⟨hpolicy, hkind'⟩).elim
          · rfl

theorem below?_eq_some_iff {d : Definition} {sub : Schema} :
    d.below? = some sub ↔ d.Accepts .policy ∧ d.sub = .inline sub := by
  rw [← kindFault?_eq_none_iff, below?]
  cases d.kindFault? .policy <;> cases d.sub <;> simp

theorem shortage_le_iff {d : Definition} {count : Nat} {u : Code} :
    d.shortage count ≤ u ↔
      (count = 0 → 0 < d.minOccurs → .missingRequired ≤ u) ∧
        (count = 1 → 1 < d.minOccurs → .notAnArray ≤ u) ∧
          (1 < count → count < d.minOccurs → .arrayTooShort ≤ u) := by
  have hnone : Code.none ≤ u := bot_le
  unfold shortage
  split
  · rename_i h
    simp only [h.1, h.2, true_implies]
    simp
  · split
    · rename_i h
      simp only [h.1, h.2, true_implies]
      simp
    · split
      · rename_i h0 h1 h
        have hcount : 1 < count := by
          omega
        have hne0 : count ≠ 0 := by
          omega
        have hne1 : count ≠ 1 := by
          omega
        simp [hcount, hne0, hne1, h.2]
      · rename_i h0 h1 h2
        refine ⟨fun _ => ⟨fun hc hm => ?_, fun hc hm => ?_, fun hc hm => ?_⟩, fun _ => hnone⟩
        · exact (h0 ⟨hc, hm⟩).elim
        · exact (h1 ⟨hc, hm⟩).elim
        · exact (h2 ⟨by omega, hm⟩).elim

theorem excess_le_iff {d : Definition} {count : Nat} {u : Code} :
    d.excess count ≤ u ↔
      ∀ most, d.maxOccurs = some most → most < count → .tooManyValues ≤ u := by
  rw [excess, Code.ite_none_le_iff]
  cases hmax : d.maxOccurs <;> simp

theorem judgeLoaded_le_iff {d : Definition} {v : Value Tree} {u : Code} :
    d.judgeLoaded v ≤ u ↔
      ∀ t path, v = .policy t → d.sub = .unloaded path → .notLoaded ≤ u := by
  have hnone : Code.none ≤ u := bot_le
  unfold judgeLoaded
  split
  · rename_i t path hsub
    exact ⟨fun h _ _ _ _ => h, fun h => h t path rfl hsub⟩
  · rename_i hother
    exact ⟨fun _ t path hv hsub => (hother t path hv hsub).elim, fun _ => hnone⟩

end Definition

theorem Allowed.judge_le_iff {a : Allowed} {v : Value Tree} {u : Code} :
    a.judge v ≤ u ↔
      (∀ bound, a.min = some bound → v.less bound = true → .valueOutOfRange ≤ u) ∧
        (∀ bound, a.max = some bound → bound.less v = true → .valueOutOfRange ≤ u) ∧
          (a.values ≠ [] → (∀ w ∈ a.values, v.sameNumber w = false) → .valueDisallowed ≤ u) := by
  have hrange : (if (a.min.any fun bound => v.less bound) || (a.max.any fun bound => bound.less v)
        then Code.valueOutOfRange else Code.none) ≤ u ↔
      (∀ bound, a.min = some bound → v.less bound = true → .valueOutOfRange ≤ u) ∧
        (∀ bound, a.max = some bound → bound.less v = true → .valueOutOfRange ≤ u) := by
    rw [Code.ite_none_le_iff, Bool.or_eq_true, or_imp]
    cases a.min <;> cases a.max <;> simp
  have hlisted : (if a.values.isEmpty || (a.values.any fun w => v.sameNumber w)
        then Code.none else Code.valueDisallowed) ≤ u ↔
      (a.values ≠ [] → (∀ w ∈ a.values, v.sameNumber w = false) → .valueDisallowed ≤ u) := by
    rw [← ite_not, Code.ite_none_le_iff, ← and_imp]
    simp [List.isEmpty_iff]
  rw [judge, ← Code.sup_eq_union, sup_le_iff, hrange, hlisted, and_assoc]

namespace Definition

theorem BlamesArray.judgeCount_le {d : Definition} {values : Values Tree} {u : Code}
    (h : ∀ code, d.BlamesArray values code → code ≤ u) : d.judgeCount values.length ≤ u := by
  rw [judgeCount, ← Code.sup_eq_union, sup_le_iff, shortage_le_iff, excess_le_iff]
  refine ⟨⟨fun h0 hmin => ?_, fun h1 hmin => ?_, fun h1 hmin => ?_⟩, fun most hmax hmost => ?_⟩
  · exact h _ (.missing h0 hmin)
  · exact h _ (.notAnArray h1 hmin)
  · exact h _ (.tooShort h1 hmin)
  · exact h _ (.tooMany hmax hmost)

theorem judgeArray_le_iff {d : Definition} {values : Values Tree} {u : Code} :
    d.judgeArray values ≤ u ↔ ∀ code, d.BlamesArray values code → code ≤ u := by
  rw [judgeArray, ← Code.sup_eq_union, sup_le_iff]
  constructor
  · rintro ⟨hcount, hkind⟩ code hblame
    rw [judgeCount, ← Code.sup_eq_union, sup_le_iff, shortage_le_iff, excess_le_iff] at hcount
    obtain ⟨⟨hmissing, hsingle, hshort⟩, hmost⟩ := hcount
    -- The values count only where the kind is accepted.
    have heach : d.Accepts values.kind → ∀ v ∈ values.toList,
        d.allowed.judge v ≤ u ∧ d.judgeLoaded v ≤ u := by
      intro haccept v hv
      rw [kindFault?_eq_none_iff.mpr haccept] at hkind
      have hv := (Code.foldl_union_le_iff _ _).mp hkind |>.2 v hv
      rwa [← Code.sup_eq_union, sup_le_iff] at hv
    cases hblame with
    | missing h0 hmin => exact hmissing h0 hmin
    | notAnArray h1 hmin => exact hsingle h1 hmin
    | tooShort h1 hmin => exact hshort h1 hmin
    | tooMany hmax hover => exact hmost _ hmax hover
    | fileForPolicy hpolicy hfile =>
      rwa [kindFault?_eq_some_iff.mpr (Or.inl ⟨hpolicy, hfile, rfl⟩)] at hkind
    | wrongType hdeclared hne hnot =>
      rwa [kindFault?_eq_some_iff.mpr (Or.inr ⟨_, hdeclared, hne, hnot, rfl⟩)] at hkind
    | belowMin haccept hv hmin hless =>
      exact (Allowed.judge_le_iff.mp (heach haccept _ hv).1).1 _ hmin hless
    | aboveMax haccept hv hmax hless =>
      exact (Allowed.judge_le_iff.mp (heach haccept _ hv).1).2.1 _ hmax hless
    | disallowed haccept hv hne hall =>
      exact (Allowed.judge_le_iff.mp (heach haccept _ hv).1).2.2 hne hall
    | schemaNotLoaded haccept hv hsub =>
      exact judgeLoaded_le_iff.mp (heach haccept _ hv).2 _ _ rfl hsub
  · intro h
    refine ⟨BlamesArray.judgeCount_le h, ?_⟩
    cases hfault : d.kindFault? values.kind with
    | some fault =>
      rcases kindFault?_eq_some_iff.mp hfault with ⟨hpolicy, hfile, rfl⟩ | ⟨_, hd, hne, hnot, rfl⟩
      · exact h _ (.fileForPolicy hpolicy hfile)
      · exact h _ (.wrongType hd hne hnot)
    | none =>
      have haccept := kindFault?_eq_none_iff.mp hfault
      refine (Code.foldl_union_le_iff _ _).mpr ⟨bot_le, fun v hv => ?_⟩
      rw [← Code.sup_eq_union, sup_le_iff, Allowed.judge_le_iff, judgeLoaded_le_iff]
      refine ⟨⟨fun bound hmin hless => ?_, fun bound hmax hless => ?_, fun hne hall => ?_⟩, ?_⟩
      · exact h _ (.belowMin haccept hv hmin hless)
      · exact h _ (.aboveMax haccept hv hmax hless)
      · exact h _ (.disallowed haccept hv hne hall)
      · rintro t path rfl hsub
        exact h _ (.schemaNotLoaded haccept hv hsub)

/-- Of an array it is never said that its name is unknown or its definition malformed. -/
theorem BlamesArray.le_allBut {d : Definition} {values : Values Tree} {code other : Code}
    (h : d.BlamesArray values code) (hother : other = .unknownName ∨ other = .badDefinition) :
    code ≤ .allBut other := by
  rcases hother with rfl | rfl <;> cases h <;> decide

theorem judgeArray_le_allBut (d : Definition) (values : Values Tree) {other : Code}
    (hother : other = .unknownName ∨ other = .badDefinition) :
    d.judgeArray values ≤ .allBut other :=
  judgeArray_le_iff.mpr fun _ hblame => hblame.le_allBut hother

end Definition

/-! ## Policies -/

namespace Schema

/-- What the block of definitions holds for a name. -/
def own? (s : Schema) (name : String) : Option (Values Tree) := s.definitions?.bind (·.find? name)

/-- A block describes a name: the last one written for it, or the child definition if none is. -/
inductive Describes (s : Schema) (name : String) : Tree → Prop
  | own {blocks : List Tree} {block : Tree} : s.own? name = some (.policies blocks) →
      blocks.getLast? = some block → Describes s name block
  | child {block : Tree} : s.own? name = none → s.childBlock? = some block → Describes s name block

def Unknown (s : Schema) (name : String) : Prop := s.own? name = none ∧ s.childBlock? = none

def Defines (s : Schema) (name : String) (d : Definition) : Prop :=
  ∃ block, s.Describes name block ∧ Definition.ofBlock? name block.entries = .ok d

/-- What a schema has against a policy and the policies below it, and under which name. -/
inductive Blames : Schema → Tree → String → Code → Prop
  | unknown {s : Schema} {t : Tree} {name : String} {values : Values Tree} :
      (name, values) ∈ t.entries → s.Unknown name → Blames s t name .unknownName
  | malformed {s : Schema} {t : Tree} {name : String} {values : Values Tree} :
      (name, values) ∈ t.entries → ¬s.Unknown name → (∀ d, ¬s.Defines name d) →
      Blames s t name .badDefinition
  | array {s : Schema} {t : Tree} {name : String} {values : Values Tree} {d : Definition}
      {code : Code} : (name, values) ∈ t.entries → s.Defines name d → d.BlamesArray values code →
      Blames s t name code
  | absent {s : Schema} {t : Tree} {name : String} {d : Definition} : name ∈ s.definedNames →
      Table.get? name t.entries = none → s.Defines name d → 0 < d.minOccurs →
      Blames s t name .missingRequired
  | malformedAbsent {s : Schema} {t : Tree} {name : String} : name ∈ s.definedNames →
      Table.get? name t.entries = none → (∀ d, ¬s.Defines name d) →
      Blames s t name .badDefinition
  | inside {s sub : Schema} {t child : Tree} {name rest : String} {children : List Tree}
      {d : Definition} {code : Code} : (name, .policies children) ∈ t.entries →
      s.Defines name d → d.Accepts .policy → d.sub = .inline sub → child ∈ children →
      Blames sub child rest code → Blames s t (name ++ "." ++ rest) code

theorem block?_eq_none_iff {s : Schema} {name : String} : s.block? name = none ↔ s.Unknown name := by
  unfold block? Unknown own?
  split
  · rename_i blocks hfind
    rw [hfind]
    cases blocks.getLast? <;> simp
  · rename_i values _ hfind
    rw [hfind]
    simp
  · rename_i hfind
    rw [hfind]
    simp

theorem block?_eq_ok_iff {s : Schema} {name : String} {block : Tree} :
    s.block? name = some (.ok block) ↔ s.Describes name block := by
  constructor
  · intro h
    unfold block? at h
    split at h
    · rename_i blocks hfind
      cases hlast : blocks.getLast? with
      | none => simp [hlast] at h
      | some last =>
        simp only [hlast, Option.some.injEq, Except.ok.injEq] at h
        subst h
        exact .own hfind hlast
    · simp at h
    · rename_i hfind
      obtain ⟨child, hchild, hok⟩ := Option.map_eq_some_iff.mp h
      cases hok
      exact .child hfind hchild
  · intro h
    cases h with
    | own hfind hlast =>
      unfold own? at hfind
      simp [block?, hfind, hlast]
    | child hfind hchild =>
      unfold own? at hfind
      simp [block?, hfind, hchild]

theorem definition?_eq_none_iff {s : Schema} {name : String} :
    s.definition? name = none ↔ s.Unknown name := by
  rw [definition?, Option.map_eq_none_iff, block?_eq_none_iff]

theorem definition?_eq_ok_iff {s : Schema} {name : String} {d : Definition} :
    s.definition? name = some (.ok d) ↔ s.Defines name d := by
  rw [definition?, Option.map_eq_some_iff]
  constructor
  · rintro ⟨found, hfound, hread⟩
    cases found with
    | error fault => simp [Except.bind] at hread
    | ok block => exact ⟨block, block?_eq_ok_iff.mp hfound, hread⟩
  · rintro ⟨block, hblock, hread⟩
    exact ⟨.ok block, block?_eq_ok_iff.mpr hblock, hread⟩

theorem below?_eq_some_iff {s sub : Schema} {name : String} :
    s.below? name = some sub ↔ ∃ d, s.Defines name d ∧ d.Accepts .policy ∧ d.sub = .inline sub := by
  unfold below?
  split
  · rename_i d hd
    have hd := definition?_eq_ok_iff.mp hd
    rw [Definition.below?_eq_some_iff]
    refine ⟨fun h => ⟨d, hd, h⟩, ?_⟩
    rintro ⟨other, hother, h⟩
    have heq := (definition?_eq_ok_iff.mpr hd).symm.trans (definition?_eq_ok_iff.mpr hother)
    cases heq
    exact h
  · rename_i hnot
    refine ⟨fun h => by simp at h, ?_⟩
    rintro ⟨d, hd, _⟩
    exact (hnot d (definition?_eq_ok_iff.mpr hd)).elim

/-! ## Findings -/

theorem mem_findingsBelow_iff {s : Option Schema} {key : String} {ts : List Tree} {f : Finding} :
    f ∈ findingsBelow s key ts ↔ ∃ sub child rest, s = some sub ∧ child ∈ ts ∧
      (rest, f.2) ∈ sub.findings child ∧ f.1 = key ++ "." ++ rest := by
  induction ts with
  | nil => simp [findingsBelow]
  | cons t ts ih =>
    cases s with
    | none => simpa [findingsBelow] using ih
    | some sub =>
      obtain ⟨name, code⟩ := f
      simp only [findingsBelow, List.mem_append, ih, Finding.under, List.mem_map, Prod.exists,
        Prod.mk.injEq, List.mem_cons]
      constructor
      · rintro (⟨rest, _, hmem, rfl, rfl⟩ | ⟨_, child, rest, hsub, hchild, hmem, hname⟩)
        · exact ⟨sub, t, rest, rfl, Or.inl rfl, hmem, rfl⟩
        · exact ⟨_, child, rest, hsub, Or.inr hchild, hmem, hname⟩
      · rintro ⟨_, child, rest, hsub, hchild, hmem, rfl⟩
        cases hsub
        rcases hchild with rfl | hchild
        · exact Or.inl ⟨rest, code, hmem, rfl, rfl⟩
        · exact Or.inr ⟨_, child, rest, rfl, hchild, hmem, rfl⟩

theorem findingsOfRows_cons (s : Schema) (key : String) (values : Values Tree)
    (rows : Entries Tree) : s.findingsOfRows ((key, values) :: rows) =
      (key, s.judgeRow key values) :: findingsBelow (s.below? key) key values.children ++
        s.findingsOfRows rows := by
  cases values <;> simp [findingsOfRows, findingsBelow, Values.children]

theorem mem_findingsOfRows_iff {s : Schema} {rows : Entries Tree} {f : Finding} :
    f ∈ s.findingsOfRows rows ↔ ∃ key values, (key, values) ∈ rows ∧
      (f = (key, s.judgeRow key values) ∨ f ∈ findingsBelow (s.below? key) key values.children) := by
  induction rows with
  | nil => simp [findingsOfRows]
  | cons row rows ih =>
    obtain ⟨key, values⟩ := row
    rw [findingsOfRows_cons, List.mem_append, List.mem_cons, ih]
    constructor
    · rintro (hhere | ⟨other, others, hmem, hthere⟩)
      · exact ⟨key, values, List.mem_cons_self, hhere⟩
      · exact ⟨other, others, List.mem_cons_of_mem _ hmem, hthere⟩
    · rintro ⟨other, others, hmem, h⟩
      rcases List.mem_cons.mp hmem with heq | hmem
      · cases heq
        exact Or.inl h
      · exact Or.inr ⟨other, others, hmem, h⟩

theorem mem_absences_iff {s : Schema} {rows : Entries Tree} {f : Finding} :
    f ∈ s.absences rows ↔
      f.1 ∈ s.definedNames ∧ Table.get? f.1 rows = none ∧ f.2 = s.judgeAbsent f.1 := by
  obtain ⟨name, code⟩ := f
  simp only [absences, List.mem_map, List.mem_filter, Option.isNone_iff_eq_none, Prod.mk.injEq]
  constructor
  · rintro ⟨_, ⟨hdefined, habsent⟩, rfl, rfl⟩
    exact ⟨hdefined, habsent, rfl⟩
  · rintro ⟨hdefined, habsent, rfl⟩
    exact ⟨name, ⟨hdefined, habsent⟩, rfl, rfl⟩

theorem judgeRow_le_iff {s : Schema} {name : String} {values : Values Tree} {u : Code} :
    s.judgeRow name values ≤ u ↔
      (s.Unknown name → .unknownName ≤ u) ∧
        (¬s.Unknown name → (∀ d, ¬s.Defines name d) → .badDefinition ≤ u) ∧
          ∀ d code, s.Defines name d → d.BlamesArray values code → code ≤ u := by
  simp only [← definition?_eq_none_iff, ← definition?_eq_ok_iff]
  unfold judgeRow
  cases hfound : s.definition? name with
  | none => simp
  | some found =>
    cases found with
    | error fault => simp
    | ok d =>
      simp only [Definition.judgeArray_le_iff]
      refine ⟨fun h => ⟨by simp, by simp, ?_⟩, fun h code => h.2.2 d code rfl⟩
      rintro other code heq
      cases heq
      exact h code

theorem judgeAbsent_le_iff {s : Schema} {name : String} {u : Code} :
    s.judgeAbsent name ≤ u ↔
      ((∀ d, ¬s.Defines name d) → .badDefinition ≤ u) ∧
        ∀ d, s.Defines name d → 0 < d.minOccurs → .missingRequired ≤ u := by
  simp only [← definition?_eq_ok_iff]
  unfold judgeAbsent
  split
  · rename_i d hd
    rw [hd, Definition.judgeCount, ← Code.sup_eq_union, sup_le_iff, Definition.shortage_le_iff,
      Definition.excess_le_iff]
    simp
  · rename_i hnot
    have hnone : ∀ d, s.definition? name ≠ some (.ok d) := hnot
    simp [hnone]

/-- The findings under a name are bounded by the codes that bound its faults. -/
theorem findings_le_of_blames_le {t : Tree} : ∀ {s : Schema} {name : String} {u : Code},
    (∀ code, s.Blames t name code → code ≤ u) → ∀ code, (name, code) ∈ s.findings t → code ≤ u := by
  induction hsize : sizeOf t using Nat.strongRecOn generalizing t with
  | ind size ih =>
    intro s name u hblames code hmem
    obtain ⟨handle, dictionary, rows⟩ := t
    rw [findings, List.mem_append, mem_findingsOfRows_iff, mem_absences_iff] at hmem
    rcases hmem with ⟨key, values, hrow, heq | hbelow⟩ | ⟨hdefined, habsent, hcode⟩
    · cases heq
      refine judgeRow_le_iff.mpr ⟨fun hunknown => ?_, fun hknown hnone => ?_, fun d code hd hb => ?_⟩
      · exact hblames _ (.unknown hrow hunknown)
      · exact hblames _ (.malformed hrow hknown hnone)
      · exact hblames _ (.array hrow hd hb)
    · obtain ⟨sub, child, rest, hsub, hchild, hfound, rfl⟩ := mem_findingsBelow_iff.mp hbelow
      obtain ⟨d, hd, haccept, hinline⟩ := below?_eq_some_iff.mp hsub
      obtain ⟨children, rfl⟩ : ∃ children, values = .policies children := by
        cases values <;> simp_all [Values.children]
      have hsmaller : sizeOf child < size := by
        have h1 := sizeOf_lt_of_mem_children hrow hchild
        simp only [Tree.node.sizeOf_spec] at hsize
        omega
      refine ih _ hsmaller rfl (fun other hother => ?_) code hfound
      exact hblames _ (.inside hrow hd haccept hinline hchild hother)
    · have hcode : code = s.judgeAbsent name := hcode
      rw [hcode]
      refine judgeAbsent_le_iff.mpr ⟨fun hnone => ?_, fun d hd hmin => ?_⟩
      · exact hblames _ (.malformedAbsent hdefined habsent hnone)
      · exact hblames _ (.absent hdefined habsent hd hmin)

theorem blames_le_of_findings_le {s : Schema} {t : Tree} {name : String} {code u : Code}
    (h : s.Blames t name code) : (∀ code, (name, code) ∈ s.findings t → code ≤ u) → code ≤ u := by
  have hrow {s : Schema} {t : Tree} {name : String} {values : Values Tree}
      (hmem : (name, values) ∈ t.entries) : (name, s.judgeRow name values) ∈ s.findings t := by
    obtain ⟨handle, dictionary, rows⟩ := t
    rw [findings, List.mem_append, mem_findingsOfRows_iff]
    exact Or.inl ⟨name, values, hmem, Or.inl rfl⟩
  have habsence {s : Schema} {t : Tree} {name : String} (hdefined : name ∈ s.definedNames)
      (habsent : Table.get? name t.entries = none) :
      (name, s.judgeAbsent name) ∈ s.findings t := by
    obtain ⟨handle, dictionary, rows⟩ := t
    rw [findings, List.mem_append, mem_absences_iff]
    exact Or.inr ⟨hdefined, habsent, rfl⟩
  induction h with
  | unknown hmem hunknown =>
    intro h
    exact (judgeRow_le_iff.mp (h _ (hrow hmem))).1 hunknown
  | malformed hmem hknown hnone =>
    intro h
    exact (judgeRow_le_iff.mp (h _ (hrow hmem))).2.1 hknown hnone
  | array hmem hd hblame =>
    intro h
    exact (judgeRow_le_iff.mp (h _ (hrow hmem))).2.2 _ _ hd hblame
  | absent hdefined habsent hd hmin =>
    intro h
    exact (judgeAbsent_le_iff.mp (h _ (habsence hdefined habsent))).2 _ hd hmin
  | malformedAbsent hdefined habsent hnone =>
    intro h
    exact (judgeAbsent_le_iff.mp (h _ (habsence hdefined habsent))).1 hnone
  | @inside s sub t child name rest children d code hmem hd haccept hinline hchild _ ih =>
    intro h
    refine ih fun other hother => h other ?_
    obtain ⟨handle, dictionary, rows⟩ := t
    rw [findings, List.mem_append, mem_findingsOfRows_iff]
    refine Or.inl ⟨name, .policies children, hmem, Or.inr (mem_findingsBelow_iff.mpr ?_)⟩
    exact ⟨sub, child, rest, below?_eq_some_iff.mpr ⟨d, hd, haccept, hinline⟩, hchild, hother, rfl⟩

end Schema

/-- Validation records under each name the union of the faults there, and nothing else: the least
code above everything the schema has against the policy, or against one below it. -/
theorem Store.validateBy_records_union_of_faults (s : Store) (d : Dictionary) (p : Policy) :
    ∃ report, s.validateBy d p (some Report.empty) = .ok (some report) ∧
      ∀ name, IsLUB {code | (s.schema d).Blames (s.tree p) name code} (report.codeAt name) := by
  refine ⟨Report.empty.record ((s.schema d).findings (s.tree p)), ?_, fun name => ?_⟩
  · rw [validateBy, settle, Report.empty_absorb]
  · refine isLUB_iff_le_iff.mpr fun u => ?_
    rw [(isLUB_iff_le_iff.mp (Report.isLUB_codeAt_record _ name)) u]
    constructor
    · intro h code hblames
      exact Schema.blames_le_of_findings_le hblames h
    · intro h
      exact Schema.findings_le_of_blames_le h

end PolicyStore
