import PolicyStore.Proofs.Schema.Blame

set_option autoImplicit false

namespace PolicyStore

/-!
# Validation into an accumulator

A validation adds to the report it is handed as it goes: the checks follow each other through the
rows, the values and the defined names, and only the policies inside get a report of their own,
which is absorbed under the name that holds them. What comes out is what all the findings together
say, so that the order of contributions to a report does not matter, nor how often they are made.
-/

/-! ## The pass -/

namespace Definition

/-- Adds what is wrong with a number of values. -/
def checkCount (d : Definition) (name : String) (count : Nat) (r : Report) : Report :=
  let r :=
    if count = 0 ∧ 0 < d.minOccurs then r.add name .missingRequired
    else if count = 1 ∧ 1 < d.minOccurs then r.add name .notAnArray
    else if 0 < count ∧ count < d.minOccurs then r.add name .arrayTooShort
    else r
  if d.maxOccurs.any (· < count) then r.add name .tooManyValues else r

/-- Adds what is wrong with an array. Its values are left to another function, which is not asked
if they are of the wrong kind. -/
def checkArray (d : Definition) (name : String) (values : Values Tree) (each : Report → Report)
    (r : Report) : Report :=
  let r := d.checkCount name values.length r
  match d.kindFault? values.kind with
  | some code => r.add name code
  | none => each r

/-- Adds what the constraints on single values have against some. -/
def checkValues (d : Definition) (name : String) (values : List (Value Tree)) (r : Report) :
    Report :=
  values.foldl (fun r v => r.add name (d.allowed.judge v)) r

end Definition

namespace Schema

def checkRow (s : Schema) (name : String) (values : Values Tree)
    (each : Definition → Report → Report) (r : Report) : Report :=
  match s.definition? name with
  | none => r.add name .unknownName
  | some (.error _) => r.add name .badDefinition
  | some (.ok d) => d.checkArray name values (each d) r

/-- Adds what is wrong with a defined name that holds nothing. -/
def checkAbsent (s : Schema) (name : String) (r : Report) : Report :=
  match s.definition? name with
  | some (.ok d) => d.checkCount name 0 r
  | _ => r.add name .badDefinition

def checkAbsences (s : Schema) (rows : Entries Tree) (r : Report) : Report :=
  s.definedNames.foldl
    (fun r name => if (Table.get? name rows).isSome then r else s.checkAbsent name r) r

mutual

def validateInto (s : Schema) : Tree → Report → Report
  | .node _ _ rows, r => s.checkAbsences rows (checkRows s rows r)

def checkRows (s : Schema) : List (String × Values Tree) → Report → Report
  | [], r => r
  | (name, .policies children) :: rows, r =>
    checkRows s rows
      (s.checkRow name (.policies children) (fun d => checkChildren d name children) r)
  | (name, values) :: rows, r =>
    checkRows s rows (s.checkRow name values (fun d => d.checkValues name values.toList) r)

/-- Adds what is wrong with the policies under a name, one after the other. -/
def checkChildren (d : Definition) (name : String) : List Tree → Report → Report
  | [], r => r
  | t :: ts, r =>
    let r := r.add name (d.allowed.judge (.policy t))
    checkChildren d name ts <|
      match d.sub with
      | .inline schema => r.absorb (name ++ ".") (validateInto schema t .empty)
      | .unloaded _ => r.add name .notLoaded
      | .none => r

end

end Schema

/-! ## Gains -/

namespace Report

/-- The second report has of each name what the first one has and what is given for the name. -/
def Gains (given : String → Code → Prop) (r r' : Report) : Prop :=
  ∀ name u, r'.codeAt name ≤ u ↔ r.codeAt name ≤ u ∧ ∀ code, given name code → code ≤ u

variable {given more : String → Code → Prop} {r r' r'' : Report}

theorem Gains.refl (r : Report) : Gains (fun _ _ => False) r r := by
  intro name u
  simp

theorem Gains.trans (h : Gains given r r') (h' : Gains more r' r'') :
    Gains (fun name code => given name code ∨ more name code) r r'' := by
  intro name u
  rw [h' name u, h name u, and_assoc, ← forall_and]
  simp only [or_imp]

/-- Only the bounds of what is given matter. -/
theorem Gains.congr (h : Gains given r r')
    (hiff : ∀ name u, (∀ code, given name code → code ≤ u) ↔ ∀ code, more name code → code ≤ u) :
    Gains more r r' := by
  intro name u
  rw [h name u, hiff]

theorem only_le_iff {name other : String} {only u : Code} :
    (∀ code, other = name ∧ code = only → code ≤ u) ↔ (other = name → only ≤ u) := by
  refine ⟨fun h heq => h only ⟨heq, rfl⟩, ?_⟩
  rintro h code ⟨heq, rfl⟩
  exact h heq

theorem gains_add (r : Report) (name : String) (code : Code) :
    Gains (fun other given => other = name ∧ given = code) r (r.add name code) := by
  intro other u
  rw [codeAt_add_le_iff, only_le_iff]

theorem gains_absorb (r : Report) (lead : String) (other : Report) :
    Gains (fun name code => ∃ rest, name = lead ++ rest ∧ (rest, code) ∈ other.rows) r
      (r.absorb lead other) := by
  intro name u
  rw [absorb_eq_record, codeAt_record_le_iff]
  refine and_congr_right fun _ => ⟨?_, ?_⟩
  · rintro h code ⟨rest, rfl, hrow⟩
    exact h code (List.mem_map.mpr ⟨(rest, code), hrow, rfl⟩)
  · intro h code hmem
    obtain ⟨⟨rest, _⟩, hrow, heq⟩ := List.mem_map.mp hmem
    cases heq
    exact h _ ⟨rest, rfl, hrow⟩

/-- A report that is absorbed gives what it gained since it was empty. -/
theorem Gains.absorb (h : Gains given empty r') (r : Report) (lead : String) :
    Gains (fun name code => ∃ rest, name = lead ++ rest ∧ given rest code) r
      (r.absorb lead r') := by
  refine (gains_absorb r lead r').congr fun name u => ?_
  have hrest (rest : String) : (∀ code, (rest, code) ∈ r'.rows → code ≤ u) ↔
      ∀ code, given rest code → code ≤ u := by
    rw [← codeAt_le_iff, h rest u, codeAt_empty]
    simp
  constructor
  · rintro hall code ⟨rest, rfl, hcode⟩
    exact (hrest rest).mp (fun other hother => hall other ⟨rest, rfl, hother⟩) code hcode
  · rintro hall code ⟨rest, rfl, hcode⟩
    exact (hrest rest).mpr (fun other hother => hall other ⟨rest, rfl, hother⟩) code hcode

/-- What gains findings is the report that they are recorded in. -/
theorem Gains.eq_record {found : List Finding}
    (h : Gains (fun name code => (name, code) ∈ found) r r') : r' = r.record found :=
  ext_codeAt fun name => eq_of_forall_ge_iff fun u => by rw [h name u, codeAt_record_le_iff]

/-- A step that is made for each element gains what is given for any of them. -/
theorem gains_foldl {α : Type} {step : Report → α → Report} {given : α → String → Code → Prop}
    {xs : List α} (hstep : ∀ x ∈ xs, ∀ r, Gains (given x) r (step r x)) : ∀ r,
      Gains (fun name code => ∃ x ∈ xs, given x name code) r (xs.foldl step r) := by
  induction xs with
  | nil => exact fun r => (Gains.refl r).congr (by simp)
  | cons x xs ih =>
    intro r
    have hfirst := hstep x List.mem_cons_self r
    have hrest := ih (fun y hy => hstep y (List.mem_cons_of_mem _ hy)) (step r x)
    refine (hfirst.trans hrest).congr fun name u => ?_
    simp only [List.mem_cons, exists_eq_or_imp]

end Report

/-! ## What the pass gains -/

theorem Schema.findingsBelow_none (name : String) (ts : List Tree) :
    findingsBelow none name ts = [] := by
  induction ts with
  | nil => rfl
  | cons t ts ih => exact ih

namespace Definition

open Report (Gains gains_add gains_foldl only_le_iff)

variable {d : Definition} {name : String} {r : Report}

theorem checkCount_eq (d : Definition) (name : String) (count : Nat) (r : Report) :
    d.checkCount name count r = (r.add name (d.shortage count)).add name (d.excess count) := by
  unfold checkCount shortage excess
  split <;> split <;> simp only [Report.add_none]
  all_goals split <;> try split
  all_goals simp only [Report.add_none]

theorem gains_checkCount (d : Definition) (name : String) (count : Nat) (r : Report) :
    Gains (fun other code => other = name ∧ code = d.judgeCount count) r
      (d.checkCount name count r) := by
  rw [checkCount_eq]
  refine ((gains_add r name _).trans (gains_add _ name _)).congr fun other u => ?_
  simp only [or_imp, forall_and, only_le_iff, judgeCount, ← Code.sup_eq_union, sup_le_iff]

/-- What the values of an array give, each by itself, and the policies among them. -/
def GivesEach (d : Definition) (name : String) (values : Values Tree) (other : String)
    (code : Code) : Prop :=
  (∃ v ∈ values.toList, other = name ∧ (code = d.allowed.judge v ∨ code = d.judgeLoaded v)) ∨
    (other, code) ∈ Schema.findingsBelow d.below? name values.children

variable {values : Values Tree}

theorem gains_checkValues (hkind : values.kind ≠ .policy) (r : Report) :
    Gains (d.GivesEach name values) r (d.checkValues name values.toList r) := by
  refine (gains_foldl (fun v _ r => gains_add r name (d.allowed.judge v)) r).congr fun other u => ?_
  have hnone : values.children = [] := by
    cases values <;> first | rfl | exact (hkind rfl).elim
  have hloaded (v : Value Tree) (hv : v ∈ values.toList) : d.judgeLoaded v = .none := by
    unfold judgeLoaded
    split
    · cases values <;> simp [Values.toList] at hv
      exact (hkind rfl).elim
    · rfl
  have hbot : Code.none ≤ u := bot_le
  simp only [GivesEach, hnone, Schema.findingsBelow, List.not_mem_nil, or_false]
  constructor
  · rintro h code ⟨v, hv, rfl, rfl | rfl⟩
    · exact h _ ⟨v, hv, rfl, rfl⟩
    · rw [hloaded v hv]
      exact hbot
  · rintro h code ⟨v, hv, rfl, rfl⟩
    exact h _ ⟨v, hv, rfl, Or.inl rfl⟩

theorem judgeArray_le_iff_of_kind (hkind : d.kindFault? values.kind = none) {u : Code} :
    d.judgeArray values ≤ u ↔ d.judgeCount values.length ≤ u ∧
      ∀ v ∈ values.toList, d.allowed.judge v ≤ u ∧ d.judgeLoaded v ≤ u := by
  have hbot : Code.none ≤ u := bot_le
  rw [judgeArray, hkind, ← Code.sup_eq_union, sup_le_iff, Code.foldl_union_le_iff]
  simp only [← Code.sup_eq_union, sup_le_iff, hbot, true_and]

/-- Of an array of the wrong kind nothing is found but this and what is wrong with its length. -/
theorem findings_of_kindFault? {code : Code} (hkind : d.kindFault? values.kind = some code) :
    d.findings name values = [(name, (d.judgeCount values.length).union code)] := by
  have hbelow : Schema.findingsBelow d.below? name values.children = [] := by
    cases values with
    | policies ts =>
      rw [Values.kind] at hkind
      rw [below?, hkind]
      exact Schema.findingsBelow_none name _
    | _ => rfl
  rw [findings, hbelow, judgeArray, hkind]

theorem gains_checkArray {each : Report → Report}
    (heach : d.kindFault? values.kind = none → ∀ r, Gains (d.GivesEach name values) r (each r))
    (r : Report) :
    Gains (fun other code => (other, code) ∈ d.findings name values) r
      (d.checkArray name values each r) := by
  have hcount := gains_checkCount d name values.length r
  unfold checkArray
  split
  · rename_i fault hfault
    refine (hcount.trans (gains_add _ name fault)).congr fun other u => ?_
    simp only [or_imp, forall_and, only_le_iff, findings_of_kindFault? hfault, List.mem_singleton,
      Prod.mk.injEq, ← Code.sup_eq_union, sup_le_iff]
  · rename_i hfault
    refine (hcount.trans (heach hfault _)).congr fun other u => ?_
    simp only [GivesEach, findings, List.mem_cons, Prod.mk.injEq, or_imp, forall_and, only_le_iff]
    rw [judgeArray_le_iff_of_kind hfault, imp_and, and_assoc]
    refine and_congr_right fun _ => and_congr_left fun _ => ⟨fun h heq v hv => ?_, ?_⟩
    · exact ⟨h _ ⟨v, hv, heq, Or.inl rfl⟩, h _ ⟨v, hv, heq, Or.inr rfl⟩⟩
    · rintro h code ⟨v, hv, heq, rfl | rfl⟩
      · exact (h heq v hv).1
      · exact (h heq v hv).2

end Definition

namespace Schema

open Report (Gains gains_add gains_absorb gains_foldl only_le_iff)

variable {s : Schema} {d : Definition} {name : String} {values : Values Tree} {r : Report}

/-- What a policy gives under a name, judged by itself and by the schema for it. -/
def GivesChild (d : Definition) (name : String) (t : Tree) (other : String) (code : Code) : Prop :=
  (other = name ∧ (code = d.allowed.judge (.policy t) ∨ code = d.judgeLoaded (.policy t))) ∨
    ∃ schema rest, d.sub = .inline schema ∧ other = name ++ "." ++ rest ∧
      (rest, code) ∈ schema.findings t

/-- What is said of one policy under a name. -/
def checkChild (d : Definition) (name : String) (r : Report) (t : Tree) : Report :=
  let r := r.add name (d.allowed.judge (.policy t))
  match d.sub with
  | .inline schema => r.absorb (name ++ ".") (validateInto schema t .empty)
  | .unloaded _ => r.add name .notLoaded
  | .none => r

theorem checkChildren_eq_foldl {ts : List Tree} : ∀ r : Report,
    checkChildren d name ts r = ts.foldl (checkChild d name) r := by
  induction ts with
  | nil => exact fun r => rfl
  | cons t ts ih => exact fun r => ih _

theorem gains_checkChild {t : Tree}
    (ht : ∀ schema : Schema, Gains (fun name code => (name, code) ∈ schema.findings t) .empty
      (schema.validateInto t .empty)) (r : Report) :
    Gains (GivesChild d name t) r (checkChild d name r t) := by
  have hself := gains_add r name (d.allowed.judge (.policy t))
  have hbot (u : Code) : Code.none ≤ u := bot_le
  unfold checkChild
  cases hsub : d.sub with
  | none =>
    refine hself.congr fun other u => ?_
    simp [GivesChild, and_or_left, or_imp, forall_and, Definition.judgeLoaded, hsub, hbot]
  | unloaded path =>
    refine (hself.trans (gains_add _ name _)).congr fun other u => ?_
    simp [GivesChild, and_or_left, or_imp, forall_and, Definition.judgeLoaded, hsub]
  | «inline» schema =>
    refine (hself.trans ((ht schema).absorb _ _)).congr fun other u => ?_
    simp [GivesChild, and_or_left, or_imp, forall_and, Definition.judgeLoaded, hsub, hbot]

/-- All policies under a name, where policies are accepted. -/
theorem gains_checkChildren (hkind : d.kindFault? .policy = none) {ts : List Tree}
    (hts : ∀ t ∈ ts, ∀ schema : Schema,
      Gains (fun name code => (name, code) ∈ schema.findings t) .empty
        (schema.validateInto t .empty)) (r : Report) :
    Gains (d.GivesEach name (.policies ts)) r (checkChildren d name ts r) := by
  have haccept := Definition.kindFault?_eq_none_iff.mp hkind
  rw [checkChildren_eq_foldl]
  refine (gains_foldl (fun t ht r => gains_checkChild (hts t ht) r) r).congr fun other u => ?_
  refine forall_congr' fun code => imp_congr_left ⟨?_, ?_⟩
  · rintro ⟨t, ht, ⟨heq, hcode⟩ | ⟨schema, rest, hsub, heq, hcode⟩⟩
    · exact Or.inl ⟨.policy t, List.mem_map_of_mem ht, heq, hcode⟩
    · exact Or.inr (mem_findingsBelow_iff.mpr
        ⟨schema, t, rest, Definition.below?_eq_some_iff.mpr ⟨haccept, hsub⟩, ht, hcode, heq⟩)
  · rintro (⟨v, hv, heq, hcode⟩ | hbelow)
    · obtain ⟨t, ht, rfl⟩ := List.mem_map.mp hv
      exact ⟨t, ht, Or.inl ⟨heq, hcode⟩⟩
    · obtain ⟨schema, t, rest, hschema, ht, hcode, heq⟩ := mem_findingsBelow_iff.mp hbelow
      have hsub := (Definition.below?_eq_some_iff.mp hschema).2
      exact ⟨t, ht, Or.inr ⟨schema, rest, hsub, heq, hcode⟩⟩

theorem gains_checkRow {each : Definition → Report → Report}
    (heach : ∀ d, d.kindFault? values.kind = none → ∀ r,
      Gains (d.GivesEach name values) r (each d r)) (r : Report) :
    Gains (fun other code => (other, code) ∈
        (name, s.judgeRow name values) :: findingsBelow (s.below? name) name values.children) r
      (s.checkRow name values each r) := by
  unfold checkRow judgeRow below?
  cases s.definition? name with
  | none => simpa [findingsBelow_none] using gains_add r name _
  | some found =>
    cases found with
    | error fault => simpa [findingsBelow_none] using gains_add r name _
    | ok d => exact Definition.gains_checkArray (heach d) r

theorem gains_checkAbsences (s : Schema) (rows : Entries Tree) (r : Report) :
    Gains (fun other code => (other, code) ∈ s.absences rows) r (s.checkAbsences rows r) := by
  have hstep (name : String) (r : Report) :
      Gains (fun other code => Table.get? name rows = none ∧ other = name ∧
          code = s.judgeAbsent name) r
        (if (Table.get? name rows).isSome then r else s.checkAbsent name r) := by
    cases hget : Table.get? name rows with
    | some held => exact (Gains.refl r).congr (by simp)
    | none =>
      unfold checkAbsent judgeAbsent
      cases s.definition? name with
      | none => simpa using gains_add r name _
      | some found =>
        cases found with
        | error fault => simpa using gains_add r name _
        | ok d => simpa using d.gains_checkCount name 0 r
  refine (gains_foldl (fun name _ r => hstep name r) r).congr fun other u => ?_
  simp only [mem_absences_iff]
  refine forall_congr' fun code => imp_congr_left ⟨?_, ?_⟩
  · rintro ⟨name, hname, hget, rfl, rfl⟩
    exact ⟨hname, hget, rfl⟩
  · rintro ⟨hname, hget, rfl⟩
    exact ⟨other, hname, hget, rfl, rfl⟩

variable (s) in
theorem gains_checkRows (rows : Entries Tree)
    (hrows : ∀ key children, (key, .policies children) ∈ rows → ∀ t ∈ children, ∀ schema : Schema,
      Gains (fun name code => (name, code) ∈ schema.findings t) .empty
        (schema.validateInto t .empty)) : ∀ r,
      Gains (fun other code => (other, code) ∈ s.findingsOfRows rows) r (s.checkRows rows r) := by
  induction rows with
  | nil => exact fun r => (Gains.refl r).congr (by simp [findingsOfRows])
  | cons row rows ih =>
    intro r
    obtain ⟨key, values⟩ := row
    have hrest := ih fun key children hrow => hrows key children (List.mem_cons_of_mem _ hrow)
    have hrow (each : Definition → Report → Report)
        (heach : ∀ d, d.kindFault? values.kind = none → ∀ r,
          Gains (d.GivesEach key values) r (each d r)) :
        Gains (fun other code => (other, code) ∈ s.findingsOfRows ((key, values) :: rows)) r
          (s.checkRows rows (s.checkRow key values each r)) := by
      refine ((gains_checkRow heach r).trans (hrest _)).congr fun other u => ?_
      simp only [findingsOfRows_cons, List.mem_append]
    cases values with
    | policies children =>
      refine hrow _ fun d hkind r => ?_
      exact gains_checkChildren hkind (hrows key children List.mem_cons_self) r
    | _ => exact hrow _ fun d _ r => d.gains_checkValues (by simp [Values.kind]) r

/-- A validation adds its findings to the report that it is handed. -/
theorem gains_validateInto {t : Tree} : ∀ (s : Schema) (r : Report),
    Gains (fun name code => (name, code) ∈ s.findings t) r (s.validateInto t r) := by
  induction hsize : sizeOf t using Nat.strongRecOn generalizing t with
  | ind size ih =>
    intro s r
    obtain ⟨handle, dictionary, rows⟩ := t
    have hrows := s.gains_checkRows rows (fun key children hrow t ht schema => by
      have h1 := sizeOf_lt_of_mem_children hrow ht
      simp only [Tree.node.sizeOf_spec] at hsize
      exact ih _ (by omega) rfl schema .empty) r
    refine (hrows.trans (s.gains_checkAbsences rows _)).congr fun name u => ?_
    simp only [findings, List.mem_append]

theorem validateInto_eq (s : Schema) (t : Tree) (r : Report) :
    s.validateInto t r = r.record (s.findings t) :=
  (gains_validateInto s r).eq_record

end Schema

/-! ## Both forms of a validation -/

namespace Report

theorem mem_names_iff {r : Report} {name : String} : name ∈ r.names ↔ r.codeAt name ≠ .none := by
  rw [names, codeAt]
  cases hget : Table.get? name r.rows with
  | none => simpa using Table.get?_eq_none_iff.mp hget
  | some code =>
    have hmem : name ∈ Table.keys r.rows := List.mem_map_of_mem (Table.mem_of_get? hget)
    have hcode := isNone_of_get? hget
    refine iff_of_true hmem fun hnone => ?_
    rw [Option.getD_some] at hnone
    rw [hnone] at hcode
    cases hcode

theorem isEmpty_iff {r : Report} : r.isEmpty = true ↔ r = empty := by
  refine ⟨fun h => ?_, fun h => by rw [h]; rfl⟩
  obtain ⟨rows, sorted, faulty⟩ := r
  obtain rfl := List.isEmpty_iff.mp h
  rfl

/-- Findings that were recorded elsewhere are absorbed as if they were recorded here. -/
theorem absorb_record (r : Report) (found : List Finding) :
    r.absorb "" (empty.record found) = r.record found := by
  have hrecord : Gains (fun name code => (name, code) ∈ found) empty (empty.record found) :=
    fun name u => codeAt_record_le_iff
  refine ((hrecord.absorb r "").congr fun name u => ?_).eq_record
  simp

end Report

namespace Store

/-- A validation as the pass makes it: into the report that is handed in, or into a fresh one that
is a failure unless it stays empty. -/
def validateInto (s : Store) (d : Dictionary) (p : Policy) :
    Option Report → Except PolicyError (Option Report)
  | some r => .ok (some ((s.schema d).validateInto (s.tree p) r))
  | none =>
    let fresh := (s.schema d).validateInto (s.tree p) .empty
    if fresh.isEmpty then .ok none else .error (.validation fresh)

theorem validateBy_eq_validateInto (s : Store) (d : Dictionary) (p : Policy)
    (acc : Option Report) : s.validateBy d p acc = s.validateInto d p acc := by
  cases acc with
  | none => simp only [validateBy, settle, validateInto, Schema.validateInto_eq]
  | some r => simp only [validateBy, settle, validateInto, Schema.validateInto_eq,
      Report.absorb_record]

end Store

/-! ## Contributions to one report -/

/-- What may be done to a report that is passed around. -/
inductive Contribution where
  | add (name : String) (code : Code)
  | absorb (lead : String) (other : Report)
  | validate (s : Store) (d : Dictionary) (p : Policy)

namespace Contribution

open Report (Gains)

def run : Contribution → Report → Report
  | add name code, r => r.add name code
  | absorb lead other, r => r.absorb lead other
  | validate s d p, r => (s.schema d).validateInto (s.tree p) r

def runAll (calls : List Contribution) (r : Report) : Report :=
  calls.foldl (fun r call => call.run r) r

/-- The codes that a contribution has for a name; a validation has the faults of the policy. -/
inductive Gives : Contribution → String → Code → Prop
  | add (name : String) (code : Code) : Gives (.add name code) name code
  | absorb {other : Report} {rest : String} {code : Code} (lead : String) :
      (rest, code) ∈ other.rows → Gives (.absorb lead other) (lead ++ rest) code
  | validate {s : Store} {d : Dictionary} {p : Policy} {name : String} {code : Code} :
      (s.schema d).Blames (s.tree p) name code → Gives (.validate s d p) name code

theorem gains_run (call : Contribution) (r : Report) : Gains call.Gives r (call.run r) := by
  cases call with
  | add name code =>
    refine (Report.gains_add r name code).congr fun other u => ?_
    refine forall_congr' fun given => imp_congr_left ⟨?_, fun h => by cases h; exact ⟨rfl, rfl⟩⟩
    rintro ⟨rfl, rfl⟩
    exact .add _ _
  | absorb lead other =>
    refine (Report.gains_absorb r lead other).congr fun name u => ?_
    refine forall_congr' fun given => imp_congr_left ⟨?_, fun h => by cases h; exact ⟨_, rfl, ‹_›⟩⟩
    rintro ⟨rest, rfl, hrow⟩
    exact .absorb lead hrow
  | validate s d p =>
    refine (Schema.gains_validateInto (s.schema d) r).congr fun name u => ⟨fun h code hgives => ?_,
      fun h => Schema.findings_le_of_blames_le fun code hblames => h code (.validate hblames)⟩
    cases hgives with
    | validate hblames => exact Schema.blames_le_of_findings_le hblames h

theorem gains_runAll (calls : List Contribution) (r : Report) :
    Gains (fun name code => ∃ call ∈ calls, call.Gives name code) r (runAll calls r) :=
  Report.gains_foldl (fun call _ r => call.gains_run r) r

variable {calls calls' : List Contribution} {r : Report}

theorem isLUB_runAll (calls : List Contribution) (r : Report) (name : String) :
    IsLUB {code | code = r.codeAt name ∨ ∃ call ∈ calls, call.Gives name code}
      ((runAll calls r).codeAt name) := by
  refine isLUB_iff_le_iff.mpr fun u => ?_
  rw [gains_runAll calls r name u]
  simp only [mem_upperBounds, Set.mem_ofPred_eq, or_imp, forall_and, forall_eq]

/-- Neither the order nor the number of contributions matters. -/
theorem runAll_eq_of_mem_iff (h : ∀ call, call ∈ calls ↔ call ∈ calls') :
    runAll calls r = runAll calls' r := by
  refine Report.ext_codeAt fun name => eq_of_forall_ge_iff fun u => ?_
  rw [gains_runAll calls r name u, gains_runAll calls' r name u]
  simp only [h]

theorem mem_names_runAll_iff {name : String} : name ∈ (runAll calls r).names ↔
    ∃ code, (code = r.codeAt name ∨ ∃ call ∈ calls, call.Gives name code) ∧ code ≠ .none := by
  have hbound := isLUB_runAll calls r name
  rw [Report.mem_names_iff]
  constructor
  · intro hne
    by_contra hall
    refine hne (le_bot_iff.mp (hbound.2 fun code hcode => ?_))
    exact le_of_eq (not_not.mp fun hcode' => hall ⟨code, hcode, hcode'⟩)
  · rintro ⟨code, hcode, hne⟩ hnone
    have hle := hbound.1 hcode
    rw [hnone] at hle
    exact hne (le_bot_iff.mp hle)

end Contribution

/-- A validation into a report is the union of the report with a fresh validation, and without a
report it fails with exactly what the fresh one records. A report that errors are added to, that
absorbs others and that is validated into has of each name the union of all that was given for it,
whatever the order of these contributions and however often each is made. -/
theorem Report.accumulates :
    (∀ (s : Store) (d : Dictionary) (p : Policy),
      (∀ acc, s.validateBy d p acc = s.validateInto d p acc) ∧
      ∃ found, s.validateInto d p (some .empty) = .ok (some found) ∧
        (∀ r, s.validateInto d p (some r) = .ok (some (r.absorb "" found))) ∧
        s.validateInto d p none =
          if found = .empty then .ok none else .error (.validation found)) ∧
    ∀ (calls : List Contribution) (r : Report),
      (∀ name, IsLUB {code | code = r.codeAt name ∨ ∃ call ∈ calls, call.Gives name code}
        ((Contribution.runAll calls r).codeAt name)) ∧
      (∀ name, name ∈ (Contribution.runAll calls r).names ↔
        ∃ code, (code = r.codeAt name ∨ ∃ call ∈ calls, call.Gives name code) ∧ code ≠ .none) ∧
      ∀ calls', (∀ call, call ∈ calls ↔ call ∈ calls') →
        Contribution.runAll calls' r = Contribution.runAll calls r := by
  refine ⟨fun s d p => ⟨s.validateBy_eq_validateInto d p, _, rfl, fun r => ?_, ?_⟩,
    fun calls r => ⟨Contribution.isLUB_runAll calls r, fun _ => Contribution.mem_names_runAll_iff,
      fun calls' h => (Contribution.runAll_eq_of_mem_iff h).symm⟩⟩
  · rw [Store.validateInto, Schema.validateInto_eq, Schema.validateInto_eq, Report.absorb_record]
  · exact if_congr Report.isEmpty_iff rfl rfl

theorem Report.accumulates_again :
    let calls := [Contribution.add "a" .wrongType, .absorb "a." (Report.empty.add "b" .unknownName),
      .add "a" .tooManyValues]
    (∀ call, call ∈ calls ↔ call ∈ calls.reverse ++ calls) ∧
      Contribution.runAll (calls.reverse ++ calls) .empty = Contribution.runAll calls .empty ∧
      (Contribution.runAll calls .empty).rows = [("a", ⟨17⟩), ("a.b", .unknownName)] := by
  intro calls
  have hmem (call : Contribution) : call ∈ calls ↔ call ∈ calls.reverse ++ calls := by simp
  exact ⟨hmem, (Report.accumulates.2 calls .empty).2.2 _ hmem, by decide⟩

end PolicyStore
