import PolicyStore.Proofs.Report.Accumulating
import PolicyStore.Proofs.Schema.Admission

set_option autoImplicit false

namespace PolicyStore

/-!
# Values one by one

An array is checked as a whole, or value by value as its values are stored one after the other. Where
the kind is accepted, both find the same wrong with the values, and both find that there are too many
of them. Only the whole shows that there are too few, and only a full check asks for the dictionary
of the policies among them. Where the kind is not accepted, both say so.
-/

namespace Code

variable {a b u : Code}

/-- The faults of a code that are not among those of another. -/
def without (a b : Code) : Code := ⟨a.bits &&& ~~~b.bits⟩

theorem without_le_iff : a.without b ≤ u ↔ a ≤ b.union u := by
  have hbits : u.bits ||| (a.bits &&& ~~~b.bits) = u.bits ↔
      b.bits ||| u.bits ||| a.bits = b.bits ||| u.bits := by
    simp only [← UInt32.toBitVec_inj, UInt32.toBitVec_or, UInt32.toBitVec_and, UInt32.toBitVec_not,
      BitVec.eq_of_getLsbD_eq_iff, BitVec.getLsbD_or, BitVec.getLsbD_and, BitVec.getLsbD_not]
    refine forall₂_congr fun i hi => ?_
    cases a.bits.toBitVec.getLsbD i <;> cases b.bits.toBitVec.getLsbD i <;> simp [hi]
  obtain ⟨u⟩ := u
  simpa only [le_def, union, without, Code.mk.injEq] using hbits

/-- For a code that has nothing in common with another, the other adds nothing to a bound. -/
theorem le_union_iff (h : a.without b = a) : a ≤ b.union u ↔ a ≤ u := by
  rw [← without_le_iff, h]

end Code

namespace Definition

variable {d : Definition} {name : String} {values : Values Tree} {v : Value Tree} {u : Code}

/-- Everything that is wrong with a value under a name, and with its being one more than a given
number. -/
def valueFindings (d : Definition) (name : String) (v : Value Tree) (count : Option Nat) :
    List Finding :=
  [(name, d.judgeValue v count)]

/-- What is wrong with the values of an array, each as one more than those before it. -/
def runningFindings (d : Definition) (name : String) (values : Values Tree) : List Finding :=
  values.toList.zipIdx.flatMap fun entry => d.valueFindings name entry.1 (some entry.2)

/-- What no value shows by itself: that there are too few of them, and that the dictionary of the
policies has not been loaded. -/
def wholeFaults (d : Definition) (values : Values Tree) : Code :=
  Code.tooFewValues.union <|
    match values.kind, d.sub with
    | .policy, .unloaded _ => .notLoaded
    | _, _ => .none

/-! ## What is recorded -/

/-- Findings about the policies under a name are told under longer names. -/
theorem codeAt_record_findings_self (d : Definition) (name : String) (values : Values Tree) :
    (Report.empty.record (d.findings name values)).codeAt name = d.judgeArray values := by
  refine eq_of_forall_ge_iff fun u => ?_
  rw [Report.codeAt_record_le_iff, Report.codeAt_empty]
  refine ⟨fun h => h.2 _ List.mem_cons_self, fun h => ⟨bot_le, fun code hcode => ?_⟩⟩
  rcases List.mem_cons.mp hcode with heq | hbelow
  · cases heq
    exact h
  · obtain ⟨_, _, rest, -, -, -, hname⟩ := Schema.mem_findingsBelow_iff.mp hbelow
    have hlength : name.length = (name ++ "." ++ rest).length := congrArg String.length hname
    have hdot : ".".length = 1 := rfl
    rw [String.length_append, String.length_append, hdot] at hlength
    omega

theorem codeAt_record_running_le_iff :
    (Report.empty.record (d.runningFindings name values)).codeAt name ≤ u ↔
      ∀ i v, values.toList[i]? = some v → d.judgeValue v (some i) ≤ u := by
  rw [Report.codeAt_record_le_iff, Report.codeAt_empty, and_iff_right bot_le]
  simp only [runningFindings, valueFindings, List.mem_flatMap, List.mem_singleton, Prod.exists,
    List.mem_zipIdx_iff_getElem?, Prod.mk.injEq, true_and]
  constructor
  · exact fun h i v hv => h _ ⟨v, i, hv, rfl⟩
  · rintro h code ⟨v, i, hv, rfl⟩
    exact h i v hv

/-! ## Values of an accepted kind -/

theorem tooFewValues_le_wholeFaults (d : Definition) (values : Values Tree) :
    Code.tooFewValues ≤ d.wholeFaults values :=
  le_sup_left

theorem notLoaded_le_wholeFaults {path : String} (hkind : values.kind = .policy)
    (hsub : d.sub = .unloaded path) : Code.notLoaded ≤ d.wholeFaults values := by
  rw [wholeFaults, hkind, hsub]
  exact le_sup_right

theorem without_wholeFaults {code : Code}
    (hcode : code = .tooManyValues ∨ code = .valueOutOfRange ∨ code = .valueDisallowed) :
    code.without (d.wholeFaults values) = code := by
  unfold wholeFaults
  rcases hcode with rfl | rfl | rfl <;> split <;> decide

/-- Beyond what only the whole shows, an array is judged by its length and value by value. -/
theorem judgeArray_without_le_iff (hkind : d.Accepts values.kind) :
    (d.judgeArray values).without (d.wholeFaults values) ≤ u ↔
      d.excess values.length ≤ u ∧ ∀ v ∈ values.toList, d.allowed.judge v ≤ u := by
  have hwhole : d.wholeFaults values ≤ (d.wholeFaults values).union u := le_sup_left
  have hfew := (d.tooFewValues_le_wholeFaults values).trans hwhole
  have hshortage : d.shortage values.length ≤ (d.wholeFaults values).union u := by
    refine shortage_le_iff.mpr ⟨fun _ _ => ?_, fun _ _ => ?_, fun _ _ => ?_⟩
    · exact le_trans (by decide) hfew
    · exact le_trans (by decide) hfew
    · exact le_trans (by decide) hfew
  have hloaded : ∀ v ∈ values.toList, d.judgeLoaded v ≤ (d.wholeFaults values).union u := by
    intro v hv
    refine judgeLoaded_le_iff.mpr ?_
    rintro t path rfl hsub
    exact (notLoaded_le_wholeFaults (Values.kind_of_mem_toList hv).symm hsub).trans hwhole
  have hexcess : d.excess values.length ≤ (d.wholeFaults values).union u ↔
      d.excess values.length ≤ u := by
    rw [excess_le_iff, excess_le_iff, Code.le_union_iff (without_wholeFaults (Or.inl rfl))]
  have hallowed (v : Value Tree) : d.allowed.judge v ≤ (d.wholeFaults values).union u ↔
      d.allowed.judge v ≤ u := by
    rw [Allowed.judge_le_iff, Allowed.judge_le_iff,
      Code.le_union_iff (without_wholeFaults (Or.inr (Or.inl rfl))),
      Code.le_union_iff (without_wholeFaults (Or.inr (Or.inr rfl)))]
  rw [Code.without_le_iff, judgeArray_le_iff_of_kind (kindFault?_eq_none_iff.mpr hkind), judgeCount,
    ← Code.sup_eq_union (d.shortage _), sup_le_iff, and_iff_right hshortage, hexcess]
  refine and_congr_right fun _ => forall₂_congr fun v hv => ?_
  rw [and_iff_left (hloaded v hv), hallowed]

/-! ## Both checks -/

/-- The check of an array value by value and the check of the whole agree. If the kind is accepted,
the values one by one, each as one more than those before it, give together the code that the whole
gives, apart from the faults that only the whole shows. If it is not, each value has that fault alone,
and the whole has it too and besides only what is wrong with the number of values. -/
theorem record_running_agrees (d : Definition) (name : String) (values : Values Tree) :
    (d.Accepts values.kind → values.isEmpty = false →
      (Report.empty.record (d.runningFindings name values)).codeAt name =
        ((Report.empty.record (d.findings name values)).codeAt name).without
          (d.wholeFaults values)) ∧
    (¬d.Accepts values.kind → ∃ code,
      code = (if d.kind = some .policy ∧ values.kind = .file then .notLoaded else .wrongType) ∧
      (∀ v ∈ values.toList, ∀ count, Report.empty.record (d.valueFindings name v count) =
        Report.empty.add name code) ∧
      Report.empty.record (d.findings name values) =
        Report.empty.add name ((d.judgeCount values.length).union code)) := by
  refine ⟨fun hkind hne => eq_of_forall_ge_iff fun u => ?_, fun hkind => ?_⟩
  · rw [codeAt_record_running_le_iff, judgeValues_le_iff hkind hne, codeAt_record_findings_self,
      judgeArray_without_le_iff hkind]
  · obtain ⟨code, hfault⟩ : ∃ code, d.kindFault? values.kind = some code :=
      Option.ne_none_iff_exists'.mp fun hnone => hkind (kindFault?_eq_none_iff.mp hnone)
    refine ⟨code, ?_, fun v hv count => ?_, ?_⟩
    · rcases kindFault?_eq_some_iff.mp hfault with ⟨hpolicy, hfile, rfl⟩ | ⟨_, hd, -, hnot, rfl⟩
      · rw [if_pos ⟨hpolicy, hfile⟩]
      · rw [if_neg fun h => hnot ⟨Option.some.inj (hd.symm.trans h.1), h.2⟩]
    · have hjudge : d.judgeValue v count = code := by
        unfold judgeValue
        rw [Values.kind_of_mem_toList hv, hfault]
      rw [valueFindings, hjudge]
      rfl
    · rw [findings_of_kindFault? hfault]
      rfl

/-- Two policies where one is allowed and three are asked for, of a dictionary that has not been
loaded; and a file in the place of a policy. -/
theorem record_running_agrees_for_unloaded_policies :
    let d : Definition :=
      { name := "a", kind := some .policy, minOccurs := 3, maxOccurs := some 1,
        sub := .unloaded "b.paf" }
    let policies : Values Tree := .policies [.node ⟨0⟩ none [], .node ⟨1⟩ none []]
    let files : Values Tree := .files [⟨"c.paf", none⟩]
    (d.Accepts policies.kind ∧ policies.isEmpty = false ∧
      (Report.empty.record (d.findings "a" policies)).codeAt "a" =
        (Code.arrayTooShort.union .tooManyValues).union .notLoaded ∧
      (Report.empty.record (d.runningFindings "a" policies)).codeAt "a" = .tooManyValues) ∧
    ¬d.Accepts files.kind ∧
      Report.empty.record (d.valueFindings "a" (.file ⟨"c.paf", none⟩) (some 0)) =
        Report.empty.add "a" .notLoaded ∧
      Report.empty.record (d.findings "a" files) =
        Report.empty.add "a" (Code.notAnArray.union .notLoaded) := by
  intro d policies files
  have haccept : d.Accepts policies.kind := Or.inr rfl
  have hreject : ¬d.Accepts files.kind := by
    simp [Accepts, d, files, Values.kind]
  have hwhole : (Report.empty.record (d.findings "a" policies)).codeAt "a" =
      (Code.arrayTooShort.union .tooManyValues).union .notLoaded := by
    rw [codeAt_record_findings_self]
    decide
  have hrunning := (record_running_agrees d "a" policies).1 haccept rfl
  rw [hwhole] at hrunning
  obtain ⟨code, hcode, heach, hall⟩ := (record_running_agrees d "a" files).2 hreject
  rw [if_pos ⟨rfl, rfl⟩] at hcode
  subst hcode
  have hcount : d.judgeCount files.length = .notAnArray := by
    decide
  rw [hcount] at hall
  refine ⟨⟨haccept, rfl, hwhole, hrunning.trans (by decide)⟩, hreject, ?_, hall⟩
  exact heach _ List.mem_cons_self _

end Definition

end PolicyStore
