import Mathlib
import PolicyStore.Proofs.Schema.Blame
import PolicyStore.Proofs.Schema.Included
import PolicyStore.Proofs.Text.Ordering

set_option autoImplicit false

namespace PolicyStore

/-!
# Bounds on values

The bounds of a definition are the last ones that its blocks of constraints give. A single integer
or text is out of range exactly when it is below the least value or above the greatest, as numbers
or as bytes. A bound of a kind that is not ordered with the values is not refused, and bounds
nothing.
-/

/-! ## The order of values -/

theorem Text.lt_iff_bytes_lt {text other : String} : text < other ↔ bytes text < bytes other := by
  refine ⟨bytes_lt_of_lt, fun h => ?_⟩
  rcases lt_trichotomy text other with hlt | rfl | hgt
  · exact hlt
  · exact (List.lt_irrefl _ h).elim
  · exact (List.lt_asymm h (bytes_lt_of_lt hgt)).elim

namespace Value

/-- One value is below another: numbers by what they amount to, texts by their bytes. All other
pairs of values are not ordered. -/
inductive Below : Value Tree → Value Tree → Prop
  | ints {i j : Int32} : i.toInt < j.toInt → Below (.int i) (.int j)
  | intDouble {i : Int32} {x : Float} : Float.ofInt i.toInt < x → Below (.int i) (.double x)
  | doubleInt {x : Float} {i : Int32} : x < Float.ofInt i.toInt → Below (.double x) (.int i)
  | doubles {x y : Float} : x < y → Below (.double x) (.double y)
  | strings {text other : String} : Text.bytes text < Text.bytes other →
      Below (.string text) (.string other)

variable {v w : Value Tree}

theorem less_iff_below : v.less w = true ↔ v.Below w := by
  constructor
  · intro h
    cases v <;> cases w <;> simp only [less, number?] at h <;> try cases h
    all_goals simp only [decide_eq_true_eq] at h
    · exact .ints (Int32.lt_iff_toInt_lt.mp h)
    · exact .intDouble h
    · exact .doubleInt h
    · exact .doubles h
    · exact .strings (Text.bytes_lt_of_lt h)
  · intro h
    cases h with
    | ints h => exact decide_eq_true (Int32.lt_iff_toInt_lt.mpr h)
    | strings h => exact decide_eq_true (Text.lt_iff_bytes_lt.mpr h)
    | intDouble h | doubleInt h | doubles h => exact decide_eq_true h

theorem isNaN_of_lt {x y : Float} (h : x < y) : x.isNaN = false ∧ y.isNaN = false := by
  have hlt : x.toModel.unpack.lt y.toModel.unpack = true := of_decide_eq_true h
  simp only [Float.isNaN, Float.Model.isNaN]
  revert hlt
  generalize x.toModel.unpack = a, y.toModel.unpack = b
  intro hlt
  cases a <;> cases b <;> first | exact ⟨rfl, rfl⟩ | cases hlt

theorem promote_of_ne {declared : Option Kind} (hne : declared ≠ some .double) :
    v.promote declared = v := by
  cases v <;> simp [promote, hne]

end Value

theorem Code.contains_of_le {a b : Code} (h : b ≤ a) : a.contains b = true := by
  have hbits : a.bits ||| b.bits = a.bits := congrArg Code.bits h
  have hand : a.bits &&& b.bits = b.bits := by
    rw [← hbits]
    apply UInt32.eq_of_toBitVec_eq
    simp only [UInt32.toBitVec_and, UInt32.toBitVec_or]
    ext i hi
    simp only [BitVec.getElem_and, BitVec.getElem_or]
    cases a.bits.toBitVec[i] <;> cases b.bits.toBitVec[i] <;> rfl
  exact decide_eq_true hand

/-! ## The bounds in effect -/

namespace Definition

variable {key name : String} {rows : Entries Tree} {declared : Option Kind} {d : Definition}
  {v b : Value Tree}

/-- The values that the blocks of constraints give under a key, one for each block that gives
any. -/
def given (rows : Entries Tree) (key : String) : List (Value Tree) :=
  match Table.get? allowedKey rows with
  | some (.policies blocks) =>
    blocks.filterMap fun block => (Table.get? key block.entries).bind Values.last?
  | _ => []

theorem foldl_bound_eq (blocks : List Tree) : ∀ earlier : Option (Value Tree),
    blocks.foldl (fun earlier block => bound declared block.entries key earlier) earlier =
      ((blocks.filterMap fun block => (Table.get? key block.entries).bind Values.last?).getLast?.map
        (Value.promote declared)).or earlier := by
  induction blocks with
  | nil => exact fun earlier => rfl
  | cons block blocks ih =>
    intro earlier
    rw [List.foldl_cons, ih, List.filterMap_cons, bound]
    cases (Table.get? key block.entries).bind Values.last? with
    | none => rfl
    | some w =>
      rw [List.getLast?_cons]
      generalize List.getLast? _ = last
      cases last <;> rfl

theorem min_foldl_readAllowed (blocks : List Tree) : ∀ a : Allowed,
    (blocks.foldl (readAllowed declared) a).min =
      blocks.foldl (fun earlier block => bound declared block.entries minKey earlier) a.min := by
  induction blocks with
  | nil => exact fun a => rfl
  | cons block blocks ih => exact fun a => ih _

theorem max_foldl_readAllowed (blocks : List Tree) : ∀ a : Allowed,
    (blocks.foldl (readAllowed declared) a).max =
      blocks.foldl (fun earlier block => bound declared block.entries maxKey earlier) a.max := by
  induction blocks with
  | nil => exact fun a => rfl
  | cons block blocks ih => exact fun a => ih _

/-- A definition has the last bounds that are given, with integers as doubles where it declares
doubles. -/
theorem bounds_of_ofBlock? (h : ofBlock? name rows = .ok d) :
    d.allowed.min = (given rows minKey).getLast?.map (Value.promote d.kind) ∧
      d.allowed.max = (given rows maxKey).getLast?.map (Value.promote d.kind) := by
  obtain ⟨-, -, -, -, hallowed, -, -⟩ := fields_of_ofBlock? h
  unfold allowed? at hallowed
  unfold given
  split at hallowed
  · rename_i hget
    rw [← Except.ok.inj hallowed, hget]
    exact ⟨rfl, rfl⟩
  · rename_i blocks hget
    rw [← Except.ok.inj hallowed, hget, min_foldl_readAllowed, max_foldl_readAllowed,
      foldl_bound_eq, foldl_bound_eq]
    exact ⟨Option.or_none, Option.or_none⟩
  · cases hallowed

/-! ## Enforcement -/

/-- The range is the only thing that a value may be out of. -/
theorem contains_valueOutOfRange_iff (hkind : d.kind = some v.kind) :
    (d.judgeArray (.singleton v)).contains .valueOutOfRange = true ↔
      (∃ bound, d.allowed.min = some bound ∧ v.Below bound) ∨
        ∃ bound, d.allowed.max = some bound ∧ bound.Below v := by
  have haccept : d.Accepts (Values.singleton v).kind := by
    rw [Values.kind_singleton]
    exact Or.inr hkind
  have hmem : v ∈ (Values.singleton v).toList := by simp
  constructor
  · intro h
    by_contra hnone
    rw [not_or, not_exists, not_exists] at hnone
    have hle : d.judgeArray (.singleton v) ≤ .allBut .valueOutOfRange := by
      refine judgeArray_le_iff.mpr fun code hblame => ?_
      cases hblame with
      | belowMin _ hv hmin hless =>
        rw [Values.toList_singleton, List.mem_singleton] at hv
        subst hv
        exact (hnone.1 _ ⟨hmin, Value.less_iff_below.mp hless⟩).elim
      | aboveMax _ hv hmax hless =>
        rw [Values.toList_singleton, List.mem_singleton] at hv
        subst hv
        exact (hnone.2 _ ⟨hmax, Value.less_iff_below.mp hless⟩).elim
      | _ => decide
    rw [Code.contains_eq_false_of_le_allBut (by decide) hle] at h
    cases h
  · intro h
    have hle : Code.valueOutOfRange ≤ d.judgeArray (.singleton v) := by
      rcases h with ⟨bound, hmin, hbelow⟩ | ⟨bound, hmax, hbelow⟩
      · exact judgeArray_le_iff.mp le_rfl _
          (.belowMin haccept hmem hmin (Value.less_iff_below.mpr hbelow))
      · exact judgeArray_le_iff.mp le_rfl _
          (.aboveMax haccept hmem hmax (Value.less_iff_below.mpr hbelow))
    exact Code.contains_of_le hle

/-- The bounds that are ordered with the values of a kind: integers and doubles with integers, texts
with texts. A double that is not a number is ordered with nothing. -/
inductive Orders : Kind → Value Tree → Prop
  | int (i : Int32) : Orders .int (.int i)
  | double {x : Float} : x.isNaN = false → Orders .int (.double x)
  | string (text : String) : Orders .string (.string text)

theorem orders_of_below (hv : v.kind = .int ∨ v.kind = .string) (h : v.Below b ∨ b.Below v) :
    Orders v.kind b := by
  rcases h with h | h
  · cases h with
    | ints h => exact .int _
    | intDouble h => exact .double (Value.isNaN_of_lt h).2
    | strings h => exact .string _
    | doubleInt h | doubles h => rcases hv with hv | hv <;> cases hv
  · cases h with
    | ints h => exact .int _
    | doubleInt h => exact .double (Value.isNaN_of_lt h).1
    | strings h => exact .string _
    | intDouble h | doubles h => rcases hv with hv | hv <;> cases hv

/-- What the validation of an array with one value that is no policy records under its name. -/
theorem codeAt_record_findings (hv : v.kind = .int ∨ v.kind = .string) (name : String) :
    (Report.empty.record (d.findings name (.singleton v))).codeAt name =
      d.judgeArray (.singleton v) := by
  have hchildren : (Values.singleton v).children = [] := by
    cases v <;> first | rfl | (rcases hv with hv | hv <;> cases hv)
  rw [findings, hchildren]
  exact (Report.codeAt_add_self _ _ _).trans (Code.none_union _)

/-- Bounds that are ordered with the values are enforced: the array of a single value of the
declared kind is out of range if and only if the value is below the least one or above the greatest
one in effect. No other bound has an effect. -/
theorem ofBlock?_enforces_bounds (h : ofBlock? name rows = .ok d) (hkind : d.kind = some v.kind)
    (hv : v.kind = .int ∨ v.kind = .string) (other : String) :
    ((Report.empty.record (d.findings other (.singleton v))).codeAt other).contains
        .valueOutOfRange = true ↔
      (∃ bound, (given rows minKey).getLast? = some bound ∧ Orders v.kind bound ∧
        v.Below bound) ∨
      ∃ bound, (given rows maxKey).getLast? = some bound ∧ Orders v.kind bound ∧
        bound.Below v := by
  have hne : d.kind ≠ some .double := by
    rw [hkind]
    rcases hv with hv | hv <;> rw [hv] <;> decide
  have hsame (found : Option (Value Tree)) : found.map (Value.promote d.kind) = found := by
    cases found with
    | none => rfl
    | some bound => exact congrArg some (Value.promote_of_ne hne)
  obtain ⟨hmin, hmax⟩ := bounds_of_ofBlock? h
  rw [codeAt_record_findings hv, contains_valueOutOfRange_iff hkind, hmin, hmax, hsame, hsame]
  refine or_congr (exists_congr fun bound => and_congr_right fun _ => ?_)
    (exists_congr fun bound => and_congr_right fun _ => ?_)
  · exact (and_iff_right_of_imp fun hbelow => orders_of_below hv (Or.inl hbelow)).symm
  · exact (and_iff_right_of_imp fun hbelow => orders_of_below hv (Or.inr hbelow)).symm

theorem ofBlock?_enforces_later_minimum :
    let rows : Entries Tree := [("allowed", .policies [.node ⟨0⟩ none [("min", .ints [1])],
      .node ⟨1⟩ none [("max", .ints [9]), ("min", .ints [3])]]), ("type", .strings ["int"])]
    ∃ d, ofBlock? "a" rows = .ok d ∧ d.kind = some .int ∧
      ((Report.empty.record (d.findings "a" (.ints [2]))).codeAt "a").contains
        .valueOutOfRange = true ∧
      ((Report.empty.record (d.findings "a" (.ints [3]))).codeAt "a").contains
        .valueOutOfRange = false := by
  intro rows
  have hread : ofBlock? "a" rows = .ok
      { name := "a", kind := some .int, allowed := ⟨[], some (.int 3), some (.int 9)⟩ } := by
    cbv
  refine ⟨_, hread, rfl, ?_, ?_⟩
  · refine (ofBlock?_enforces_bounds (v := .int 2) hread rfl (Or.inl rfl) "a").mpr ?_
    exact Or.inl ⟨.int 3, rfl, .int 3, .ints (by decide)⟩
  · decide

/-- A text as the least value of integers is accepted, and then no integer is out of range. -/
theorem ofBlock?_accepts_text_as_minimum :
    let rows : Entries Tree := [("allowed", .policies [.node ⟨0⟩ none [("min", .strings ["abc"])]]),
      ("type", .strings ["int"])]
    ∃ d, ofBlock? "a" rows = .ok d ∧ d.kind = some .int ∧
      (given rows minKey).getLast? = some (.string "abc") ∧ ¬Orders .int (.string "abc") ∧
      ∀ i, (d.judgeArray (.ints [i])).contains .valueOutOfRange = false := by
  intro rows
  have hread : ofBlock? "a" rows = .ok
      { name := "a", kind := some .int, allowed := ⟨[], some (.string "abc"), none⟩ } := by
    cbv
  refine ⟨_, hread, rfl, rfl, fun horders => ?_, fun i => Bool.eq_false_iff.mpr fun hrange => ?_⟩
  · cases horders
  · rcases (contains_valueOutOfRange_iff (v := .int i) rfl).mp hrange with
      ⟨bound, hmin, hbelow⟩ | ⟨bound, hmax, -⟩
    · cases hmin
      cases hbelow
    · cases hmax

end Definition

end PolicyStore
