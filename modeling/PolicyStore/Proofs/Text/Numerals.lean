import PolicyStore.Proofs.Text.Decimal
import Mathlib.Data.Nat.Digits.Lemmas
import Mathlib.Tactic.Ring

set_option autoImplicit false

namespace PolicyStore.Text.Numeral

/-!
# The form and the value of numerals

The grammar of numerals, which is just what is read as one, and the number for which a row of digits
stands. The form allows digits of every script, and each has its value in its script; a value is
computed for ASCII digits only.
-/

/-! ## The grammar -/

inductive Sign : List Char → Bool → Prop
  | absent : Sign [] false
  | plus : Sign ['+'] false
  | minus : Sign ['-'] true

def Digits (ds : List Char) : Prop := ∀ c ∈ ds, isDecimalDigit c = true

instance (ds : List Char) : Decidable (Digits ds) :=
  decidable_of_iff (ds.all isDecimalDigit = true) List.all_eq_true

inductive Exponent : List Char → Option (Bool × List Char) → Prop
  | absent : Exponent [] none
  | present {c : Char} {sign ds : List Char} {negative : Bool} :
      c = 'e' ∨ c = 'E' → Sign sign negative → ds ≠ [] → Digits ds →
      Exponent (c :: (sign ++ ds)) (some (negative, ds))

/-- A text has the form of a numeral. -/
inductive Written : List Char → Numeral → Prop
  | plain {sign whole tail : List Char} {negative : Bool} {exponent : Option (Bool × List Char)} :
      Sign sign negative → whole ≠ [] → Digits whole → Exponent tail exponent →
      Written (sign ++ (whole ++ tail)) ⟨negative, whole, false, [], exponent⟩
  | pointed {sign whole fraction tail : List Char} {negative : Bool}
      {exponent : Option (Bool × List Char)} :
      Sign sign negative → ¬(whole = [] ∧ fraction = []) → Digits whole → Digits fraction →
      Exponent tail exponent → Written (sign ++ (whole ++ '.' :: (fraction ++ tail)))
        ⟨negative, whole, true, fraction, exponent⟩

variable {c : Char} {cs ds sign tail token : List Char} {negative : Bool} {n : Numeral}
  {exponent : Option (Bool × List Char)}

/-! ## Signs and rows of digits -/

theorem exists_sign (cs : List Char) : ∃ sign, Sign sign (takeSign cs).1 ∧
    cs = sign ++ (takeSign cs).2 := by
  unfold takeSign
  split
  · exact ⟨_, .minus, rfl⟩
  · exact ⟨_, .plus, rfl⟩
  · exact ⟨_, .absent, rfl⟩

/-- What follows a sign and begins with neither sign is left. -/
theorem Sign.takeSign_append (h : Sign sign negative)
    (hhead : ∀ c ∈ cs.head?, c ≠ '-' ∧ c ≠ '+') : takeSign (sign ++ cs) = (negative, cs) := by
  cases h with
  | absent =>
    cases cs with
    | nil => rfl
    | cons c cs =>
      obtain ⟨hminus, hplus⟩ := hhead c rfl
      simp only [List.nil_append, takeSign]
      split
      · rename_i heq
        exact (hminus (List.cons.inj heq).1).elim
      · rename_i heq
        exact (hplus (List.cons.inj heq).1).elim
      · rfl
  | plus => rfl
  | minus => rfl

theorem Sign.isAscii (h : Sign sign negative) : ∀ c ∈ sign, isAscii c = true := by
  cases h with
  | absent => exact List.forall_mem_nil _
  | plus => exact List.forall_mem_singleton.mpr rfl
  | minus => exact List.forall_mem_singleton.mpr rfl

theorem ne_sign_of_isDecimalDigit (h : isDecimalDigit c = true) : c ≠ '-' ∧ c ≠ '+' := by
  constructor <;> (rintro rfl; cases h)

theorem Digits.head (h : Digits ds) : ∀ c ∈ ds.head?, isDecimalDigit c = true :=
  fun c hc => h c (List.mem_of_mem_head? hc)

theorem digits_takeWhile (cs : List Char) : Digits (cs.takeWhile isDecimalDigit) :=
  List.all_eq_true.mp List.all_takeWhile

theorem Digits.takeWhile_append (h : Digits ds) (htail : ∀ c ∈ tail.head?, isDecimalDigit c = false) :
    (ds ++ tail).takeWhile isDecimalDigit = ds := by
  rw [List.takeWhile_append_of_pos h]
  cases tail with
  | nil => exact List.append_nil ds
  | cons c tail => rw [List.takeWhile_cons_of_neg (by simp [htail c rfl]), List.append_nil]

theorem Digits.dropWhile_append (h : Digits ds) (htail : ∀ c ∈ tail.head?, isDecimalDigit c = false) :
    (ds ++ tail).dropWhile isDecimalDigit = tail := by
  rw [List.dropWhile_append_of_pos h]
  cases tail with
  | nil => rfl
  | cons c tail => exact List.dropWhile_cons_of_neg (by simp [htail c rfl])

theorem onlyDigits?_eq_some_iff : onlyDigits? cs = some ds ↔ ds = cs ∧ ds ≠ [] ∧ Digits ds := by
  unfold onlyDigits? Digits
  split <;> rename_i h
  · rw [List.all_eq_true] at h
    simp only [Option.some.injEq]
    exact ⟨fun heq => heq ▸ ⟨rfl, h⟩, fun heq => heq.1.symm⟩
  · rw [List.all_eq_true] at h
    simp only [reduceCtorEq, false_iff]
    rintro ⟨rfl, hds⟩
    exact h hds

/-! ## The grammar is what is read -/

theorem readExponent?_eq_some_iff : readExponent? cs = some exponent ↔ Exponent cs exponent := by
  constructor
  · intro h
    cases cs with
    | nil =>
      cases h
      exact .absent
    | cons c cs =>
      simp only [readExponent?] at h
      split at h <;> rename_i hletter
      · obtain ⟨ds, hds, rfl⟩ := Option.map_eq_some_iff.mp h
        obtain ⟨rfl, hne, hdigits⟩ := onlyDigits?_eq_some_iff.mp hds
        obtain ⟨sign, hsign, hcs⟩ := exists_sign cs
        have hpresent := Exponent.present hletter hsign hne hdigits
        rwa [← hcs] at hpresent
      · cases h
  · rintro (_ | ⟨hletter, hsign, hne, hdigits⟩)
    · rfl
    · rw [readExponent?, if_pos hletter,
        hsign.takeSign_append fun c hc => ne_sign_of_isDecimalDigit (hdigits.head c hc)]
      simp only [onlyDigits?_eq_some_iff.mpr ⟨rfl, hne, hdigits⟩, Option.map_some]

/-- An exponent goes on neither with a digit nor with a point. -/
theorem Exponent.head (h : Exponent tail exponent) :
    ∀ c ∈ tail.head?, isDecimalDigit c = false ∧ c ≠ '.' := by
  cases h with
  | absent => exact fun c hc => by cases hc
  | present hletter =>
    intro c hc
    cases hc
    rcases hletter with rfl | rfl <;> decide

/-- What follows the digits of a numeral ends the row. -/
theorem Exponent.stops (h : Exponent tail exponent) :
    ∀ c ∈ tail.head?, isDecimalDigit c = false :=
  fun c hc => (h.head c hc).1

theorem written_of_read? (h : read? token = some n) : Written token n := by
  obtain ⟨sign, hsign, htoken⟩ := exists_sign token
  have hwhole := List.takeWhile_append_dropWhile (p := isDecimalDigit) (l := (takeSign token).2)
  simp only [read?] at h
  split at h
  · rename_i rest hrest
    split at h
    · cases h
    · rename_i hne
      obtain ⟨exponent, hexponent, rfl⟩ := Option.map_eq_some_iff.mp h
      have hfraction := List.takeWhile_append_dropWhile (p := isDecimalDigit) (l := rest)
      have hwritten := Written.pointed hsign hne (digits_takeWhile _) (digits_takeWhile rest)
        (readExponent?_eq_some_iff.mp hexponent)
      rwa [hfraction, ← hrest, hwhole, ← htoken] at hwritten
  · split at h
    · cases h
    · rename_i hne
      obtain ⟨exponent, hexponent, rfl⟩ := Option.map_eq_some_iff.mp h
      have hwritten := Written.plain hsign hne (digits_takeWhile _)
        (readExponent?_eq_some_iff.mp hexponent)
      rwa [hwhole, ← htoken] at hwritten

theorem read?_of_written (h : Written token n) : read? token = some n := by
  cases h with
  | @plain sign whole tail negative exponent hsign hne hwhole hexponent =>
    have hhead : ∀ c ∈ (whole ++ tail).head?, c ≠ '-' ∧ c ≠ '+' := by
      cases whole with
      | nil => exact (hne rfl).elim
      | cons d whole => exact fun c hc => ne_sign_of_isDecimalDigit (hwhole.head c hc)
    have hpoint : ∀ rest, tail ≠ '.' :: rest := by
      rintro rest rfl
      exact (hexponent.head '.' rfl).2 rfl
    simp only [read?, hsign.takeSign_append hhead, hwhole.takeWhile_append hexponent.stops,
      hwhole.dropWhile_append hexponent.stops, readExponent?_eq_some_iff.mpr hexponent, if_neg hne,
      Option.map_some]
  | @pointed sign whole fraction tail negative exponent hsign hne hwhole hfraction hexponent =>
    have hstop : ∀ c ∈ ('.' :: (fraction ++ tail)).head?, isDecimalDigit c = false := by
      intro c hc
      cases hc
      rfl
    have hhead : ∀ c ∈ (whole ++ '.' :: (fraction ++ tail)).head?, c ≠ '-' ∧ c ≠ '+' := by
      cases whole with
      | nil =>
        intro c hc
        cases hc
        decide
      | cons d whole => exact fun c hc => ne_sign_of_isDecimalDigit (hwhole.head c hc)
    simp only [read?, hsign.takeSign_append hhead, hwhole.takeWhile_append hstop,
      hwhole.dropWhile_append hstop, hfraction.takeWhile_append hexponent.stops,
      hfraction.dropWhile_append hexponent.stops, readExponent?_eq_some_iff.mpr hexponent,
      if_neg hne, Option.map_some]

/-- Just the texts of the form are read, each as what it is written for. -/
theorem read?_eq_some_iff : read? token = some n ↔ Written token n :=
  ⟨written_of_read?, read?_of_written⟩

/-! ## Values of digits -/

/-- The value of a decimal digit in its script: digits come in runs from zero to nine. -/
def digitValue (c : Char) : Nat :=
  if isAscii c then c.toNat - 0x30
  else
    match decimalDigitRanges.find? fun range => range.1 ≤ c.toNat && c.toNat ≤ range.2 with
    | some range => (c.toNat - range.1) % 10
    | none => 0

/-- The number for which a row of digits stands. -/
def magnitude (ds : List Char) : Nat := Nat.ofDigits 10 (ds.map digitValue).reverse

theorem magnitude_cons (c : Char) (cs : List Char) :
    magnitude (c :: cs) = digitValue c * 10 ^ cs.length + magnitude cs := by
  rw [magnitude, List.map_cons, List.reverse_cons, Nat.ofDigits_append, Nat.ofDigits_singleton,
    List.length_reverse, List.length_map, magnitude]
  ring

theorem ofDigitChars_eq (hascii : ∀ c ∈ ds, isAscii c = true) (n : Nat) :
    Nat.ofDigitChars 10 ds n = n * 10 ^ ds.length + magnitude ds := by
  induction ds generalizing n with
  | nil => simp [magnitude]
  | cons c ds ih =>
    have hc : digitValue c = c.toNat - '0'.toNat := if_pos (hascii c List.mem_cons_self)
    rw [Nat.ofDigitChars_cons, ih fun d hd => hascii d (List.mem_cons_of_mem _ hd), ← hc,
      magnitude_cons, List.length_cons]
    ring

theorem isDigit_of_isAscii (h : isDecimalDigit c = true) (hascii : isAscii c = true) :
    c.isDigit = true := by
  simpa only [isDecimalDigit, hascii, if_true] using h

theorem digitsValue?_of_ascii (hds : Digits ds) (hascii : ∀ c ∈ ds, isAscii c = true) :
    digitsValue? ds = some (magnitude ds) := by
  rw [digitsValue?_eq fun c hc => isDigit_of_isAscii (hds c hc) (hascii c hc),
    ofDigitChars_eq hascii, Nat.zero_mul, Nat.zero_add]

/-- A single digit of another script leaves the row without a value. -/
theorem digitsValue?_of_not_ascii (h : ∃ c ∈ ds, isAscii c = false) : digitsValue? ds = none := by
  obtain ⟨c, hc, hascii⟩ := h
  obtain ⟨before, after, rfl⟩ := List.append_of_mem hc
  have hdigit : c.isDigit = false := by
    rw [Bool.eq_false_iff]
    intro hdigit
    rw [isAscii_of_isDigit hdigit] at hascii
    cases hascii
  have hnone : ∀ cs : List Char, cs.foldl (fun acc c => do
      let n ← acc
      if c.isDigit then some (10 * n + (c.toNat - 0x30)) else none) none = (none : Option Nat) := by
    intro cs
    induction cs with
    | nil => rfl
    | cons c cs ih => exact ih
  rw [digitsValue?, List.foldl_append, List.foldl_cons]
  generalize List.foldl _ (some 0) before = acc
  cases acc with
  | none => exact hnone after
  | some n =>
    simp only [hdigit]
    exact hnone after

theorem digitsValue?_eq_ite (hds : Digits ds) : digitsValue? ds =
    if ds.all isAscii = true then some (magnitude ds) else none := by
  split <;> rename_i hascii <;> rw [List.all_eq_true] at hascii
  · exact digitsValue?_of_ascii hds hascii
  · refine digitsValue?_of_not_ascii ?_
    simpa only [not_forall, Bool.not_eq_true, exists_prop] using hascii

/-! ## Values of numerals -/

/-- A text is an integer in decimal: an optional sign, and digits that stand for its amount. -/
inductive Denotes : List Char → Int → Prop
  | intro {sign ds : List Char} {negative : Bool} : Sign sign negative → ds ≠ [] → Digits ds →
      Denotes (sign ++ ds) (signed negative (magnitude ds))

theorem denotes_iff {z : Int} : Denotes token z ↔ ∃ n : Numeral, Written token n ∧
    n.isInteger = true ∧ signed n.negative (magnitude n.whole) = z := by
  constructor
  · rintro ⟨hsign, hne, hds⟩
    have hwritten := Written.plain hsign hne hds .absent
    rw [List.append_nil] at hwritten
    exact ⟨_, hwritten, rfl, rfl⟩
  · rintro ⟨n, hwritten, hinteger, rfl⟩
    cases hwritten with
    | plain hsign hne hwhole hexponent =>
      cases hexponent with
      | absent =>
        rw [List.append_nil]
        exact .intro hsign hne hwhole
      | present => cases hinteger
    | pointed => cases hinteger

theorem Exponent.ascii_iff (h : Exponent tail exponent) : (∀ c ∈ tail, isAscii c = true) ↔
    ∀ part ∈ exponent, ∀ c ∈ part.2, isAscii c = true := by
  cases h with
  | absent => simp
  | @present letter sign ds negative hletter hsign =>
    have hascii : isAscii letter = true := by rcases hletter with rfl | rfl <;> rfl
    simp only [List.forall_mem_cons, List.forall_mem_append, hascii, true_and,
      Option.mem_def, Option.some.injEq, forall_eq']
    exact and_iff_right hsign.isAscii

/-- A numeral is ASCII text just if its digits are. -/
theorem Written.ascii_iff (h : Written token n) : (∀ c ∈ token, isAscii c = true) ↔
    (∀ c ∈ n.whole ++ n.fraction, isAscii c = true) ∧
      ∀ part ∈ n.exponent, ∀ c ∈ part.2, isAscii c = true := by
  cases h with
  | plain hsign _ _ htail =>
    simp only [List.forall_mem_append, htail.ascii_iff, List.append_nil]
    exact and_iff_right hsign.isAscii
  | pointed hsign _ _ _ htail =>
    have hpoint : isAscii '.' = true := rfl
    simp only [List.forall_mem_append, List.forall_mem_cons, htail.ascii_iff, hpoint, true_and,
      and_assoc]
    exact and_iff_right hsign.isAscii

theorem Exponent.digits (h : Exponent tail exponent) : ∀ part ∈ exponent, Digits part.2 := by
  cases h with
  | absent => exact fun part hpart => by cases hpart
  | present _ _ _ hds =>
    intro part hpart
    cases hpart
    exact hds

theorem Written.digits (h : Written token n) :
    Digits (n.whole ++ n.fraction) ∧ ∀ part ∈ n.exponent, Digits part.2 := by
  cases h with
  | plain _ _ hwhole htail => exact ⟨by rwa [List.append_nil], htail.digits⟩
  | pointed _ _ hwhole hfraction htail =>
    exact ⟨List.forall_mem_append.mpr ⟨hwhole, hfraction⟩, htail.digits⟩

/-- An integer is read off ASCII text only. -/
theorem Written.toInt?_eq_ite (h : Written token n) (hinteger : n.isInteger = true) : n.toInt? =
    if token.all isAscii = true then some (signed n.negative (magnitude n.whole)) else none := by
  cases h with
  | pointed => cases hinteger
  | plain hsign hne hwhole htail =>
    cases htail with
    | present => cases hinteger
    | absent =>
      simp only [toInt?, digitsValue?_eq_ite hwhole, List.append_nil, List.all_append,
        List.all_eq_true.mpr hsign.isAscii, Bool.true_and]
      split <;> rfl

/-- A double is read off ASCII text only. -/
theorem Written.toFloat?_isSome_iff (h : Written token n) :
    n.toFloat?.isSome = true ↔ ∀ c ∈ token, isAscii c = true := by
  obtain ⟨hdigits, hexponent⟩ := h.digits
  rw [h.ascii_iff, toFloat?, digitsValue?_eq_ite hdigits]
  split <;> rename_i hascii <;> rw [List.all_eq_true] at hascii
  · rw [and_iff_right hascii]
    cases hpart : n.exponent with
    | none => exact iff_of_true rfl fun part h => by cases h
    | some part =>
      simp only [digitsValue?_eq_ite (hexponent part hpart), Option.mem_def, Option.some.injEq,
        forall_eq']
      split <;> rename_i hpart <;> rw [List.all_eq_true] at hpart
      · exact iff_of_true rfl hpart
      · exact iff_of_false Bool.false_ne_true hpart
  · exact iff_of_false Bool.false_ne_true fun h => hascii h.1

end PolicyStore.Text.Numeral
