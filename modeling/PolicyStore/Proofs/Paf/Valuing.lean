import PolicyStore.Paf.Literal
import PolicyStore.Proofs.Text.Numerals

set_option autoImplicit false

namespace PolicyStore.Paf

/-!
# The values of tokens

A token of the form of a number has a value only where it is written in ASCII. An integer in digits
of another script is refused as one that is too large, however small it is.
-/

open Text Text.Numeral

variable {token : List Char} {n : Numeral} {z : Int}

/-! ## Forms -/

theorem ofToken?_of_written (h : Written token n) :
    ScalarKind.ofToken? token = some (if n.isInteger then .int else .double) := by
  have hread := read?_of_written h
  have hword : ¬(token = "true".toList ∨ token = "false".toList) := by
    rintro (rfl | rfl) <;> cases hread
  rw [ScalarKind.ofToken?, if_neg hword, hread]
  rfl

theorem exists_written_of_ofToken? {kind : ScalarKind} (h : ScalarKind.ofToken? token = some kind)
    (hkind : kind ≠ .bool) :
    ∃ n, Written token n ∧ kind = if n.isInteger then .int else .double := by
  unfold ScalarKind.ofToken? at h
  split at h
  · cases h
    exact (hkind rfl).elim
  · obtain ⟨n, hread, rfl⟩ := Option.map_eq_some_iff.mp h
    exact ⟨n, written_of_read? hread, rfl⟩

theorem ofToken?_eq_int_iff : ScalarKind.ofToken? token = some .int ↔ ∃ z, Denotes token z := by
  constructor
  · intro h
    obtain ⟨n, hwritten, hkind⟩ := exists_written_of_ofToken? h (by decide)
    have hinteger : n.isInteger = true := by
      by_contra hno
      rw [if_neg hno] at hkind
      cases hkind
    exact ⟨_, denotes_iff.mpr ⟨n, hwritten, hinteger, rfl⟩⟩
  · rintro ⟨z, hz⟩
    obtain ⟨n, hwritten, hinteger, -⟩ := denotes_iff.mp hz
    rw [ofToken?_of_written hwritten, if_pos hinteger]

/-! ## Values -/

theorem int32?_eq_ite (z : Int) :
    int32? z = if -2 ^ 31 ≤ z ∧ z ≤ 2 ^ 31 - 1 then some (Int32.ofInt z) else none := by
  unfold int32?
  congr 1
  simp only [eq_iff_iff]
  omega

theorem scalar_int (h : Denotes token z) : scalar .int token =
    if token.all isAscii = true ∧ -2 ^ 31 ≤ z ∧ z ≤ 2 ^ 31 - 1 then
      .ok (.int (Int32.ofInt z))
    else .error ⟨.unsupported,
      "integer value " ++ String.ofList token ++ " does not fit in 32 bits"⟩ := by
  have hkind := ofToken?_eq_int_iff.mpr ⟨z, h⟩
  obtain ⟨n, hwritten, hinteger, rfl⟩ := denotes_iff.mp h
  have hvalue : ((read? token).bind toInt?).bind int32? =
      if token.all isAscii = true ∧ -2 ^ 31 ≤ signed n.negative (magnitude n.whole) ∧
          signed n.negative (magnitude n.whole) ≤ 2 ^ 31 - 1 then
        some (Int32.ofInt (signed n.negative (magnitude n.whole)))
      else none := by
    rw [read?_of_written hwritten, Option.bind_some, hwritten.toInt?_eq_ite hinteger, ite_and]
    split
    · exact int32?_eq_ite _
    · rfl
  simp only [scalar, if_neg (not_not.mpr hkind), hvalue]
  split <;> rename_i hsome <;> split at hsome <;> rename_i hfits
  · rw [if_pos hfits, Option.some.inj hsome]
  · cases hsome
  · cases hsome
  · rw [if_neg hfits]

theorem scalar_double (h : ScalarKind.ofToken? token = some .double) :
    (∃ d, (∀ c ∈ token, isAscii c = true) ∧ scalar .double token = .ok (.double d)) ∨
      ((∃ c ∈ token, isAscii c = false) ∧ scalar .double token = .error
        ⟨.formatSyntax, "malformed double value: " ++ String.ofList token⟩) := by
  obtain ⟨n, hwritten, -⟩ := exists_written_of_ofToken? h (by decide)
  simp only [scalar, if_neg (not_not.mpr h), read?_of_written hwritten, Option.bind_some]
  cases hvalue : n.toFloat? with
  | some d => exact .inl ⟨d, hwritten.toFloat?_isSome_iff.mp (by rw [hvalue]; rfl), rfl⟩
  | none =>
    have hascii := hwritten.toFloat?_isSome_iff.not.mp (by rw [hvalue]; exact Bool.false_ne_true)
    refine .inr ⟨?_, rfl⟩
    simpa only [not_forall, Bool.not_eq_true, exists_prop] using hascii

/-- The tokens of the form of an integer are those that denote one. What they denote is read if 32
bits hold it and the token is ASCII text, and is reported as too large otherwise. A token of the
form of a double is read as a double if it is ASCII text, and is malformed otherwise. -/
theorem scalar_reads_ascii (token : List Char) :
    (ScalarKind.ofToken? token = some .int ↔ ∃ z, Denotes token z) ∧
    (∀ z, Denotes token z →
      ((∃ i : Int32, i.toInt = z ∧ scalar .int token = .ok (.int i)) ↔
        (∀ c ∈ token, isAscii c = true) ∧ -2 ^ 31 ≤ z ∧ z ≤ 2 ^ 31 - 1) ∧
      (scalar .int token = .error ⟨.unsupported,
          "integer value " ++ String.ofList token ++ " does not fit in 32 bits"⟩ ↔
        ¬((∀ c ∈ token, isAscii c = true) ∧ -2 ^ 31 ≤ z ∧ z ≤ 2 ^ 31 - 1))) ∧
    (ScalarKind.ofToken? token = some .double →
      ((∃ d, scalar .double token = .ok (.double d)) ↔ ∀ c ∈ token, isAscii c = true) ∧
      (scalar .double token = .error
          ⟨.formatSyntax, "malformed double value: " ++ String.ofList token⟩ ↔
        ¬∀ c ∈ token, isAscii c = true)) := by
  refine ⟨ofToken?_eq_int_iff, fun z hz => ?_, fun h => ?_⟩
  · have hall : token.all isAscii = true ↔ ∀ c ∈ token, isAscii c = true := List.all_eq_true
    rw [← hall, scalar_int hz]
    split <;> rename_i hfits
    · have hvalue := Int32.toInt_ofInt_of_le hfits.2.1 (by omega)
      refine ⟨iff_of_true ⟨_, hvalue, rfl⟩ hfits, iff_of_false ?_ (not_not.mpr hfits)⟩
      simp only [reduceCtorEq, not_false_eq_true]
    · refine ⟨iff_of_false ?_ hfits, iff_of_true rfl hfits⟩
      rintro ⟨i, -, hi⟩
      cases hi
  · rcases scalar_double h with ⟨d, hascii, hvalue⟩ | ⟨hascii, hvalue⟩
    · rw [hvalue]
      refine ⟨iff_of_true ⟨d, rfl⟩ hascii, iff_of_false ?_ (not_not.mpr hascii)⟩
      simp only [reduceCtorEq, not_false_eq_true]
    · have hno : ¬∀ c ∈ token, isAscii c = true := by
        simpa only [not_forall, Bool.not_eq_true, exists_prop] using hascii
      rw [hvalue]
      refine ⟨iff_of_false ?_ hno, iff_of_true rfl hno⟩
      rintro ⟨d, hd⟩
      cases hd

theorem scalar_reads_leading_zeros :
    ∃ i : Int32, i.toInt = -7 ∧ scalar .int ['-', '0', '0', '7'] = .ok (.int i) := by
  have hz : Denotes ['-', '0', '0', '7'] (-7) :=
    .intro .minus (List.cons_ne_nil '0' ['0', '7']) (by decide)
  have hascii : ∀ c ∈ ['-', '0', '0', '7'], isAscii c = true := List.all_eq_true.mp rfl
  exact ((scalar_reads_ascii _).2.1 _ hz).1.mpr ⟨hascii, by decide, by decide⟩

/-- The digit three of the Arabic script denotes 3, and is refused as too large for 32 bits. -/
theorem scalar_refuses_arabic_digits :
    Denotes ['\u0663'] 3 ∧ ScalarKind.ofToken? ['\u0663'] = some .int ∧
      scalar .int ['\u0663'] =
        .error ⟨.unsupported, "integer value \u0663 does not fit in 32 bits"⟩ ∧
      ScalarKind.ofToken? ['\u0663', '.', '\u0665'] = some .double ∧
      scalar .double ['\u0663', '.', '\u0665'] =
        .error ⟨.formatSyntax, "malformed double value: \u0663.\u0665"⟩ := by
  refine ⟨.intro .absent (List.cons_ne_nil _ []) (by decide), by decide +kernel, ?_, ?_, ?_⟩
  · rfl
  · rfl
  · rfl

end PolicyStore.Paf
