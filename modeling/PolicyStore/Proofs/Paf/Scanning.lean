import PolicyStore.Proofs.Paf.Written
import PolicyStore.Proofs.Text.Cutting
import PolicyStore.Proofs.Text.Decimal

set_option autoImplicit false

namespace PolicyStore.Paf

/-!
# Reading a written line

Each line of a written document is read as one statement, or as none if it has no content. Whatever
stands at its end makes no difference.
-/

/-! ## Characters -/

theorem word_bounds {c : Char} (h : c.isAlphanum = true ∨ c = '_') :
    48 ≤ c.toNat ∧ c.toNat ≤ 122 ∧ (c.toNat ≤ 57 ∨ 65 ≤ c.toNat) ∧ c.toNat ≠ 92 ∧ c.toNat ≠ 96 := by
  rcases h with h | rfl
  · change (decide (65 ≤ c.val ∧ c.val ≤ 90) || (decide (97 ≤ c.val) && decide (c.val ≤ 122)) ||
      (decide (48 ≤ c.val) && decide (c.val ≤ 57))) = true at h
    simp only [Bool.or_eq_true, Bool.and_eq_true, decide_eq_true_eq, UInt32.le_iff_toNat_le] at h
    change (65 ≤ c.toNat ∧ c.toNat ≤ 90 ∨ 97 ≤ c.toNat ∧ c.toNat ≤ 122) ∨
      48 ≤ c.toNat ∧ c.toNat ≤ 57 at h
    omega
  · decide

/-- The code points of the characters with the property White_Space. -/
def blankCodes : List Nat :=
  [0x9, 0xA, 0xB, 0xC, 0xD, 0x20, 0x85, 0xA0, 0x1680, 0x2000, 0x2001, 0x2002, 0x2003, 0x2004, 0x2005,
    0x2006, 0x2007, 0x2008, 0x2009, 0x200A, 0x2028, 0x2029, 0x202F, 0x205F, 0x3000]

theorem toNat_mem_blankCodes {c : Char} (h : Text.isBlank c = true) : c.toNat ∈ blankCodes := by
  simp only [Text.isBlank, Bool.or_eq_true, Bool.and_eq_true, decide_eq_true_eq] at h
  simp only [blankCodes, List.mem_cons, List.not_mem_nil, or_false]
  omega

theorem not_blank_of_isWordChar {c : Char} (h : Text.isWordChar c = true) :
    Text.isBlank c = false := by
  have hcodes : ∀ n ∈ blankCodes, Text.isWordChar (Char.ofNat n) = false := by
    decide +kernel
  cases hblank : Text.isBlank c with
  | false => rfl
  | true =>
    have hword := hcodes c.toNat (toNat_mem_blankCodes hblank)
    rw [Char.ofNat_toNat, h] at hword
    cases hword

theorem isWordChar_of_word {c : Char} (h : c.isAlphanum = true ∨ c = '_') :
    Text.isWordChar c = true := by
  have hascii : Text.isAscii c = true := by
    have := word_bounds h
    simp only [Text.isAscii, decide_eq_true_eq]
    omega
  simpa [Text.isWordChar, hascii] using h

theorem blank_of_indent {cs : List Char} (h : IsIndent cs) : ∀ c ∈ cs, Text.isBlank c = true := by
  intro c hc
  rcases h c hc with rfl | rfl <;> rfl

/-! ## Names -/

/-- A name without dots as it may be written, in the characters of any script. -/
structure IsLabel (name : String) : Prop where
  nonempty : name.toList ≠ []
  word : ∀ c ∈ name.toList, Text.isWordChar c = true

namespace IsLabel

variable {name : String}

theorem ne_of_mem (h : IsLabel name) {c d : Char} (hc : c ∈ name.toList)
    (hd : Text.isWordChar d = false) : c ≠ d := by
  rintro rfl
  rw [h.word c hc] at hd
  cases hd

theorem splitOn_dot (h : IsLabel name) : Text.splitOn '.' name.toList = [name.toList] := by
  refine Text.splitOn_of_not_mem fun hmem => ?_
  exact h.ne_of_mem hmem (d := '.') (by decide) rfl

theorem isParameterName (h : IsLabel name) : isParameterName name.toList = true := by
  have hempty : name.toList.isEmpty = false := by
    simpa using h.nonempty
  simp [Paf.isParameterName, h.splitOn_dot, List.all_eq_true.mpr h.word, hempty]

end IsLabel

namespace IsName

variable {name : String}

theorem isLabel (h : IsName name) : IsLabel name :=
  ⟨h.nonempty, fun c hc => isWordChar_of_word (h.word c hc)⟩

theorem segments (h : IsName name) : Name.segments name = .ok [name] := by
  have hempty : name.toList.isEmpty = false := by
    simpa using h.nonempty
  have hchars : name.toList.all Text.isNameChar = true := by
    refine List.all_eq_true.mpr fun c hc => ?_
    have hword := isWordChar_of_word (h.word c hc)
    have hascii : Text.isAscii c = true := by
      have := word_bounds (h.word c hc)
      simp only [Text.isAscii, decide_eq_true_eq]
      omega
    simpa [Text.isNameChar, Text.isWordChar, hascii] using hword
  simp [Name.segments, Name.segments?, h.isLabel.splitOn_dot, Name.isSegment, hempty, hchars]

end IsName

theorem IsName.isParameterName {name : String} (h : IsName name) :
    isParameterName name.toList = true :=
  h.isLabel.isParameterName

theorem exists_of_isParameterName {name : List Char} (h : isParameterName name = true) :
    ∃ c word, name = c :: word ∧ Text.isWordChar c = true ∧
      ∀ d ∈ word, Text.isWordChar d = true ∨ d = '.' := by
  have hsegment (segment : List Char) (hmem : segment ∈ Text.splitOn '.' name) :
      segment ≠ [] ∧ ∀ d ∈ segment, Text.isWordChar d = true := by
    have hparts := List.all_eq_true.mp h segment hmem
    rw [Bool.and_eq_true] at hparts
    exact ⟨by simpa using hparts.1, List.all_eq_true.mp hparts.2⟩
  have hword (d : Char) (hd : d ∈ name) : Text.isWordChar d = true ∨ d = '.' := by
    rcases @Text.mem_splitWhere (· = '.') name d hd with hdot | ⟨segment, hmem, hd⟩
    · exact Or.inr (of_decide_eq_true hdot)
    · exact Or.inl ((hsegment segment hmem).2 d hd)
  cases name with
  | nil => exact ((hsegment [] (by decide)).1 rfl).elim
  | cons c word =>
    refine ⟨c, word, rfl, ?_, fun d hd => hword d (List.mem_cons_of_mem _ hd)⟩
    rcases hword c List.mem_cons_self with hc | rfl
    · exact hc
    · exact ((hsegment [] (by simp [Text.splitOn, Text.splitWhere])).1 rfl).elim

/-- Characters that the name before a colon may have. -/
structure IsWritten (name : List Char) : Prop where
  part : ∀ c ∈ name, isNamePart c = true
  nonempty : name ≠ []
  first : ∀ c ∈ name.head?, c ≠ '#' ∧ c ≠ '\x7d'

theorem IsWritten.oneLine {name : List Char} (h : IsWritten name) : '\n' ∉ name := fun hmem => by
  have hpart := h.part _ hmem
  revert hpart
  decide

theorem not_blank_of_isNamePart {c : Char} (h : isNamePart c = true) : Text.isBlank c = false := by
  rw [isNamePart, Bool.not_eq_true', Bool.or_eq_false_iff] at h
  exact h.1

theorem isWritten_of_isParameterName {name : List Char} (h : isParameterName name = true) :
    IsWritten name := by
  obtain ⟨c, word, rfl, hc, hword⟩ := exists_of_isParameterName h
  have hne {c d : Char} (hc : Text.isWordChar c = true) (hd : Text.isWordChar d = false) : c ≠ d := by
    rintro rfl
    rw [hc] at hd
    cases hd
  have hpart (c : Char) (hc : Text.isWordChar c = true) : isNamePart c = true := by
    have hcolon : c ≠ ':' := hne hc (by decide)
    simp [isNamePart, not_blank_of_isWordChar hc, hcolon]
  refine ⟨fun d hd => ?_, List.cons_ne_nil c word, fun d hd => ?_⟩
  · rcases List.mem_cons.mp hd with rfl | hd
    · exact hpart d hc
    · rcases hword d hd with hd | rfl
      · exact hpart d hd
      · decide
  · obtain rfl : c = d := Option.some.inj hd
    exact ⟨hne hc (by decide), hne hc (by decide)⟩

/-! ## Ends of lines -/

/-- Nothing is read from here to the end of the line. -/
def Quiet (cs : List Char) : Prop := Text.trimStart cs = [] ∨ ∃ rest, Text.trimStart cs = '#' :: rest

theorem scan_of_quiet {n : Nat} {cs : List Char} (h : Quiet cs) : scan n cs = ([], none) := by
  have hstep : step n cs = .finished := by
    rcases h with h | ⟨rest, h⟩ <;> simp [step, h]
  rw [scan]
  split
  · rfl
  · rename_i heq
    simp [hstep] at heq
  · rename_i heq
    simp [hstep] at heq

theorem scan_of_emit {n : Nat} {cs rest : List Char} {s : Statement}
    (hstep : step n cs = .emit s rest) (hrest : Quiet rest) : scan n cs = ([s], none) := by
  rw [scan]
  split
  · rename_i heq
    simp [hstep] at heq
  · rename_i heq
    simp [hstep] at heq
  · rename_i heq
    have heq := hstep.symm.trans heq
    cases heq
    rw [scan_of_quiet hrest]

theorem Tail.chomp {cs : List Char} (h : Tail cs) : Tail (chomp cs) := by
  cases h with
  | none => exact .none
  | @comment cs hline =>
    have hcut : Paf.chomp (' ' :: '#' :: cs) = ' ' :: '#' :: Paf.chomp cs :=
      chomp_append_cons (c := '#') (by decide) [' '] cs
    rw [hcut]
    exact .comment fun hmem => hline (mem_of_mem_chomp hmem)

theorem chomp_append_tail {cs tail : List Char} (hcs : chomp cs = cs) (h : Tail tail) :
    chomp (cs ++ tail) = cs ++ chomp tail := by
  cases h with
  | none => simpa [chomp] using hcs
  | @comment text _ =>
    have hsharp : isLineEnd '#' = false := by
      decide
    have hleft := chomp_append_cons hsharp (cs ++ [' ']) text
    have hright := chomp_append_cons hsharp [' '] text
    simp only [List.append_assoc, List.cons_append, List.nil_append] at hleft hright
    rw [hleft, hright]

theorem Filler.quiet_chomp {line : List Char} (h : Filler line) : Quiet (chomp line) := by
  cases h with
  | blank hindent =>
    have hkeep : chomp line = line := by
      refine chomp_of_not_end fun c hc => ?_
      rcases hindent c hc with rfl | rfl <;> decide
    apply Or.inl
    rw [hkeep]
    simpa [Text.trimStart] using
      Text.trimStart_append_of_blank (blank_of_indent hindent) []
  | @comment indent text hindent =>
    refine Or.inr ⟨chomp text, ?_⟩
    rw [chomp_append_cons (by decide), Text.trimStart_append_of_blank (blank_of_indent hindent)]
    exact Text.trimStart_cons_of_not_blank (by decide) _

/-! ## Lines of a name -/

/-- The text does not end with a line end, so that nothing is taken off it. -/
def Closed (cs : List Char) : Prop := ∃ before c, cs = before ++ [c] ∧ isLineEnd c = false

theorem Closed.append_left {cs : List Char} (h : Closed cs) (before : List Char) :
    Closed (before ++ cs) := by
  obtain ⟨start, c, rfl, hc⟩ := h
  exact ⟨before ++ start, c, by simp, hc⟩

theorem Closed.chomp {cs : List Char} (h : Closed cs) : chomp cs = cs := by
  obtain ⟨before, c, rfl, hc⟩ := h
  rw [chomp_append_cons hc]
  rfl

theorem chomp_named {indent body tail : List Char} {name : String} (hbody : Closed body)
    (htail : Tail tail) :
    chomp (named indent name body tail) = named indent name body (chomp tail) := by
  have hcut (rest : List Char) : named indent name body rest =
      indent ++ (name.toList ++ (':' :: ' ' :: body)) ++ rest := by
    simp [named]
  have hclosed : Closed (indent ++ (name.toList ++ (':' :: ' ' :: body))) :=
    ((hbody.append_left [':', ' ']).append_left name.toList).append_left indent
  rw [hcut, chomp_append_tail hclosed.chomp htail, ← hcut]

theorem splitParameter?_append {name : List Char} (h : IsWritten name) (rest : List Char) :
    splitParameter? (name ++ ':' :: rest) = some (name, rest) := by
  have hcolon : isNamePart ':' = false := by
    decide
  have htake : (name ++ ':' :: rest).takeWhile isNamePart = name := by
    rw [List.takeWhile_append_of_pos h.part, List.takeWhile_cons_of_neg (by simp [hcolon]),
      List.append_nil]
  have hdrop : (name ++ ':' :: rest).dropWhile isNamePart = ':' :: rest := by
    rw [List.dropWhile_append_of_pos h.part, List.dropWhile_cons_of_neg (by simp [hcolon])]
  have hblank : Text.isBlank ':' = false := by
    decide
  rw [splitParameter?, hdrop, Text.trimStart_cons_of_not_blank hblank, htake]
  simp [h.nonempty]

theorem trimStart_written {indent name : List Char} (hindent : IsIndent indent)
    (hname : IsWritten name) (rest : List Char) :
    Text.trimStart (indent ++ (name ++ ':' :: rest)) = name ++ ':' :: rest := by
  obtain ⟨c, cs, hcs⟩ := List.exists_cons_of_ne_nil hname.nonempty
  have hc : Text.isBlank c = false := not_blank_of_isNamePart (hname.part c (by simp [hcs]))
  rw [Text.trimStart_append_of_blank (blank_of_indent hindent), hcs]
  exact Text.trimStart_cons_of_not_blank hc _

/-- A line that begins with a name and a colon is a parameter, or a fault if the name is illegal. -/
theorem step_of_written {n : Nat} {indent name : List Char} (hindent : IsIndent indent)
    (hname : IsWritten name) (rest : List Char) :
    step n (indent ++ (name ++ ':' :: rest)) =
      if isParameterName name then stepValue n name (Text.trimStart rest)
      else .emit (.fault (syntaxFault n ("illegal parameter name: " ++ String.ofList name))) [] := by
  have hsplit := splitParameter?_append hname rest
  unfold step
  rw [trimStart_written hindent hname]
  obtain ⟨c, cs, hcs⟩ := List.exists_cons_of_ne_nil hname.nonempty
  obtain ⟨hsharp, hbrace⟩ := hname.first c (by simp [hcs])
  rw [hcs] at hsplit ⊢
  split
  · rename_i heq
    simp at heq
  · rename_i heq
    simp [hsharp] at heq
  · rename_i heq
    simp [hbrace] at heq
  · rw [hsplit]

theorem step_named {n : Nat} {indent body tail : List Char} {name : String} (hindent : IsIndent indent)
    (hname : isParameterName name.toList = true)
    (hbody : Text.trimStart (body ++ tail) = body ++ tail) :
    step n (named indent name body tail) = stepValue n name.toList (body ++ tail) := by
  have hspace : ∀ c ∈ [' '], Text.isBlank c = true := fun c hc => List.mem_singleton.mp hc ▸ rfl
  have hvalue : Text.trimStart (' ' :: (body ++ tail)) = body ++ tail :=
    (Text.trimStart_append_of_blank hspace _).trans hbody
  rw [named, step_of_written hindent (isWritten_of_isParameterName hname), if_pos hname, hvalue]

/-! ## Literals on the line of their name -/

structure IsToken (w : List Char) : Prop where
  nonempty : w ≠ []
  plain : ∀ c ∈ w, Text.isBlank c = false ∧ isStop c = false ∧ isQuote c = false ∧ c ≠ '\x7b'

/-- Tokens are read up to a comment or a closing brace. -/
theorem stepValue_of_scalars (n : Nat) (name : List Char) {t more rest : List Char}
    {kind : ScalarKind} (ht : IsToken t) (hkind : ScalarKind.ofToken? t = some kind)
    (hmore : ∀ c ∈ more, isStop c = false) (hblank : ∀ c ∈ more.head?, Text.isBlank c = true)
    (hrest : ∀ c ∈ rest.head?, isStop c = true) :
    stepValue n name (t ++ more ++ rest) =
      .emit (.values (String.ofList name) ((Text.words (t ++ more)).map (scalarItem n kind))) rest := by
  have hopen : ∀ c ∈ t ++ more, (!isStop c) = true := by
    intro c hc
    rcases List.mem_append.mp hc with hc | hc
    · simp [(ht.plain c hc).2.1]
    · simp [hmore c hc]
  have htake : (t ++ more ++ rest).takeWhile (!isStop ·) = t ++ more := by
    rw [List.takeWhile_append_of_pos hopen]
    cases rest with
    | nil => simp
    | cons c rest => simp [hrest c rfl]
  have hdrop : (t ++ more ++ rest).dropWhile (!isStop ·) = rest := by
    rw [List.dropWhile_append_of_pos hopen]
    cases rest with
    | nil => rfl
    | cons c rest => simp [hrest c rfl]
  have hfirst : (t ++ more ++ rest).takeWhile (fun d => !(Text.isBlank d || isStop d)) = t := by
    have hpass : ∀ c ∈ t, (!(Text.isBlank c || isStop c)) = true := fun c hc => by
      have := ht.plain c hc
      simp [this.1, this.2.1]
    rw [List.append_assoc, List.takeWhile_append_of_pos hpass]
    cases more with
    | cons c more => simp [hblank c rfl]
    | nil =>
      cases rest with
      | nil => simp
      | cons c rest => simp [hrest c rfl]
  obtain ⟨c, cs, rfl⟩ := List.exists_cons_of_ne_nil ht.nonempty
  obtain ⟨_, hstop, hquote, hbrace⟩ := ht.plain c List.mem_cons_self
  have hsharp : c ≠ '#' := by
    rintro rfl
    simp [isStop] at hstop
  have hclose : c ≠ '\x7d' := by
    rintro rfl
    simp [isStop] at hstop
  unfold stepValue
  split
  · rename_i heq
    simp at heq
  · rename_i heq
    simp [hsharp] at heq
  · rename_i heq
    simp [hclose] at heq
  · rename_i heq
    simp [hbrace] at heq
  · rename_i d ds _ _ _ heq
    obtain ⟨rfl, rfl⟩ := List.cons.inj heq
    rw [← heq, hquote, hfirst, hkind, htake, hdrop]
    rfl

theorem stepValue_of_tokens (n : Nat) (name : List Char) {t tail : List Char}
    {ts : List (List Char)} {kind : ScalarKind} (h : ∀ w ∈ t :: ts, IsToken w)
    (hkind : ScalarKind.ofToken? t = some kind) (htail : Tail tail) : ∃ rest, Quiet rest ∧
      stepValue n name ([' '].intercalate (t :: ts) ++ tail) =
        .emit (.values (String.ofList name) ((t :: ts).map (scalarItem n kind))) rest := by
  obtain ⟨trail, rest, rfl, htrail, hrest, hquiet⟩ : ∃ trail rest, tail = trail ++ rest ∧
      (trail = [] ∨ trail = [' ']) ∧ (∀ c ∈ rest.head?, isStop c = true) ∧ Quiet rest := by
    cases htail with
    | none => exact ⟨[], [], rfl, Or.inl rfl, by simp, Or.inl rfl⟩
    | @comment cs =>
      exact ⟨[' '], '#' :: cs, rfl, Or.inr rfl, by simp [isStop], Or.inr ⟨cs, rfl⟩⟩
  have hwords : Text.words ([' '].intercalate (t :: ts) ++ trail) = t :: ts :=
    Text.words_intercalate (fun w hw => (h w hw).nonempty)
      (fun w hw c hc => ((h w hw).plain c hc).1) htrail
  have hopen : ∀ c ∈ [' '].intercalate (t :: ts) ++ trail, isStop c = false := by
    intro c hc
    rcases List.mem_append.mp hc with hc | hc
    · rcases Text.mem_intercalate hc with rfl | ⟨w, hw, hcw⟩
      · decide
      · exact ((h w hw).plain c hcw).2.1
    · rcases htrail with rfl | rfl
      · cases hc
      · obtain rfl := List.mem_singleton.mp hc
        decide
  obtain ⟨after, hafter, hends⟩ := Text.intercalate_cons ' ' t ts
  rw [hafter] at hwords hopen ⊢
  rw [List.append_assoc] at hwords hopen
  have hblank : ∀ c ∈ (after ++ trail).head?, Text.isBlank c = true := by
    intro c hc
    rcases hends with rfl | ⟨more, rfl⟩
    · rcases htrail with rfl | rfl
      · cases hc
      · exact Option.some.inj hc ▸ rfl
    · exact Option.some.inj hc ▸ rfl
  refine ⟨rest, hquiet, ?_⟩
  have hvalue := stepValue_of_scalars n name (h t List.mem_cons_self) hkind
    (fun c hc => hopen c (List.mem_append_right t hc)) hblank hrest
  rwa [hwords, ← List.append_assoc, List.append_assoc (t ++ after)] at hvalue

theorem isToken_of_all {w : List Char} (hne : w ≠ [])
    (h : (w.all fun c => !Text.isBlank c && !isStop c && !isQuote c && c != '\x7b') = true) :
    IsToken w where
  nonempty := hne
  plain c hc := by simpa [and_assoc] using List.all_eq_true.mp h c hc

theorem isToken_bool (b : Bool) : IsToken (literalText (.bool b)) := by
  cases b <;> exact isToken_of_all (by decide) (by decide)

theorem isToken_int (i : Int32) : IsToken (literalText (.int i)) := by
  have hdigit {c : Char} (hc : c.isDigit = true) : Text.isBlank c = false ∧ isStop c = false ∧
      isQuote c = false ∧ c ≠ '\x7b' := by
    have hword : c.isAlphanum = true ∨ c = '_' := Or.inl (by simp [Char.isAlphanum, hc])
    have hne {d : Char} (hd : d.toNat < 48 ∨ 122 < d.toNat) : c ≠ d := by
      rintro rfl
      have := word_bounds hword
      omega
    refine ⟨not_blank_of_isWordChar (isWordChar_of_word hword), ?_, ?_, hne (by decide)⟩
    · simp [isStop, hne (d := '#') (by decide), hne (d := '\x7d') (by decide)]
    · simp [isQuote, hne (d := '"') (by decide), hne (d := '\'') (by decide)]
  rw [literalText, Text.Numeral.toList_toString]
  split
  · exact ⟨Nat.toDigits_ne_nil, fun c hc => hdigit (Text.Numeral.isDigit_of_mem_toDigits c hc)⟩
  · refine ⟨by simp, fun c hc => ?_⟩
    rcases List.mem_cons.mp hc with rfl | hc
    · decide
    · exact hdigit (Text.Numeral.isDigit_of_mem_toDigits c hc)

theorem int32?_toInt (i : Int32) : int32? i.toInt = some i := by
  have h1 := i.le_toInt
  have h2 := i.toInt_lt
  rw [int32?, if_pos (by omega), Int32.ofInt_toInt]

theorem ofToken?_bool (b : Bool) : ScalarKind.ofToken? (literalText (.bool b)) = some .bool := by
  cases b <;> rfl

theorem ofToken?_int (i : Int32) : ScalarKind.ofToken? (literalText (.int i)) = some .int := by
  obtain ⟨numeral, hread, hinteger, _⟩ := Text.Numeral.read?_toString i.toInt
  have hne (token : List Char) (hbad : Text.Numeral.read? token = none) :
      literalText (.int i) ≠ token := by
    intro heq
    rw [literalText] at heq
    rw [heq, hbad] at hread
    cases hread
  have hbool : ¬(literalText (.int i) = "true".toList ∨ literalText (.int i) = "false".toList) :=
    not_or.mpr ⟨hne _ (by decide), hne _ (by decide)⟩
  rw [ScalarKind.ofToken?, if_neg hbool, literalText, hread]
  simp [hinteger]

theorem scalarItem_bool (n : Nat) (b : Bool) :
    scalarItem n .bool (literalText (.bool b)) = .value n (.bool b) := by
  cases b <;> rfl

theorem scalarItem_int (n : Nat) (i : Int32) :
    scalarItem n .int (literalText (.int i)) = .value n (.int i) := by
  obtain ⟨numeral, hread, _, hvalue⟩ := Text.Numeral.read?_toString i.toInt
  have hkind := ofToken?_int i
  rw [literalText] at hkind ⊢
  generalize (toString i.toInt).toList = token at hread hkind ⊢
  simp [scalarItem, scalar, hkind, hread, hvalue, int32?_toInt]

/-- A literal that is written as a single token of a kind. -/
structure IsScalar (kind : ScalarKind) (v : Literal) : Prop where
  token : IsToken (literalText v)
  ofToken? : ScalarKind.ofToken? (literalText v) = some kind
  item : ∀ n, scalarItem n kind (literalText v) = .value n v

def ScalarKind.kind : ScalarKind → Kind
  | int => .int
  | double => .double
  | bool => .bool

/-- All that can be written without quotes or a sign in front is a token. -/
theorem exists_isScalar {vs : Values Empty} (hne : vs.toList ≠ [])
    (hvs : ∀ v ∈ vs.toList, IsWritable v) (hkind : vs.kind ≠ .string) :
    ∃ kind : ScalarKind, kind.kind = vs.kind ∧ ∀ v ∈ vs.toList, IsScalar kind v := by
  cases vs with
  | bools bs =>
    refine ⟨.bool, rfl, fun v hv => ?_⟩
    obtain ⟨b, _, rfl⟩ := List.mem_map.mp (show v ∈ bs.map .bool from hv)
    exact ⟨isToken_bool b, ofToken?_bool b, fun n => scalarItem_bool n b⟩
  | ints is =>
    refine ⟨.int, rfl, fun v hv => ?_⟩
    obtain ⟨i, _, rfl⟩ := List.mem_map.mp (show v ∈ is.map .int from hv)
    exact ⟨isToken_int i, ofToken?_int i, fun n => scalarItem_int n i⟩
  | strings ss => exact (hkind rfl).elim
  | doubles ds =>
    obtain ⟨d, ds, rfl⟩ := List.exists_cons_of_ne_nil (l := ds) (by simpa [Values.toList] using hne)
    cases hvs (.double d) (by simp [Values.toList])
  | policies ps =>
    obtain ⟨p, _⟩ := List.exists_cons_of_ne_nil (l := ps) (by simpa [Values.toList] using hne)
    exact p.elim
  | files fs =>
    obtain ⟨f, fs, rfl⟩ := List.exists_cons_of_ne_nil (l := fs) (by simpa [Values.toList] using hne)
    cases hvs (.file f) (by simp [Values.toList])

/-- A literal begins and ends with a character that is not blank. -/
theorem exists_literalText {v : Literal} (h : IsWritable v) :
    (∃ c cs, literalText v = c :: cs ∧ Text.isBlank c = false ∧ c ≠ '\x7b') ∧
      ∃ before c, literalText v = before ++ [c] ∧ Text.isBlank c = false := by
  have htoken (h : IsToken (literalText v)) : (∃ c cs, literalText v = c :: cs ∧
      Text.isBlank c = false ∧ c ≠ '\x7b') ∧ ∃ before c, literalText v = before ++ [c] ∧
        Text.isBlank c = false := by
    obtain ⟨c, cs, hc⟩ := List.exists_cons_of_ne_nil h.nonempty
    obtain ⟨hblank, -, -, hbrace⟩ := h.plain c (by simp [hc])
    refine ⟨⟨c, cs, hc, hblank, hbrace⟩, _, _,
      (List.dropLast_concat_getLast h.nonempty).symm, ?_⟩
    exact (h.plain _ (List.getLast_mem h.nonempty)).1
  cases h with
  | bool b => exact htoken (isToken_bool b)
  | int i => exact htoken (isToken_int i)
  | @string s _ _ =>
    exact ⟨⟨'"', s.toList ++ ['"'], rfl, rfl, by decide⟩, '"' :: s.toList, '"', rfl, rfl⟩

/-! ## Strings -/

theorem quoted_of_tail (n : Nat) (name : List Char) {tail : List Char} (h : Tail tail) :
    ∃ rest, Quiet rest ∧ quoted n name tail = ([], .rest rest) := by
  cases h with
  | none => exact ⟨[], Or.inl rfl, by simp [quoted, Text.trimStart]⟩
  | @comment cs =>
    have htrim : Text.trimStart (' ' :: '#' :: cs) = '#' :: cs := rfl
    refine ⟨'#' :: cs, Or.inr ⟨cs, rfl⟩, ?_⟩
    rw [quoted]
    split
    · rename_i heq
      simp [htrim] at heq
    · rename_i heq
      rw [htrim] at heq
      cases heq
      rfl

theorem quoted_of_string {n : Nat} {name cs text after : List Char}
    (htrim : Text.trimStart cs = '"' :: (text ++ '"' :: after)) (htext : '"' ∉ text) :
    quoted n name cs = (.value n (.string (String.ofList text)) :: (quoted n name after).1,
      (quoted n name after).2) := by
  rw [quoted]
  split
  · rename_i heq
    simp [htrim] at heq
  · rename_i heq
    rw [htrim] at heq
    cases heq
    have hcut := Text.cut_append htext after
    rw [if_neg (by decide), if_pos (by decide)]
    split
    · rename_i hnone
      simp [hcut] at hnone
    · rename_i heq
      cases hcut.symm.trans heq
      rfl

/-- Strings are read one after the other, and then what follows them. -/
theorem quoted_append (n : Nat) (name : List Char) {s : String} {ss : List String}
    (hstrings : ∀ t ∈ s :: ss, '"' ∉ t.toList) (tail : List Char) {lead : List Char}
    (hlead : lead = [] ∨ lead = [' ']) :
    quoted n name
      (lead ++ [' '].intercalate ((s :: ss).map fun t => literalText (.string t)) ++ tail) =
        (((s :: ss).map fun t => .value n (.string t)) ++ (quoted n name tail).1,
          (quoted n name tail).2) := by
  have htrim (after : List Char) : Text.trimStart (lead ++ literalText (.string s) ++ after) =
      '"' :: (s.toList ++ '"' :: after) := by
    rcases hlead with rfl | rfl <;> simp [literalText, Text.trimStart, Text.isBlank]
  have hs := hstrings s List.mem_cons_self
  induction ss generalizing s lead with
  | nil =>
    have hcut : lead ++ [' '].intercalate ([s].map fun t => literalText (.string t)) ++ tail =
        lead ++ literalText (.string s) ++ tail := by
      simp [List.intercalate]
    rw [hcut, quoted_of_string (htrim tail) hs]
    simp
  | cons t ss ih =>
    have hothers : ∀ u ∈ t :: ss, '"' ∉ u.toList := fun u hu => hstrings u (List.mem_cons_of_mem _ hu)
    have hquoted := ih hothers (Or.inr rfl)
      (fun after => by simp [literalText, Text.trimStart, Text.isBlank])
      (hothers t List.mem_cons_self)
    have hcut : lead ++ [' '].intercalate ((s :: t :: ss).map fun t => literalText (.string t)) ++
        tail = lead ++ literalText (.string s) ++
          ([' '] ++ [' '].intercalate ((t :: ss).map fun t => literalText (.string t)) ++ tail) := by
      simp [List.intercalate]
    rw [hcut, quoted_of_string (htrim _) hs, hquoted]
    simp

theorem exists_intercalate_strings (s : String) (ss : List String) : ∃ after,
    [' '].intercalate ((s :: ss).map fun t => literalText (.string t)) = '"' :: after := by
  obtain ⟨after, hafter, _⟩ := Text.intercalate_cons ' ' (literalText (.string s))
    (ss.map fun t => literalText (.string t))
  exact ⟨_, hafter⟩

theorem stepValue_of_strings (n : Nat) (name : List Char) {s : String} {ss : List String}
    (hstrings : ∀ t ∈ s :: ss, '"' ∉ t.toList) {tail rest : List Char} {items : List Item}
    (htail : quoted n name tail = (items, .rest rest)) :
    stepValue n name ([' '].intercalate ((s :: ss).map fun t => literalText (.string t)) ++ tail) =
      .emit (.values (String.ofList name) (((s :: ss).map fun t => .value n (.string t)) ++ items))
        rest := by
  have hquoted := quoted_append n name hstrings tail (Or.inl rfl)
  rw [htail, List.nil_append] at hquoted
  obtain ⟨after, hafter⟩ := exists_intercalate_strings s ss
  rw [hafter, List.cons_append] at hquoted ⊢
  simp [stepValue, isQuote, hquoted]

/-! ## Files -/

theorem isStop_head_trimStart {c : Char} {cs : List Char} (hc : Text.isBlank c = true)
    (huncut : ∀ before b d after, c :: cs = before ++ b :: d :: after → Text.isBlank b = true →
      isStop d = false) : ∀ d ∈ (Text.trimStart cs).head?, isStop d = false := by
  induction cs generalizing c with
  | nil =>
    intro d hd
    cases hd
  | cons d ds ih =>
    by_cases hd : Text.isBlank d = true
    · have hskip : Text.trimStart (d :: ds) = Text.trimStart ds := by
        simp [Text.trimStart, hd]
      rw [hskip]
      refine ih hd fun before b e after heq => huncut (c :: before) b e after ?_
      rw [heq, List.cons_append]
    · rw [Text.trimStart_cons_of_not_blank (by simpa using hd)]
      intro e he
      obtain rfl : d = e := Option.some.inj he
      exact huncut [] c d ds rfl hc

theorem no_stop_after_blank {c : Char} {cs : List Char} (hc : Text.isBlank c = true)
    (hlast : ∀ d ∈ (c :: cs).getLast?, Text.isBlank d = false)
    (huncut : ∀ before b d after, c :: cs = before ++ b :: d :: after → Text.isBlank b = true →
      isStop d = false) (tail : List Char) :
    (Text.trimStart (cs ++ tail)).head?.any isStop = false := by
  have hne : Text.trimStart cs ≠ [] := by
    intro hall
    have hblank : ∀ d ∈ c :: cs, Text.isBlank d = true := by
      intro d hd
      rcases List.mem_cons.mp hd with rfl | hd
      · exact hc
      · exact Text.blank_of_trimStart_eq_nil hall d hd
    have hend := hlast _ (List.getLast?_eq_some_getLast (List.cons_ne_nil c cs))
    rw [hblank _ (List.getLast_mem (List.cons_ne_nil c cs))] at hend
    cases hend
  have happend : Text.trimStart (cs ++ tail) = Text.trimStart cs ++ tail := by
    rw [Text.trimStart, List.dropWhile_append, if_neg (by simpa [Text.trimStart] using hne)]
    rfl
  obtain ⟨d, ds, hds⟩ := List.exists_cons_of_ne_nil hne
  have hd := isStop_head_trimStart hc huncut d (by rw [hds]; rfl)
  simp [happend, hds, hd]

/-- An unquoted text is cut at the end of the line only. -/
theorem cutBare_append {cs tail : List Char} (hlast : ∀ c ∈ cs.getLast?, Text.isBlank c = false)
    (huncut : ∀ before c d after, cs = before ++ c :: d :: after → Text.isBlank c = true →
      isStop d = false) (htail : Tail tail) :
    ∃ rest, Quiet rest ∧ cutBare (cs ++ tail) = (cs, rest) := by
  induction cs with
  | nil =>
    cases htail with
    | none => exact ⟨[], Or.inl rfl, rfl⟩
    | @comment text =>
      have hsharp : Text.trimStart ('#' :: text) = '#' :: text := rfl
      exact ⟨'#' :: text, Or.inr ⟨text, rfl⟩, by simp [cutBare, hsharp, Text.isBlank, isStop]⟩
  | cons c cs ih =>
    have hgo : (Text.isBlank c && (Text.trimStart (cs ++ tail)).head?.any isStop) = false := by
      cases hc : Text.isBlank c with
      | false => rfl
      | true => exact no_stop_after_blank hc hlast huncut tail
    have hlast' : ∀ d ∈ cs.getLast?, Text.isBlank d = false := by
      intro d hd
      apply hlast d
      cases cs with
      | nil => cases hd
      | cons e es => simpa using hd
    obtain ⟨rest, hrest, hcut⟩ := ih hlast' fun before b d after heq =>
      huncut (c :: before) b d after (by rw [heq, List.cons_append])
    exact ⟨rest, hrest, by simp [cutBare, hgo, hcut]⟩

theorem IsPath.trimEnd {path : List Char} (h : IsPath path) (before : List Char) :
    Text.trimEnd (before ++ path) = before ++ path := by
  rcases List.eq_nil_or_concat path with rfl | ⟨start, c, rfl⟩
  · exact (h.nonempty rfl).elim
  · have hc := h.last c (by simp)
    rw [List.concat_eq_append, ← List.append_assoc]
    exact Text.trimEnd_append_cons hc _ []

theorem IsPath.trim {path : List Char} (h : IsPath path) : Text.trim path = path := by
  have hstart := Text.trimStart_append_of_head h.nonempty h.first []
  rw [List.append_nil] at hstart
  rw [Text.trim, hstart]
  exact h.trimEnd []

theorem ofToken?_at (cs : List Char) : ScalarKind.ofToken? ('@' :: cs) = none := by
  have hread : Text.Numeral.read? ('@' :: cs) = none := by
    have hdigit : Text.isDecimalDigit '@' = false := by
      decide
    simp [Text.Numeral.read?, Text.Numeral.takeSign, hdigit]
  simp [ScalarKind.ofToken?, hread]

theorem stepValue_of_path (n : Nat) (name : List Char) {path tail : List Char} (h : IsPath path)
    (htail : Tail tail) : ∃ rest, Quiet rest ∧ stepValue n name ('@' :: path ++ tail) =
      .emit (.values (String.ofList name) [.value n (.file ⟨String.ofList path, none⟩)]) rest := by
  have hlast : ∀ c ∈ ('@' :: path).getLast?, Text.isBlank c = false := by
    intro c hc
    apply h.last c
    obtain ⟨d, ds, rfl⟩ := List.exists_cons_of_ne_nil h.nonempty
    simpa using hc
  have huncut : ∀ before c d after, '@' :: path = before ++ c :: d :: after →
      Text.isBlank c = true → isStop d = false := by
    intro before c d after heq hc
    cases before with
    | nil =>
      obtain ⟨rfl, _⟩ := List.cons.inj heq
      simp [Text.isBlank] at hc
    | cons b before =>
      obtain ⟨rfl, hpath⟩ := List.cons.inj heq
      exact h.uncut before c d after hpath hc
  obtain ⟨rest, hrest, hcut⟩ := cutBare_append hlast huncut htail
  have hitem : bareItem n name ('@' :: path) = .value n (.file ⟨String.ofList path, none⟩) := by
    rw [bareItem, show Text.trimEnd ('@' :: path) = '@' :: path from h.trimEnd ['@']]
    simp [h.trim, h.nonempty]
  refine ⟨rest, hrest, ?_⟩
  rw [List.cons_append] at hcut ⊢
  have hquote : isQuote '@' = false := by
    decide
  have hkind : ScalarKind.ofToken?
      (('@' :: (path ++ tail)).takeWhile fun d => !Text.isBlank d && !isStop d) = none := by
    rw [List.takeWhile_cons_of_pos (by decide)]
    exact ofToken?_at _
  simp [stepValue, hquote, hkind, hcut, hitem]

/-! ## Whole lines -/

theorem IsToken.closed {w : List Char} (h : IsToken w) : Closed w := by
  rcases List.eq_nil_or_concat w with rfl | ⟨before, c, rfl⟩
  · exact (h.nonempty rfl).elim
  · refine ⟨before, c, by simp, ?_⟩
    have hblank := (h.plain c (by simp)).1
    refine Bool.eq_false_iff.mpr fun hend => ?_
    have hc : c = '\n' ∨ c = '\r' := by
      simpa [isLineEnd] using hend
    rcases hc with rfl | rfl <;> revert hblank <;> decide

/-- Words with spaces between them end as the last word does. -/
theorem ends_intercalate {P : Char → Prop} {ws : List (List Char)} (hne : ws ≠ [])
    (h : ∀ w ∈ ws, ∃ before c, w = before ++ [c] ∧ P c) :
    ∃ before c, [' '].intercalate ws = before ++ [c] ∧ P c := by
  induction ws with
  | nil => exact (hne rfl).elim
  | cons w ws ih =>
    cases ws with
    | nil => simpa [List.intercalate] using h w List.mem_cons_self
    | cons next ws =>
      have hcut : [' '].intercalate (w :: next :: ws) =
          (w ++ [' ']) ++ [' '].intercalate (next :: ws) := by
        simp [List.intercalate]
      obtain ⟨before, c, hends, hc⟩ := ih (by simp) fun v hv => h v (List.mem_cons_of_mem _ hv)
      exact ⟨w ++ [' '] ++ before, c, by rw [hcut, hends, List.append_assoc _ before], hc⟩

theorem closed_intercalate {ws : List (List Char)} (hne : ws ≠ []) (h : ∀ w ∈ ws, Closed w) :
    Closed ([' '].intercalate ws) :=
  ends_intercalate hne h

theorem scan_filler {n : Nat} {line : List Char} (h : Filler line) :
    scan n (chomp line) = ([], none) :=
  scan_of_quiet h.quiet_chomp

theorem scan_named {n : Nat} {indent body tail : List Char} {name : String} {s : Statement}
    (hindent : IsIndent indent) (htail : Tail tail) (hname : isParameterName name.toList = true)
    (hclosed : Closed body)
    (hbody : ∀ c ∈ body.head?, Text.isBlank c = false)
    (hstep : ∀ tail, Tail tail → ∃ rest, Quiet rest ∧
      stepValue n name.toList (body ++ tail) = .emit s rest) :
    scan n (chomp (named indent name body tail)) = ([s], none) := by
  obtain ⟨rest, hrest, hvalue⟩ := hstep _ htail.chomp
  have hne : body ≠ [] := by
    obtain ⟨before, c, rfl, _⟩ := hclosed
    simp
  rw [chomp_named hclosed htail]
  refine scan_of_emit ?_ hrest
  rw [step_named hindent hname (Text.trimStart_append_of_head hne hbody _), hvalue]

theorem scan_tokens {n : Nat} {indent tail : List Char} {name : String} {kind : ScalarKind}
    {v : Literal} {vs : List Literal} (hindent : IsIndent indent) (htail : Tail tail)
    (hname : isParameterName name.toList = true) (h : ∀ w ∈ v :: vs, IsScalar kind w) :
    scan n (chomp (named indent name ([' '].intercalate ((v :: vs).map literalText)) tail)) =
      ([.values name ((v :: vs).map (.value n))], none) := by
  have htokens : ∀ w ∈ (v :: vs).map literalText, IsToken w := by
    intro w hw
    obtain ⟨u, hu, rfl⟩ := List.mem_map.mp hw
    exact (h u hu).token
  have hfirst := h v List.mem_cons_self
  refine scan_named hindent htail hname
    (closed_intercalate (by simp) fun w hw => (htokens w hw).closed) ?_ fun rest hrest => ?_
  · obtain ⟨after, hafter, _⟩ := Text.intercalate_cons ' ' (literalText v) (vs.map literalText)
    obtain ⟨c, cs, hcs⟩ := List.exists_cons_of_ne_nil hfirst.token.nonempty
    rw [List.map_cons, hafter, hcs]
    intro d hd
    obtain rfl : c = d := Option.some.inj hd
    exact (hfirst.token.plain c (by simp [hcs])).1
  · obtain ⟨quiet, hquiet, hvalue⟩ := stepValue_of_tokens n name.toList htokens
      hfirst.ofToken? hrest
    refine ⟨quiet, hquiet, ?_⟩
    have hitems : ((v :: vs).map literalText).map (scalarItem n kind) = (v :: vs).map (.value n) := by
      rw [List.map_map]
      exact List.map_congr_left fun w hw => (h w hw).item n
    rw [List.map_cons, hvalue, ← List.map_cons (f := literalText), hitems, String.ofList_toList]

theorem scan_strings {n : Nat} {indent tail : List Char} {name : String} {s : String}
    {ss : List String} (hindent : IsIndent indent) (htail : Tail tail)
    (hname : isParameterName name.toList = true) (hstrings : ∀ t ∈ s :: ss, '"' ∉ t.toList) :
    scan n (chomp (named indent name
      ([' '].intercalate ((s :: ss).map fun t => literalText (.string t))) tail)) =
        ([.values name ((s :: ss).map fun t => .value n (.string t))], none) := by
  refine scan_named hindent htail hname (closed_intercalate (by simp) fun w hw => ?_) ?_
    fun rest hrest => ?_
  · obtain ⟨t, _, rfl⟩ := List.mem_map.mp hw
    exact ⟨'"' :: t.toList, '"', rfl, by decide⟩
  · obtain ⟨after, hafter⟩ := exists_intercalate_strings s ss
    rw [hafter]
    intro d hd
    obtain rfl : '"' = d := Option.some.inj hd
    decide
  · obtain ⟨quiet, hquiet, htail⟩ := quoted_of_tail n name.toList hrest
    refine ⟨quiet, hquiet, ?_⟩
    rw [stepValue_of_strings n name.toList hstrings htail, List.append_nil, String.ofList_toList]

/-- The line of a name with literals is read as these literals. -/
theorem scan_values {n : Nat} {indent tail : List Char} {name : String} {vs : Values Empty}
    (hindent : IsIndent indent) (htail : Tail tail) (hname : isParameterName name.toList = true)
    (hne : vs.toList ≠ []) (hvs : ∀ v ∈ vs.toList, IsWritable v) :
    scan n (chomp (named indent name ([' '].intercalate (vs.toList.map literalText)) tail)) =
      ([.values name (vs.toList.map (.value n))], none) := by
  by_cases hkind : vs.kind = .string
  · cases vs with
    | strings ss =>
      obtain ⟨s, ss, rfl⟩ := List.exists_cons_of_ne_nil (l := ss) (by simpa [Values.toList] using hne)
      have hstrings : ∀ t ∈ s :: ss, '"' ∉ t.toList := by
        intro t ht
        cases hvs (.string t) (List.mem_map_of_mem ht)
        assumption
      simpa [Values.toList, Function.comp_def] using scan_strings hindent htail hname hstrings
    | _ => cases hkind
  · obtain ⟨kind, -, hscalars⟩ := exists_isScalar hne hvs hkind
    obtain ⟨v, rest, hlist⟩ := List.exists_cons_of_ne_nil hne
    rw [hlist] at hscalars ⊢
    exact scan_tokens hindent htail hname hscalars

/-- The line of a name with a file is read as the path of this file. -/
theorem scan_file {n : Nat} {indent tail : List Char} {name path : String}
    (hindent : IsIndent indent) (htail : Tail tail) (hname : isParameterName name.toList = true)
    (hpath : IsPath path.toList) :
    scan n (chomp (named indent name ('@' :: path.toList) tail)) =
      ([.values name [.value n (.file ⟨path, none⟩)]], none) := by
  have hclosed : Closed ('@' :: path.toList) := by
    rcases List.eq_nil_or_concat path.toList with hnil | ⟨start, c, hc⟩
    · exact (hpath.nonempty hnil).elim
    · refine ⟨'@' :: start, c, by simp [hc], ?_⟩
      have hblank := hpath.last c (by simp [hc])
      refine Bool.eq_false_iff.mpr fun hend => ?_
      have hc : c = '\n' ∨ c = '\r' := by
        simpa [isLineEnd] using hend
      rcases hc with rfl | rfl <;> revert hblank <;> decide
  refine scan_named hindent htail hname hclosed ?_ fun rest hrest => ?_
  · intro d hd
    obtain rfl : '@' = d := Option.some.inj hd
    decide
  · obtain ⟨quiet, hquiet, hvalue⟩ := stepValue_of_path n name.toList hpath hrest
    rw [String.ofList_toList, String.ofList_toList] at hvalue
    exact ⟨quiet, hquiet, hvalue⟩

theorem Tail.quiet_trim {cs : List Char} (h : Tail cs) : Quiet (Text.trim cs) := by
  cases h with
  | none => exact Or.inl rfl
  | @comment text =>
    have htrim : Text.trim (' ' :: '#' :: text) = '#' :: Text.trimEnd text :=
      Text.trimEnd_append_cons (by decide) [] text
    exact Or.inr ⟨Text.trimEnd text, by rw [htrim]; rfl⟩

/-- The first line of a block is read as its opening. -/
theorem scan_opening {n : Nat} {indent tail : List Char} {name : String}
    (hindent : IsIndent indent) (htail : Tail tail) (hname : isParameterName name.toList = true) :
    scan n (chomp (named indent name ['\x7b'] tail)) = ([.opening n name], none) := by
  refine scan_named hindent htail hname ⟨[], '\x7b', rfl, by decide⟩ ?_ fun rest hrest => ?_
  · intro d hd
    obtain rfl : '\x7b' = d := Option.some.inj hd
    decide
  · exact ⟨_, hrest.quiet_trim, by simp [stepValue]⟩

/-- The last line of a block is read as its end. -/
theorem scan_closing {n : Nat} {indent tail : List Char} (hindent : IsIndent indent)
    (htail : Tail tail) : ∃ followed,
      scan n (chomp (indent ++ '\x7d' :: tail)) = ([.closing n followed], none) := by
  have hkeep : chomp (indent ++ '\x7d' :: tail) = indent ++ '\x7d' :: chomp tail :=
    chomp_append_cons (by decide) indent tail
  have htrim : Text.trimStart (indent ++ '\x7d' :: chomp tail) = '\x7d' :: chomp tail := by
    rw [Text.trimStart_append_of_blank (blank_of_indent hindent)]
    rfl
  have hquiet : Quiet (Text.trimStart (chomp tail)) := by
    have hchomp := htail.chomp
    generalize chomp tail = rest at hchomp
    cases hchomp with
    | none => exact Or.inl rfl
    | comment => exact Or.inr ⟨_, rfl⟩
  have hstep : step n (indent ++ '\x7d' :: chomp tail) =
      .emit (.closing n (!(Text.trimStart (chomp tail)).isEmpty)) (Text.trimStart (chomp tail)) := by
    simp only [step, htrim]
  exact ⟨_, hkeep ▸ scan_of_emit hstep hquiet⟩

end PolicyStore.Paf
