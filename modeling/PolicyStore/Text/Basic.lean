import PolicyStore.Text.Character

set_option autoImplicit false

namespace PolicyStore.Text

/-!
# Cutting text

Trimming, lines and cuts at a separator, on lists of characters. The laws say that the pieces put
together again are the text.
-/

def trimStart (cs : List Char) : List Char := cs.dropWhile isBlank

def trimEnd (cs : List Char) : List Char := (cs.reverse.dropWhile isBlank).reverse

def trim (cs : List Char) : List Char := trimEnd (trimStart cs)

theorem length_dropWhile_le {α : Type} (p : α → Bool) (xs : List α) :
    (xs.dropWhile p).length ≤ xs.length := by
  induction xs with
  | nil => simp
  | cons x xs ih =>
    by_cases h : p x
    · simp only [List.dropWhile_cons, h, if_true, List.length_cons]
      omega
    · simp [h]

theorem length_trimStart_le (cs : List Char) : (trimStart cs).length ≤ cs.length :=
  length_dropWhile_le isBlank cs

theorem length_trimEnd_le (cs : List Char) : (trimEnd cs).length ≤ cs.length := by
  simpa [trimEnd] using length_dropWhile_le isBlank cs.reverse

theorem length_trim_le (cs : List Char) : (trim cs).length ≤ cs.length :=
  Nat.le_trans (length_trimEnd_le _) (length_trimStart_le cs)

/-- Cuts after each terminator; only the last piece may lack one. -/
def splitAfter {α : Type} (isEnd : α → Bool) : List α → List (List α)
  | [] => []
  | x :: xs =>
    if isEnd x then [x] :: splitAfter isEnd xs
    else
      match splitAfter isEnd xs with
      | [] => [[x]]
      | piece :: pieces => (x :: piece) :: pieces

theorem flatten_splitAfter {α : Type} (isEnd : α → Bool) (xs : List α) :
    (splitAfter isEnd xs).flatten = xs := by
  induction xs with
  | nil => rfl
  | cons x xs ih =>
    simp only [splitAfter]
    split
    · simp [ih]
    · split <;> simp_all

/-- The pieces between separators; there is always one more of them than separators. -/
def splitWhere (isSep : Char → Bool) : List Char → List (List Char)
  | [] => [[]]
  | c :: cs =>
    if isSep c then [] :: splitWhere isSep cs
    else
      match splitWhere isSep cs with
      | [] => [[c]]
      | piece :: pieces => (c :: piece) :: pieces

def splitOn (sep : Char) (cs : List Char) : List (List Char) := splitWhere (· = sep) cs

/-- The runs of characters that are not blank. -/
def words (cs : List Char) : List (List Char) := (splitWhere isBlank cs).filter (!·.isEmpty)

/-- The text before and after the first occurrence of a character. -/
def cut (sep : Char) : List Char → Option (List Char × List Char)
  | [] => none
  | c :: cs =>
    if c = sep then some ([], cs)
    else (cut sep cs).map fun parts => (c :: parts.1, parts.2)

theorem eq_append_of_cut {sep : Char} {cs before after : List Char}
    (h : cut sep cs = some (before, after)) : cs = before ++ sep :: after := by
  induction cs generalizing before after with
  | nil => simp [cut] at h
  | cons c cs ih =>
    by_cases hc : c = sep
    · simp only [cut, hc, if_true, Option.some.injEq, Prod.mk.injEq] at h
      simp [hc, ← h.1, h.2]
    · simp only [cut, hc, if_false, Option.map_eq_some_iff, Prod.mk.injEq] at h
      obtain ⟨parts, hp, h1, h2⟩ := h
      have hcs : cs = parts.1 ++ sep :: parts.2 := ih hp
      simp [← h1, ← h2, hcs]

theorem length_lt_of_cut {sep : Char} {cs before after : List Char}
    (h : cut sep cs = some (before, after)) : after.length < cs.length := by
  rw [eq_append_of_cut h]
  simp
  omega

/-- The letters A to Z as lower case and all other characters as they are. -/
def lowerAscii (s : String) : String := s.map Char.toLower

/-- The letters a to z as upper case and all other characters as they are. -/
def upperAscii (s : String) : String := s.map Char.toUpper

def equalIgnoringAsciiCase (s t : String) : Bool := lowerAscii s = lowerAscii t

def trimString (s : String) : String := String.ofList (trim s.toList)

end PolicyStore.Text
