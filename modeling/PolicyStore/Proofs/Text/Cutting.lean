import PolicyStore.Paf.Line
import Mathlib.Tactic.Basic

set_option autoImplicit false

namespace PolicyStore

/-!
# Cutting text that was put together

Blanks before a text, a text between separators and a text before a line end are taken apart where
they were put together.
-/

namespace Text

theorem trimStart_append_of_blank {blanks : List Char} (h : ∀ c ∈ blanks, isBlank c = true)
    (cs : List Char) :
    trimStart (blanks ++ cs) = trimStart cs :=
  List.dropWhile_append_of_pos h

theorem trimStart_cons_of_not_blank {c : Char} (h : isBlank c = false) (cs : List Char) :
    trimStart (c :: cs) = c :: cs := by
  simp [trimStart, h]

theorem trimStart_append_of_head {cs : List Char} (hne : cs ≠ [])
    (h : ∀ c ∈ cs.head?, isBlank c = false) (rest : List Char) :
    trimStart (cs ++ rest) = cs ++ rest := by
  cases cs with
  | nil => exact (hne rfl).elim
  | cons c cs => exact trimStart_cons_of_not_blank (h c rfl) _

theorem blank_of_trimStart_eq_nil {cs : List Char} (h : trimStart cs = []) :
    ∀ c ∈ cs, isBlank c = true := by
  have hall := List.takeWhile_append_dropWhile (p := isBlank) (l := cs)
  rw [show cs.dropWhile isBlank = [] from h, List.append_nil] at hall
  intro c hc
  rw [← hall] at hc
  exact List.all_eq_true.mp (List.all_takeWhile (p := isBlank) (l := cs)) c hc

theorem trimStart_eq_nil_of_blank {cs : List Char} (h : ∀ c ∈ cs, isBlank c = true) :
    trimStart cs = [] := by
  simpa [trimStart] using trimStart_append_of_blank h []

theorem not_blank_of_trimStart {cs rest : List Char} {c : Char} (h : trimStart cs = c :: rest) :
    isBlank c = false := by
  have hhead := List.head?_dropWhile_not isBlank cs
  rw [show cs.dropWhile isBlank = c :: rest from h] at hhead
  simpa using hhead

theorem exists_of_trimStart (cs : List Char) :
    ∃ blanks, cs = blanks ++ trimStart cs ∧ ∀ c ∈ blanks, isBlank c = true :=
  ⟨cs.takeWhile isBlank, List.takeWhile_append_dropWhile.symm,
    List.all_eq_true.mp List.all_takeWhile⟩

theorem trimStart_append_of_eq_cons {cs rest : List Char} {c : Char} (h : trimStart cs = c :: rest)
    (tail : List Char) : trimStart (cs ++ tail) = c :: (rest ++ tail) := by
  obtain ⟨blanks, hcs, hblanks⟩ := exists_of_trimStart cs
  rw [hcs, List.append_assoc, trimStart_append_of_blank hblanks, h, List.cons_append]
  exact trimStart_cons_of_not_blank (not_blank_of_trimStart h) _

/-- Nothing is dropped from the end of a text beyond a character that is kept. -/
theorem dropEnd_append_cons {p : Char → Bool} {c : Char} (h : p c = false)
    (before after : List Char) : ((before ++ c :: after).reverse.dropWhile p).reverse =
      before ++ c :: (after.reverse.dropWhile p).reverse := by
  have hstop : ([c] ++ before.reverse).dropWhile p = c :: before.reverse := by
    simp [h]
  rw [List.reverse_append, List.reverse_cons, List.append_assoc, List.dropWhile_append]
  split
  · rename_i hall
    rw [List.isEmpty_iff.mp hall, hstop]
    simp
  · simp

theorem dropEnd_append_of_pos {p : Char → Bool} {ends : List Char} (h : ∀ c ∈ ends, p c = true)
    (cs : List Char) :
    ((cs ++ ends).reverse.dropWhile p).reverse = (cs.reverse.dropWhile p).reverse := by
  rw [List.reverse_append,
    List.dropWhile_append_of_pos fun c hc => h c (List.mem_reverse.mp hc)]

/-- Nothing is dropped from a text that ends with a character that is kept. -/
theorem dropEnd_of_last {p : Char → Bool} {cs : List Char} (h : ∀ c ∈ cs.getLast?, p c = false) :
    (cs.reverse.dropWhile p).reverse = cs := by
  rcases List.eq_nil_or_concat cs with rfl | ⟨before, c, rfl⟩
  · rfl
  · rw [List.concat_eq_append] at h ⊢
    rw [dropEnd_append_cons (h c (List.getLast?_concat ..))]
    rfl

theorem mem_of_mem_dropEnd {p : Char → Bool} {cs : List Char} {c : Char}
    (h : c ∈ (cs.reverse.dropWhile p).reverse) : c ∈ cs :=
  List.mem_reverse.mp ((List.dropWhile_sublist p).mem (List.mem_reverse.mp h))

theorem trimEnd_append_cons {c : Char} (h : isBlank c = false) (before after : List Char) :
    trimEnd (before ++ c :: after) = before ++ c :: trimEnd after :=
  dropEnd_append_cons h before after

theorem trimEnd_append_of_blank {blanks : List Char} (h : ∀ c ∈ blanks, isBlank c = true)
    (cs : List Char) : trimEnd (cs ++ blanks) = trimEnd cs :=
  dropEnd_append_of_pos h cs

theorem trimEnd_of_last {cs : List Char} (h : ∀ c ∈ cs.getLast?, isBlank c = false) :
    trimEnd cs = cs :=
  dropEnd_of_last h

theorem trim_append_of_blank {blanks : List Char} (h : ∀ c ∈ blanks, isBlank c = true)
    (cs : List Char) : trim (cs ++ blanks) = trim cs := by
  cases hstart : trimStart cs with
  | nil =>
    have hall : ∀ c ∈ cs ++ blanks, isBlank c = true :=
      List.forall_mem_append.mpr ⟨blank_of_trimStart_eq_nil hstart, h⟩
    rw [trim, trim, hstart, trimStart_eq_nil_of_blank hall]
  | cons c rest =>
    rw [trim, trim, hstart, trimStart_append_of_eq_cons hstart, ← List.cons_append,
      trimEnd_append_of_blank h]

theorem head?_trim (cs : List Char) : (trim cs).head? = (trimStart cs).head? := by
  cases h : trimStart cs with
  | nil => simp [trim, trimEnd, h]
  | cons c rest =>
    have hkeep := trimEnd_append_cons (not_blank_of_trimStart h) [] rest
    rw [List.nil_append, List.nil_append] at hkeep
    rw [trim, h, hkeep]
    rfl

theorem splitWhere_of_none {isSep : Char → Bool} {cs : List Char}
    (h : ∀ c ∈ cs, isSep c = false) : splitWhere isSep cs = [cs] := by
  induction cs with
  | nil => rfl
  | cons c cs ih =>
    rw [splitWhere, h c List.mem_cons_self, ih fun d hd => h d (List.mem_cons_of_mem _ hd)]
    rfl

theorem splitWhere_append {isSep : Char → Bool} {piece rest : List Char} {sep : Char}
    (h : ∀ c ∈ piece, isSep c = false) (hsep : isSep sep = true) :
    splitWhere isSep (piece ++ sep :: rest) = piece :: splitWhere isSep rest := by
  induction piece with
  | nil => simp [splitWhere, hsep]
  | cons c cs ih =>
    rw [List.cons_append, splitWhere, h c List.mem_cons_self,
      ih fun d hd => h d (List.mem_cons_of_mem _ hd)]
    rfl

theorem splitWhere_ne_nil (isSep : Char → Bool) (cs : List Char) : splitWhere isSep cs ≠ [] := by
  cases cs with
  | nil => exact List.cons_ne_nil _ _
  | cons c cs =>
    rw [splitWhere]
    split
    · exact List.cons_ne_nil _ _
    · split <;> exact List.cons_ne_nil _ _

/-- The pieces of two texts with a separator between them are those of both. -/
theorem splitWhere_append_cons {isSep : Char → Bool} {sep : Char} (hsep : isSep sep = true)
    (cs rest : List Char) :
    splitWhere isSep (cs ++ sep :: rest) = splitWhere isSep cs ++ splitWhere isSep rest := by
  induction cs with
  | nil => simp [splitWhere, hsep]
  | cons c cs ih =>
    rw [List.cons_append, splitWhere, splitWhere, ih]
    split
    · rfl
    · cases hcs : splitWhere isSep cs with
      | nil => exact (splitWhere_ne_nil isSep cs hcs).elim
      | cons piece pieces => rfl

/-- A text of several pieces is the first of them, a separator and a text of the others. -/
theorem exists_of_splitWhere_eq_cons {isSep : Char → Bool} {piece next : List Char}
    {pieces : List (List Char)} {cs : List Char}
    (h : splitWhere isSep cs = piece :: next :: pieces) :
    ∃ sep rest, isSep sep = true ∧ cs = piece ++ sep :: rest ∧
      splitWhere isSep rest = next :: pieces := by
  induction cs generalizing piece with
  | nil => cases h
  | cons c cs ih =>
    rw [splitWhere] at h
    split at h
    · rename_i hc
      obtain ⟨rfl, hrest⟩ := List.cons.inj h
      exact ⟨c, cs, hc, rfl, hrest⟩
    · split at h
      · cases h
      · rename_i first others hcs
        cases h
        obtain ⟨sep, rest, hsep, rfl, hrest⟩ := ih hcs
        exact ⟨sep, rest, hsep, rfl, hrest⟩

/-- Each character of a text is a separator or stands in one of the pieces. -/
theorem mem_splitWhere {isSep : Char → Bool} {cs : List Char} {c : Char} (h : c ∈ cs) :
    isSep c = true ∨ ∃ piece ∈ splitWhere isSep cs, c ∈ piece := by
  induction cs with
  | nil => cases h
  | cons d cs ih =>
    rw [splitWhere]
    by_cases hd : isSep d = true
    · rcases List.mem_cons.mp h with rfl | h
      · exact Or.inl hd
      · rw [if_pos hd]
        exact (ih h).imp_right fun ⟨piece, hpiece, hc⟩ => ⟨piece, List.mem_cons_of_mem _ hpiece, hc⟩
    · rw [if_neg hd]
      cases hcut : splitWhere isSep cs with
      | nil => exact (splitWhere_ne_nil isSep cs hcut).elim
      | cons piece pieces =>
        rw [hcut] at ih
        rcases List.mem_cons.mp h with rfl | h
        · exact Or.inr ⟨_, List.mem_cons_self, List.mem_cons_self⟩
        · refine (ih h).imp_right fun ⟨piece', hpiece, hc⟩ => ?_
          rcases List.mem_cons.mp hpiece with rfl | hpiece
          · exact ⟨_, List.mem_cons_self, List.mem_cons_of_mem _ hc⟩
          · exact ⟨piece', List.mem_cons_of_mem _ hpiece, hc⟩

theorem splitOn_of_not_mem {sep : Char} {cs : List Char} (h : sep ∉ cs) : splitOn sep cs = [cs] := by
  refine splitWhere_of_none fun c hc => decide_eq_false ?_
  rintro rfl
  exact h hc

theorem mem_intercalate {sep : Char} {ws : List (List Char)} {c : Char}
    (h : c ∈ [sep].intercalate ws) : c = sep ∨ ∃ w ∈ ws, c ∈ w := by
  induction ws with
  | nil => simp [List.intercalate] at h
  | cons w ws ih =>
    cases ws with
    | nil => exact Or.inr ⟨w, List.mem_cons_self, by simpa [List.intercalate] using h⟩
    | cons next ws =>
      have hcut : [sep].intercalate (w :: next :: ws) = w ++ sep :: [sep].intercalate (next :: ws) := by
        simp [List.intercalate]
      rw [hcut] at h
      rcases List.mem_append.mp h with hw | h
      · exact Or.inr ⟨w, List.mem_cons_self, hw⟩
      · rcases List.mem_cons.mp h with rfl | h
        · exact Or.inl rfl
        · rcases ih h with hsep | ⟨v, hv, hc⟩
          · exact Or.inl hsep
          · exact Or.inr ⟨v, List.mem_cons_of_mem _ hv, hc⟩

theorem intercalate_cons (sep : Char) (w : List Char) (ws : List (List Char)) :
    ∃ after, [sep].intercalate (w :: ws) = w ++ after ∧ (after = [] ∨ ∃ rest, after = sep :: rest) := by
  cases ws with
  | nil => exact ⟨[], by simp [List.intercalate], Or.inl rfl⟩
  | cons next ws =>
    exact ⟨sep :: [sep].intercalate (next :: ws), by simp [List.intercalate], Or.inr ⟨_, rfl⟩⟩

/-- Words with a blank between them, and perhaps one after the last, are those words. -/
theorem words_intercalate {ws : List (List Char)} (hne : ∀ w ∈ ws, w ≠ [])
    (hplain : ∀ w ∈ ws, ∀ c ∈ w, isBlank c = false) {trail : List Char}
    (htrail : trail = [] ∨ trail = [' ']) : words ([' '].intercalate ws ++ trail) = ws := by
  induction ws with
  | nil =>
    rcases htrail with rfl | rfl <;> simp [words, splitWhere, isBlank, List.intercalate]
  | cons w ws ih =>
    have hw : ∀ c ∈ w, isBlank c = false := hplain w List.mem_cons_self
    have hpos : w.isEmpty = false := by
      simpa using hne w List.mem_cons_self
    have hblank : isBlank ' ' = true := rfl
    cases ws with
    | nil =>
      rcases htrail with rfl | rfl
      · simp [List.intercalate, words, splitWhere_of_none hw, hpos]
      · simp [List.intercalate, words, splitWhere_append hw hblank, splitWhere, hpos]
    | cons next ws =>
      have ih := ih (fun w hw => hne w (List.mem_cons_of_mem _ hw))
        fun w hw => hplain w (List.mem_cons_of_mem _ hw)
      have hcut : [' '].intercalate (w :: next :: ws) ++ trail =
          w ++ ' ' :: ([' '].intercalate (next :: ws) ++ trail) := by
        simp [List.intercalate]
      rw [words] at ih ⊢
      rw [hcut, splitWhere_append hw hblank, List.filter_cons, hpos, ih]
      rfl

theorem words_append_cons {c : Char} (h : isBlank c = true) (cs rest : List Char) :
    words (cs ++ c :: rest) = words cs ++ words rest := by
  rw [words, splitWhere_append_cons h, List.filter_append]
  rfl

theorem cut_append {sep : Char} {before : List Char} (h : sep ∉ before) (after : List Char) :
    cut sep (before ++ sep :: after) = some (before, after) := by
  induction before with
  | nil => simp [cut]
  | cons c cs ih =>
    have hc : c ≠ sep := fun heq => h (heq ▸ List.mem_cons_self)
    have hcs : sep ∉ cs := fun hmem => h (List.mem_cons_of_mem _ hmem)
    simp [cut, hc, ih hcs]

theorem cut_of_not_mem {sep : Char} {cs : List Char} (h : sep ∉ cs) : cut sep cs = none := by
  induction cs with
  | nil => rfl
  | cons c cs ih =>
    have hc : c ≠ sep := fun heq => h (heq ▸ List.mem_cons_self)
    rw [cut, if_neg hc, ih fun hmem => h (List.mem_cons_of_mem _ hmem)]
    rfl

theorem splitAfter_append {α : Type} {isEnd : α → Bool} {before : List α} {x : α}
    (h : ∀ y ∈ before, isEnd y = false) (hx : isEnd x = true) (rest : List α) :
    splitAfter isEnd (before ++ x :: rest) = (before ++ [x]) :: splitAfter isEnd rest := by
  induction before with
  | nil => simp [splitAfter, hx]
  | cons y ys ih =>
    have hy := h y List.mem_cons_self
    have ih := ih fun z hz => h z (List.mem_cons_of_mem _ hz)
    simp [splitAfter, hy, ih]

theorem splitAfter_of_none {α : Type} {isEnd : α → Bool} {xs : List α} (hne : xs ≠ [])
    (h : ∀ x ∈ xs, isEnd x = false) : splitAfter isEnd xs = [xs] := by
  induction xs with
  | nil => exact (hne rfl).elim
  | cons x xs ih =>
    have hx := h x List.mem_cons_self
    cases xs with
    | nil => simp [splitAfter, hx]
    | cons y ys =>
      have ih := ih (by simp) fun z hz => h z (List.mem_cons_of_mem _ hz)
      rw [splitAfter, hx, ih]
      rfl

/-- What stands before a terminator and what stands after it are cut independently. -/
theorem splitAfter_append_cons {α : Type} {isEnd : α → Bool} {x : α} (hx : isEnd x = true)
    (xs ys : List α) :
    splitAfter isEnd (xs ++ x :: ys) = splitAfter isEnd (xs ++ [x]) ++ splitAfter isEnd ys := by
  induction xs with
  | nil => simp [splitAfter, hx]
  | cons z zs ih =>
    rw [List.cons_append, List.cons_append, splitAfter, splitAfter, ih]
    split
    · rfl
    · cases hcut : splitAfter isEnd (zs ++ [x]) with
      | nil =>
        have hflat := flatten_splitAfter isEnd (zs ++ [x])
        simp [hcut] at hflat
      | cons piece pieces => rfl

/-- A terminator at the end belongs to the last piece if that one lacks it, or is a piece itself. -/
theorem splitAfter_append_end {α : Type} {isEnd : α → Bool} {x : α} (hx : isEnd x = true)
    (xs : List α) : splitAfter isEnd (xs ++ [x]) = splitAfter isEnd xs ++ [[x]] ∨
      ∃ pieces last, splitAfter isEnd xs = pieces ++ [last] ∧
        splitAfter isEnd (xs ++ [x]) = pieces ++ [last ++ [x]] := by
  induction xs with
  | nil => simp [splitAfter, hx]
  | cons y ys ih =>
    rw [List.cons_append, splitAfter, splitAfter]
    split
    · rcases ih with h | ⟨pieces, last, h, hend⟩
      · exact Or.inl (by rw [h, List.cons_append])
      · exact Or.inr ⟨[y] :: pieces, last, by rw [h, List.cons_append], by rw [hend, List.cons_append]⟩
    · rcases ih with h | ⟨pieces, last, h, hend⟩
      · rw [h]
        cases splitAfter isEnd ys with
        | nil => exact Or.inr ⟨[], [y], rfl, rfl⟩
        | cons piece pieces => exact Or.inl rfl
      · rw [h, hend]
        cases pieces with
        | nil => exact Or.inr ⟨[], y :: last, rfl, rfl⟩
        | cons piece pieces => exact Or.inr ⟨(y :: piece) :: pieces, last, rfl, rfl⟩

end Text

namespace Paf

theorem chomp_append_cons {c : Char} (h : isLineEnd c = false) (before after : List Char) :
    chomp (before ++ c :: after) = before ++ c :: chomp after :=
  Text.dropEnd_append_cons h before after

theorem chomp_of_not_end {cs : List Char} (h : ∀ c ∈ cs, isLineEnd c = false) : chomp cs = cs :=
  Text.dropEnd_of_last fun c hc => h c (List.mem_of_getLast? hc)

theorem chomp_append_newline (cs : List Char) : chomp (cs ++ ['\n']) = chomp cs := by
  simp [chomp, isLineEnd]

theorem exists_of_chomp (cs : List Char) :
    ∃ ends, cs = chomp cs ++ ends ∧ ∀ c ∈ ends, isLineEnd c = true := by
  refine ⟨(cs.reverse.takeWhile isLineEnd).reverse, ?_, fun c hc => ?_⟩
  · rw [chomp, ← List.reverse_append, List.takeWhile_append_dropWhile, List.reverse_reverse]
  · exact List.all_eq_true.mp List.all_takeWhile c (List.mem_reverse.mp hc)

theorem chomp_append_ends {ends : List Char} (h : ∀ c ∈ ends, isLineEnd c = true)
    (cs : List Char) : chomp (cs ++ ends) = chomp cs :=
  Text.dropEnd_append_of_pos h cs

theorem mem_of_mem_chomp {c : Char} {cs : List Char} (h : c ∈ chomp cs) : c ∈ cs :=
  Text.mem_of_mem_dropEnd h

theorem blank_of_isLineEnd {c : Char} (h : isLineEnd c = true) : Text.isBlank c = true := by
  rcases Bool.or_eq_true_iff.mp h with h | h <;> rw [of_decide_eq_true h] <;> rfl

theorem trimEnd_chomp (cs : List Char) : Text.trimEnd (chomp cs) = Text.trimEnd cs := by
  obtain ⟨ends, hcs, hends⟩ := exists_of_chomp cs
  have htrim := Text.trimEnd_append_of_blank (fun c hc => blank_of_isLineEnd (hends c hc))
    (chomp cs)
  rwa [← hcs, eq_comm] at htrim

theorem trim_chomp (cs : List Char) : Text.trim (chomp cs) = Text.trim cs := by
  obtain ⟨ends, hcs, hends⟩ := exists_of_chomp cs
  have htrim := Text.trim_append_of_blank (fun c hc => blank_of_isLineEnd (hends c hc)) (chomp cs)
  rwa [← hcs, eq_comm] at htrim

end Paf

end PolicyStore
