import PolicyStore.Proofs.Paf.Agreeing
import PolicyStore.Proofs.Paf.Appending
import PolicyStore.Proofs.Paf.Reading

set_option autoImplicit false

namespace PolicyStore

/-!
# Strings over several lines

A quoted string may run over several lines. It is then its pieces with a single space between each
two, whatever blanks stand at the ends of the lines and however many empty lines between them, and
the text goes on after it as after a string on one line.
-/

namespace Paf

variable {mark : Char} {cs : List Char} {q : OpenQuote}

/-! ## The marks -/

theorem isQuote_iff : isQuote mark = true ↔ mark = '"' ∨ mark = '\'' := by
  simp only [isQuote, Bool.or_eq_true, decide_eq_true_eq]

theorem isLineEnd_of_isQuote (hmark : isQuote mark = true) : isLineEnd mark = false := by
  rcases isQuote_iff.mp hmark with rfl | rfl <;> rfl

theorem not_blank_of_isQuote (hmark : isQuote mark = true) : Text.isBlank mark = false := by
  rcases isQuote_iff.mp hmark with rfl | rfl <;> rfl

theorem not_stop_of_isQuote (hmark : isQuote mark = true) : isStop mark = false := by
  rcases isQuote_iff.mp hmark with rfl | rfl <;> rfl

/-! ## The lines of a string -/

/-- Blanks within a line. -/
def IsSpace (cs : List Char) : Prop := ∀ c ∈ cs, Text.isBlank c = true ∧ c ≠ '\n'

/-- A piece of a string in quotes, and the blanks after it. -/
structure Segment (mark : Char) where
  text : List Char
  trail : List Char
  nonempty : text ≠ []
  inside : ∀ c ∈ text, c ≠ '\n' ∧ c ≠ mark
  last : ∀ c ∈ text.getLast?, Text.isBlank c = false
  trail_space : IsSpace trail

/-- A piece on a further line, the empty lines before that line, and the blanks before the piece. -/
structure Continuation (mark : Char) extends Segment mark where
  gap : List (List Char)
  indent : List Char
  first : ∀ c ∈ text.head?, Text.isBlank c = false
  gap_space : ∀ line ∈ gap, IsSpace line
  indent_space : IsSpace indent

def Segment.line (g : Segment mark) : List Char := g.text ++ g.trail

def Continuation.line (g : Continuation mark) : List Char := g.indent ++ g.toSegment.line

/-- The lines of a parameter `a` with a string that begins with one piece and ends with another. -/
def spread (first : Segment mark) (middle : List (Continuation mark)) (last : Continuation mark) :
    List (List Char) :=
  ('a' :: ':' :: ' ' :: mark :: first.line) ::
    (middle.flatMap (fun g => g.gap ++ [g.line]) ++ (last.gap ++ [last.line ++ [mark]]))

/-- The pieces with a space between each two. -/
def joined (first : Segment mark) (more : List (Continuation mark)) : List Char :=
  first.text ++ more.flatMap fun g => ' ' :: g.text

/-! ## A line of a string -/

/-- The string once a line is read that does not close it. -/
def OpenQuote.extend (q : OpenQuote) (line : List Char) : OpenQuote :=
  { q with text := joinPiece q.text (Text.trim line) }

theorem resume_of_not_mem (h : q.mark ∉ cs) (n : Nat) :
    resume q n (chomp cs) = ([], some (q.extend cs)) := by
  have hcs : q.mark ∉ Text.trimStart (chomp cs) := fun hmem =>
    h (mem_of_mem_chomp ((List.dropWhile_sublist _).mem hmem))
  have htrim : Text.trimEnd (Text.trimStart (chomp cs)) = Text.trim cs := trim_chomp cs
  simp only [resume, Text.cut_of_not_mem hcs, htrim, OpenQuote.extend]

theorem statementsFrom_of_not_mem (h : q.mark ∉ cs) (n : Nat) (more : List Line) :
    statementsFrom n (some q) (given [cs] ++ more) =
      statementsFrom (n + 1) (some (q.extend cs)) more := by
  simp [given, statementsFrom, readLine, resume_of_not_mem h]

theorem not_mem_of_isSpace (hmark : isQuote mark = true) (h : IsSpace cs) : mark ∉ cs := by
  intro hmem
  have hblank := (h mark hmem).1
  rw [not_blank_of_isQuote hmark] at hblank
  cases hblank

/-- Empty lines leave a string as it is. -/
theorem statementsFrom_gap (hmark : isQuote q.mark = true) {gap : List (List Char)}
    (hgap : ∀ line ∈ gap, IsSpace line) (more : List Line) : ∀ n : Nat,
    statementsFrom n (some q) (given gap ++ more) =
      statementsFrom (n + gap.length) (some q) more := by
  induction gap with
  | nil => exact fun _ => rfl
  | cons line gap ih =>
    intro n
    obtain ⟨hline, hgap⟩ := List.forall_mem_cons.mp hgap
    have hsame : q.extend line = q := by
      rw [OpenQuote.extend, Text.trim, Text.trimStart_eq_nil_of_blank fun c hc => (hline c hc).1]
      rfl
    have hstep := statementsFrom_of_not_mem (not_mem_of_isSpace hmark hline) n (given gap ++ more)
    rw [← List.append_assoc, ← given_append, List.singleton_append, hsame] at hstep
    rw [hstep, ih hgap, List.length_cons, Nat.add_right_comm, Nat.add_assoc]

/-! ## The pieces of a string -/

theorem Segment.not_mem_line (g : Segment mark) (hmark : isQuote mark = true) : mark ∉ g.line := by
  rw [Segment.line, List.mem_append, not_or]
  exact ⟨fun hmem => (g.inside mark hmem).2 rfl, not_mem_of_isSpace hmark g.trail_space⟩

theorem Continuation.not_mem_line (g : Continuation mark) (hmark : isQuote mark = true) :
    mark ∉ g.line := by
  rw [Continuation.line, List.mem_append, not_or]
  exact ⟨not_mem_of_isSpace hmark g.indent_space, g.toSegment.not_mem_line hmark⟩

theorem Segment.trimEnd_line (g : Segment mark) : Text.trimEnd g.line = g.text := by
  rw [Segment.line, Text.trimEnd_append_of_blank fun c hc => (g.trail_space c hc).1,
    Text.trimEnd_of_last g.last]

theorem Continuation.trimStart_line (g : Continuation mark) (rest : List Char) :
    Text.trimStart (g.line ++ rest) = g.toSegment.line ++ rest := by
  rw [Continuation.line, List.append_assoc,
    Text.trimStart_append_of_blank fun c hc => (g.indent_space c hc).1, Segment.line,
    List.append_assoc, Text.trimStart_append_of_head g.nonempty g.first]

theorem Continuation.trim_line (g : Continuation mark) : Text.trim g.line = g.text := by
  have hstart := g.trimStart_line []
  rw [List.append_nil, List.append_nil] at hstart
  rw [Text.trim, hstart, g.trimEnd_line]

theorem joinPiece_text {text : List Char} (hne : text ≠ []) (g : Segment mark) :
    joinPiece text g.text = text ++ ' ' :: g.text := by
  rw [joinPiece, if_neg g.nonempty, if_neg hne]

/-- A string that has begun, with some pieces more. -/
def OpenQuote.plus (q : OpenQuote) (gs : List (Continuation mark)) : OpenQuote :=
  { q with text := q.text ++ gs.flatMap fun g => ' ' :: g.text }

theorem OpenQuote.plus_cons (q : OpenQuote) (g : Continuation mark)
    (gs : List (Continuation mark)) : (q.plus [g]).plus gs = q.plus (g :: gs) := by
  simp [plus]

theorem extend_line (hne : q.text ≠ []) (g : Continuation mark) : q.extend g.line = q.plus [g] := by
  rw [OpenQuote.extend, g.trim_line, joinPiece_text hne, OpenQuote.plus, List.flatMap_singleton]

theorem statementsFrom_middle (hmark : isQuote mark = true) (more : List Line)
    (middle : List (Continuation mark)) : ∀ (n : Nat) (q : OpenQuote), q.mark = mark → q.text ≠ [] →
      statementsFrom n (some q) (given (middle.flatMap fun g => g.gap ++ [g.line]) ++ more) =
        statementsFrom (n + (middle.flatMap fun g => g.gap ++ [g.line]).length)
          (some (q.plus middle)) more := by
  induction middle with
  | nil =>
    intro n q _ _
    simp [OpenQuote.plus, given]
  | cons g middle ih =>
    intro n q hq hne
    subst hq
    have hplus : (q.plus [g]).text ≠ [] := List.append_ne_nil_of_left_ne_nil hne _
    rw [List.flatMap_cons, given_append, given_append, List.append_assoc, List.append_assoc,
      statementsFrom_gap hmark g.gap_space, statementsFrom_of_not_mem (g.not_mem_line hmark),
      extend_line hne, ih _ (q.plus [g]) rfl hplus, OpenQuote.plus_cons]
    simp only [List.length_append, List.length_singleton, Nat.add_assoc]

/-- A line that ends with the mark closes the string. -/
theorem resume_of_mark (hmark : isQuote q.mark = true) (g : Continuation q.mark)
    (hne : q.text ≠ []) (n : Nat) : resume q n (chomp (g.line ++ [q.mark])) =
      ([.values q.name (q.items ++ [.value n (.string (String.ofList (q.plus [g]).text))])],
        none) := by
  have hchomp : chomp (g.line ++ [q.mark]) = g.line ++ [q.mark] := by
    rw [chomp_append_cons (isLineEnd_of_isQuote hmark)]
    rfl
  have hcut : Text.cut q.mark (Text.trimStart (chomp (g.line ++ [q.mark]))) =
      some (g.toSegment.line, []) := by
    rw [hchomp, g.trimStart_line, Text.cut_append (g.toSegment.not_mem_line hmark)]
  have hquoted : quoted n q.name.toList [] = ([], .rest []) := by
    rw [quoted_eq]
    rfl
  have hscan : scan n [] = ([], none) := scan_of_quiet (Or.inl rfl)
  simp only [resume, hcut, hquoted, hscan, g.trimEnd_line, joinPiece_text hne, List.append_nil,
    OpenQuote.plus, List.flatMap_singleton]

/-- The last line closes the string. -/
theorem statementsFrom_last (hmark : isQuote mark = true) (more : List Line)
    (last : Continuation mark) (n : Nat) (hq : q.mark = mark) (hne : q.text ≠ []) :
    statementsFrom n (some q) (given (last.gap ++ [last.line ++ [mark]]) ++ more) =
      .values q.name (q.items ++ [.value (n + last.gap.length)
        (.string (String.ofList (q.plus [last]).text))]) ::
          statementsFrom (n + last.gap.length + 1) none more := by
  subst hq
  rw [given_append, List.append_assoc, statementsFrom_gap hmark last.gap_space]
  simp only [given, List.map_cons, List.map_nil, List.singleton_append, statementsFrom, readLine,
    resume_of_mark hmark last hne]

/-- The first line opens the string. -/
theorem scan_first (hmark : isQuote mark = true) (first : Segment mark) (n : Nat) :
    scan n (chomp ('a' :: ':' :: ' ' :: mark :: first.line)) =
      ([], some ⟨"a", [], mark, n, first.text⟩) := by
  have hchomp : chomp ('a' :: ':' :: ' ' :: mark :: first.line) =
      'a' :: ':' :: ' ' :: mark :: chomp first.line :=
    chomp_append_cons (isLineEnd_of_isQuote hmark) ['a', ':', ' '] first.line
  have hline : mark ∉ chomp first.line := fun hmem =>
    first.not_mem_line hmark (mem_of_mem_chomp hmem)
  have hend : Text.trimEnd (chomp first.line) = first.text := by
    rw [trimEnd_chomp, first.trimEnd_line]
  have htrim (cs : List Char) : Text.trimStart (mark :: cs) = mark :: cs :=
    Text.trimStart_cons_of_not_blank (not_blank_of_isQuote hmark) cs
  have hquoted : quoted n ['a'] (mark :: chomp first.line) =
      ([], .open_ mark first.text) := by
    rw [quoted_eq, htrim]
    simp only [not_stop_of_isQuote hmark, hmark, Text.cut_of_not_mem hline, hend, joinPiece, if_neg first.nonempty,
      if_true, Bool.false_eq_true, if_false]
  have hvalue : stepValue n ['a'] (mark :: chomp first.line) =
      .pause ⟨"a", [], mark, n, first.text⟩ := by
    have hname : String.ofList ['a'] = "a" := rfl
    rcases isQuote_iff.mp hmark with rfl | rfl <;> simp [stepValue, isQuote, hquoted, hname]
  have hstep : step n ('a' :: ':' :: ' ' :: mark :: chomp first.line) =
      .pause ⟨"a", [], mark, n, first.text⟩ := by
    have hname : isParameterName ['a'] = true := by decide
    have hspace : ∀ c ∈ [' '], Text.isBlank c = true := fun c hc => List.mem_singleton.mp hc ▸ rfl
    have hwritten := @step_of_written n [] ['a'] (fun c hc => by cases hc)
      (isWritten_of_isParameterName hname) (' ' :: mark :: chomp first.line)
    have hstart : Text.trimStart (' ' :: mark :: chomp first.line) = mark :: chomp first.line :=
      (Text.trimStart_append_of_blank hspace _).trans (htrim _)
    rw [if_pos hname, hstart, hvalue] at hwritten
    exact hwritten
  rw [hchomp, scan_eq, hstep]

/-! ## The text -/

/-- A text of some lines is read line by line. -/
theorem linesOfText_textOf_append {lines : List (List Char)} (hne : lines ≠ [])
    (h : ∀ line ∈ lines, '\n' ∉ line) (back : String) :
    linesOfText (textOf lines ++ "\n" ++ back) = given lines ++ linesOfText back := by
  rw [linesOfText_append]
  congr 1
  induction lines with
  | nil => exact (hne rfl).elim
  | cons line lines ih =>
    obtain ⟨hline, hlines⟩ := List.forall_mem_cons.mp h
    cases lines with
    | nil =>
      have htext : textOf [line] = String.ofList line := by
        simp [textOf, List.intercalate]
      rw [htext, linesOfText_line hline]
    | cons next lines =>
      have htext : textOf (line :: next :: lines) ++ "\n" =
          String.ofList line ++ "\n" ++ (textOf (next :: lines) ++ "\n") := by
        have hcut : ['\n'].intercalate (line :: next :: lines) =
            line ++ (['\n'] ++ ['\n'].intercalate (next :: lines)) := by
          simp [List.intercalate]
        simp only [textOf, hcut, String.ofList_append, String.append_assoc]
      rw [htext, linesOfText_append, linesOfText_line hline, ih (List.cons_ne_nil _ _) hlines]
      rfl

theorem spread_ne_nil (first : Segment mark) (middle : List (Continuation mark))
    (last : Continuation mark) : spread first middle last ≠ [] :=
  List.cons_ne_nil _ _

theorem oneLine_spread (hmark : isQuote mark = true) (first : Segment mark)
    (middle : List (Continuation mark)) (last : Continuation mark) :
    ∀ line ∈ spread first middle last, '\n' ∉ line := by
  have hspace {cs : List Char} (h : IsSpace cs) : '\n' ∉ cs := fun hmem => (h _ hmem).2 rfl
  have hsegment (g : Segment mark) : '\n' ∉ g.line := by
    rw [Segment.line, List.mem_append, not_or]
    exact ⟨fun hmem => (g.inside _ hmem).1 rfl, hspace g.trail_space⟩
  have hline (g : Continuation mark) : '\n' ∉ g.line := by
    rw [Continuation.line, List.mem_append, not_or]
    exact ⟨hspace g.indent_space, hsegment g.toSegment⟩
  have hend : mark ≠ '\n' := by
    rintro rfl
    cases hmark
  intro line hmem
  rcases List.mem_cons.mp hmem with rfl | hmem
  · simp [hsegment, Ne.symm hend]
  rcases List.mem_append.mp hmem with hmem | hmem
  · obtain ⟨g, -, hmem⟩ := List.mem_flatMap.mp hmem
    rcases List.mem_append.mp hmem with hmem | hmem
    · exact hspace (g.gap_space line hmem)
    · rw [List.mem_singleton.mp hmem]
      exact hline g
  · rcases List.mem_append.mp hmem with hmem | hmem
    · exact hspace (last.gap_space line hmem)
    · rw [List.mem_singleton.mp hmem]
      simp [hline, Ne.symm hend]

/-- The lines of a string come to a parameter with the joined string, and the text goes on after
them. -/
theorem statements_spread (hmark : isQuote mark = true) (first : Segment mark)
    (middle : List (Continuation mark)) (last : Continuation mark) (more : List Line) :
    statements (given (spread first middle last) ++ more) =
      .values "a" [.value (spread first middle last).length
        (.string (String.ofList (joined first (middle ++ [last]))))] ::
          statementsFrom (1 + (spread first middle last).length) none more := by
  have hopen (more : List Line) : statements
      (given ['a' :: ':' :: ' ' :: mark :: first.line] ++ more) =
        statementsFrom 2 (some ⟨"a", [], mark, 1, first.text⟩) more := by
    simp only [given, List.map_cons, List.map_nil, List.singleton_append, statements,
      statementsFrom, readLine, scan_first hmark, List.nil_append]
  generalize hbetween : (middle.flatMap fun g => g.gap ++ [g.line]) = between
  have hspread : spread first middle last = ['a' :: ':' :: ' ' :: mark :: first.line] ++
      (between ++ (last.gap ++ [last.line ++ [mark]])) := by
    rw [← hbetween]
    rfl
  have hlength : (spread first middle last).length = 2 + between.length + last.gap.length := by
    rw [hspread]
    simp only [List.length_append, List.length_singleton]
    omega
  have hjoined : joined first (middle ++ [last]) =
      ((OpenQuote.plus ⟨"a", [], mark, 1, first.text⟩ middle).plus [last]).text := by
    simp [joined, OpenQuote.plus]
  have hmiddle := statementsFrom_middle hmark
    (given (last.gap ++ [last.line ++ [mark]]) ++ more) middle 2
    ⟨"a", [], mark, 1, first.text⟩ rfl first.nonempty
  rw [hbetween] at hmiddle
  rw [hlength, hjoined, hspread, given_append, given_append, List.append_assoc, hopen,
    List.append_assoc, hmiddle, statementsFrom_last hmark]
  · rw [Nat.add_comm 1]
    rfl
  · rfl
  · exact List.append_ne_nil_of_left_ne_nil first.nonempty _

/-- The line of a parameter `a` with a string in double quotes. -/
def stringLine (x : String) : List Char :=
  named [] "a" ([' '].intercalate ([x].map fun t => literalText (.string t))) []

theorem linesOfText_stringLine {x : String} (h : '\n' ∉ x.toList) (back : String) :
    linesOfText ("a: \"" ++ x ++ "\"" ++ "\n" ++ back) =
      given [stringLine x] ++ linesOfText back := by
  have htext : "a: \"" ++ x ++ "\"" = String.ofList (stringLine x) := by
    apply String.toList_inj.mp
    simp [stringLine, named, literalText, List.intercalate]
  have hline : '\n' ∉ stringLine x := by
    simpa [stringLine, named, literalText, List.intercalate] using h
  rw [htext, linesOfText_append, linesOfText_line hline]

theorem statements_stringLine {x : String} (h : '"' ∉ x.toList) (more : List Line) :
    statements (given [stringLine x] ++ more) =
      .values "a" [.value 1 (.string x)] :: statementsFrom 2 none more := by
  have hscan : scan 1 (chomp (stringLine x)) = ([.values "a" [.value 1 (.string x)]], none) :=
    scan_strings (fun c hc => by cases hc) .none (by decide) (by simpa using h)
  rw [statements, statementsFrom_of_scan hscan]
  rfl

/-! ## Parsing -/

section Parsing

variable {s : Store} {target : Policy}

/-- A string is read into a policy that is empty so far. -/
theorem parse_of_string (hempty : s.node target = {})
    {lines : List Line} {n : Nat} {w : String} {rest : List Statement}
    (h : statements lines = .values "a" [.value n (.string w)] :: rest) :
    parse target lines ⟨s, { strict := true }⟩ =
      (run { policy := target, count := 1 } [] rest >>= finish lines.length)
        ⟨s.setEntries target [("a", .strings [w])], { strict := true }⟩ := by
  have hrows : s.entries target = [] := by
    rw [Store.entries, hempty]
  have hplain : s.dictionary? target = none := by
    rw [Store.dictionary?, hempty]
  have hadd : s.add target "a" (.string w) = .ok (s.setEntries target [("a", .strings [w])]) := by
    rw [Store.add_eq_setEntries (.strings [w]) rfl hplain (by rw [hrows]; rfl), hrows]
    rfl
  have hitems : addItems target "a" [.value n (.string w)] ⟨s, { strict := true }⟩ =
      .ok true ⟨s.setEntries target [("a", .strings [w])], { strict := true }⟩ :=
    (bind_of_run (addValue_of_add n hadd)).trans rfl
  rw [parse_eq, h]
  exact bind_congr_of_run (run_values hitems)

theorem rewords_setEntries (htarget : target.id < s.size) (x y : String) :
    (s.setEntries target [("a", .strings [x])]).Rewords target "a" x y
      (s.setEntries target [("a", .strings [y])]) := by
  refine ⟨[], ?_, ?_⟩
  · rw [Store.entries_setEntries_self htarget]
    rfl
  · rw [Store.entries_setEntries_self htarget, Store.setEntries_setEntries]
    rfl

/-- Two texts that differ in their first string, and in the lines on which the same statements
follow. -/
theorem parse_agrees (htarget : target.id < s.size) (hempty : s.node target = {})
    {lines lines' : List Line} {m m' k : Nat} {x y : String} {rest : List Statement}
    (h : statements lines = .values "a" [.value m (.string x)] :: rest)
    (h' : statements lines' = .values "a" [.value m' (.string y)] :: rest.map (Statement.later k))
    (hlength : lines'.length = lines.length + k) :
    ∃ outcome, Agrees target "a" x y (parse target lines ⟨s, { strict := true }⟩) outcome ∧
      parse target lines' ⟨s, { strict := true }⟩ = delayed k id outcome := by
  have hplain : (s.setEntries target [("a", .strings [x])]).dictionary? target = none := by
    rw [Store.dictionary?_setEntries, Store.dictionary?, hempty]
  have halike : Alike target "a" x y ⟨s.setEntries target [("a", .strings [x])], { strict := true }⟩
      ⟨s.setEntries target [("a", .strings [y])], { strict := true }⟩ :=
    ⟨rewords_setEntries htarget x y, rfl⟩
  have hagrees := (agrees_run rest { policy := target, count := 1 } [] halike
    (List.forall_mem_singleton.mpr hplain)).bind fun o u _ hu => agrees_finish hu lines.length o
  have hdelays := (delays_run k rest { policy := target, count := 1 } []
    (t := ⟨s.setEntries target [("a", .strings [y])], { strict := true }⟩) rfl).bind
      (strict_run _ _ _ _) (fun o _ => delays_finish k lines.length o) rfl
  rw [← parse_of_string hempty h] at hagrees
  rw [← hlength, ← parse_of_string hempty h'] at hdelays
  exact ⟨_, hagrees, hdelays⟩

/-- A strict parser makes of a string over several lines, and of whatever text follows, what it makes
of a string on one line and that text: it counts the same and leaves the same store but for that
string, or fails with the same fault, as many lines further down as there are more of them. -/
theorem parse_string_over_lines (htarget : target.id < s.size) (hempty : s.node target = {})
    (hmark : isQuote mark = true) (first : Segment mark) (middle : List (Continuation mark))
    (last : Continuation mark) {x : String} (hx : '"' ∉ x.toList) (hline : '\n' ∉ x.toList)
    (back : String) :
    (∀ n u, parse target (linesOfText ("a: \"" ++ x ++ "\"" ++ "\n" ++ back))
        ⟨s, { strict := true }⟩ = .ok n u →
      ∃ u', parse target (linesOfText (textOf (spread first middle last) ++ "\n" ++ back))
          ⟨s, { strict := true }⟩ = .ok n u' ∧
        u.store.Rewords target "a" x (String.ofList (joined first (middle ++ [last]))) u'.store ∧
        u'.parser = u.parser) ∧
    ∀ e u, parse target (linesOfText ("a: \"" ++ x ++ "\"" ++ "\n" ++ back))
        ⟨s, { strict := true }⟩ = .error e u →
      ∃ u', parse target (linesOfText (textOf (spread first middle last) ++ "\n" ++ back))
          ⟨s, { strict := true }⟩ =
            .error (e.later ((spread first middle last).length - 1)) u' ∧
        u.store.Rewords target "a" x (String.ofList (joined first (middle ++ [last]))) u'.store := by
  obtain ⟨k, hk⟩ : ∃ k, (spread first middle last).length = 1 + k :=
    Nat.exists_eq_add_of_le (List.length_pos_iff.mpr (spread_ne_nil first middle last))
  have hmany := statements_spread hmark first middle last (linesOfText back)
  have hlater : statementsFrom (2 + k) none (linesOfText back) =
      (statementsFrom 2 none (linesOfText back)).map (Statement.later k) :=
    statementsFrom_later k (linesOfText back) 2 none
  rw [hk, ← Nat.add_assoc, hlater] at hmany
  have hlength : (given (spread first middle last) ++ linesOfText back).length =
      (given [stringLine x] ++ linesOfText back).length + k := by
    simp only [given, List.length_append, List.length_map, hk, List.length_singleton]
    omega
  obtain ⟨outcome, hagrees, hrun⟩ :=
    parse_agrees htarget hempty (statements_stringLine hx _) hmany hlength
  rw [linesOfText_stringLine hline,
    linesOfText_textOf_append (spread_ne_nil first middle last)
      (oneLine_spread hmark first middle last), hk, Nat.add_sub_cancel_left, hrun]
  constructor
  · intro n u h
    rw [h] at hagrees
    cases hagrees with
    | ok halike => exact ⟨_, rfl, halike.store, halike.parser⟩
  · intro e u h
    rw [h] at hagrees
    cases hagrees with
    | error halike => exact ⟨_, rfl, halike.store⟩

/-- Marks, a brace and a colon in a string on three lines, and a parameter after it. -/
theorem parse_string_over_three_lines :
    parse ⟨0⟩ (linesOfText "a: 'x # \x7b \n\n  \x7d b:\"'\nc: 1") ⟨⟨#[{}]⟩, { strict := true }⟩ =
      .ok 2 ⟨⟨#[⟨[("a", .strings ["x # \x7b \x7d b:\""]), ("c", .ints [1])], none⟩]⟩,
        { strict := true }⟩ := by
  have hone : parse ⟨0⟩ (linesOfText ("a: \"" ++ "" ++ "\"" ++ "\n" ++ "c: 1"))
      ⟨⟨#[{}]⟩, { strict := true }⟩ =
        .ok 2 ⟨⟨#[⟨[("a", .strings [""]), ("c", .ints [1])], none⟩]⟩, { strict := true }⟩ := by
    rw [linesOfText_stringLine (by decide), parse_of_string rfl (statements_stringLine (by decide) _)]
    cbv
  let first : Segment '\'' := ⟨['x', ' ', '#', ' ', '\x7b'], [' '], by simp, by simp,
    by simp [Text.isBlank], by simp [IsSpace, Text.isBlank]⟩
  let last : Continuation '\'' := ⟨⟨['\x7d', ' ', 'b', ':', '"'], [], by simp, by simp,
    by simp [Text.isBlank], by simp [IsSpace]⟩, [[]], [' ', ' '], by simp [Text.isBlank],
    by simp [IsSpace], by simp [IsSpace, Text.isBlank]⟩
  have htext : textOf (spread first [] last) ++ "\n" ++ "c: 1" =
      "a: 'x # \x7b \n\n  \x7d b:\"'\nc: 1" := by
    decide +kernel
  have hjoined : String.ofList (joined first ([] ++ [last])) = "x # \x7b \x7d b:\"" := by
    decide +kernel
  obtain ⟨⟨store, parser⟩, hrun, ⟨rest, hget, hstore⟩, hparser⟩ :=
    (parse_string_over_lines (by decide) rfl rfl first [] last (by decide) (by decide) "c: 1").1 _ _ hone
  obtain rfl : rest = [] := by
    simpa [Store.entries, Store.node, Table.get?] using hget.symm
  rw [hjoined] at hstore
  obtain rfl : parser = { strict := true } := hparser
  obtain rfl : store =
      ⟨#[⟨[("a", .strings ["x # \x7b \x7d b:\""]), ("c", .ints [1])], none⟩]⟩ :=
    hstore.trans (by decide +kernel)
  rw [← htext, hrun]

end Parsing

end Paf

end PolicyStore
