import Mathlib
import PolicyStore.Source
import PolicyStore.Proofs.Paf.Accepting

set_option autoImplicit false

namespace PolicyStore

/-!
# Recognising a text and reading it

The format of a text is told by its leading line, cut and looked at in a way of its own. The parser
reads its first statement on the same line, and a line that does not look like a parameter gives it
nothing but a fault. So no text is refused for its looks that a strict parser accepts; a lenient
parser never gets to see such a line.
-/

/-! ## Lines without their ends -/

theorem exists_of_withoutTerminator (line : List Char) :
    ∃ ends, line = withoutTerminator line ++ ends ∧ ∀ c ∈ ends, Paf.isLineEnd c = true := by
  have hline (ends : List Char) {rest : List Char} (h : line.reverse = ends ++ rest) :
      line = rest.reverse ++ ends.reverse := by
    rw [← List.reverse_append, ← h, List.reverse_reverse]
  unfold withoutTerminator
  split
  · rename_i rest h
    exact ⟨['\r', '\n'], hline ['\n', '\r'] h, by simp [Paf.isLineEnd]⟩
  · rename_i rest _ h
    exact ⟨['\n'], hline ['\n'] h, by simp [Paf.isLineEnd]⟩
  · exact ⟨[], (List.append_nil _).symm, by simp⟩

/-- The parser takes at least as much off the end of a line as the search for the leading line does,
and only blanks more. -/
theorem withoutTerminator_eq (line : List Char) : ∃ blanks,
    withoutTerminator line = Paf.chomp line ++ blanks ∧ ∀ c ∈ blanks, Text.isBlank c = true := by
  obtain ⟨ends, hline, hends⟩ := exists_of_withoutTerminator line
  obtain ⟨more, hmore, hblank⟩ := Paf.exists_of_chomp (withoutTerminator line)
  refine ⟨more, ?_, fun c hc => Paf.blank_of_isLineEnd (hblank c hc)⟩
  rw [← Paf.chomp_append_ends hends, ← hline] at hmore
  exact hmore

/-! ## Lines that begin a parameter -/

/-- A line begins as a parameter does: with a word that may have dots in it, and a colon. -/
def BeginsParameter (line : List Char) : Prop :=
  ∃ indent c word gap after, line = indent ++ c :: (word ++ (gap ++ ':' :: after)) ∧
    (∀ b ∈ indent, Text.isBlank b = true) ∧ Text.isWordChar c = true ∧
    (∀ d ∈ word, Text.isWordChar d = true ∨ d = '.') ∧ ∀ b ∈ gap, Text.isBlank b = true

theorem BeginsParameter.append {line : List Char} (h : BeginsParameter line) (rest : List Char) :
    BeginsParameter (line ++ rest) := by
  obtain ⟨indent, c, word, gap, after, rfl, h⟩ := h
  exact ⟨indent, c, word, gap, after ++ rest, by simp, h⟩

theorem Format.looksNative_iff (line : List Char) :
    looksNative line = true ↔ BeginsParameter line := by
  unfold looksNative
  dsimp only
  rw [Bool.and_eq_true, decide_eq_true_eq]
  constructor
  · rintro ⟨hword, hcolon⟩
    obtain ⟨indent, hline, hindent⟩ := Text.exists_of_trimStart line
    cases htrim : Text.trimStart line with
    | nil => simp [htrim] at hword
    | cons c rest =>
      rw [htrim] at hword hcolon hline
      have hc : Text.isWordChar c = true := by simpa using hword
      rw [List.dropWhile_cons_of_pos (by simp [hc])] at hcolon
      obtain ⟨gap, hrest, hgap⟩ :=
        Text.exists_of_trimStart (rest.dropWhile fun d => Text.isWordChar d || d = '.')
      obtain ⟨after, hafter⟩ := List.head?_eq_some_iff.mp hcolon
      rw [hafter] at hrest
      refine ⟨indent, c, rest.takeWhile fun d => Text.isWordChar d || d = '.', gap, after, ?_,
        hindent, hc, fun d hd => ?_, hgap⟩
      · rw [← hrest, List.takeWhile_append_dropWhile, ← hline]
      · simpa using List.all_eq_true.mp List.all_takeWhile d hd
  · rintro ⟨indent, c, word, gap, after, rfl, hindent, hc, hword, hgap⟩
    have hstop : ∀ b ∈ (gap ++ ':' :: after).head?, ¬(Text.isWordChar b || b = '.') = true := by
      intro b hb hpart
      have hblank : Text.isBlank b = true ∨ b = ':' := by
        cases gap with
        | nil => exact Or.inr (by simpa [eq_comm] using hb)
        | cons d gap =>
          obtain rfl : d = b := by simpa using hb
          exact Or.inl (hgap _ List.mem_cons_self)
      rcases hblank with hblank | rfl
      · rcases (Bool.or_eq_true_iff.mp hpart) with hchar | hdot
        · rw [Paf.not_blank_of_isWordChar hchar] at hblank
          cases hblank
        · rw [of_decide_eq_true hdot] at hblank
          cases hblank
      · revert hpart
        decide
    have htrim : Text.trimStart (indent ++ c :: (word ++ (gap ++ ':' :: after))) =
        c :: (word ++ (gap ++ ':' :: after)) := by
      rw [Text.trimStart_append_of_blank hindent]
      exact Text.trimStart_cons_of_not_blank (Paf.not_blank_of_isWordChar hc) _
    have hdrop : (c :: (word ++ (gap ++ ':' :: after))).dropWhile
        (fun d => Text.isWordChar d || d = '.') = gap ++ ':' :: after := by
      rw [List.dropWhile_cons_of_pos (by simp [hc]),
        List.dropWhile_append_of_pos fun d hd => by simpa using hword d hd]
      cases hgap' : gap ++ ':' :: after with
      | nil => rfl
      | cons b rest => exact List.dropWhile_cons_of_neg (hstop b (by simp [hgap']))
    have hcolon : Text.trimStart (gap ++ ':' :: after) = ':' :: after := by
      rw [Text.trimStart_append_of_blank hgap]
      exact Text.trimStart_cons_of_not_blank (by decide) _
    rw [htrim, hdrop, hcolon]
    exact ⟨by simp [hc], rfl⟩

namespace Paf

/-- A parameter whose name is legal begins as a parameter does. -/
theorem beginsParameter_of_splitParameter? {cs name after : List Char}
    (h : splitParameter? (Text.trimStart cs) = some (name, after))
    (hname : isParameterName name = true) : BeginsParameter cs := by
  unfold splitParameter? at h
  split at h
  · rename_i rest hcolon
    split at h
    · cases h
    · cases h
      obtain ⟨c, word, hcons, hc, hword⟩ := exists_of_isParameterName hname
      obtain ⟨indent, hcs, hindent⟩ := Text.exists_of_trimStart cs
      obtain ⟨gap, hgap, hblank⟩ :=
        Text.exists_of_trimStart ((Text.trimStart cs).dropWhile isNamePart)
      rw [hcolon] at hgap
      refine ⟨indent, c, word, gap, after, ?_, hindent, hc, hword, hblank⟩
      rw [← hgap, ← List.cons_append, ← hcons, List.takeWhile_append_dropWhile]
      exact hcs
  · cases h

/-! ## The first statement -/

/-- A statement that is a fault if it comes first: no block is open that it could close. -/
def Statement.CannotLead : Statement → Prop
  | .fault _ => True
  | .closing _ _ => True
  | _ => False

theorem Quiet.of_append {cs tail : List Char} (h : Quiet (cs ++ tail)) : Quiet cs := by
  cases hcs : Text.trimStart cs with
  | nil => exact Or.inl hcs
  | cons c rest =>
    rw [Quiet, Text.trimStart_append_of_eq_cons hcs] at h
    rcases h with h | ⟨more, h⟩
    · cases h
    · exact Or.inr ⟨rest, hcs.trans (congrArg (· :: rest) (List.cons.inj h).1)⟩

theorem Quiet.append {cs : List Char} (h : Quiet cs) {blanks : List Char}
    (hblanks : ∀ c ∈ blanks, Text.isBlank c = true) : Quiet (cs ++ blanks) := by
  rcases h with h | ⟨rest, h⟩
  · rw [Quiet, Text.trimStart_append_of_blank (Text.blank_of_trimStart_eq_nil h)]
    exact Or.inl (Text.trimStart_eq_nil_of_blank hblanks)
  · exact Or.inr ⟨rest ++ blanks, Text.trimStart_append_of_eq_cons h blanks⟩

theorem step_of_not_quiet (n : Nat) {cs : List Char} (h : ¬ Quiet cs) :
    BeginsParameter cs ∨ ∃ s rest, step n cs = .emit s rest ∧ s.CannotLead := by
  unfold step
  split
  · rename_i heq
    exact (h (Or.inl heq)).elim
  · rename_i rest heq
    exact (h (Or.inr ⟨rest, heq⟩)).elim
  · exact Or.inr ⟨_, _, rfl, trivial⟩
  · split
    · exact Or.inr ⟨_, _, rfl, trivial⟩
    · rename_i name after hsplit
      split
      · rename_i hname
        exact Or.inl (beginsParameter_of_splitParameter? hsplit hname)
      · exact Or.inr ⟨_, _, rfl, trivial⟩

/-- Lines on which nothing is read only move the lines after them down. -/
theorem statementsFrom_of_quiet {lines : List (List Char)} (h : ∀ line ∈ lines, Quiet (chomp line))
    (n : Nat) (more : List Line) :
    statementsFrom n none (given lines ++ more) = statementsFrom (n + lines.length) none more := by
  induction lines generalizing n with
  | nil => rfl
  | cons line lines ih =>
    have hline := statementsFrom_of_scan (n := n) (scan_of_quiet (h line List.mem_cons_self))
      (given lines ++ more)
    rw [← List.singleton_append, given_append, List.append_assoc, hline, List.nil_append,
      ih fun line hmem => h line (List.mem_cons_of_mem _ hmem)]
    congr 1
    simp only [List.singleton_append, List.length_cons]
    omega

theorem statementsFrom_of_emit {n : Nat} {cs rest : List Char} {s : Statement}
    (h : step n cs = .emit s rest) (more : List Line) :
    ∃ found, statementsFrom n none (some cs :: more) = s :: found := by
  rw [statementsFrom, readLine, scan_eq, h]
  exact ⟨_, rfl⟩

/-- A strict run fails at a statement that cannot come first. -/
theorem run_of_cannotLead {t : Session} (ht : t.parser.strict = true) (hdepth : t.parser.depth = 0)
    {statement : Statement} (h : statement.CannotLead) (inner : Block) (outer : List Block)
    (rest : List Statement) : ∃ e, run inner outer (statement :: rest) t = .error e t := by
  have hreport (e : ParseError) : (ParseM.report e >>= fun _ => run inner outer rest) t =
      .error (.parse e) t := by
    rw [bind_of_error (e := .parse e) (by rw [answer, report_of_strict ht]), after,
      report_of_strict ht]
  cases statement with
  | fault e => exact ⟨_, hreport e⟩
  | closing line followed =>
    rw [run_closing_of_unmatched hdepth]
    exact ⟨_, hreport _⟩
  | _ => exact h.elim

end Paf

/-! ## Leading lines -/

theorem quiet_of_not_isLeading {line : List Char} (h : isLeading line = false) :
    Paf.Quiet line := by
  have hhead := Text.head?_trim line
  unfold isLeading at h
  split at h
  · rename_i htrim
    rw [htrim] at hhead
    exact Or.inl (List.head?_eq_none_iff.mp hhead.symm)
  · rename_i c rest htrim
    rw [htrim] at hhead
    obtain ⟨rest', hrest'⟩ := List.head?_eq_some_iff.mp hhead.symm
    have hc : c = '#' := by simpa using (Bool.or_eq_false_iff.mp h).1
    exact Or.inr ⟨rest', hc ▸ hrest'⟩

theorem not_quiet_of_isLeading {line : List Char} (h : isLeading line = true)
    (hheader : Format.headerFormat? line = none) : ¬ Paf.Quiet line := by
  have hhead := Text.head?_trim line
  unfold isLeading at h
  rw [hheader] at h
  rintro (hquiet | ⟨rest, hquiet⟩)
  · rw [hquiet] at hhead
    rw [List.head?_eq_none_iff.mp hhead] at h
    cases h
  · rw [hquiet] at hhead
    obtain ⟨rest', hrest'⟩ := List.head?_eq_some_iff.mp hhead
    rw [hrest'] at h
    cases h

/-- The leading line is a line on which the parser reads something, and the first such line. -/
theorem exists_of_leadingLine? {text line : String} (h : leadingLine? text = some line)
    (hheader : Format.headerFormat? line.toList = none) : ∃ n piece blanks more,
      line.toList = Paf.chomp piece ++ blanks ∧ ¬ Paf.Quiet (Paf.chomp piece) ∧
      Paf.statements (Paf.linesOfText text) =
        Paf.statementsFrom n none (some (Paf.chomp piece) :: more) := by
  obtain ⟨cs, hfind, rfl⟩ := Option.map_eq_some_iff.mp h
  rw [String.toList_ofList] at hheader
  obtain ⟨hleading, before, after, hlines, hbefore⟩ := List.find?_eq_some_iff_append.mp hfind
  obtain ⟨pieces, others, hpieces, rfl, hothers⟩ := List.map_eq_append_iff.mp hlines
  obtain ⟨piece, rest, rfl, rfl, rfl⟩ := List.map_eq_cons_iff.mp hothers
  obtain ⟨blanks, hcut, hblanks⟩ := withoutTerminator_eq piece
  have hquiet : ∀ line ∈ pieces, Paf.Quiet (Paf.chomp line) := by
    intro line hmem
    obtain ⟨tail, hline, -⟩ := withoutTerminator_eq line
    have hnot := hbefore _ (List.mem_map_of_mem hmem)
    rw [Bool.not_eq_true'] at hnot
    have hquiet := quiet_of_not_isLeading hnot
    rw [hline] at hquiet
    exact hquiet.of_append
  refine ⟨1 + pieces.length, piece, blanks, Paf.given rest, by rw [String.toList_ofList, hcut],
    fun hnone => ?_, ?_⟩
  · exact not_quiet_of_isLeading hleading hheader (hcut ▸ hnone.append hblanks)
  · have hgiven : Paf.linesOfText text = Paf.given pieces ++ Paf.given (piece :: rest) := by
      rw [← Paf.given_append, ← hpieces]
      rfl
    rw [Paf.statements, hgiven, Paf.statementsFrom_of_quiet hquiet]
    rfl

/-- A leading line that neither is a header nor begins a parameter gives the parser a fault. -/
theorem exists_of_not_beginsParameter {text line : String} (h : leadingLine? text = some line)
    (hheader : Format.headerFormat? line.toList = none) (hbegins : ¬ BeginsParameter line.toList) :
    ∃ statement rest, Paf.statements (Paf.linesOfText text) = statement :: rest ∧
      statement.CannotLead := by
  obtain ⟨n, piece, blanks, more, hline, hquiet, hstatements⟩ := exists_of_leadingLine? h hheader
  rcases Paf.step_of_not_quiet n hquiet with hparameter | ⟨statement, rest, hstep, hlead⟩
  · exact (hbegins (hline ▸ hparameter.append blanks)).elim
  · obtain ⟨found, hfound⟩ := Paf.statementsFrom_of_emit hstep more
    exact ⟨statement, found, hstatements.trans hfound, hlead⟩

/-! ## Texts -/

theorem equalIgnoringAsciiCase_comm (s t : String) :
    Text.equalIgnoringAsciiCase s t = Text.equalIgnoringAsciiCase t s :=
  decide_eq_decide.mpr eq_comm

theorem formatOf_of_none {text : String} (h : leadingLine? text = none) :
    formatOf text = .ok .paf := by
  rw [formatOf, h]
  rfl

theorem formatOf_of_header {text line named : String} (h : leadingLine? text = some line)
    (hheader : Format.headerFormat? line.toList = some named)
    (hnamed : Text.equalIgnoringAsciiCase named "PAF" = true) : formatOf text = .ok .paf := by
  have hfind : Registry.standard.recognize (some line) = some .paf := by
    rw [Registry.recognize, hheader]
    refine List.find?_cons_of_pos ?_
    rw [equalIgnoringAsciiCase_comm]
    exact hnamed
  rw [formatOf, h, hfind]

theorem recognize_of_no_header {line : String} (h : Format.headerFormat? line.toList = none) :
    Registry.standard.recognize (some line) =
      if Format.looksNative line.toList then some .paf else none := by
  have hrecognizes : Format.recognizes .paf line = Format.looksNative line.toList := by
    rw [Format.recognizes, h]
  rw [Registry.recognize, h]
  simp only [Registry.standard, List.find?_cons, List.find?_nil, hrecognizes]
  cases Format.looksNative line.toList <;> rfl

theorem formatOf_of_beginsParameter {text line : String} (h : leadingLine? text = some line)
    (hheader : Format.headerFormat? line.toList = none) (hbegins : BeginsParameter line.toList) :
    formatOf text = .ok .paf := by
  rw [formatOf, h, recognize_of_no_header hheader, if_pos ((Format.looksNative_iff _).mpr hbegins)]

theorem formatOf_of_not_beginsParameter {text line : String} (h : leadingLine? text = some line)
    (hheader : Format.headerFormat? line.toList = none) (hbegins : ¬ BeginsParameter line.toList) :
    formatOf text = .error (.parse
      ⟨.formatSyntax, "unrecognized policy format: " ++ Text.trimString line, none, none⟩) := by
  rw [formatOf, h, recognize_of_no_header hheader,
    if_neg fun hnative => hbegins ((Format.looksNative_iff _).mp hnative)]
  rfl

namespace Paf

theorem ok_of_parseFresh {strict : Bool} {target : Policy} {lines : List Line} {s s' : Store}
    {n : Nat} (h : parseFresh strict target lines s = .ok n s') :
    ∃ u, parse target lines ⟨s, { strict := strict }⟩ = .ok n u ∧ u.store = s' := by
  unfold parseFresh at h
  split at h
  · rename_i u hparse
    cases h
    exact ⟨u, hparse, rfl⟩
  · cases h

end Paf

namespace Policy

variable {p : Policy} {strict : Bool} {text : String} {s s' : Store} {n : Nat}

theorem loadText_of_formatOf (h : formatOf text = .ok .paf) :
    p.loadText strict text s = Paf.parseFresh strict p (Paf.linesOfText text) s := by
  change (StoreM.lift (formatOf text) >>= fun f => f.parse strict p text) s = _
  rw [h]
  rfl

theorem loadText_of_formatOf_error {e : PolicyError} (h : formatOf text = .error e) :
    p.loadText strict text s = .error e s := by
  change (StoreM.lift (formatOf text) >>= fun f => f.parse strict p text) s = _
  rw [h]
  rfl

theorem loadText_eq_ok_iff : p.loadText strict text s = .ok n s' ↔
    formatOf text = .ok .paf ∧
      Paf.parseFresh strict p (Paf.linesOfText text) s = .ok n s' := by
  cases hformat : formatOf text with
  | ok f =>
    cases f
    simp [loadText_of_formatOf hformat]
  | error e => simp [loadText_of_formatOf_error hformat]

theorem formatOf_of_strict_parse
    (hheader : ∀ line ∈ leadingLine? text, ∀ named ∈ Format.headerFormat? line.toList,
      Text.equalIgnoringAsciiCase named "PAF" = true)
    (h : Paf.parseFresh true p (Paf.linesOfText text) s = .ok n s') : formatOf text = .ok .paf := by
  cases hleading : leadingLine? text with
  | none => exact formatOf_of_none hleading
  | some line =>
    cases hnamed : Format.headerFormat? line.toList with
    | some named => exact formatOf_of_header hleading hnamed (hheader line hleading named hnamed)
    | none =>
      by_contra hformat
      have hbegins : ¬ BeginsParameter line.toList := fun hbegins =>
        hformat (formatOf_of_beginsParameter hleading hnamed hbegins)
      obtain ⟨statement, rest, hstatements, hlead⟩ :=
        exists_of_not_beginsParameter hleading hnamed hbegins
      obtain ⟨e, hrun⟩ := Paf.run_of_cannotLead (t := ⟨s, { strict := true }⟩) rfl rfl hlead
        { policy := p } [] rest
      obtain ⟨_, hparse, -⟩ := Paf.ok_of_parseFresh h
      rw [Paf.parse_eq, hstatements] at hparse
      obtain ⟨_, _, hok, -⟩ := Paf.ok_of_bind hparse
      rw [hrun] at hok
      cases hok

/-- A text is loaded strictly just as a strict parser reads it. Its look keeps nothing from the
parser that this would accept; only a header that names another format does. -/
theorem loadText_strict_eq_ok_iff
    (hheader : ∀ line ∈ leadingLine? text, ∀ named ∈ Format.headerFormat? line.toList,
      Text.equalIgnoringAsciiCase named "PAF" = true) :
    p.loadText true text s = .ok n s' ↔
      Paf.parseFresh true p (Paf.linesOfText text) s = .ok n s' :=
  loadText_eq_ok_iff.trans (and_iff_right_of_imp (formatOf_of_strict_parse hheader))

/-- A header in small letters, a return before one line feed and two before the other. -/
theorem loadText_strict_of_header :
    (∀ line ∈ leadingLine? "# note\n # <?cfg paf?>\r\n b\u00a0: 3 # c\r\r\n",
      ∀ named ∈ Format.headerFormat? line.toList,
        Text.equalIgnoringAsciiCase named "PAF" = true) ∧
    loadText ⟨0⟩ true "# note\n # <?cfg paf?>\r\n b\u00a0: 3 # c\r\r\n" ⟨#[{}]⟩ =
      .ok 1 ⟨#[⟨[("b", .ints [3])], none⟩]⟩ := by
  have hleading : leadingLine? "# note\n # <?cfg paf?>\r\n b\u00a0: 3 # c\r\r\n" =
      some " # <?cfg paf?>" := by
    cbv
  have hnamed : Format.headerFormat? " # <?cfg paf?>".toList = some "paf" := by cbv
  have hheader : ∀ line ∈ leadingLine? "# note\n # <?cfg paf?>\r\n b\u00a0: 3 # c\r\r\n",
      ∀ named ∈ Format.headerFormat? line.toList,
        Text.equalIgnoringAsciiCase named "PAF" = true := by
    rintro line hline named hname
    obtain rfl := Option.some.inj (hleading.symm.trans hline)
    obtain rfl := Option.some.inj (hnamed.symm.trans hname)
    cbv
  have hparse : Paf.parseFresh true ⟨0⟩
      (Paf.linesOfText "# note\n # <?cfg paf?>\r\n b\u00a0: 3 # c\r\r\n") ⟨#[{}]⟩ =
        .ok 1 ⟨#[⟨[("b", .ints [3])], none⟩]⟩ := by
    cbv
  exact ⟨hheader, (loadText_strict_eq_ok_iff hheader).mpr hparse⟩

/-- A lenient parser drops a malformed line wherever it stands, but a text whose leading line is
malformed does not come to the parser: it is of no format. -/
theorem loadText_lenient_of_no_header (p : Policy) (s : Store)
    (hheader : ∀ line ∈ leadingLine? text, Format.headerFormat? line.toList = none) :
    ((∀ line ∈ leadingLine? text, BeginsParameter line.toList) →
      p.loadText false text s = Paf.parseFresh false p (Paf.linesOfText text) s) ∧
    ∀ line ∈ leadingLine? text, ¬ BeginsParameter line.toList →
      p.loadText false text s = .error (.parse
        ⟨.formatSyntax, "unrecognized policy format: " ++ Text.trimString line, none, none⟩) s ∧
      ∃ statement rest, Paf.statements (Paf.linesOfText text) = statement :: rest ∧
        statement.CannotLead := by
  constructor
  · intro hbegins
    refine loadText_of_formatOf ?_
    cases hleading : leadingLine? text with
    | none => exact formatOf_of_none hleading
    | some line =>
      exact formatOf_of_beginsParameter hleading (hheader line hleading) (hbegins line hleading)
  · intro line hleading hbegins
    exact ⟨loadText_of_formatOf_error (formatOf_of_not_beginsParameter hleading
      (hheader line hleading) hbegins), exists_of_not_beginsParameter hleading
      (hheader line hleading) hbegins⟩

/-- The name of the first line has a hyphen: the second line is read only if the parser is asked
directly. -/
theorem loadText_refuses_hyphen :
    (⟨#[{}]⟩ : Store).dictionary? ⟨0⟩ = none ∧
    leadingLine? "bad-name: 1\nb: 2" = some "bad-name: 1" ∧
    Format.headerFormat? "bad-name: 1".toList = none ∧
    Paf.parseFresh false ⟨0⟩ (Paf.linesOfText "bad-name: 1\nb: 2") ⟨#[{}]⟩ =
      .ok 1 ⟨#[⟨[("b", .ints [2])], none⟩]⟩ ∧
    loadText ⟨0⟩ false "bad-name: 1\nb: 2" ⟨#[{}]⟩ = .error (.parse
      ⟨.formatSyntax, "unrecognized policy format: bad-name: 1", none, none⟩) ⟨#[{}]⟩ := by
  refine ⟨rfl, ?_, ?_, ?_, ?_⟩ <;> cbv

/-- A name with two dots in a row cannot be stored, but its line looks like a parameter. A closing
brace does not. -/
theorem loadText_lenient_of_dots :
    (∀ line ∈ leadingLine? "# c\na..b: 1\nb: 2", Format.headerFormat? line.toList = none) ∧
    (∀ line ∈ leadingLine? "# c\na..b: 1\nb: 2", BeginsParameter line.toList) ∧
    loadText ⟨0⟩ false "# c\na..b: 1\nb: 2" ⟨#[{}]⟩ = .ok 1 ⟨#[⟨[("b", .ints [2])], none⟩]⟩ ∧
    (∀ line ∈ leadingLine? "\n\x7d\n", Format.headerFormat? line.toList = none) ∧
    "\x7d" ∈ leadingLine? "\n\x7d\n" ∧ ¬ BeginsParameter "\x7d".toList ∧
    loadText ⟨0⟩ false "\n\x7d\n" ⟨#[{}]⟩ = .error (.parse
      ⟨.formatSyntax, "unrecognized policy format: \x7d", none, none⟩) ⟨#[{}]⟩ := by
  have hdots : leadingLine? "# c\na..b: 1\nb: 2" = some "a..b: 1" := by cbv
  have hbrace : leadingLine? "\n\x7d\n" = some "\x7d" := by cbv
  have hdotsHeader : ∀ line ∈ leadingLine? "# c\na..b: 1\nb: 2",
      Format.headerFormat? line.toList = none := by
    intro line hline
    obtain rfl := Option.some.inj (hdots.symm.trans hline)
    cbv
  have hbraceHeader : ∀ line ∈ leadingLine? "\n\x7d\n",
      Format.headerFormat? line.toList = none := by
    intro line hline
    obtain rfl := Option.some.inj (hbrace.symm.trans hline)
    cbv
  have hbegins : ∀ line ∈ leadingLine? "# c\na..b: 1\nb: 2", BeginsParameter line.toList := by
    intro line hline
    obtain rfl := Option.some.inj (hdots.symm.trans hline)
    exact (Format.looksNative_iff _).mp (by cbv)
  have hnot : ¬ BeginsParameter "\x7d".toList :=
    fun h => Bool.false_ne_true ((by cbv : false = Format.looksNative "\x7d".toList).trans
      ((Format.looksNative_iff _).mpr h))
  have hread := (loadText_lenient_of_no_header ⟨0⟩ ⟨#[{}]⟩ hdotsHeader).1 hbegins
  have hrefused := (loadText_lenient_of_no_header ⟨0⟩ ⟨#[{}]⟩ hbraceHeader).2 _ hbrace hnot
  refine ⟨hdotsHeader, hbegins, hread.trans (by cbv), hbraceHeader, hbrace, hnot, ?_⟩
  exact hrefused.1.trans (by cbv)

end Policy

end PolicyStore
