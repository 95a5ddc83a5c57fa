import Mathlib
import PolicyStore.Proofs.Paf.Deleting
import PolicyStore.Proofs.Paf.Noting

set_option autoImplicit false

namespace PolicyStore.Paf

/-!
# Parameters with illegal names

A lenient parser drops the line of a parameter whose name is illegal, and nothing else. If a value
is on the line, what it reads is the document without the parameter. If a block begins on it, the
lines of the block are read into the block around it, and its closing brace is one too many.
-/

/-! ## Counting faults -/

variable {α β : Type} {t : Session}

/-- Notes that many faults at least, if it succeeds. -/
def NotesAtLeast (k : Nat) (m : ParseM α) (t : Session) : Prop :=
  ∀ a, answer m t = .ok a → t.parser.diagnostics.length + k ≤ (after m t).parser.diagnostics.length

namespace NotesAtLeast

theorem pure (a : α) (t : Session) : NotesAtLeast 0 (Pure.pure a : ParseM α) t :=
  fun _ _ => Nat.le_refl _

theorem bind {j k : Nat} {m : ParseM α} {f : α → ParseM β} (hm : NotesAtLeast j m t)
    (hf : ∀ a, answer m t = .ok a → NotesAtLeast k (f a) (after m t)) :
    NotesAtLeast (j + k) (m >>= f) t := by
  intro b hb
  cases hanswer : answer m t with
  | error e =>
    rw [answer_bind_of_error hanswer] at hb
    cases hb
  | ok a =>
    rw [answer_bind_of_ok hanswer] at hb
    rw [after_bind_of_ok hanswer]
    have hfirst := hm a hanswer
    have hsecond := hf a hanswer b hb
    omega

theorem mono {j k : Nat} {m : ParseM α} (h : NotesAtLeast k m t) (hle : j ≤ k) :
    NotesAtLeast j m t := by
  intro a ha
  have := h a ha
  omega

/-- Only the run counts, and the session it starts from may be reached on the way. -/
theorem of_run {k : Nat} {m n : ParseM α} {u : Session} (h : NotesAtLeast k n u) (hrun : m t = n u)
    (hnotes : u.parser.diagnostics = t.parser.diagnostics) : NotesAtLeast k m t := by
  intro a ha
  rw [answer_congr hrun] at ha
  rw [after_congr hrun, ← hnotes]
  exact h a ha

end NotesAtLeast

theorem notesAtLeast_report (ht : t.parser.strict = false) (e : ParseError) :
    NotesAtLeast 1 (ParseM.report e) t := by
  intro _ _
  rw [after_of_run (report_of_lenient ht e), Session.noted, List.length_append]
  rfl

theorem notesAtLeast_addValue (ht : t.parser.strict = false) (p : Policy) (name : String)
    (line : Nat) (v : Value Policy) : NotesAtLeast 0 (addValue p name line v) t := by
  cases hadd : t.store.add p name v with
  | ok s =>
    intro _ _
    rw [after_of_run (addValue_of_add line hadd)]
    exact Nat.le_refl _
  | error e =>
    refine NotesAtLeast.of_run (u := t) ?_ (addValue_of_error hadd) rfl
    unfold refuse
    split
    · exact ((notesAtLeast_report ht _).bind fun _ _ => .pure _ _).mono (Nat.zero_le _)
    · exact fun _ h => by cases h

theorem notesAtLeast_addItems (p : Policy) (name : String) (items : List Item) :
    ∀ {t : Session}, t.parser.strict = false →
      NotesAtLeast (items.filterMap Item.fault?).length (addItems p name items) t := by
  induction items with
  | nil => exact fun _ => .pure _ _
  | cons item items ih =>
    intro t ht
    have hothers := ih (((steady_addItem p name item).strict t).trans ht)
    have hrest (first : Bool) : NotesAtLeast (items.filterMap Item.fault?).length (do
        let others ← addItems p name items
        return first || others) (after (addItem p name item) t) :=
      (hothers.bind fun _ _ => .pure _ _).mono (Nat.le_refl _)
    cases item with
    | value line v =>
      have hfirst : NotesAtLeast 0 (addItem p name (.value line v)) t :=
        notesAtLeast_addValue ht p name line _
      exact (hfirst.bind fun first _ => hrest first).mono (Nat.zero_add _).ge
    | fault e =>
      have hfirst : NotesAtLeast 1 (addItem p name (.fault e)) t :=
        ((notesAtLeast_report ht e).bind fun _ _ => .pure _ _).mono (Nat.le_refl _)
      refine (hfirst.bind fun first _ => hrest first).mono ?_
      rw [List.filterMap_cons]
      show (items.filterMap Item.fault?).length + 1 ≤ _
      omega

/-- A lenient run notes the faults of its statements, and each closing brace that has no block to
close. -/
theorem notesAtLeast_run (statements : List Statement) : ∀ (inner : Block) (outer : List Block)
    {t : Session}, t.parser.strict = false → t.parser.depth = outer.length →
      NotesAtLeast ((statements.flatMap Statement.faults).length +
        statements.countP Statement.isClosing -
          (statements.countP Statement.isOpening + t.parser.depth)) (run inner outer statements) t := by
  induction statements with
  | nil => exact fun inner outer t _ _ => (NotesAtLeast.pure _ _).mono (Nat.zero_sub _).le
  | cons statement rest ih =>
    intro inner outer t ht hdepth
    rw [List.flatMap_cons, List.length_append, List.countP_cons, List.countP_cons]
    cases statement with
    | fault e =>
      have hsteady := steady_report e
      refine ((notesAtLeast_report ht e).bind fun _ _ => ih inner outer
        ((hsteady.strict t).trans ht) ((hsteady.depth t).trans hdepth)).mono ?_
      rw [hsteady.depth]
      simp only [Statement.faults, Statement.isClosing, Statement.isOpening, List.length_singleton,
        Bool.false_eq_true, if_false]
      omega
    | values name items =>
      have hsteady := steady_addItems inner.policy name items
      refine ((notesAtLeast_addItems inner.policy name items ht).bind fun _ _ => ih _ outer
        ((hsteady.strict t).trans ht) ((hsteady.depth t).trans hdepth)).mono ?_
      rw [hsteady.depth]
      simp only [Statement.faults, Statement.isClosing, Statement.isOpening, Bool.false_eq_true,
        if_false]
      omega
    | opening line name =>
      have hsteady := steady_addValue inner.policy name line (.policy ⟨t.store.size⟩)
      have hopened : t.opened.parser.depth = t.parser.depth + 1 := rfl
      have hadd : NotesAtLeast 0 (addValue inner.policy name line (.policy ⟨t.store.size⟩))
          t.opened := notesAtLeast_addValue (t := t.opened) ht _ _ _ _
      refine ((hadd.bind fun _ _ => ih _ (inner :: outer) ((hsteady.strict t.opened).trans ht)
        ?_).mono ?_).of_run (run_opening_eq inner outer line name rest t) rfl
      · rw [hsteady.depth, hopened, hdepth, List.length_cons]
      · rw [hsteady.depth, hopened]
        simp only [Statement.faults, Statement.isClosing, Statement.isOpening, List.length_nil,
          Bool.false_eq_true, if_false, if_true]
        omega
    | closing line followed =>
      simp only [Statement.faults, Statement.isClosing, Statement.isOpening, List.length_nil,
        Bool.false_eq_true, if_false, if_true]
      by_cases hzero : t.parser.depth = 0
      · have hsteady := steady_report (syntaxFault line "unmatched '\x7d'")
        refine (((notesAtLeast_report ht _).bind fun _ _ => ih inner outer
          ((hsteady.strict t).trans ht) ((hsteady.depth t).trans hdepth)).mono ?_).of_run
            (run_closing_of_unmatched hzero) rfl
        rw [hsteady.depth]
        omega
      · cases outer with
        | nil => exact (hzero hdepth).elim
        | cons enclosing others =>
          have hclosed : t.closed.parser.depth = t.parser.depth - 1 := rfl
          have hinside : t.closed.parser.depth = others.length := by
            rw [hclosed, hdepth, List.length_cons, Nat.add_sub_cancel]
          refine ((ih (inner.close enclosing) others (t := t.closed) ht hinside).mono ?_).of_run
            (run_closing_of_enclosing hzero) rfl
          rw [hclosed]
          omega
    | unreadable => exact fun _ h => by cases h

/-! ## The end of a lenient run -/

theorem finish_of_lenient (ht : t.parser.strict = false) (lines : Nat) (o : Outcome) :
    ∃ noted, finish lines o t = .ok o.count ⟨t.store,
      { t.parser with depth := 0, diagnostics := t.parser.diagnostics ++ noted }⟩ := by
  by_cases hzero : t.parser.depth = 0
  · refine ⟨[], (finish_of_closed hzero).trans ?_⟩
    rw [List.append_nil, ← hzero]
  · have hreport := report_of_lenient (t := { t with parser := { t.parser with depth := 0 } }) ht
      ⟨.eof, "end of input with " ++ toString t.parser.depth ++ " unclosed block(s)",
        some (o.stopped.getD lines), none⟩
    exact ⟨[_], (finish_of_open (Nat.pos_of_ne_zero hzero)).trans (bind_of_run hreport)⟩

/-- Two inputs that a lenient run does the same with give the same, but for what is noted. -/
theorem parse_of_notesBesides (ht : t.parser.strict = false) {faults : List ParseError}
    {target : Policy} {lines lines' : List Line}
    (h : NotesBesides faults (run { policy := target } [] (statements lines))
      (run { policy := target } [] (statements lines')) t) :
    answer (parse target lines) t = answer (parse target lines') t ∧
      (after (parse target lines) t).store = (after (parse target lines') t).store := by
  have hstore : (after (run { policy := target } [] (statements lines)) t).unnoted.store =
      (after (run { policy := target } [] (statements lines')) t).unnoted.store := by
    rw [h.session]
  rw [parse_eq, parse_eq]
  cases hanswer : answer (run { policy := target } [] (statements lines')) t with
  | error e =>
    have hanswer' := h.answer.trans hanswer
    rw [answer_bind_of_error hanswer, answer_bind_of_error hanswer', after_bind_of_error hanswer,
      after_bind_of_error hanswer']
    exact ⟨rfl, hstore⟩
  | ok o =>
    have hanswer' := h.answer.trans hanswer
    obtain ⟨noted, hfinish⟩ :=
      finish_of_lenient ((strict_run (statements lines') { policy := target } [] t).trans ht)
        lines'.length o
    obtain ⟨noted', hfinish'⟩ :=
      finish_of_lenient ((strict_run (statements lines) { policy := target } [] t).trans ht)
        lines.length o
    rw [answer_bind_of_ok hanswer, answer_bind_of_ok hanswer', after_bind_of_ok hanswer,
      after_bind_of_ok hanswer', answer, answer, hfinish, hfinish', after_of_run hfinish,
      after_of_run hfinish']
    exact ⟨rfl, hstore⟩

/-! ## Lines in the place of another -/

theorem scan_misnamed {indent name : List Char} (hindent : IsIndent indent) (hname : IsWritten name)
    (hillegal : isParameterName name = false) (rest : List Char) (k : Nat) :
    scan k (chomp (indent ++ (name ++ ':' :: rest))) =
      ([.fault (syntaxFault k ("illegal parameter name: " ++ String.ofList name))], none) := by
  have hchomp : chomp (indent ++ (name ++ ':' :: rest)) = indent ++ (name ++ ':' :: chomp rest) := by
    have h := chomp_append_cons (c := ':') (by decide) (indent ++ name) rest
    rwa [List.append_assoc, List.append_assoc] at h
  have hstep : step k (indent ++ (name ++ ':' :: chomp rest)) =
      .emit (.fault (syntaxFault k ("illegal parameter name: " ++ String.ofList name))) [] := by
    rw [step_of_written hindent hname, hillegal]
    rfl
  rw [hchomp]
  exact scan_of_emit hstep (Or.inl rfl)

/-- The statements of a line stand between those of the lines around it. -/
theorem exists_statements_around {before after : List (List Char)} (hbefore : Sound before)
    (hafter : Sound after) (hone : ∀ line ∈ before ++ after, '\n' ∉ line) :
    ∃ front back : List Statement, (∀ s ∈ front, s.IsSound) ∧ (∀ s ∈ back, s.IsSound) ∧
      ∀ (line : List Char) (found : List Statement), '\n' ∉ line →
        scan (1 + before.length) (chomp line) = (found, none) →
        statements (linesOfText (textOf (before ++ line :: after))) = front ++ (found ++ back) := by
  obtain ⟨front, hfront, hstart⟩ := hbefore.exists_statements 1
  obtain ⟨back, hback, hend⟩ := hafter.exists_statements (1 + before.length + 1)
  refine ⟨front, back, hfront, hback, fun line found hline hscan => ?_⟩
  have hlines : ∀ other ∈ before ++ line :: after, '\n' ∉ other := by
    intro other hother
    rcases List.mem_append.mp hother with hother | hother
    · exact hone other (List.mem_append_left _ hother)
    · rcases List.mem_cons.mp hother with rfl | hother
      · exact hline
      · exact hone other (List.mem_append_right _ hother)
  have hgiven : given (before ++ line :: after) =
      given before ++ (given [line] ++ (given after ++ [])) := by
    rw [List.append_nil, ← given_append, List.singleton_append, ← given_append]
  rw [statements_textOf hlines, hgiven, hstart, statementsFrom_of_scan hscan, hend, statementsFrom,
    List.append_nil]

section Misnamed

variable {rows : List (String × Values Content)} {n : Nat} {before after : List (List Char)}
  {indent name bad rest : List Char} {s : Store} {p : Policy}

/-- A lenient run over a document with an illegal name for one of its values. -/
theorem run_of_misnamed_value {front back : List Statement} {e : ParseError} {s' : Store}
    (hrun : run { policy := p } [] (front ++ back) ⟨s, { strict := false }⟩ =
      .ok ⟨n, none⟩ ⟨s', { strict := false }⟩)
    (hlevel : Level (front ++ back)) :
    run { policy := p } [] (front ++ .fault e :: back) ⟨s, { strict := false }⟩ =
      .ok ⟨n, none⟩ ⟨s', { strict := false, diagnostics := [e] }⟩ := by
  have hbesides := notesBesides_run_fault e front back { policy := p } []
    (t := ⟨s, { strict := false }⟩) rfl
  have hanswer := hbesides.answer
  rw [answer, answer, hrun] at hanswer
  have hleast := notesAtLeast_run (front ++ .fault e :: back) { policy := p } []
    (t := ⟨s, { strict := false }⟩) rfl rfl _ hanswer
  have hok := ok_of_answer hanswer
  have hsession := hbesides.session
  obtain ⟨d₁, noted, d₂, hsub, hleft, hright⟩ := hbesides.diagnostics
  rw [after_of_run hrun] at hsession hleft
  obtain ⟨hd₁, hd₂⟩ := List.append_eq_nil_iff.mp hleft.symm
  rw [hd₁, hd₂, List.append_nil, List.nil_append] at hright
  have hone : [e].length ≤ noted.length := by
    have hsame : (front ++ back).countP Statement.isOpening =
      (front ++ back).countP Statement.isClosing := hlevel
    rw [List.countP_append, List.countP_append] at hsame
    rw [hright] at hleast
    simp only [List.flatMap_append, List.flatMap_cons, Statement.faults, List.length_append,
      List.countP_append, List.countP_cons, Statement.isOpening, Statement.isClosing,
      List.length_nil, List.length_singleton, Bool.false_eq_true, if_false] at hleast ⊢
    omega
  rw [hsub.eq_of_length_le hone] at hright
  rw [hok]
  generalize Paf.after (run { policy := p } [] (front ++ .fault e :: back))
    ⟨s, { strict := false }⟩ = u at hsession hright
  obtain ⟨store, strict, depth, diagnostics⟩ := u
  simp only [Session.unnoted, Session.mk.injEq, Parser.mk.injEq] at hsession
  obtain ⟨rfl, rfl, rfl, -⟩ := hsession
  obtain rfl : diagnostics = [e] := hright
  rfl

/-- With an illegal name for a block, its closing brace is found to be one too many. -/
theorem run_of_misnamed_block {front back : List Statement} {e : ParseError} {k : Nat}
    {label : String} (hfront : ∀ s ∈ front, s.IsSound) (hback : ∀ s ∈ back, s.IsSound)
    (hlevel : Level (front ++ .opening k label :: back)) (hplain : s.dictionary? p = none) :
    ∃ o, answer (run { policy := p } [] (front ++ .fault e :: back)) ⟨s, { strict := false }⟩ =
        .ok o ∧
      2 ≤ (Paf.after (run { policy := p } [] (front ++ .fault e :: back))
        ⟨s, { strict := false }⟩).parser.diagnostics.length := by
  have hreadable : .unreadable ∉ front ++ .fault e :: back := by
    intro hmem
    rcases List.mem_append.mp hmem with hmem | hmem
    · exact (hfront _ hmem).readable rfl
    · rcases List.mem_cons.mp hmem with hmem | hmem
      · cases hmem
      · exact (hback _ hmem).readable rfl
  have hnames : ((front ++ .fault e :: back).flatMap Statement.names).find? isUnstorable = none := by
    refine List.find?_eq_none.mpr fun name hname => ?_
    obtain ⟨s, hs, hname⟩ := List.mem_flatMap.mp hname
    rw [Bool.not_eq_true]
    rcases List.mem_append.mp hs with hs | hs
    · exact (hfront s hs).storable name hname
    · rcases List.mem_cons.mp hs with rfl | hs
      · cases hname
      · exact (hback s hs).storable name hname
  have hends := (tolerates_run _ hreadable { policy := p } [] (t := ⟨s, { strict := false }⟩) rfl
    ⟨rfl, fun b hb => List.mem_singleton.mp hb ▸ hplain⟩).ends
  rw [hnames] at hends
  obtain ⟨o, -, hanswer, -⟩ := hends
  have hleast := notesAtLeast_run (front ++ .fault e :: back) { policy := p } []
    (t := ⟨s, { strict := false }⟩) rfl rfl o hanswer
  refine ⟨o, hanswer, Nat.le_trans ?_ hleast⟩
  have hsame : (front ++ .opening k label :: back).countP Statement.isOpening =
    (front ++ .opening k label :: back).countP Statement.isClosing := hlevel
  simp only [List.flatMap_append, List.flatMap_cons, Statement.faults, List.length_append,
    List.countP_append, List.countP_cons, Statement.isOpening, Statement.isClosing,
    List.length_nil, List.length_singleton, Bool.false_eq_true, if_false, if_true] at hsame ⊢
  omega

/-- A lenient parser reads a document in which the name of one parameter is illegal as if the line
of the name were empty. If a value is on the line, it is the document without this parameter that is
built, and nothing else is noted. If the line begins a block, its closing brace is noted as well. -/
theorem lenient_parse_of_misnamed
    (h : Written rows n (before ++ (indent ++ (name ++ ':' :: rest)) :: after))
    (hindent : IsIndent indent) (hname : IsWritten name) (hbad : IsWritten bad)
    (hillegal : isParameterName bad = false) (hp : p.id < s.size) (hempty : s.node p = {}) :
    let read (line : List Char) := parse p (linesOfText (textOf (before ++ line :: after)))
    let bare : Session := ⟨s, { strict := false }⟩
    answer (read (indent ++ (bad ++ ':' :: rest))) bare = answer (read []) bare ∧
    (Paf.after (read (indent ++ (bad ++ ':' :: rest))) bare).store =
      (Paf.after (read []) bare).store ∧
    ((Text.trimStart rest).head? ≠ some '\x7b' → ∃ rows' n' s',
      Written rows' n' (before ++ after) ∧
      read (indent ++ (bad ++ ':' :: rest)) bare = .ok n' ⟨s', { strict := false, diagnostics :=
        [syntaxFault (before.length + 1) ("illegal parameter name: " ++ String.ofList bad)] }⟩ ∧
      s'.content p = .node rows' ∧ ∀ q : Policy, q.id < s.size → q ≠ p → s'.node q = s.node q) ∧
    ((Text.trimStart rest).head? = some '\x7b' → ∃ n' u,
      read (indent ++ (bad ++ ':' :: rest)) bare = .ok n' u ∧ 2 ≤ u.parser.diagnostics.length) := by
  intro read bare
  have hsound := h.sound
  have hone := h.oneLine
  have hline : '\n' ∉ indent ++ (bad ++ ':' :: rest) := by
    have hwhole := hone (indent ++ (name ++ ':' :: rest)) (by simp)
    simp only [List.mem_append, List.mem_cons, not_or] at hwhole ⊢
    exact ⟨hwhole.1, hbad.oneLine, hwhole.2.2.1, hwhole.2.2.2⟩
  obtain ⟨front, back, hfront, hback, hstatements⟩ := exists_statements_around
    (fun line hmem => hsound line (List.mem_append_left _ hmem))
    (fun line hmem => hsound line (List.mem_append_right _ (List.mem_cons_of_mem _ hmem)))
    fun line hmem => by
      rcases List.mem_append.mp hmem with hmem | hmem
      · exact hone line (List.mem_append_left _ hmem)
      · exact hone line (List.mem_append_right _ (List.mem_cons_of_mem _ hmem))
  have hbadly := hstatements _ _ hline (scan_misnamed hindent hbad hillegal rest _)
  have hempty' := hstatements [] [] (by simp) (scan_of_quiet (Or.inl rfl))
  rw [List.nil_append] at hempty'
  rw [List.singleton_append, Nat.add_comm 1] at hbadly
  generalize he : syntaxFault (before.length + 1) ("illegal parameter name: " ++ String.ofList bad) =
    e at hbadly
  have hbesides := notesBesides_run_fault e front back { policy := p } [] (t := bare) rfl
  rw [← hbadly, ← hempty'] at hbesides
  obtain ⟨hanswer, hstore⟩ := parse_of_notesBesides rfl hbesides
  refine ⟨hanswer, hstore, fun hvalue => ?_, fun hbrace => ?_⟩
  · obtain ⟨rows', n', -, hall⟩ := h.delete rfl hindent hname hvalue
    have hdeleted : Written rows' n' (before ++ after) := by
      simpa using hall [] (by simp)
    have hblank : Written rows' n' (before ++ [] :: after) := by
      simpa using hall [[]] (by simpa using Filler.blank (by simp [IsIndent]))
    have hlevel := hblank.level_statements
    obtain ⟨s', hrun, hcontent, hframe⟩ := run_of_written hblank hp hempty { strict := false }
    rw [hempty'] at hlevel hrun
    have hrun' := run_of_misnamed_value (e := e) hrun hlevel
    rw [← hbadly] at hrun'
    exact ⟨rows', n', s', hdeleted, (bind_of_run hrun').trans rfl, hcontent, hframe⟩
  · have hopening := hstatements _ _ (hone _ (by simp))
      (h.scan_of_brace hindent hname hbrace (by simp) _)
    have hlevel := h.level_statements
    rw [hopening, List.singleton_append] at hlevel
    have hplain : s.dictionary? p = none := by
      rw [Store.dictionary?, hempty]
    obtain ⟨o, hok, htwo⟩ := run_of_misnamed_block (e := e) hfront hback hlevel hplain
    rw [← hbadly] at hok htwo
    obtain ⟨noted, hfinish⟩ := finish_of_lenient
      ((strict_run _ { policy := p } [] bare).trans rfl) (linesOfText (textOf (before ++
        (indent ++ (bad ++ ':' :: rest)) :: after))).length o
    refine ⟨o.count, _, (bind_of_run (ok_of_answer hok)).trans hfinish, ?_⟩
    rw [List.length_append]
    exact Nat.le_trans htwo (Nat.le_add_right _ _)

end Misnamed

/-- An illegal name for a number in a block. -/
theorem lenient_parse_of_misnamed_number :
    Written [("a", .policies [.node [("b", .ints [1])]])] 2
        ["a: \x7b".toList, " b: 1".toList, "\x7d".toList] ∧
      isParameterName "b-1".toList = false ∧
      ∃ rows' n' s', Written rows' n' ["a: \x7b".toList, "\x7d".toList] ∧
        parse ⟨0⟩ (linesOfText "a: \x7b\n b-1: 1\n\x7d") ⟨⟨#[{}]⟩, { strict := false }⟩ =
          .ok n' ⟨s', { strict := false, diagnostics :=
            [syntaxFault 2 "illegal parameter name: b-1"] }⟩ ∧
        s'.content ⟨0⟩ = .node rows' ∧
        ∀ q : Policy, q.id < 1 → q ≠ ⟨0⟩ → s'.node q = (⟨#[{}]⟩ : Store).node q := by
  have hindent : IsIndent [] := by
    simp [IsIndent]
  have hspace : IsIndent [' '] := by
    simp [IsIndent]
  have hinner : Written [("b", .ints [1])] 1 [" b: 1".toList] :=
    @Written.values [] 0 [] [' '] [] "b" (.ints [1]) .empty hspace .none (by decide) rfl
      (by simp [Values.toList]) (by simp [Values.toList, IsWritable.int])
  have hwritten : Written [("a", .policies [.node [("b", .ints [1])]])] 2
      ["a: \x7b".toList, " b: 1".toList, "\x7d".toList] :=
    @Written.block [] _ 0 1 [] _ [] [] [] [] "a" [] .empty hinner hindent .none hindent .none
      (by decide) rfl
  have hname : IsWritten "b".toList :=
    ⟨by simp [isNamePart, Text.isBlank], by decide, by simp⟩
  have hbad : IsWritten "b-1".toList :=
    ⟨by simp [isNamePart, Text.isBlank], by decide, by simp⟩
  have hillegal : isParameterName "b-1".toList = false := by
    decide +kernel
  refine ⟨hwritten, hillegal, ?_⟩
  exact (@lenient_parse_of_misnamed _ 2 ["a: \x7b".toList] ["\x7d".toList] [' '] "b".toList
    "b-1".toList " 1".toList ⟨#[{}]⟩ ⟨0⟩ hwritten hspace hname hbad hillegal (by decide) rfl).2.2.1
      (by decide)

/-- With an illegal name for a block, what is in the block is read into the policy around it. -/
theorem lenient_parse_keeps_misnamed_block :
    isParameterName "bad-name".toList = false ∧
      parse ⟨0⟩ (linesOfText "bad-name: \x7b\n b: 1\n\x7d") ⟨⟨#[{}]⟩, { strict := false }⟩ =
        .ok 1 ⟨⟨#[⟨[("b", .ints [1])], none⟩]⟩, { strict := false, diagnostics :=
          [syntaxFault 1 "illegal parameter name: bad-name", syntaxFault 3 "unmatched '\x7d'"] }⟩ := by
  refine ⟨by decide +kernel, ?_⟩
  cbv

end PolicyStore.Paf
