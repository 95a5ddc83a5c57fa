import PolicyStore.Proofs.Paf.Noting

set_option autoImplicit false

namespace PolicyStore.Paf

/-!
# Parsers that are used again

A parser object parses one input after the other. All that an input leaves behind in it, apart from
the faults that were noted, is the number of blocks that are still open; it is nothing after every
parse that succeeds.
-/

variable {t u : Session}

/-- The session with a new parser of the same mode. -/
def Session.renewed (u : Session) : Session := ⟨u.store, { strict := u.parser.strict }⟩

/-- The parser of a session goes on as a new one would: it answers the same, leaves the same store,
and notes the same faults after those that it has noted already. -/
structure AsNew (target : Policy) (lines : List Line) (u : Session) : Prop where
  answer : answer (parse target lines) u = answer (parse target lines) u.renewed
  store : (after (parse target lines) u).store = (after (parse target lines) u.renewed).store
  diagnostics : (after (parse target lines) u).parser.diagnostics =
    u.parser.diagnostics ++ (after (parse target lines) u.renewed).parser.diagnostics

/-! ## Parsers without open blocks -/

theorem unnoted_of_closed (h : u.parser.depth = 0) : u.unnoted = u.renewed := by
  obtain ⟨s, strict, depth, diagnostics⟩ := u
  obtain rfl : depth = 0 := h
  rfl

theorem asNew_of_closed (h : u.parser.depth = 0) (target : Policy) (lines : List Line) :
    AsNew target lines u := by
  have hblind := noteBlind_parse target lines
  have hunnoted := unnoted_of_closed h
  refine ⟨?_, ?_, ?_⟩
  · rw [hblind.answer_eq, hunnoted]
  · rw [hblind.after_eq, hunnoted]
    rfl
  · rw [hblind.diagnostics_eq, hunnoted]

/-- At the end of the input no block stays open, whether it is a fault or not. -/
theorem depth_finish (lines : Nat) (o : Outcome) (t : Session) :
    (after (finish lines o) t).parser.depth = 0 := by
  by_cases hzero : t.parser.depth = 0
  · rw [after_of_run (finish_of_closed hzero), hzero]
  · rw [after_congr (finish_of_open (Nat.pos_of_ne_zero hzero))]
    have hsteady := (steady_report ⟨.eof, "end of input with " ++ toString t.parser.depth ++
      " unclosed block(s)", some (o.stopped.getD lines), none⟩).bind fun _ => .pure o.count
    exact hsteady.depth { t with parser := { t.parser with depth := 0 } }

theorem depth_of_parse {target : Policy} {lines : List Line} {n : Nat}
    (h : answer (parse target lines) t = .ok n) :
    (after (parse target lines) t).parser.depth = 0 := by
  obtain ⟨o, t', hrun, hfinish⟩ := ok_of_bind (ok_of_answer h)
  rw [parse_eq, after_congr (bind_of_run hrun)]
  exact depth_finish _ o t'

/-! ## Parsers with open blocks -/

theorem parse_nil (target : Policy) (t : Session) :
    parse target [] t = finish 0 ⟨0, none⟩ t :=
  bind_of_run (m := run { policy := target } [] (statements [])) (a := ⟨0, none⟩) (u := t) rfl

theorem parse_nil_of_closed (target : Policy) (h : t.parser.depth = 0) :
    parse target [] t = .ok 0 t :=
  (parse_nil target t).trans (finish_of_closed h)

/-- No input at all is a fault for a parser with open blocks. -/
theorem not_asNew_of_open (h : u.parser.depth ≠ 0) (target : Policy) : ¬ AsNew target [] u := by
  intro hnew
  obtain ⟨hanswer, -, hdiagnostics⟩ := hnew
  have hfresh : parse target [] u.renewed = .ok 0 u.renewed := parse_nil_of_closed target rfl
  have hopen := (parse_nil target u).trans (finish_of_open (Nat.pos_of_ne_zero h))
  generalize (⟨.eof, "end of input with " ++ toString u.parser.depth ++
    " unclosed block(s)", some (Option.getD none 0), none⟩ : ParseError) = e at hopen
  cases hstrict : u.parser.strict with
  | true =>
    have hreport : ParseM.report e { u with parser := { u.parser with depth := 0 } } =
        .error (.parse e) { u with parser := { u.parser with depth := 0 } } := by
      rw [report_run, if_pos hstrict]
    have herror := bind_of_error (f := fun _ => (pure 0 : ParseM Nat))
      (show answer (ParseM.report e) _ = .error (.parse e) by rw [answer, hreport])
    rw [answer, hopen, herror, answer, hfresh] at hanswer
    cases hanswer
  | false =>
    have hreport := report_of_lenient (t := { u with parser := { u.parser with depth := 0 } })
      hstrict e
    have hok := bind_of_run (f := fun _ => (pure 0 : ParseM Nat)) hreport
    rw [after_congr hopen, after_congr hok, after_of_run hfresh] at hdiagnostics
    have hlength := congrArg List.length hdiagnostics
    simp [after, Pure.pure, EStateM.pure, Session.renewed, Session.noted] at hlength

/-- A parser that is used again goes on as a new one would, whatever input it is given next, if and
only if the first input has left no block open in it. After a first parse that succeeds that is
always so. -/
theorem parse_again_iff (strict : Bool) (s : Store) (target : Policy) (first : List Line) :
    let u := after (parse target first) ⟨s, { strict := strict }⟩
    (∀ n, answer (parse target first) ⟨s, { strict := strict }⟩ = .ok n → u.parser.depth = 0) ∧
      (u.parser.depth = 0 ↔ ∀ second, AsNew target second u) := by
  intro u
  refine ⟨fun n hanswer => depth_of_parse hanswer, fun hclosed second => ?_, fun hall => ?_⟩
  · exact asNew_of_closed hclosed target second
  · by_contra hopen
    exact not_asNew_of_open hopen target (hall [])

/-- The block that was open when the first parse failed takes a closing brace of the second. -/
theorem parse_again_closes_open_block :
    answer (parse ⟨0⟩ (linesOfText "a: \x7b\nb")) ⟨⟨#[{}]⟩, { strict := true }⟩ =
        .error (.parse (syntaxFault 2 "bad parameter line: b")) ∧
      answer (parse ⟨0⟩ (linesOfText "\x7d"))
          (after (parse ⟨0⟩ (linesOfText "a: \x7b\nb")) ⟨⟨#[{}]⟩, { strict := true }⟩) = .ok 0 ∧
      answer (parse ⟨0⟩ (linesOfText "\x7d"))
          (after (parse ⟨0⟩ (linesOfText "a: \x7b\nb")) ⟨⟨#[{}]⟩, { strict := true }⟩).renewed =
        .error (.parse (syntaxFault 1 "unmatched '\x7d'")) := by
  decide +kernel

end PolicyStore.Paf
