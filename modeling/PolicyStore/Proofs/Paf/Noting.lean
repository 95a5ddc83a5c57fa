import PolicyStore.Proofs.Paf.Balance

set_option autoImplicit false

namespace PolicyStore.Paf

/-!
# Noted faults

A parser does not look at the faults that it has noted. They stand before those that are noted next,
and nothing else depends on them.
-/

variable {α β : Type}

/-! ## Changes that are not seen -/

def Session.mapParser (f : Parser → Parser) (t : Session) : Session :=
  { t with parser := f t.parser }

/-- Does the same from a session with a changed parser, and leaves the change in place. -/
def Ignores (f : Parser → Parser) (m : ParseM α) : Prop :=
  ∀ t, m (t.mapParser f) = raised (Session.mapParser f) (m t)

namespace Ignores

variable {f : Parser → Parser}

theorem pure (a : α) : Ignores f (Pure.pure a : ParseM α) := fun _ => rfl

theorem throw (e : PolicyError) : Ignores f (MonadExcept.throw e : ParseM α) := fun _ => rfl

theorem bind {m : ParseM α} {g : α → ParseM β} (hm : Ignores f m) (hg : ∀ a, Ignores f (g a)) :
    Ignores f (m >>= g) := by
  intro t
  show EStateM.bind m g _ = raised _ (EStateM.bind m g t)
  rw [EStateM.bind, EStateM.bind, hm]
  cases m t with
  | ok a u => exact hg a u
  | error e u => rfl

/-- What reports do not see, no write sees. -/
theorem addValue (hreport : ∀ e, Ignores f (ParseM.report e)) (p : Policy) (name : String)
    (line : Nat) (v : Value Policy) : Ignores f (addValue p name line v) := by
  intro t
  cases hadd : t.store.add p name v with
  | ok s =>
    rw [addValue_of_add line hadd, addValue_of_add (t := t.mapParser f) line hadd]
    rfl
  | error e =>
    have hrefuse : Ignores f (refuse line e) := by
      unfold refuse
      split
      · exact (hreport _).bind fun _ => .pure _
      · exact .throw e
    rw [addValue_of_error hadd, addValue_of_error (t := t.mapParser f) hadd, hrefuse]

theorem addItems (hreport : ∀ e, Ignores f (ParseM.report e)) (p : Policy) (name : String)
    (items : List Item) : Ignores f (addItems p name items) := by
  induction items with
  | nil => exact .pure _
  | cons item items ih =>
    refine .bind ?_ fun _ => ih.bind fun _ => .pure _
    cases item with
    | value line v => exact .addValue hreport _ _ _ _
    | fault e => exact (hreport e).bind fun _ => .pure _

end Ignores

/-! ## What has been noted before -/

/-- The parser when it has noted other faults before. -/
def Parser.noting (earlier : List ParseError) (parser : Parser) : Parser :=
  { parser with diagnostics := earlier ++ parser.diagnostics }

/-- Does not look at what has been noted. -/
def NoteBlind (m : ParseM α) : Prop := ∀ earlier, Ignores (.noting earlier) m

namespace NoteBlind

theorem pure (a : α) : NoteBlind (Pure.pure a : ParseM α) := fun _ => .pure a

theorem bind {m : ParseM α} {g : α → ParseM β} (hm : NoteBlind m) (hg : ∀ a, NoteBlind (g a)) :
    NoteBlind (m >>= g) :=
  fun earlier => (hm earlier).bind fun a => hg a earlier

end NoteBlind

theorem noteBlind_report (e : ParseError) : NoteBlind (ParseM.report e) := by
  intro earlier t
  have hstrict : (t.mapParser (.noting earlier)).parser.strict = t.parser.strict := rfl
  rw [report_run, report_run, hstrict]
  split
  · rfl
  · simp only [raised, Session.mapParser, Parser.noting, List.append_assoc]

theorem noteBlind_addValue (p : Policy) (name : String) (line : Nat) (v : Value Policy) :
    NoteBlind (addValue p name line v) :=
  fun earlier => .addValue (fun e => noteBlind_report e earlier) p name line v

theorem noteBlind_addItems (p : Policy) (name : String) (items : List Item) :
    NoteBlind (addItems p name items) :=
  fun earlier => .addItems (fun e => noteBlind_report e earlier) p name items

theorem noteBlind_run (statements : List Statement) : ∀ (inner : Block) (outer : List Block),
    NoteBlind (run inner outer statements) := by
  induction statements with
  | nil => exact fun _ _ => .pure _
  | cons statement rest ih =>
    intro inner outer
    cases statement with
    | fault e => exact (noteBlind_report e).bind fun _ => ih _ _
    | values name items => exact (noteBlind_addItems _ _ _).bind fun _ => ih _ _
    | opening line name =>
      intro earlier t
      rw [run_opening_eq, run_opening_eq]
      exact (noteBlind_addValue inner.policy name line (.policy ⟨t.store.size⟩)).bind
        (fun _ => ih _ _) earlier t.opened
    | closing line followed =>
      intro earlier t
      have hdepth : (t.mapParser (.noting earlier)).parser.depth = t.parser.depth := rfl
      by_cases hzero : t.parser.depth = 0
      · rw [run_closing_of_unmatched hzero, run_closing_of_unmatched (hdepth.trans hzero)]
        exact (noteBlind_report _).bind (fun _ => ih inner outer) earlier t
      · cases outer with
        | nil =>
          rw [run_closing_of_last hzero, run_closing_of_last (hdepth ▸ hzero)]
          rfl
        | cons enclosing others =>
          rw [run_closing_of_enclosing hzero, run_closing_of_enclosing (hdepth ▸ hzero)]
          exact ih (inner.close enclosing) others earlier t.closed
    | unreadable => exact fun _ => .throw _

theorem noteBlind_finish (lines : Nat) (o : Outcome) : NoteBlind (finish lines o) := by
  intro earlier t
  have hdepth : (t.mapParser (.noting earlier)).parser.depth = t.parser.depth := rfl
  by_cases hzero : t.parser.depth = 0
  · rw [finish_of_closed hzero, finish_of_closed (hdepth.trans hzero)]
    rfl
  · have hopen := Nat.pos_of_ne_zero hzero
    rw [finish_of_open hopen, finish_of_open (hdepth ▸ hopen), hdepth]
    exact (noteBlind_report _).bind (fun _ => .pure o.count) earlier
      { t with parser := { t.parser with depth := 0 } }

theorem noteBlind_parse (target : Policy) (lines : List Line) : NoteBlind (parse target lines) :=
  (noteBlind_run _ _ _).bind fun _ => noteBlind_finish _ _

/-! ## Sessions that differ in what has been noted -/

variable {t u : Session}

/-- The session when nothing has been noted. -/
def Session.unnoted (t : Session) : Session :=
  { t with parser := { t.parser with diagnostics := [] } }

/-- The session when some faults more have been noted. -/
def Session.noted (faults : List ParseError) (t : Session) : Session :=
  { t with parser := { t.parser with diagnostics := t.parser.diagnostics ++ faults } }

namespace NoteBlind

variable {m : ParseM α}

theorem run_eq (h : NoteBlind m) (t : Session) :
    m t = raised (Session.mapParser (.noting t.parser.diagnostics)) (m t.unnoted) := by
  rw [← h t.parser.diagnostics t.unnoted]
  obtain ⟨s, strict, depth, diagnostics⟩ := t
  show m _ = m ⟨s, strict, depth, diagnostics ++ []⟩
  rw [List.append_nil]

theorem answer_eq (h : NoteBlind m) (t : Session) : answer m t = answer m t.unnoted := by
  rw [answer, h.run_eq t, answer]
  cases m t.unnoted <;> rfl

theorem after_eq (h : NoteBlind m) (t : Session) :
    after m t = (after m t.unnoted).mapParser (.noting t.parser.diagnostics) := by
  rw [after, h.run_eq t, after]
  cases m t.unnoted <;> rfl

theorem diagnostics_eq (h : NoteBlind m) (t : Session) : (after m t).parser.diagnostics =
    t.parser.diagnostics ++ (after m t.unnoted).parser.diagnostics :=
  congrArg (fun u : Session => u.parser.diagnostics) (h.after_eq t)

end NoteBlind

/-- The first computation does what the second does from a session, but for some of the faults,
which it notes besides. -/
structure NotesBesides (faults : List ParseError) (m n : ParseM α) (t : Session) : Prop where
  answer : answer m t = answer n t
  session : (after m t).unnoted = (after n t).unnoted
  diagnostics : ∃ before noted behind, noted.Sublist faults ∧
    (after n t).parser.diagnostics = before ++ behind ∧
    (after m t).parser.diagnostics = before ++ (noted ++ behind)

namespace NotesBesides

variable {faults : List ParseError} {m n : ParseM α}

theorem of_eq (h : m t = n t) : NotesBesides faults m n t := by
  refine ⟨answer_congr h, congrArg _ (after_congr h), ?_⟩
  exact ⟨(after n t).parser.diagnostics, [], [], List.nil_sublist _, by simp, by simp [after_congr h]⟩

/-- Nothing but the faults is noted. -/
theorem of_noted {a : α} (hm : m t = .ok a (t.noted faults)) (hn : n t = .ok a t) :
    NotesBesides faults m n t := by
  refine ⟨?_, ?_, t.parser.diagnostics, faults, [], .refl _, ?_, ?_⟩
  · rw [Paf.answer, hm, Paf.answer, hn]
  · rw [after_of_run hm, after_of_run hn]
    rfl
  · rw [after_of_run hn, List.append_nil]
  · rw [after_of_run hm, List.append_nil]
    rfl

/-- The same is done before. -/
theorem bind_left {k : ParseM α} {f g : α → ParseM β}
    (h : ∀ a, Paf.answer k t = .ok a → NotesBesides faults (f a) (g a) (after k t)) :
    NotesBesides faults (k >>= f) (k >>= g) t := by
  cases hanswer : Paf.answer k t with
  | error e => exact .of_eq ((bind_of_error hanswer f).trans (bind_of_error hanswer g).symm)
  | ok a =>
    obtain ⟨hsame, hsession, hnotes⟩ := h a hanswer
    refine ⟨?_, ?_, ?_⟩
    · rw [answer_bind_of_ok hanswer, answer_bind_of_ok hanswer, hsame]
    · rw [after_bind_of_ok hanswer, after_bind_of_ok hanswer, hsession]
    · rw [after_bind_of_ok hanswer, after_bind_of_ok hanswer]
      exact hnotes

/-- The same is done afterwards. -/
theorem bind {f : α → ParseM β} (h : NotesBesides faults m n t) (hf : ∀ a, NoteBlind (f a)) :
    NotesBesides faults (m >>= f) (n >>= f) t := by
  cases hn : Paf.answer n t with
  | error e =>
    have hm := h.answer.trans hn
    refine ⟨?_, ?_, ?_⟩
    · rw [answer_bind_of_error hm, answer_bind_of_error hn]
    · rw [after_bind_of_error hm, after_bind_of_error hn, h.session]
    · rw [after_bind_of_error hm, after_bind_of_error hn]
      exact h.diagnostics
  | ok a =>
    have hm := h.answer.trans hn
    obtain ⟨before, noted, behind, hsub, hleft, hright⟩ := h.diagnostics
    refine ⟨?_, ?_, before, noted, behind ++
      (after (f a) (after n t).unnoted).parser.diagnostics, hsub, ?_, ?_⟩
    · rw [answer_bind_of_ok hm, answer_bind_of_ok hn, (hf a).answer_eq, h.session,
        ← (hf a).answer_eq]
    · rw [after_bind_of_ok hm, after_bind_of_ok hn, (hf a).after_eq, h.session,
        (hf a).after_eq (after n t)]
      rfl
    · rw [after_bind_of_ok hn, (hf a).diagnostics_eq, hleft, List.append_assoc]
    · rw [after_bind_of_ok hm, (hf a).diagnostics_eq, hright, h.session, List.append_assoc,
        List.append_assoc]

/-- The runs count only, and the session that they start from may be reached on the way. -/
theorem of_run {m' n' : ParseM α} (h : NotesBesides faults m' n' u) (hm : m t = m' u)
    (hn : n t = n' u) : NotesBesides faults m n t := by
  refine ⟨?_, ?_, ?_⟩
  · rw [answer_congr hm, answer_congr hn, h.answer]
  · rw [after_congr hm, after_congr hn, h.session]
  · rw [after_congr hm, after_congr hn]
    exact h.diagnostics

end NotesBesides

/-! ## Faults among statements -/

theorem report_of_lenient (ht : t.parser.strict = false) (e : ParseError) :
    ParseM.report e t = .ok () (t.noted [e]) := by
  rw [report_run, if_neg (by simp [ht])]
  rfl

/-- Statements in front do not matter. -/
theorem notesBesides_run_append {faults : List ParseError} {back back' : List Statement}
    (h : ∀ (inner : Block) (outer : List Block) (t : Session), t.parser.strict = false →
      NotesBesides faults (run inner outer back) (run inner outer back') t)
    (front : List Statement) : ∀ (inner : Block) (outer : List Block) {t : Session},
      t.parser.strict = false →
      NotesBesides faults (run inner outer (front ++ back)) (run inner outer (front ++ back')) t := by
  induction front with
  | nil => exact fun inner outer t ht => h inner outer t ht
  | cons statement rest ih =>
    intro inner outer t ht
    cases statement with
    | fault e =>
      exact .bind_left fun _ _ => ih inner outer (((steady_report e).strict t).trans ht)
    | values name items =>
      exact .bind_left fun _ _ => ih _ outer (((steady_addItems _ _ items).strict t).trans ht)
    | opening line name =>
      have hsteady := steady_addValue inner.policy name line (.policy ⟨t.store.size⟩)
      exact NotesBesides.of_run (u := t.opened)
        (.bind_left fun _ _ => ih _ (inner :: outer) ((hsteady.strict t.opened).trans ht))
        (run_opening_eq _ _ _ _ _ t) (run_opening_eq _ _ _ _ _ t)
    | closing line followed =>
      by_cases hzero : t.parser.depth = 0
      · have hsteady := steady_report (syntaxFault line "unmatched '\x7d'")
        exact NotesBesides.of_run (u := t)
          (.bind_left fun _ _ => ih inner outer ((hsteady.strict t).trans ht))
          (run_closing_of_unmatched hzero) (run_closing_of_unmatched hzero)
      · cases outer with
        | nil =>
          exact .of_eq ((run_closing_of_last hzero).trans (run_closing_of_last hzero).symm)
        | cons enclosing others =>
          exact NotesBesides.of_run (u := t.closed) (ih (inner.close enclosing) others ht)
            (run_closing_of_enclosing hzero) (run_closing_of_enclosing hzero)
    | unreadable => exact .of_eq rfl

/-- A lenient run over a fault more only notes this fault besides. -/
theorem notesBesides_run_fault (e : ParseError) (front back : List Statement) (inner : Block)
    (outer : List Block) (ht : t.parser.strict = false) :
    NotesBesides [e] (run inner outer (front ++ .fault e :: back))
      (run inner outer (front ++ back)) t := by
  refine notesBesides_run_append (fun inner outer t ht => ?_) front inner outer ht
  have hreport : NotesBesides [e] (ParseM.report e) (pure ()) t :=
    .of_noted (report_of_lenient ht e) rfl
  exact hreport.bind fun _ => noteBlind_run back inner outer

/-! ## Faults among the values of a parameter -/

theorem addItems_append (p : Policy) (name : String) (items others : List Item) :
    addItems p name (items ++ others) = (do
      let first ← addItems p name items
      let second ← addItems p name others
      return first || second) := by
  induction items with
  | nil =>
    rw [List.nil_append, addItems, pure_bind]
    simp only [Bool.false_or, bind_pure]
  | cons item items ih =>
    rw [List.cons_append, addItems, ih, addItems]
    simp only [bind_assoc, pure_bind, Bool.or_assoc]

theorem addItems_faults (p : Policy) (name : String) (faults : List ParseError) :
    ∀ {t : Session}, t.parser.strict = false →
      addItems p name (faults.map .fault) t = .ok false (t.noted faults) := by
  induction faults with
  | nil =>
    intro t _
    show EStateM.Result.ok false t = _
    rw [Session.noted, List.append_nil]
  | cons e faults ih =>
    intro t ht
    have hfirst : addItem p name (.fault e) t = .ok false (t.noted [e]) :=
      bind_of_run (report_of_lenient ht e)
    refine (bind_of_run hfirst).trans ((bind_of_run (ih (t := t.noted [e]) ht)).trans ?_)
    show EStateM.Result.ok false _ = _
    simp only [Session.noted, List.append_assoc, List.singleton_append]

/-- What stands in the place of further values is only noted. -/
theorem notesBesides_addItems_faults (p : Policy) (name : String) (items : List Item)
    (faults : List ParseError) (ht : t.parser.strict = false) :
    NotesBesides faults (addItems p name (items ++ faults.map .fault)) (addItems p name items) t := by
  have hpure : addItems p name items = addItems p name items >>= pure := (bind_pure _).symm
  rw [addItems_append, hpure, bind_assoc]
  refine .bind_left fun added _ => ?_
  have hstrict := ((steady_addItems p name items).strict t).trans ht
  refine .of_noted (a := added) ?_ rfl
  rw [pure_bind]
  refine (bind_of_run (addItems_faults p name faults hstrict)).trans ?_
  rw [Bool.or_false]
  rfl

theorem notesBesides_run_values (name : String) (items : List Item) (faults : List ParseError)
    (front back : List Statement) (inner : Block) (outer : List Block)
    (ht : t.parser.strict = false) :
    NotesBesides faults
      (run inner outer (front ++ .values name (items ++ faults.map .fault) :: back))
      (run inner outer (front ++ .values name items :: back)) t := by
  refine notesBesides_run_append (fun inner outer t ht => ?_) front inner outer ht
  exact (notesBesides_addItems_faults inner.policy name items faults ht).bind fun _ =>
    noteBlind_run back _ outer

end PolicyStore.Paf
