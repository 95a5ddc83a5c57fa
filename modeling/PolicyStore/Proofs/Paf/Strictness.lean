import PolicyStore.Proofs.Paf.Runs

set_option autoImplicit false

namespace PolicyStore

/-!
# Strict and lenient parsing

A strict run is a lenient run that is stopped at its first diagnostic. Up to that point the two
runs differ in nothing but the flag of their parsers, so the property passes from the parts of a
computation to the whole.
-/

/-! ## Failures that are no parse errors -/

def PolicyError.isParse : PolicyError → Bool
  | parse _ => true
  | _ => false

/-- Fails, if at all, with something other than a parse error. -/
def NeverParseError {α : Type} (x : Except PolicyError α) : Prop :=
  ∀ e, x = .error e → e.isParse = false

namespace NeverParseError

variable {α β : Type}

theorem ok (a : α) : NeverParseError (.ok a) := by
  intro e h
  cases h

theorem error {e : PolicyError} (he : e.isParse = false) :
    NeverParseError (.error e : Except PolicyError α) := by
  intro e' h
  cases h
  exact he

theorem bind {x : Except PolicyError α} {f : α → Except PolicyError β} (hx : NeverParseError x)
    (hf : ∀ a, NeverParseError (f a)) : NeverParseError (x >>= f) := by
  cases x with
  | error e => exact error (hx e rfl)
  | ok a => exact hf a

end NeverParseError

theorem Name.neverParseError_segments (name : String) : NeverParseError (Name.segments name) := by
  unfold Name.segments
  split
  · exact .ok _
  · exact .error rfl

namespace Schema

theorem neverParseError_definitionFor (s : Schema) (full name : String) :
    NeverParseError (s.definitionFor full name) := by
  unfold definitionFor
  split
  · exact .error rfl
  · exact .error rfl
  · exact .ok _

theorem neverParseError_enter (d : Definition) (full : String) (done : List String) :
    NeverParseError (enter d full done) := by
  unfold enter
  split
  · exact .ok _
  · exact .error rfl
  · exact .error rfl

theorem neverParseError_follow (full : String) (segments : List String) :
    ∀ (done : List String) (s : Schema), NeverParseError (follow full done s segments) := by
  induction segments with
  | nil => exact fun _ _ => .error rfl
  | cons segment rest ih =>
    intro done s
    cases rest with
    | nil => exact neverParseError_definitionFor s full segment
    | cons next rest =>
      exact (neverParseError_definitionFor s full segment).bind fun d =>
        (neverParseError_enter d full _).bind fun sub => ih _ sub

theorem neverParseError_lookup (s : Schema) (name : String) : NeverParseError (s.lookup name) :=
  (Name.neverParseError_segments name).bind fun segments =>
    neverParseError_follow name segments [] s

end Schema

namespace Store

theorem neverParseError_placeFrom (s : Store) (full : String) (segments : List String) :
    ∀ (done : List String) (p : Policy), NeverParseError (s.placeFrom full done p segments) := by
  induction segments with
  | nil => exact fun _ _ => .error rfl
  | cons segment rest ih =>
    intro done p
    cases rest with
    | nil => exact .ok _
    | cons next rest =>
      simp only [placeFrom]
      split
      · exact .ok _
      · split
        · exact ih _ _
        · exact .error rfl
      · exact .error rfl

theorem neverParseError_objection (s : Store) (p : Policy) (name : String) (v : Value Policy)
    (count : Nat) : NeverParseError (s.objection p name v count) := by
  unfold objection
  split
  · exact .ok _
  · split
    · exact .ok _
    · exact .ok _
    · exact .ok _
    · exact .ok _
    · rename_i hlookup
      exact .error (Schema.neverParseError_lookup _ _ _ hlookup)

/-- A write fails for what it writes to, never for the text that it came from. -/
theorem neverParseError_add (s : Store) (p : Policy) (name : String) (v : Value Policy) :
    NeverParseError (s.add p name v) := by
  refine .bind ?_ fun _ => .bind ?_ fun spot => ?_
  · refine (neverParseError_objection s p name v _).bind fun code => ?_
    split
    · exact .ok _
    · exact .error rfl
  · exact (Name.neverParseError_segments name).bind fun segments =>
      neverParseError_placeFrom s name segments [] p
  · dsimp only
    split
    · exact .ok _
    · exact .error rfl

end Store

namespace Paf

/-! ## Two runs side by side -/

section Runs

variable {α β : Type}

/-- The same session with a strict parser. -/
def Session.strictly (t : Session) : Session := { t with parser := { t.parser with strict := true } }

/-- What the strict run of a computation has to do with the lenient run from the same session: it
fails with the first fault that the lenient run notes, and ends like that one if it notes none. -/
def StopsAtFirst (noted : List ParseError) (m : ParseM α) (t : Session) : Prop :=
  match noted with
  | [] => answer m t.strictly = answer m t ∧ after m t.strictly = (after m t).strictly
  | first :: _ => answer m t.strictly = .error (.parse first)

/-- The lenient run of a computation only adds to the diagnostics, and the strict run stops at the
first that is added. -/
def Strictable (m : ParseM α) : Prop :=
  ∀ t : Session, t.parser.strict = false →
    (after m t).parser.strict = false ∧ NeverParseError (answer m t) ∧
      ∃ noted, (after m t).parser.diagnostics = t.parser.diagnostics ++ noted ∧
        StopsAtFirst noted m t

theorem strictable_pure (a : α) : Strictable (pure a : ParseM α) := by
  intro t ht
  exact ⟨ht, .ok a, [], (List.append_nil _).symm, rfl, rfl⟩

theorem strictable_throw {e : PolicyError} (he : e.isParse = false) :
    Strictable (throw e : ParseM α) := by
  intro t ht
  exact ⟨ht, .error he, [], (List.append_nil _).symm, rfl, rfl⟩

/-- The faults noted by two computations in a row are those of the first and then those of the
second; once the first notes a fault, the strict run never reaches the second. -/
theorem strictable_bind {m : ParseM α} {f : α → ParseM β} (hm : Strictable m)
    (hf : ∀ a, Strictable (f a)) : Strictable (m >>= f) := by
  intro t ht
  obtain ⟨hlenient, hnever, noted, hnoted, hstrict⟩ := hm t ht
  cases hanswer : answer m t with
  | error e =>
    have hafter := after_bind_of_error hanswer f
    have hends := answer_bind_of_error hanswer f
    refine ⟨hafter ▸ hlenient, hends ▸ .error (hnever e hanswer), noted, hafter ▸ hnoted, ?_⟩
    cases noted with
    | nil =>
      have hanswer' := hstrict.1.trans hanswer
      refine ⟨(answer_bind_of_error hanswer' f).trans hends.symm, ?_⟩
      rw [after_bind_of_error hanswer' f, hstrict.2, hafter]
    | cons first rest => exact answer_bind_of_error hstrict f
  | ok a =>
    obtain ⟨hlenient', hnever', more, hmore, hstrict'⟩ := hf a (after m t) hlenient
    have hafter := after_bind_of_ok hanswer f
    have hends := answer_bind_of_ok hanswer f
    refine ⟨hafter ▸ hlenient', hends ▸ hnever', noted ++ more, ?_, ?_⟩
    · rw [hafter, hmore, hnoted, List.append_assoc]
    · cases noted with
      | nil =>
        have hanswer' := hstrict.1.trans hanswer
        have hafter' := after_bind_of_ok hanswer' f
        have hends' := answer_bind_of_ok hanswer' f
        rw [hstrict.2] at hafter' hends'
        cases more with
        | nil =>
          refine ⟨hends'.trans (hstrict'.1.trans hends.symm), ?_⟩
          rw [hafter', hstrict'.2, hafter]
        | cons first rest => exact hends'.trans hstrict'
      | cons first rest => exact answer_bind_of_error hstrict f

/-- A computation may look at its session, as long as it does not look at the flag of the parser. -/
theorem strictable_get_bind {f : Session → ParseM α} (hflag : ∀ t : Session, f t.strictly = f t)
    (hf : ∀ t, Strictable (f t)) : Strictable (get >>= f) := by
  intro t ht
  obtain ⟨hlenient, hnever, noted, hnoted, hstrict⟩ := hf t t ht
  have hrun : (get >>= f) t.strictly = f t t.strictly := by
    change f t.strictly t.strictly = f t t.strictly
    rw [hflag]
  have hanswer : answer (get >>= f) t.strictly = answer (f t) t.strictly := by
    rw [answer, hrun, answer]
  have hafter : after (get >>= f) t.strictly = after (f t) t.strictly := by
    rw [after, hrun]
    rfl
  refine ⟨hlenient, hnever, noted, hnoted, ?_⟩
  cases noted with
  | nil => exact ⟨hanswer.trans hstrict.1, hafter.trans hstrict.2⟩
  | cons first rest => exact hanswer.trans hstrict

/-- A computation may change its session, as long as it leaves the flag and the diagnostics of the
parser alone. -/
theorem strictable_modify {f : Session → Session} (hflag : ∀ t, f t.strictly = (f t).strictly)
    (hkeep : ∀ t, (f t).parser.strict = t.parser.strict)
    (hnotes : ∀ t, (f t).parser.diagnostics = t.parser.diagnostics) :
    Strictable (modify f) := by
  intro t ht
  refine ⟨(hkeep t).trans ht, .ok (), [], ?_, rfl, hflag t⟩
  exact (hnotes t).trans (List.append_nil _).symm

theorem strictable_report (e : ParseError) : Strictable (ParseM.report e) := by
  intro t ht
  have hlenient : ParseM.report e t = .ok () { t with parser :=
      { t.parser with diagnostics := t.parser.diagnostics ++ [e] } } := by
    rw [report_run, if_neg (by simp [ht])]
  refine ⟨?_, ?_, [e], ?_, rfl⟩
  · rw [after, hlenient]
    exact ht
  · rw [answer, hlenient]
    exact .ok ()
  · rw [after, hlenient]

end Runs

/-! ## The parser stops at its first fault -/

theorem strictable_modifyParser {f : Parser → Parser}
    (hflag : ∀ parser, f { parser with strict := true } = { f parser with strict := true })
    (hkeep : ∀ parser, (f parser).strict = parser.strict)
    (hnotes : ∀ parser, (f parser).diagnostics = parser.diagnostics) :
    Strictable (ParseM.modifyParser f) := by
  refine strictable_modify (fun t => ?_) (fun t => hkeep t.parser) fun t => hnotes t.parser
  simp only [Session.strictly, hflag]

theorem strictable_addValue (p : Policy) (name : String) (line : Nat) (v : Value Policy) :
    Strictable (addValue p name line v) := by
  refine strictable_get_bind (fun t => rfl) fun t => ?_
  split
  · exact strictable_bind (strictable_modify (fun _ => rfl) (fun _ => rfl) fun _ => rfl)
      fun _ => strictable_pure _
  · rename_i e hadd
    split
    · exact strictable_bind (strictable_report _) fun _ => strictable_pure _
    · exact strictable_throw (Store.neverParseError_add _ _ _ _ _ hadd)

theorem strictable_addItem (p : Policy) (name : String) (item : Item) :
    Strictable (addItem p name item) := by
  cases item with
  | value line v => exact strictable_addValue _ _ _ _
  | fault e => exact strictable_bind (strictable_report e) fun _ => strictable_pure _

theorem strictable_addItems (p : Policy) (name : String) (items : List Item) :
    Strictable (addItems p name items) := by
  induction items with
  | nil => exact strictable_pure _
  | cons item items ih =>
    exact strictable_bind (strictable_addItem p name item) fun _ =>
      strictable_bind ih fun _ => strictable_pure _

theorem strictable_create : Strictable (ParseM.onStore (Policy.create [])) := by
  intro t ht
  exact ⟨ht, .ok _, [], (List.append_nil _).symm, rfl, rfl⟩

theorem strictable_run (statements : List Statement) :
    ∀ (inner : Block) (outer : List Block), Strictable (run inner outer statements) := by
  induction statements with
  | nil => exact fun inner outer => strictable_pure _
  | cons statement rest ih =>
    intro inner outer
    cases statement with
    | fault e => exact strictable_bind (strictable_report e) fun _ => ih _ _
    | values name items => exact strictable_bind (strictable_addItems _ _ _) fun _ => ih _ _
    | opening line name =>
      refine strictable_bind (strictable_modifyParser (fun _ => rfl) (fun _ => rfl) fun _ => rfl) ?_
      intro _
      exact strictable_bind strictable_create fun sub =>
        strictable_bind (strictable_addValue _ _ _ _) fun _ => ih _ _
    | closing line followed =>
      refine strictable_get_bind (fun _ => rfl) fun t => ?_
      split
      · exact strictable_bind (strictable_report _) fun _ => ih _ _
      · refine strictable_bind
          (strictable_modifyParser (fun _ => rfl) (fun _ => rfl) fun _ => rfl) fun _ => ?_
        cases outer with
        | nil => exact strictable_pure _
        | cons enclosing others => exact ih _ _
    | unreadable => exact strictable_throw rfl

theorem strictable_parse (target : Policy) (lines : List Line) :
    Strictable (parse target lines) := by
  refine strictable_bind (strictable_run _ _ _) fun outcome => ?_
  refine strictable_get_bind (fun _ => rfl) fun t => ?_
  dsimp only
  split
  · refine strictable_bind
      (strictable_modifyParser (fun _ => rfl) (fun _ => rfl) fun _ => rfl) fun _ => ?_
    exact strictable_bind (strictable_report _) fun _ => strictable_pure _
  · exact strictable_pure _

/-- A strict parser is a lenient one that is stopped at its first diagnostic. Without any diagnostic
both give the same answer and leave the same store; otherwise the strict parser fails with the first
of them, whatever the lenient one answers in the end. Lines that are not text are among the lines. -/
theorem strict_parse_stops_at_first_diagnostic (s : Store) (target : Policy) (lines : List Line) :
    match (after (parse target lines) ⟨s, { strict := false }⟩).parser.diagnostics with
    | [] =>
      answer (parse target lines) ⟨s, { strict := true }⟩ =
          answer (parse target lines) ⟨s, { strict := false }⟩ ∧
        (after (parse target lines) ⟨s, { strict := true }⟩).store =
          (after (parse target lines) ⟨s, { strict := false }⟩).store ∧
        NeverParseError (answer (parse target lines) ⟨s, { strict := false }⟩)
    | first :: _ => answer (parse target lines) ⟨s, { strict := true }⟩ = .error (.parse first) := by
  obtain ⟨-, hnever, noted, hnoted, hstops⟩ :=
    strictable_parse target lines ⟨s, { strict := false }⟩ rfl
  rw [hnoted, List.nil_append]
  cases noted with
  | nil => exact ⟨hstops.1, (congrArg Session.store hstops.2 :), hnever⟩
  | cons first rest => exact hstops

end Paf

end PolicyStore
