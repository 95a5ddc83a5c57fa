import PolicyStore.Proofs.Paf.Counting

set_option autoImplicit false

namespace PolicyStore.Paf

/-!
# The depth of the parser

The depth counts the blocks that have been opened and not closed. A closing brace too many is
reported and closes nothing, and at the end of the input, when nothing is left to be read, the blocks
that are still open are reported.
-/

variable {α : Type} {lines : List Line} {n : Nat}

/-! ## The mode -/

section Mode

variable {r : Reader} {added : Bool} {st : Step} {result : EStateM.Result PolicyError Reader Stage}

def Machine.strict (c : Machine) : Bool := c.reader.session.parser.strict

theorem strict_carry {m : ParseM α} {f : α → Session → Machine} (hm : Steady m)
    (hf : ∀ a t, (f a t).strict = t.parser.strict) :
    (carry m r f).strict = r.session.parser.strict := by
  rw [← hm.strict r.session]
  unfold carry after
  cases m r.session with
  | ok a t => exact hf a t
  | error e t => rfl

theorem Does.strict_eq (h : Does n r added st result) (hr : r.cursor.At lines n) (hs : r.Standing) :
    (Machine.of result).strict = r.session.parser.strict := by
  cases h with
  | nothing => rfl
  | fault => exact of_report .. ▸ strict_carry (steady_report _) fun _ t => rfl
  | values => exact of_endValues .. ▸ strict_carry (steady_addItems _ _ _) fun _ t => rfl
  | string => exact of_pauseValues .. ▸ strict_carry (steady_addItems _ _ _) fun _ t => rfl
  | opening => exact of_openBlock .. ▸ strict_carry (steady_addValue _ _ _ _) fun _ t => rfl
  | closing =>
    rcases hs.outer_cases hr.ended with hzero | ⟨hpos, enclosing, others, houter⟩
    · exact of_closeBlock_of_unmatched hzero _ ▸ strict_carry (steady_report _) fun _ t => rfl
    · rw [of_closeBlock_of_enclosing hpos houter]
      rfl

theorem Advances.strict_eq {c c' : Machine} (h : Advances lines c c') (hc : c.Sound lines) :
    c'.strict = c.strict := by
  cases h with
  | text hfetch hnext hdoes =>
    cases hc with
    | block hcursor hstanding => exact hdoes.strict_eq hnext hstanding.next
  | leaving => rfl
  | ending => rfl
  | unclosed => exact strict_carry (steady_report _) fun _ t => rfl
  | piece => rfl
  | close hfetch hcut hnext hdoes =>
    cases hc with
    | string hcursor hstanding => exact hdoes.strict_eq hnext hstanding.next
  | unterminated => exact strict_carry (steady_report _) fun _ t => rfl
  | unreadable => rfl
  | answered => rfl
  | failed => rfl

theorem Machine.Sound.strict_iterate {c : Machine} (h : c.Sound lines) (k : Nat) :
    (Machine.advance^[k] c).strict = c.strict := by
  induction k with
  | zero => rfl
  | succ k ih =>
    rw [Function.iterate_succ_apply', ← ih]
    exact (h.iterate k).advances.strict_eq (h.iterate k)

end Mode

/-! ## Faults -/

section Faults

variable {r : Reader}

/-- The step that is left when all that is done with the session is to report a fault. -/
theorem carry_report (e : ParseError) (f : Unit → Session → Machine) : carry (ParseM.report e) r f =
    if r.session.parser.strict then ⟨.failed (.parse e), r⟩
    else f () { r.session with
      parser := { r.session.parser with diagnostics := r.session.parser.diagnostics ++ [e] } } := by
  unfold carry
  rw [report_run]
  cases r.session.parser.strict <;> rfl

theorem advance_of_unmatched {cs rest : List Char} (hfetch : r.cursor.fetch.1 = .text cs)
    (hbrace : Text.trimStart cs = '\x7d' :: rest) (hdepth : r.session.parser.depth = 0) :
    Machine.advance ⟨.block, r⟩ =
      carry (ParseM.report (syntaxFault r.next.cursor.counter "unmatched '\x7d'")) r.next.closing
        fun _ t => ⟨.block, Reader.keep (!(Text.trimStart rest).isEmpty) (Text.trimStart rest)
          { r.next.closing with session := t }⟩ := by
  have hread : readText cs = closeBlock (Text.trimStart rest) := by
    unfold readText
    rw [hbrace]
    rfl
  show Machine.of (stepBlock r) = _
  rw [stepBlock_eq, hfetch]
  dsimp only
  rw [hread, of_closeBlock_of_unmatched (r := r.next) hdepth]

theorem advance_of_ended (hfetch : r.cursor.fetch.1 = .ended) :
    Machine.advance ⟨.block, r⟩ = .of (leaveBlock r.next) := by
  show Machine.of (stepBlock r) = _
  rw [stepBlock_eq, hfetch]

theorem Reader.Standing.advance_unmatched (hs : r.Standing) (hcursor : r.cursor.Sound lines)
    {cs rest : List Char} (hfetch : r.cursor.fetch.1 = .text cs)
    (hbrace : Text.trimStart cs = '\x7d' :: rest) (hnone : unclosed r.braces = 0) :
    let c : Machine := ⟨.block, r⟩
    let e := syntaxFault (c.place lines.length) "unmatched '\x7d'"
    c.advance.reported = c.reported ++ [e] ∧
      c.advance.reader.session.parser.depth = r.session.parser.depth ∧
      c.advance.reader.inner = r.inner ∧ c.advance.reader.outer = r.outer ∧
      c.advance.stage = if c.strict then .failed (.parse e) else .block := by
  intro c e
  have hnext := hcursor.at_of_fetch hfetch
  have hcounter : r.next.cursor.counter = c.place lines.length :=
    hnext.counter.trans ((place_of_text hfetch _ _).trans hnext.current).symm
  have hadvance := advance_of_unmatched hfetch hbrace (hs.depth.trans hnone)
  rw [hcounter, carry_report] at hadvance
  have hreported : c.reported = r.session.parser.diagnostics := List.append_nil _
  rw [hadvance, hreported]
  by_cases hstrict : r.session.parser.strict
  · rw [if_pos (show r.next.closing.session.parser.strict = true from hstrict),
      if_pos (show c.strict = true from hstrict)]
    exact ⟨rfl, rfl, rfl, rfl, rfl⟩
  · rw [if_neg (show ¬ r.next.closing.session.parser.strict = true from hstrict),
      if_neg (show ¬ c.strict = true from hstrict)]
    exact ⟨List.append_nil _, rfl, rfl, rfl, rfl⟩

theorem Reader.Standing.advance_last (hs : r.Standing) (hcursor : r.cursor.Sound lines)
    (houter : r.outer = []) (hfetch : r.cursor.fetch.1 = .ended) :
    let c : Machine := ⟨.block, r⟩
    let e := unclosedFault (unclosed r.braces) lines.length
    c.advance.reported = c.reported ++ (if 0 < unclosed r.braces then [e] else []) ∧
      c.advance.stage = if 0 < unclosed r.braces ∧ c.strict then .failed (.parse e)
        else .answered r.inner.count := by
  intro c e
  have hreported : c.reported = r.session.parser.diagnostics := List.append_nil _
  rw [advance_of_ended hfetch, hreported]
  by_cases hopen : 0 < unclosed r.braces
  · obtain ⟨hp, hu⟩ := Cursor.nothing_of_fetch hfetch
    have hcounter : r.next.cursor.counter = lines.length :=
      (hcursor.fetch.counter_of_nothing (hcursor.fetch.ended (Cursor.ended_of_fetch_ended hfetch)).1
        (hcursor.fetch.ended (Cursor.ended_of_fetch_ended hfetch)).2).1
    have hdepth : 0 < r.next.session.parser.depth := hs.depth ▸ hopen
    have hfault : unclosedFault r.next.session.parser.depth lines.length = e :=
      congrArg (unclosedFault · lines.length) hs.depth
    rw [of_leaveBlock_of_open (r := r.next) houter hdepth, hcounter, hfault, carry_report,
      if_pos hopen]
    by_cases hstrict : r.session.parser.strict
    · rw [if_pos (show r.next.reset.session.parser.strict = true from hstrict),
        if_pos ⟨hopen, hstrict⟩]
      exact ⟨rfl, rfl⟩
    · rw [if_neg (show ¬ r.next.reset.session.parser.strict = true from hstrict),
        if_neg fun h => hstrict h.2]
      exact ⟨List.append_nil _, rfl⟩
  · have hdepth : r.next.session.parser.depth = 0 :=
      Nat.eq_zero_of_not_pos (hs.depth.symm ▸ hopen)
    rw [leaveBlock_of_closed (r := r.next) houter hdepth, if_neg hopen, if_neg fun h => hopen h.1]
    exact ⟨rfl, rfl⟩

end Faults

/-- A new parser, strict or not, knows before each text of a block how many blocks are open; until
the input has come to its end, these are the blocks that it is inside of. A closing brace when none is
open is reported, and closes none. When the parser has answered, nothing is left to be read. At the
end of the input it reports how many blocks are open, if there are any. -/
theorem depth_counts_unclosed_blocks (strict : Bool) (s : Store) (target : Policy)
    (lines : List Line) :
    let t : Session := ⟨s, { strict := strict }⟩
    let c := fun k => Machine.advance^[k] (Machine.start target lines t)
    (∃ k, (c k).Ends (parse target lines t)) ∧ ∀ k,
      let r := (c k).reader
      let r' := (c (k + 1)).reader
      ((c k).stage = .block → r.session.parser.depth = unclosed r.braces ∧
        (r.cursor.ended = false → r.session.parser.depth = r.outer.length)) ∧
      (∀ cs rest, (c k).stage = .block → r.cursor.fetch.1 = .text cs →
        Text.trimStart cs = '\x7d' :: rest → unclosed r.braces = 0 →
          let e := syntaxFault ((c k).place lines.length) "unmatched '\x7d'"
          (c (k + 1)).reported = (c k).reported ++ [e] ∧
            r'.session.parser.depth = r.session.parser.depth ∧
            r'.inner = r.inner ∧ r'.outer = r.outer ∧
            (c (k + 1)).stage = if strict then .failed (.parse e) else .block) ∧
      (∀ count, (c k).stage = .answered count → r.cursor.unread = [] ∧ r.cursor.pending = []) ∧
      ((c k).stage = .block → r.outer = [] → r.cursor.fetch.1 = .ended →
        let e := unclosedFault (unclosed r.braces) lines.length
        (c (k + 1)).reported = (c k).reported ++ (if 0 < unclosed r.braces then [e] else []) ∧
          (c (k + 1)).stage = if 0 < unclosed r.braces ∧ strict then .failed (.parse e)
            else .answered r.inner.count) := by
  intro t c
  have hstart := Machine.sound_start target lines (t := t) rfl
  refine ⟨Machine.exists_ends_parse target lines rfl, fun k => ?_⟩
  have hnext : c (k + 1) = (c k).advance := Function.iterate_succ_apply' _ _ _
  have hsound : (c k).Sound lines := hstart.iterate k
  have hmode : (c k).strict = strict := hstart.strict_iterate k
  rw [hnext]
  generalize c k = m at hsound hmode
  subst hmode
  obtain ⟨stage, r⟩ := m
  refine ⟨?_, ?_, ?_, ?_⟩
  · rintro rfl
    cases hsound with
    | block hcursor hs => exact ⟨hs.depth, hs.outer⟩
  · rintro cs rest rfl hfetch hbrace hnone
    cases hsound with
    | block hcursor hs => exact hs.advance_unmatched hcursor hfetch hbrace hnone
  · rintro count rfl
    cases hsound with
    | answered hcursor hended => exact (hcursor.ended hended).symm
  · rintro rfl houter hfetch
    cases hsound with
    | block hcursor hs => exact hs.advance_last hcursor houter hfetch

/-- One of two blocks is left open, after a brace too many. -/
example :
    let c := Machine.advance^[5] (Machine.start ⟨0⟩ (linesOfText "\x7d a: \x7b b: \x7b\n\x7d\n")
      ⟨⟨#[⟨[], none⟩]⟩, { strict := false }⟩)
    c.stage = .block ∧ unclosed c.reader.braces = 1 ∧
      c.advance.reported = [syntaxFault 1 "unmatched '\x7d'", unclosedFault 1 2] := by
  decide +kernel

end PolicyStore.Paf
