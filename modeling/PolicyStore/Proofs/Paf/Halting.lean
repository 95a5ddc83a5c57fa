import PolicyStore.Proofs.Paf.Noting
import PolicyStore.Proofs.Paf.Stepping

set_option autoImplicit false

namespace PolicyStore.Paf

/-!
# Reading to the end

The parser that reads through a cursor comes to an end on every input, and to the same one as the
parser that carries out the statements of the input. Each step of the one carries out what the other
does first; the rest of the input gets shorter with each step, or a block is left.
-/

variable {lines : List Line} {n : Nat}

/-! ## What is left to carry out -/

/-- The statements of the texts that are still to be handed out. -/
def Cursor.statements (c : Cursor) : List Statement :=
  match c.pending with
  | [] => statementsFrom (c.taken + 1) none c.unread
  | p :: _ => (scan p.number p.text).1 ++ statementsFrom (c.taken + 1) (scan p.number p.text).2 c.unread

namespace Cursor

variable {c : Cursor} {cs : List Char}

theorem statements_of_nothing_pending (h : c.pending = []) :
    c.statements = statementsFrom (c.taken + 1) none c.unread := by
  rw [statements, h]

theorem Sound.statements_eq (h : c.Sound lines) (hfetch : c.fetch.1 = .text cs)
    (hn : c.fetch.2.At lines n) :
    c.statements = (scan n cs).1 ++ statementsFrom (n + 1) (scan n cs).2 c.fetch.2.unread := by
  have htaken := hn.taken
  rcases text_of_fetch hfetch with ⟨p, rest, hp, rfl, hnext⟩ | ⟨hp, rest, hu, hnext⟩
  · have hnumber := h.number p (by rw [hp]; exact List.mem_cons_self)
    rw [hnext] at htaken ⊢
    rw [statements, hp]
    dsimp only at htaken ⊢
    rw [hnumber, htaken]
  · rw [hnext] at htaken ⊢
    rw [statements_of_nothing_pending hp, hu, statementsFrom]
    dsimp only at htaken ⊢
    rw [htaken]
    rfl

theorem statementsFrom_of_fetch (hp : c.pending = []) (hfetch : c.fetch.1 = .text cs)
    (hn : c.fetch.2.At lines n) (q : OpenQuote) : statementsFrom (c.taken + 1) (some q) c.unread =
      (resume q n cs).1 ++ statementsFrom (n + 1) (resume q n cs).2 c.fetch.2.unread := by
  have htaken := hn.taken
  rcases text_of_fetch hfetch with ⟨p, rest, hp', -, -⟩ | ⟨-, rest, hu, hnext⟩
  · cases hp.symm.trans hp'
  · rw [hnext] at htaken ⊢
    rw [hu, statementsFrom]
    dsimp only at htaken ⊢
    rw [htaken]
    rfl

end Cursor

/-- A quoted string that is open makes the first statement, with all that it has before. -/
theorem exists_statementsFrom_open (lines : List Line) : ∀ (n : Nat) (q : OpenQuote), ∃ items rest,
    ∀ front, statementsFrom n (some { q with items := front }) lines =
      .values q.name (front ++ items) :: rest := by
  induction lines with
  | nil =>
    exact fun n q => ⟨[.fault ⟨.eof, "unterminated string opened with " ++ String.ofList [q.mark],
      some q.opened, none⟩], [], fun front => rfl⟩
  | cons line lines ih =>
    intro n q
    cases line with
    | none => exact ⟨[], [.unreadable], fun front => by rw [List.append_nil]; rfl⟩
    | some cs =>
      cases hcut : Text.cut q.mark (Text.trimStart cs) with
      | none =>
        obtain ⟨items, rest, h⟩ := ih (n + 1)
          { q with text := joinPiece q.text (Text.trimEnd (Text.trimStart cs)) }
        refine ⟨items, rest, fun front => ?_⟩
        rw [statementsFrom, readLine, resume]
        dsimp only
        rw [hcut]
        exact h front
      | some parts =>
        obtain ⟨piece, after⟩ := parts
        let closed := Item.value n (.string (String.ofList (joinPiece q.text (Text.trimEnd piece))))
        cases hafter : quoted n q.name.toList after with
        | mk items tail =>
          cases tail with
          | rest rest =>
            refine ⟨closed :: items, (scan n rest).1 ++ statementsFrom (n + 1) (scan n rest).2 lines,
              fun front => ?_⟩
            rw [statementsFrom, readLine, resume]
            dsimp only
            rw [hcut]
            dsimp only
            rw [hafter]
            dsimp only
            rw [List.append_assoc]
            rfl
          | open_ mark text =>
            obtain ⟨more, rest, h⟩ := ih (n + 1) ⟨q.name, [], mark, n, text⟩
            refine ⟨closed :: items ++ more, rest, fun front => ?_⟩
            rw [statementsFrom, readLine, resume]
            dsimp only
            rw [hcut]
            dsimp only
            rw [hafter]
            refine (h _).trans ?_
            rw [List.append_assoc, List.append_assoc]
            rfl

/-- Carries out statements of which the first, if it adds values, belongs to a parameter that has
been read in part. -/
def runAfter (added : Bool) (inner : Block) (outer : List Block) : List Statement → ParseM Outcome
  | .values name items :: rest => do
    let more ← addItems inner.policy name items
    run { inner with count := inner.count + if added || more then 1 else 0 } outer rest
  | statements => run inner outer statements

theorem runAfter_false (inner : Block) (outer : List Block) (statements : List Statement) :
    runAfter false inner outer statements = run inner outer statements := by
  cases statements with
  | nil => rfl
  | cons statement rest => cases statement <;> rfl

/-- What the parser still comes to if it carries out the statements that are left. -/
def Machine.meaning (total : Nat) (c : Machine) : EStateM.Result PolicyError Session Nat :=
  match c.stage with
  | .block => (run c.reader.inner c.reader.outer c.reader.cursor.statements >>= finish total)
      c.reader.session
  | .string q => (runAfter q.added c.reader.inner c.reader.outer
      (statementsFrom (c.reader.cursor.taken + 1) (some q.quote) c.reader.cursor.unread) >>=
        finish total) c.reader.session
  | .answered count => .ok count c.reader.session
  | .failed e => .error e c.reader.session

section Meaning

variable {α : Type} {total : Nat} {r : Reader} {added : Bool} {st : Step}
  {result : EStateM.Result PolicyError Reader Stage}

theorem meaning_carry {m : ParseM α} {f : α → Session → Machine} {k : α → ParseM Nat}
    (hf : ∀ a t, (f a t).meaning total = k a t) : (carry m r f).meaning total = (m >>= k) r.session := by
  show _ = EStateM.bind m k r.session
  unfold carry EStateM.bind
  cases m r.session with
  | ok a t => exact hf a t
  | error e t => rfl

theorem Cursor.At.statements_keep {c : Cursor} (h : c.At lines n) {kept : Bool} {rest : List Char}
    (hquiet : kept = false → Quiet rest) : (c.keep kept rest).statements =
      (scan n rest).1 ++ statementsFrom (n + 1) (scan n rest).2 c.unread := by
  cases kept with
  | false =>
    rw [scan_of_quiet (hquiet rfl)]
    show c.statements = _
    rw [statements_of_nothing_pending h.pending, h.taken]
    rfl
  | true =>
    show (scan c.current rest).1 ++ statementsFrom (c.taken + 1) (scan c.current rest).2 c.unread = _
    rw [h.current, h.taken]

/-- What a step does is the first of what is left to do. -/
theorem Does.meaning (h : Does n r added st result) (hr : r.cursor.At lines n) (hs : r.Standing) :
    (Machine.of result).meaning total = (runAfter added r.inner r.outer
      ((follow n st).1 ++ statementsFrom (n + 1) (follow n st).2 r.cursor.unread) >>= finish total)
        r.session := by
  cases h with
  | nothing =>
    show (run r.inner r.outer r.cursor.statements >>= finish total) r.session = _
    rw [Cursor.statements_of_nothing_pending hr.pending, hr.taken, runAfter_false]
    rfl
  | @fault e rest kept he hquiet =>
    rw [of_report]
    refine (meaning_carry (k := fun _ => run r.inner r.outer (r.cursor.keep kept rest).statements >>=
      finish total) fun _ t => rfl).trans ?_
    rw [hr.statements_keep hquiet, ← bind_assoc, runAfter_false]
    rfl
  | @values added kept name rest items hitems hquiet =>
    rw [of_endValues]
    refine (meaning_carry (k := fun more => run { r.inner with
      count := r.inner.count + if added || more then 1 else 0 } r.outer
        (r.cursor.keep kept rest).statements >>= finish total) fun more t => rfl).trans ?_
    rw [hr.statements_keep hquiet, ← bind_assoc]
    rfl
  | @string added q items hitems hopened horigin =>
    obtain ⟨others, rest, hopen⟩ := exists_statementsFrom_open r.cursor.unread (n + 1) q.quote
    have hfirst : statementsFrom (r.cursor.taken + 1) (some q.quote) r.cursor.unread =
        .values (String.ofList q.name) others :: rest := hr.taken ▸ hopen []
    rw [of_pauseValues]
    refine (meaning_carry (k := fun more => runAfter (added || more) r.inner r.outer
      (statementsFrom (r.cursor.taken + 1) (some q.quote) r.cursor.unread) >>= finish total)
        fun more t => rfl).trans ?_
    rw [hfirst, follow, List.nil_append, hopen items, ← bind_assoc]
    refine congrFun (congrArg (· >>= finish total) ?_) r.session
    simp only [runAfter, OpenString.quote, addItems_append, bind_assoc, pure_bind, Bool.or_assoc]
  | @opening name rest =>
    rw [of_openBlock, hr.counter]
    refine (meaning_carry (k := fun attached => run
      { policy := ⟨r.session.store.size⟩, attached := attached } (r.inner :: r.outer)
        (r.cursor.keep (!(Text.trim rest).isEmpty) (Text.trim rest)).statements >>= finish total)
          fun attached t => rfl).trans ?_
    rw [hr.statements_keep quiet_of_isEmpty, ← bind_assoc, runAfter_false]
    rfl
  | @closing rest =>
    rw [runAfter_false]
    rcases hs.outer_cases hr.ended with hzero | ⟨hpos, enclosing, others, houter⟩
    · rw [of_closeBlock_of_unmatched hzero, hr.counter]
      refine (meaning_carry (k := fun _ => run r.inner r.outer
        (r.cursor.keep (!rest.isEmpty) rest).statements >>= finish total) fun _ t => rfl).trans ?_
      rw [hr.statements_keep quiet_of_isEmpty, ← bind_assoc]
      exact (bind_congr_of_run (run_closing_of_unmatched hzero)).symm
    · rw [of_closeBlock_of_enclosing hpos houter, houter]
      show (run (r.inner.close enclosing) others (r.cursor.keep (!rest.isEmpty) rest).statements >>=
        finish total) r.session.closed = _
      rw [hr.statements_keep quiet_of_isEmpty]
      exact (bind_congr_of_run (run_closing_of_enclosing hpos)).symm

theorem statements_next_of_ended (hfetch : r.cursor.fetch.1 = .ended) :
    r.next.cursor.statements = [] := by
  obtain ⟨hp, hu⟩ := Cursor.nothing_of_fetch hfetch
  rw [Reader.next, Cursor.fetch_of_nothing hp hu,
    Cursor.statements_of_nothing_pending (c := { r.cursor with ended := true }) hp]
  dsimp only
  rw [hu]
  rfl

/-- A step changes nothing in what the parser comes to. -/
theorem Advances.meaning_eq {c c' : Machine} (h : Advances lines c c') (hc : c.Sound lines) :
    c'.meaning lines.length = c.meaning lines.length := by
  cases h with
  | @text r cs n result hfetch hnext hdoes =>
    cases hc with
    | block hcursor hstanding =>
      refine (hdoes.meaning hnext hstanding.next).trans ?_
      rw [← scan_eq_follow, runAfter_false]
      show _ = (run r.inner r.outer r.cursor.statements >>= finish lines.length) r.session
      rw [hcursor.statements_eq hfetch hnext]
      rfl
  | @leaving r enclosing others hfetch houter =>
    obtain ⟨hp, hu⟩ := Cursor.nothing_of_fetch hfetch
    show (run (r.inner.close enclosing) others r.next.cursor.statements >>= finish lines.length)
      r.session = (run r.inner r.outer r.cursor.statements >>= finish lines.length) r.session
    rw [statements_next_of_ended hfetch, Cursor.statements_of_nothing_pending hp, hu, houter]
    rfl
  | @ending r hfetch houter hdepth =>
    obtain ⟨hp, hu⟩ := Cursor.nothing_of_fetch hfetch
    show _ = (run r.inner r.outer r.cursor.statements >>= finish lines.length) r.session
    rw [Cursor.statements_of_nothing_pending hp, hu, houter]
    exact (finish_of_closed (o := ⟨r.inner.count, none⟩) hdepth).symm
  | @unclosed r hfetch houter hdepth =>
    obtain ⟨hp, hu⟩ := Cursor.nothing_of_fetch hfetch
    refine (meaning_carry (k := fun _ => pure r.inner.count) fun _ t => rfl).trans ?_
    show _ = (run r.inner r.outer r.cursor.statements >>= finish lines.length) r.session
    rw [Cursor.statements_of_nothing_pending hp, hu, houter]
    exact (finish_of_open (o := ⟨r.inner.count, none⟩) hdepth).symm
  | @piece r q cs hfetch hcut =>
    cases hc with
    | string hcursor hstanding hpending =>
      have hnext := hcursor.at_of_fetch hfetch
      show (runAfter q.added r.inner r.outer (statementsFrom (r.cursor.fetch.2.taken + 1)
        (some (q.extend cs).quote) r.cursor.fetch.2.unread) >>= finish lines.length) r.session =
          (runAfter q.added r.inner r.outer (statementsFrom (r.cursor.taken + 1) (some q.quote)
            r.cursor.unread) >>= finish lines.length) r.session
      rw [Cursor.statementsFrom_of_fetch hpending hfetch hnext, resume_of_open hcut]
      rfl
  | @close r q cs piece after n result hfetch hcut hnext hdoes =>
    cases hc with
    | string hcursor hstanding hpending =>
      refine (hdoes.meaning hnext hstanding.next).trans ?_
      show _ = (runAfter q.added r.inner r.outer (statementsFrom (r.cursor.taken + 1) (some q.quote)
        r.cursor.unread) >>= finish lines.length) r.session
      rw [Cursor.statementsFrom_of_fetch hpending hfetch hnext, resume_of_closed hcut]
      rfl
  | @unterminated r q hfetch =>
    obtain ⟨hp, hu⟩ := Cursor.nothing_of_fetch hfetch
    refine (meaning_carry (k := fun _ => run { r.inner with
      count := r.inner.count + if q.added then 1 else 0 } r.outer r.next.cursor.statements >>=
        finish lines.length) fun _ t => rfl).trans ?_
    show _ = (runAfter q.added r.inner r.outer (statementsFrom (r.cursor.taken + 1) (some q.quote)
      r.cursor.unread) >>= finish lines.length) r.session
    rw [statements_next_of_ended hfetch, hu]
    simp [statementsFrom, Paf.unterminated, runAfter, addItems, addItem, OpenString.quote,
      unterminatedFault, Reader.next]
  | @unreadable r stage hstage hfetch =>
    obtain ⟨hp, rest, hu⟩ := Cursor.unreadable_of_fetch hfetch
    rcases hstage with rfl | ⟨q, rfl⟩
    · show _ = (run r.inner r.outer r.cursor.statements >>= finish lines.length) r.session
      rw [Cursor.statements_of_nothing_pending hp, hu]
      rfl
    · show _ = (runAfter q.added r.inner r.outer (statementsFrom (r.cursor.taken + 1)
        (some q.quote) r.cursor.unread) >>= finish lines.length) r.session
      rw [hu]
      rfl
  | answered => rfl
  | failed => rfl

end Meaning

/-! ## How much is left -/

def Line.weight (line : Line) : Nat := 2 * (line.getD []).length + 2

/-- A rest that is taken back weighs less than the text that it was cut from, by more than one. -/
def Cursor.weight (c : Cursor) : Nat :=
  (c.pending.map fun p => 2 * p.text.length + 2).foldr (· + ·) 0 +
    (c.unread.map Line.weight).foldr (· + ·) 0

/-- Each step of a machine that has not come to an end makes it weigh less. -/
def Machine.weight (c : Machine) : Nat :=
  match c.stage with
  | .block => c.reader.cursor.weight + c.reader.outer.length + 1
  | .string _ => c.reader.cursor.weight + c.reader.outer.length + 2
  | .answered _ => 0
  | .failed _ => 0

theorem Cursor.weight_fetch {c : Cursor} {cs : List Char} (hfetch : c.fetch.1 = .text cs) :
    c.weight = c.fetch.2.weight + 2 * cs.length + 2 := by
  rcases text_of_fetch hfetch with ⟨p, rest, hp, rfl, hnext⟩ | ⟨hp, rest, hu, hnext⟩
  · rw [hnext]
    simp only [weight, hp, List.map_cons, List.foldr_cons]
    omega
  · rw [hnext]
    simp only [weight, hu, List.map_cons, List.foldr_cons, Line.weight, Option.getD_some]
    omega

theorem Cursor.weight_keep (c : Cursor) (kept : Bool) (rest : List Char) :
    (c.keep kept rest).weight ≤ c.weight + 2 * rest.length + 2 := by
  cases kept
  · show c.weight ≤ _
    omega
  · simp only [keep, weight, pushBack, if_true, List.map_cons, List.foldr_cons]
    omega

section Weight

variable {α : Type} {r : Reader} {added : Bool} {st : Step}
  {result : EStateM.Result PolicyError Reader Stage}

theorem weight_carry {m : ParseM α} {f : α → Session → Machine} {w : Nat}
    (hf : ∀ a t, (f a t).weight ≤ w) : (carry m r f).weight ≤ w := by
  unfold carry
  split
  · exact hf _ _
  · exact Nat.zero_le _

theorem Does.weight_le (h : Does n r added st result) (hended : r.cursor.ended = false)
    (hs : r.Standing) {cs : List Char}
    (hlt : ∀ s rest, st = .emit s rest → rest.length < cs.length) :
    (Machine.of result).weight ≤ r.cursor.weight + 2 * cs.length + r.outer.length + 2 := by
  cases h with
  | nothing =>
    show r.cursor.weight + r.outer.length + 1 ≤ _
    omega
  | @fault e rest kept he hquiet =>
    have hrest := hlt _ _ rfl
    have hkeep := r.cursor.weight_keep kept rest
    refine of_report .. ▸ weight_carry fun _ t => ?_
    show (r.cursor.keep kept rest).weight + r.outer.length + 1 ≤ _
    omega
  | @values added kept name rest items hitems hquiet =>
    have hrest := hlt _ _ rfl
    have hkeep := r.cursor.weight_keep kept rest
    refine of_endValues .. ▸ weight_carry fun more t => ?_
    show (r.cursor.keep kept rest).weight + r.outer.length + 1 ≤ _
    omega
  | string =>
    refine of_pauseValues .. ▸ weight_carry fun more t => ?_
    show r.cursor.weight + r.outer.length + 2 ≤ _
    omega
  | @opening name rest =>
    have hrest := hlt _ _ rfl
    have hkeep := r.cursor.weight_keep (!(Text.trim rest).isEmpty) (Text.trim rest)
    refine of_openBlock .. ▸ weight_carry fun attached t => ?_
    show (r.cursor.keep (!(Text.trim rest).isEmpty) (Text.trim rest)).weight +
      (r.outer.length + 1) + 1 ≤ _
    omega
  | @closing rest =>
    have hrest := hlt _ _ rfl
    have hkeep := r.cursor.weight_keep (!rest.isEmpty) rest
    rcases hs.outer_cases hended with hzero | ⟨hpos, enclosing, others, houter⟩
    · refine of_closeBlock_of_unmatched hzero _ ▸ weight_carry fun _ t => ?_
      show (r.cursor.keep (!rest.isEmpty) rest).weight + r.outer.length + 1 ≤ _
      omega
    · rw [of_closeBlock_of_enclosing hpos houter, houter, List.length_cons]
      show (r.cursor.keep (!rest.isEmpty) rest).weight + others.length + 1 ≤ _
      omega

theorem Cursor.weight_of_ended {c : Cursor} (hfetch : c.fetch.1 = .ended) :
    c.fetch.2.weight = c.weight := by
  obtain ⟨hp, hu⟩ := nothing_of_fetch hfetch
  rw [fetch_of_nothing hp hu]
  rfl

theorem Advances.weight_lt {c c' : Machine} (h : Advances lines c c') (hc : c.Sound lines)
    (hpos : 0 < c.weight) : c'.weight < c.weight := by
  cases h with
  | @text r cs n result hfetch hnext hdoes =>
    cases hc with
    | block hcursor hstanding =>
      have hle := hdoes.weight_le hnext.ended hstanding.next fun s rest hstep =>
        length_lt_of_step hstep
      have hweight := Cursor.weight_fetch hfetch
      show _ < r.cursor.weight + r.outer.length + 1
      exact Nat.lt_of_le_of_lt hle (by
        show r.cursor.fetch.2.weight + 2 * cs.length + r.outer.length + 2 < _
        omega)
  | @leaving r enclosing others hfetch houter =>
    have hweight := Cursor.weight_of_ended hfetch
    show r.cursor.fetch.2.weight + others.length + 1 < r.cursor.weight + r.outer.length + 1
    rw [houter, List.length_cons]
    omega
  | ending => exact hpos
  | unclosed =>
    exact Nat.lt_of_le_of_lt (weight_carry fun _ t => Nat.le_refl 0) hpos
  | @piece r q cs hfetch hcut =>
    have hweight := Cursor.weight_fetch hfetch
    show r.cursor.fetch.2.weight + r.outer.length + 2 < r.cursor.weight + r.outer.length + 2
    omega
  | @close r q cs piece after n result hfetch hcut hnext hdoes =>
    cases hc with
    | string hcursor hstanding =>
      have hle := hdoes.weight_le hnext.ended hstanding.next fun s rest hstep =>
        length_lt_of_stepClosed hcut hstep
      have hweight := Cursor.weight_fetch hfetch
      show _ < r.cursor.weight + r.outer.length + 2
      exact Nat.lt_of_le_of_lt hle (by
        show r.cursor.fetch.2.weight + 2 * cs.length + r.outer.length + 2 < _
        omega)
  | @unterminated r q hfetch =>
    have hweight := Cursor.weight_of_ended hfetch
    refine Nat.lt_of_le_of_lt
      (weight_carry (w := r.cursor.fetch.2.weight + r.outer.length + 1) fun _ t => Nat.le_refl _) ?_
    show r.cursor.fetch.2.weight + r.outer.length + 1 < r.cursor.weight + r.outer.length + 2
    omega
  | unreadable => exact hpos
  | answered => exact absurd hpos (Nat.lt_irrefl 0)
  | failed => exact absurd hpos (Nat.lt_irrefl 0)

end Weight

/-! ## The end -/

namespace Machine

/-- The machine has come to an end, with the outcome. -/
def Ends (c : Machine) : EStateM.Result PolicyError Session Nat → Prop
  | .ok count t => c.stage = .answered count ∧ c.reader.session = t
  | .error e t => c.stage = .failed e ∧ c.reader.session = t

theorem ends_of_weight {c : Machine} (h : c.weight = 0) (total : Nat) : c.Ends (c.meaning total) := by
  obtain ⟨stage, r⟩ := c
  cases stage with
  | block => exact absurd h (Nat.succ_ne_zero _)
  | string q => exact absurd h (Nat.succ_ne_zero _)
  | answered count => exact ⟨rfl, rfl⟩
  | failed e => exact ⟨rfl, rfl⟩

theorem Sound.exists_ends {c : Machine} (h : c.Sound lines) :
    ∃ k, (Machine.advance^[k] c).Ends (c.meaning lines.length) := by
  induction hweight : c.weight using Nat.strong_induction_on generalizing c with
  | h weight ih =>
    rcases Nat.eq_zero_or_pos c.weight with hzero | hpos
    · exact ⟨0, ends_of_weight hzero _⟩
    · have hlt := h.advances.weight_lt h hpos
      obtain ⟨k, hk⟩ := ih c.advance.weight (hweight ▸ hlt) h.advance rfl
      rw [h.advances.meaning_eq h] at hk
      exact ⟨k + 1, hk⟩

/-- Step by step the parser comes to what the statements of the whole input give. -/
theorem exists_ends_parse (target : Policy) (lines : List Line) {t : Session}
    (ht : t.parser.depth = 0) :
    ∃ k, (advance^[k] (start target lines t)).Ends (parse target lines t) :=
  (sound_start target lines ht).exists_ends

end Machine

end PolicyStore.Paf
