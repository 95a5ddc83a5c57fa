import Mathlib
import PolicyStore.Proofs.Paf.Accepting
import PolicyStore.Proofs.Paf.Strictness

set_option autoImplicit false

namespace PolicyStore.Paf

/-!
# Texts after each other

Parsing a text and then another is parsing both in one. The second text is read from a higher line
on and counted on top of the first, which is all that a strict parser can tell.
-/

variable {α β : Type} {t u : Session}

/-! ## Faults further down -/

/-- The outcome of a computation, with another answer or with its fault some lines further down. -/
def delayed (k : Nat) (f : α → β) :
    EStateM.Result PolicyError Session α → EStateM.Result PolicyError Session β
  | .ok a u => .ok (f a) u
  | .error e u => .error (e.later k) u

/-- In a strict session, the second computation does what the first does some lines further up. -/
def Delays (k : Nat) (g : α → α) (m m' : ParseM α) (t : Session) : Prop :=
  t.parser.strict = true → m' t = delayed k g (m t)

theorem Delays.bind {k : Nat} {g : α → α} {h : β → β} {m m' : ParseM α} {f f' : α → ParseM β}
    (hm : Delays k g m m' t) (hstrict : (after m t).parser.strict = t.parser.strict)
    (hf : ∀ a, answer m t = .ok a → Delays k h (f a) (f' (g a)) (after m t)) :
    Delays k h (m >>= f) (m' >>= f') t := by
  intro ht
  cases hanswer : answer m t with
  | error e =>
    rw [bind_of_error hanswer]
    show EStateM.bind m' f' t = _
    rw [EStateM.bind, hm ht, error_of_answer hanswer]
    rfl
  | ok a =>
    have hrun : m' t = .ok (g a) (after m t) := by
      rw [hm ht, ok_of_answer hanswer, delayed]
    rw [bind_of_ok hanswer, bind_of_run hrun]
    exact hf a hanswer (hstrict.trans ht)

theorem Delays.pure {k : Nat} {g : α → α} {a b : α} (h : g a = b) :
    Delays k g (Pure.pure a : ParseM α) (Pure.pure b) t := by
  intro _
  rw [← h]
  rfl

/-- A run that ends further down. -/
def Outcome.later (k : Nat) (o : Outcome) : Outcome := { o with stopped := o.stopped.map (· + k) }

variable (k : Nat)

theorem delays_report (e : ParseError) :
    Delays k id (ParseM.report e) (ParseM.report (e.later k)) t := by
  intro ht
  rw [report_of_strict ht, report_of_strict ht]
  rfl

theorem PolicyError.later_of_not_parse {e : PolicyError} (h : e.isParse = false) :
    e.later k = e := by
  cases e with
  | parse _ => cases h
  | _ => rfl

theorem delays_refuse {line : Nat} {e : PolicyError} (he : e.isParse = false) :
    Delays k id (refuse line e) (refuse (line + k) e) t := by
  unfold refuse
  split
  · exact (delays_report k (formatFault line ("array type mismatch: " ++ e.message))).bind
      ((steady_report _).strict t) fun _ _ => .pure rfl
  · intro _
    show EStateM.Result.error e t = .error (e.later k) t
    rw [PolicyError.later_of_not_parse k he]

theorem delays_addValue (p : Policy) (name : String) (line : Nat) (v : Value Policy) :
    Delays k id (addValue p name line v) (addValue p name (line + k) v) t := by
  intro ht
  cases hadd : t.store.add p name v with
  | ok s =>
    rw [addValue_of_add line hadd, addValue_of_add (line + k) hadd]
    rfl
  | error e =>
    rw [addValue_of_error hadd, addValue_of_error hadd]
    exact delays_refuse k (Store.neverParseError_add _ _ _ _ e hadd) ht

theorem delays_addItems (p : Policy) (name : String) (items : List Item) : ∀ {t : Session},
    Delays k id (addItems p name items) (addItems p name (items.map (Item.later k))) t := by
  induction items with
  | nil => exact .pure rfl
  | cons item items ih =>
    intro t
    refine Delays.bind ?_ ((steady_addItem p name item).strict t) fun _ _ =>
      ih.bind ((steady_addItems p name items).strict _) fun _ _ => .pure rfl
    cases item with
    | value line v => exact delays_addValue k p name line _
    | fault e => exact (delays_report k e).bind ((steady_report e).strict t) fun _ _ => .pure rfl

/-- A balanced run over statements further down fails further down, and is the same otherwise. -/
theorem delays_run (statements : List Statement) : ∀ (inner : Block) (outer : List Block)
    {t : Session}, t.parser.depth = outer.length →
      Delays k (Outcome.later k) (run inner outer statements)
        (run inner outer (statements.map (Statement.later k))) t := by
  induction statements with
  | nil => exact fun inner outer t _ => .pure rfl
  | cons statement rest ih =>
    intro inner outer t hdepth
    cases statement with
    | fault e =>
      refine (delays_report k e).bind ((steady_report e).strict t) fun _ _ => ih _ _ ?_
      rw [(steady_report e).depth, hdepth]
    | values name items =>
      have hsteady := steady_addItems inner.policy name items
      refine (delays_addItems k inner.policy name items).bind (hsteady.strict t) fun added _ =>
        ih { inner with count := inner.count + if added then 1 else 0 } outer ?_
      rw [hsteady.depth, hdepth]
    | opening line name =>
      intro ht
      have hsteady := steady_addValue inner.policy name line (.policy ⟨t.store.size⟩)
      rw [List.map_cons, Statement.later, run_opening_eq, run_opening_eq]
      refine (delays_addValue k inner.policy name line (.policy ⟨t.store.size⟩)).bind
        (hsteady.strict t.opened) (fun attached _ => ih _ (inner :: outer) ?_) (t := t.opened) ht
      rw [hsteady.depth, List.length_cons, ← hdepth]
      rfl
    | closing line followed =>
      intro ht
      rw [List.map_cons, Statement.later]
      cases outer with
      | nil =>
        rw [run_closing_of_unmatched hdepth, run_closing_of_unmatched hdepth]
        have hsteady := steady_report (syntaxFault line "unmatched '\x7d'")
        refine (delays_report k (syntaxFault line "unmatched '\x7d'")).bind
          (hsteady.strict t) (fun _ _ => ih _ _ ?_) ht
        rw [hsteady.depth, hdepth]
      | cons enclosing others =>
        have hopen : t.parser.depth ≠ 0 := by
          rw [hdepth]
          exact Nat.succ_ne_zero _
        rw [run_closing_of_enclosing hopen, run_closing_of_enclosing hopen]
        refine ih _ others (t := t.closed) ?_ ht
        rw [Session.closed, hdepth]
        rfl
    | unreadable => exact fun _ => rfl

theorem delays_finish (lines : Nat) (o : Outcome) :
    Delays k id (finish lines o) (finish (lines + k) (o.later k)) t := by
  intro ht
  by_cases hdepth : t.parser.depth = 0
  · rw [finish_of_closed hdepth, finish_of_closed hdepth]
    rfl
  · have hline : (o.later k).stopped.getD (lines + k) = o.stopped.getD lines + k := by
      cases hstopped : o.stopped <;> simp [Outcome.later, hstopped]
    rw [finish_of_open (Nat.pos_of_ne_zero hdepth), finish_of_open (Nat.pos_of_ne_zero hdepth),
      hline]
    exact Delays.bind (t := { t with parser := { t.parser with depth := 0 } }) (delays_report k _)
      ((steady_report _).strict _) (fun _ _ => .pure rfl) ht

/-- The second of two texts is parsed from a higher line on. -/
theorem delays_parse (target : Policy) (lines : List Line) (hdepth : t.parser.depth = 0) :
    Delays k id (parse target lines)
      (run { policy := target } [] ((statements lines).map (Statement.later k)) >>=
        finish (lines.length + k)) t :=
  (delays_run k (statements lines) { policy := target } [] hdepth).bind (strict_run _ _ _ t)
    fun o _ => delays_finish k lines.length o

/-! ## Counting on -/

/-- The block, with some parameters more if it is the outermost. -/
def Block.ahead (n : Nat) (b : Block) : List Block → Block
  | [] => { b with count := b.count + n }
  | _ :: _ => b

/-- The blocks around one, with some parameters more in the outermost. -/
def allAhead (n : Nat) : List Block → List Block
  | [] => []
  | b :: outer => b.ahead n outer :: allAhead n outer

def Outcome.plus (n : Nat) (o : Outcome) : Outcome := { o with count := o.count + n }

namespace Block

theorem policy_ahead (n : Nat) (b : Block) (outer : List Block) :
    (b.ahead n outer).policy = b.policy := by
  cases outer <;> rfl

theorem count_ahead (n m : Nat) (b : Block) (outer : List Block) :
    { b.ahead n outer with count := (b.ahead n outer).count + m } =
      Block.ahead n { b with count := b.count + m } outer := by
  cases outer with
  | nil => simp only [ahead, Nat.add_right_comm]
  | cons => rfl

theorem close_ahead (n : Nat) (inner b : Block) (outer : List Block) :
    inner.close (b.ahead n outer) = (inner.close b).ahead n outer := by
  exact count_ahead n _ b outer

theorem total_ahead (n : Nat) (outer : List Block) : ∀ inner : Block,
    (inner.ahead n outer).total (allAhead n outer) = inner.total outer + n := by
  induction outer with
  | nil => exact fun _ => rfl
  | cons b outer ih =>
    intro inner
    rw [allAhead, total, ahead, close_ahead, ih, total]

end Block

/-- What is in the outermost block already is counted on top. -/
theorem run_ahead (n : Nat) (statements : List Statement) : ∀ (inner : Block) (outer : List Block),
    run (inner.ahead n outer) (allAhead n outer) statements =
      Outcome.plus n <$> run inner outer statements := by
  induction statements with
  | nil =>
    intro inner outer
    rw [run, run, Block.total_ahead]
    rfl
  | cons statement rest ih =>
    intro inner outer
    cases statement with
    | fault e =>
      rw [run, run, map_bind]
      exact congrArg _ (funext fun _ => ih inner outer)
    | values name items =>
      have hitems : addItems (inner.ahead n outer).policy name items =
          addItems inner.policy name items := by
        rw [Block.policy_ahead]
      rw [run, run, map_bind, hitems]
      refine congrArg _ (funext fun added => ?_)
      have hblock := Block.count_ahead n (if added then 1 else 0) inner outer
      exact (congrArg (fun b => run b (allAhead n outer) rest) hblock).trans (ih _ outer)
    | opening line name =>
      rw [run, run, map_bind, Block.policy_ahead]
      refine congrArg _ (funext fun _ => ?_)
      rw [map_bind]
      refine congrArg _ (funext fun sub => ?_)
      rw [map_bind]
      exact congrArg _ (funext fun attached => ih _ (inner :: outer))
    | closing line followed =>
      cases outer with
      | nil =>
        rw [allAhead, run, run, map_bind]
        refine congrArg _ (funext fun t => ?_)
        split
        · rw [map_bind]
          exact congrArg _ (funext fun _ => ih inner [])
        · rfl
      | cons enclosing others =>
        rw [allAhead, run, run, map_bind]
        refine congrArg _ (funext fun t => ?_)
        split
        · rw [map_bind]
          exact congrArg _ (funext fun _ => ih inner (enclosing :: others))
        · rw [map_bind]
          refine congrArg _ (funext fun _ => ?_)
          have hblock := Block.close_ahead n inner enclosing others
          exact (congrArg (fun b => run b (allAhead n others) rest) hblock).trans (ih _ others)
    | unreadable => rfl

theorem finish_plus (lines n : Nat) (o : Outcome) :
    finish lines (o.plus n) = (n + ·) <$> finish lines o := by
  rw [finish, finish, map_bind]
  refine congrArg _ (funext fun t => ?_)
  dsimp only
  split
  · rw [map_bind]
    refine congrArg _ (funext fun _ => ?_)
    rw [map_bind]
    exact congrArg _ (funext fun _ => congrArg pure (Nat.add_comm o.count n))
  · exact congrArg pure (Nat.add_comm o.count n)

/-! ## One text and then another -/

/-- Once a strict parser has accepted a text, parsing it together with another that follows after a
line feed is parsing the other by itself. The counts add up, the session is the same, and a fault is
found as many lines further down as the first text and the line feed take. -/
theorem parse_text_after_accepted {s : Store} {target : Policy} {front : String} {n : Nat}
    {u : Session} (h : parse target (linesOfText front) ⟨s, { strict := true }⟩ = .ok n u)
    (back : String) :
    parse target (linesOfText (front ++ "\n" ++ back)) ⟨s, { strict := true }⟩ =
      match parse target (linesOfText back) ⟨u.store, { strict := true }⟩ with
      | .ok m v => .ok (n + m) v
      | .error e v => .error (e.later (linesOfText (front ++ "\n")).length) v := by
  obtain ⟨found, hfound, -, hconsumes⟩ := exists_consumes_of_parse h
  have hu : u = ⟨u.store, { strict := true }⟩ := by
    cases u
    exact congrArg (Session.mk _) hconsumes.parser
  generalize hk : (linesOfText (front ++ "\n")).length = k
  have hstatements : statements (linesOfText (front ++ "\n" ++ back)) =
      found ++ (statements (linesOfText back)).map (Statement.later k) := by
    rw [linesOfText_append, hfound, hk]
    exact congrArg _ (statementsFrom_later k (linesOfText back) 1 none)
  have hlength : (linesOfText (front ++ "\n" ++ back)).length = (linesOfText back).length + k := by
    rw [linesOfText_append, List.length_append, hk, Nat.add_comm]
  have hrun := hconsumes.goes_on [] ((statements (linesOfText back)).map (Statement.later k))
  have hahead := run_ahead n ((statements (linesOfText back)).map (Statement.later k))
    { policy := target } []
  rw [Block.ahead, Nat.zero_add] at hahead
  have hdelays := delays_parse k target (linesOfText back) (t := u) (by rw [hu]) (by rw [hu])
  calc
    _ = (run { policy := target } []
          (found ++ (statements (linesOfText back)).map (Statement.later k)) >>=
            finish ((linesOfText back).length + k)) ⟨s, { strict := true }⟩ := by
      rw [parse_eq, hstatements, hlength]
    _ = (run { policy := target, count := n } []
          ((statements (linesOfText back)).map (Statement.later k)) >>=
            finish ((linesOfText back).length + k)) u := bind_congr_of_run hrun
    _ = ((n + ·) <$> (run { policy := target } []
          ((statements (linesOfText back)).map (Statement.later k)) >>=
            finish ((linesOfText back).length + k))) u := by
      have hblock : allAhead n [] = [] := rfl
      rw [← hblock, hahead, bind_map_left, map_bind]
      simp only [finish_plus, allAhead]
    _ = _ := by
      show EStateM.map _ _ u = _
      rw [EStateM.map, hdelays, ← hu]
      cases parse target (linesOfText back) u <;> rfl

/-- A line that is no parameter is the second of its text and the fifth of both. -/
theorem parse_faulty_text_after_accepted :
    parse ⟨0⟩ (linesOfText "a: \x7b\n b: 1\n\x7d # a") ⟨⟨#[{}]⟩, { strict := true }⟩ =
        .ok 2 ⟨⟨#[⟨[("a", .policies [⟨1⟩])], none⟩, ⟨[("b", .ints [1])], none⟩]⟩,
          { strict := true }⟩ ∧
      parse ⟨0⟩ (linesOfText ("a: \x7b\n b: 1\n\x7d # a" ++ "\n" ++ "c: 2\nd"))
          ⟨⟨#[{}]⟩, { strict := true }⟩ =
        .error (.parse (syntaxFault 5 "bad parameter line: d"))
          ⟨⟨#[⟨[("a", .policies [⟨1⟩]), ("c", .ints [2])], none⟩, ⟨[("b", .ints [1])], none⟩]⟩,
            { strict := true }⟩ := by
  have hfront : parse ⟨0⟩ (linesOfText "a: \x7b\n b: 1\n\x7d # a")
      ⟨⟨#[{}]⟩, { strict := true }⟩ =
        .ok 2 ⟨⟨#[⟨[("a", .policies [⟨1⟩])], none⟩, ⟨[("b", .ints [1])], none⟩]⟩,
          { strict := true }⟩ := by
    cbv
  have hback : parse ⟨0⟩ (linesOfText "c: 2\nd")
      ⟨⟨#[⟨[("a", .policies [⟨1⟩])], none⟩, ⟨[("b", .ints [1])], none⟩]⟩, { strict := true }⟩ =
        .error (.parse (syntaxFault 2 "bad parameter line: d"))
          ⟨⟨#[⟨[("a", .policies [⟨1⟩]), ("c", .ints [2])], none⟩, ⟨[("b", .ints [1])], none⟩]⟩,
            { strict := true }⟩ := by
    cbv
  have hboth := parse_text_after_accepted hfront "c: 2\nd"
  rw [hback] at hboth
  exact ⟨hfront, hboth⟩

end PolicyStore.Paf
