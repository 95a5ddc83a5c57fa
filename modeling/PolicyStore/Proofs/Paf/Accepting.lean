import PolicyStore.Proofs.Paf.Leniency
import PolicyStore.Proofs.Paf.Noting
import PolicyStore.Proofs.Paf.Numbering

set_option autoImplicit false

namespace PolicyStore.Paf

/-!
# Accepted texts

A text that a strict parser accepts has no fault, leaves no string open and closes just the blocks
that it opens. In other surroundings, with more blocks open around it and more text after it, its
statements are carried out as they are by themselves.
-/

variable {α β : Type} {t u : Session}

/-! ## Computations that do not look at the depth -/

/-- The parser when some blocks more are open. -/
def Parser.deeper (k : Nat) (parser : Parser) : Parser := { parser with depth := parser.depth + k }

def Session.deeper (k : Nat) (t : Session) : Session :=
  { t with parser := { t.parser with depth := t.parser.depth + k } }

/-- Does the same whatever the number of open blocks. -/
def DepthBlind (m : ParseM α) : Prop :=
  ∀ k t, m (t.deeper k) = raised (Session.deeper k) (m t)

theorem depthBlind_report (e : ParseError) : DepthBlind (ParseM.report e) := by
  intro k t
  have hstrict : (t.deeper k).parser.strict = t.parser.strict := rfl
  rw [report_run, report_run, hstrict]
  split <;> rfl

theorem depthBlind_addValue (p : Policy) (name : String) (line : Nat) (v : Value Policy) :
    DepthBlind (addValue p name line v) :=
  fun k => Ignores.addValue (f := .deeper k) (fun e => depthBlind_report e k) p name line v

theorem depthBlind_addItems (p : Policy) (name : String) (items : List Item) :
    DepthBlind (addItems p name items) :=
  fun k => Ignores.addItems (f := .deeper k) (fun e => depthBlind_report e k) p name items

/-! ## Strict computations -/

theorem report_of_strict (ht : t.parser.strict = true) (e : ParseError) :
    ParseM.report e t = .error (.parse e) t := by
  rw [report_run, if_pos ht]

theorem refuse_of_strict (ht : t.parser.strict = true) (line : Nat) (e : PolicyError) :
    ∃ e', refuse line e t = .error e' t := by
  unfold refuse
  split
  · exact ⟨_, bind_of_error (by rw [answer, report_of_strict ht]) _ |>.trans
      (by rw [after, report_of_strict ht])⟩
  · exact ⟨e, rfl⟩

/-- A value that a strict parser accepts changes nothing but the store. -/
theorem eq_of_addValue (ht : t.parser.strict = true) {p : Policy} {name : String} {line : Nat}
    {v : Value Policy} {b : Bool} (h : addValue p name line v t = .ok b u) :
    b = true ∧ u = { t with store := u.store } := by
  cases hadd : t.store.add p name v with
  | ok s =>
    rw [addValue_of_add line hadd] at h
    cases h
    exact ⟨rfl, rfl⟩
  | error e =>
    obtain ⟨e', hrefuse⟩ := refuse_of_strict ht line e
    rw [addValue_of_error hadd, hrefuse] at h
    cases h

theorem eq_of_addItems {p : Policy} {name : String} (items : List Item) :
    ∀ {t : Session} {b : Bool}, t.parser.strict = true → addItems p name items t = .ok b u →
      items.filterMap Item.fault? = [] ∧ u = { t with store := u.store } := by
  induction items with
  | nil =>
    intro t b _ h
    cases h
    exact ⟨rfl, rfl⟩
  | cons item items ih =>
    intro t b ht h
    obtain ⟨first, t₁, hfirst, h⟩ := ok_of_bind h
    obtain ⟨others, t₂, hothers, h⟩ := ok_of_bind h
    cases h
    cases item with
    | value line v =>
      obtain ⟨-, ht₁⟩ := eq_of_addValue ht hfirst
      obtain ⟨hitems, hu⟩ := ih (ht₁ ▸ ht) hothers
      refine ⟨hitems, ?_⟩
      rw [hu, ht₁]
    | fault e =>
      obtain ⟨_, _, hreport, -⟩ := ok_of_bind hfirst
      rw [report_of_strict ht] at hreport
      cases hreport

/-! ## Statements -/

/-- The outermost of the open blocks. -/
def Block.bottom : Block → List Block → Block
  | b, [] => b
  | _, b :: outer => b.bottom outer

theorem Block.bottom_count (b : Block) (m n : Nat) (outer : List Block) :
    { ({ b with count := m } : Block).bottom outer with count := n } =
      { b.bottom outer with count := n } := by
  cases outer <;> rfl

/-- The statements are carried out to the last of them and close all blocks that are open. -/
structure Consumes (inner : Block) (outer : List Block) (statements : List Statement) (t : Session)
    (o : Outcome) (u : Session) : Prop where
  faultless : statements.flatMap Statement.faults = []
  stopped : o.stopped = none
  parser : u.parser = { t.parser with depth := 0 }
  goes_on : ∀ (below : List Block) (more : List Statement),
    run inner (outer ++ below) (statements ++ more) (t.deeper below.length) =
      run { inner.bottom outer with count := o.count } below more (u.deeper below.length)

namespace Consumes

variable {inner enclosing : Block} {outer : List Block} {rest : List Statement} {t₁ : Session}
  {o : Outcome} {line : Nat} {name : String}

theorem values {items : List Item} {added : Bool} (ht : t.parser.strict = true)
    (hitems : addItems inner.policy name items t = .ok added t₁)
    (h : Consumes { inner with count := inner.count + if added then 1 else 0 } outer rest t₁ o u) :
    Consumes inner outer (.values name items :: rest) t o u := by
  obtain ⟨hfaults, ht₁⟩ := eq_of_addItems items ht hitems
  refine ⟨?_, h.stopped, ?_, fun below more => ?_⟩
  · rw [List.flatMap_cons, h.faultless, List.append_nil]
    exact hfaults
  · rw [h.parser, ht₁]
  · have hdeeper : addItems inner.policy name items (t.deeper below.length) =
        .ok added (t₁.deeper below.length) := by
      rw [depthBlind_addItems, hitems, raised]
    refine (bind_of_run hdeeper).trans ((h.goes_on below more).trans ?_)
    rw [Block.bottom_count]

theorem opening {attached : Bool} (ht : t.parser.strict = true)
    (hadd : addValue inner.policy name line (.policy ⟨t.store.size⟩) t.opened = .ok attached t₁)
    (h : Consumes { policy := ⟨t.store.size⟩, attached := attached } (inner :: outer) rest t₁ o u) :
    Consumes inner outer (.opening line name :: rest) t o u := by
  obtain ⟨-, ht₁⟩ := eq_of_addValue (t := t.opened) ht hadd
  refine ⟨h.faultless, h.stopped, ?_, fun below more => ?_⟩
  · rw [h.parser, ht₁]
    rfl
  · have hopened : (t.deeper below.length).opened = t.opened.deeper below.length := by
      simp only [Session.opened, Session.deeper, Nat.add_right_comm]
    have hdeeper : addValue inner.policy name line (.policy ⟨t.store.size⟩)
        (t.opened.deeper below.length) = .ok attached (t₁.deeper below.length) := by
      rw [depthBlind_addValue, hadd, raised]
    rw [List.cons_append, run_opening_eq, hopened]
    exact (bind_of_run hdeeper).trans (h.goes_on below more)

theorem closing {followed : Bool} (hopen : t.parser.depth ≠ 0)
    (h : Consumes (inner.close enclosing) outer rest t.closed o u) :
    Consumes inner (enclosing :: outer) (.closing line followed :: rest) t o u := by
  refine ⟨h.faultless, h.stopped, h.parser, fun below more => ?_⟩
  have hclosed : (t.deeper below.length).closed = t.closed.deeper below.length := by
    have harith : t.parser.depth + below.length - 1 = t.parser.depth - 1 + below.length := by
      omega
    simp only [Session.closed, Session.deeper, harith]
  have hopen' : (t.deeper below.length).parser.depth ≠ 0 :=
    fun hzero => hopen (Nat.eq_zero_of_add_eq_zero_right hzero)
  rw [List.cons_append, List.cons_append, run_closing_of_enclosing hopen', hclosed,
    h.goes_on below more, Block.close, Block.bottom_count]
  rfl

end Consumes

theorem consumes_of_run (statements : List Statement) : ∀ (inner : Block) (outer : List Block)
    {t : Session} {o : Outcome}, t.parser.strict = true → t.parser.depth = outer.length →
      run inner outer statements t = .ok o u → u.parser.depth = 0 →
      Consumes inner outer statements t o u := by
  induction statements with
  | nil =>
    intro inner outer t o _ hdepth h hu
    cases h
    obtain rfl : outer = [] := List.eq_nil_of_length_eq_zero (hdepth ▸ hu)
    exact ⟨rfl, rfl, by rw [← hu], fun below more => rfl⟩
  | cons statement rest ih =>
    intro inner outer t o ht hdepth h hu
    cases statement with
    | fault e =>
      obtain ⟨_, _, hreport, -⟩ := ok_of_bind h
      rw [report_of_strict ht] at hreport
      cases hreport
    | values name items =>
      obtain ⟨added, t₁, hitems, h⟩ := ok_of_bind h
      obtain ⟨-, ht₁⟩ := eq_of_addItems items ht hitems
      exact .values ht hitems (ih _ outer (ht₁ ▸ ht) (ht₁ ▸ hdepth) h hu)
    | opening line name =>
      rw [run_opening_eq] at h
      obtain ⟨attached, t₁, hadd, h⟩ := ok_of_bind h
      obtain ⟨-, ht₁⟩ := eq_of_addValue (t := t.opened) ht hadd
      have hdepth₁ : t₁.parser.depth = (inner :: outer).length := by
        rw [ht₁, List.length_cons, ← hdepth]
        rfl
      exact .opening ht hadd (ih _ (inner :: outer) (by rw [ht₁]; exact ht) hdepth₁ h hu)
    | closing line followed =>
      cases outer with
      | nil =>
        rw [run_closing_of_unmatched hdepth] at h
        obtain ⟨_, _, hreport, -⟩ := ok_of_bind h
        rw [report_of_strict ht] at hreport
        cases hreport
      | cons enclosing others =>
        have hopen : t.parser.depth ≠ 0 := by
          rw [hdepth]
          exact Nat.succ_ne_zero _
        rw [run_closing_of_enclosing hopen] at h
        exact .closing hopen (ih (inner.close enclosing) others (t := t.closed) ht
          (by rw [Session.closed, hdepth]; rfl) h hu)
    | unreadable => cases h

/-! ## Texts -/

theorem eq_of_finish (ht : t.parser.strict = true) {lines n : Nat} {o : Outcome}
    (h : finish lines o t = .ok n u) : t.parser.depth = 0 ∧ n = o.count ∧ u = t := by
  by_cases hdepth : t.parser.depth = 0
  · rw [finish_of_closed hdepth] at h
    cases h
    exact ⟨hdepth, rfl, rfl⟩
  · rw [finish_of_open (Nat.pos_of_ne_zero hdepth)] at h
    obtain ⟨_, _, hreport, -⟩ := ok_of_bind h
    rw [report_of_strict (t := { t with parser := { t.parser with depth := 0 } }) ht] at hreport
    cases hreport

theorem faults_unterminated_ne_nil (q : OpenQuote) : (unterminated q).faults ≠ [] := by
  simp [unterminated, Statement.faults, List.filterMap_append, Item.fault?]

/-- An accepted text, with a line feed after it, gives its statements whatever follows it, and they
leave nothing open. -/
theorem exists_consumes_of_parse {s : Store} {target : Policy} {text : String} {n : Nat}
    (h : parse target (linesOfText text) ⟨s, { strict := true }⟩ = .ok n u) :
    ∃ found,
      (∀ more, statements (linesOfText (text ++ "\n") ++ more) =
        found ++ statementsFrom (1 + (linesOfText (text ++ "\n")).length) none more) ∧
      run { policy := target } [] found ⟨s, { strict := true }⟩ = .ok ⟨n, none⟩ u ∧
      Consumes { policy := target } [] found ⟨s, { strict := true }⟩ ⟨n, none⟩ u := by
  rw [parse_eq, ← statements_newline] at h
  obtain ⟨o, t, hrun, hfinish⟩ := ok_of_bind h
  obtain ⟨found, q, hfound⟩ :=
    exists_statementsFrom_append (text_of_mem_linesOfText (text ++ "\n")) 1 none
  have hall := hfound []
  rw [List.append_nil] at hall
  have hstrict : t.parser.strict = true := by
    have hsteady := strict_run (statements (linesOfText (text ++ "\n"))) { policy := target } []
      ⟨s, { strict := true }⟩
    rwa [after_of_run hrun] at hsteady
  obtain ⟨hdepth, rfl, rfl⟩ := eq_of_finish hstrict hfinish
  have hconsumes := consumes_of_run _ _ _ rfl rfl hrun hdepth
  have hstopped := hconsumes.stopped
  obtain ⟨count, stopped⟩ := o
  obtain rfl : stopped = none := hstopped
  rw [statements, hall] at hrun hconsumes
  cases q with
  | none =>
    rw [statementsFrom, List.append_nil] at hrun hconsumes
    exact ⟨found, hfound, hrun, hconsumes⟩
  | some q =>
    have hfaults := hconsumes.faultless
    rw [List.flatMap_append, statementsFrom, List.flatMap_singleton] at hfaults
    exact (faults_unterminated_ne_nil q (List.append_eq_nil_iff.mp hfaults).2).elim

end PolicyStore.Paf
