import PolicyStore.Proofs.Paf.Raising
import PolicyStore.Proofs.Schema.Included

set_option autoImplicit false

namespace PolicyStore

/-!
# Open blocks

The depth of a parser is the number of blocks that are open. While that is so, no closing brace ends
a run before the statements do.
-/

namespace Store

variable {s s' : Store} {p : Policy}

theorem dictionary?_alloc (s : Store) (rows : Entries Policy) (q : Policy) :
    (s.alloc { entries := rows }).2.dictionary? q = s.dictionary? q := by
  rw [dictionary?, node_alloc, dictionary?]
  split
  · rename_i heq
    have hnone : s.nodes[s.size]? = none := Array.getElem?_eq_none (Nat.le_refl _)
    rw [heq, node, hnone]
    rfl
  · rfl

theorem dictionary?_nest (values : Values Policy) (segments : List String) (q : Policy) :
    (s.nest values segments).2.dictionary? q = s.dictionary? q := by
  induction segments with
  | nil => rfl
  | cons segment rest ih => exact (dictionary?_alloc _ _ q).trans ih

/-- A write attaches no dictionary and detaches none. -/
theorem dictionary?_add {name : String} {v : Value Policy} (h : s.add p name v = .ok s')
    (q : Policy) : s'.dictionary? q = s.dictionary? q := by
  obtain ⟨_, _, h⟩ := Except.bind_eq_ok h
  obtain ⟨spot, _, h⟩ := Except.bind_eq_ok h
  dsimp only at h
  split at h
  · cases h
    exact (dictionary?_setEntries _ _ _ _).trans (dictionary?_nest _ _ q)
  · cases h

end Store

namespace Paf

variable {α β : Type} {t u : Session}

/-! ## Computations that open and close nothing -/

/-- Two computations in a row end where the first does, or where the second does from there. -/
theorem after_bind (m : ParseM α) (f : α → ParseM β) (t : Session) :
    after (m >>= f) t = after m t ∨ ∃ a, after (m >>= f) t = after (f a) (after m t) := by
  cases hanswer : answer m t with
  | error e => exact Or.inl (after_bind_of_error hanswer f)
  | ok a => exact Or.inr ⟨a, after_bind_of_ok hanswer f⟩

/-- Leaves the depth of the parser, its mode and the dictionaries of all policies as they are. -/
structure Steady (m : ParseM α) : Prop where
  depth : ∀ t, (after m t).parser.depth = t.parser.depth
  strict : ∀ t, (after m t).parser.strict = t.parser.strict
  dictionary : ∀ t q, (after m t).store.dictionary? q = t.store.dictionary? q

namespace Steady

theorem pure (a : α) : Steady (Pure.pure a : ParseM α) :=
  ⟨fun _ => rfl, fun _ => rfl, fun _ _ => rfl⟩

theorem throw (e : PolicyError) : Steady (MonadExcept.throw e : ParseM α) :=
  ⟨fun _ => rfl, fun _ => rfl, fun _ _ => rfl⟩

theorem bind {m : ParseM α} {f : α → ParseM β} (hm : Steady m) (hf : ∀ a, Steady (f a)) :
    Steady (m >>= f) := by
  refine ⟨fun t => ?_, fun t => ?_, fun t q => ?_⟩
  · rcases after_bind m f t with h | ⟨a, h⟩
    · rw [h, hm.depth]
    · rw [h, (hf a).depth, hm.depth]
  · rcases after_bind m f t with h | ⟨a, h⟩
    · rw [h, hm.strict]
    · rw [h, (hf a).strict, hm.strict]
  · rcases after_bind m f t with h | ⟨a, h⟩
    · rw [h, hm.dictionary]
    · rw [h, (hf a).dictionary, hm.dictionary]

/-- Before a computation that leaves the mode as it is, it does not matter for the mode. -/
theorem strict_bind {m : ParseM α} {f : α → ParseM β} (hm : Steady m)
    (hf : ∀ a t, (after (f a) t).parser.strict = t.parser.strict) (t : Session) :
    (after (m >>= f) t).parser.strict = t.parser.strict := by
  rcases after_bind m f t with h | ⟨a, h⟩
  · rw [h, hm.strict]
  · rw [h, hf, hm.strict]

end Steady

theorem after_of_run {m : ParseM α} {a : α} (h : m t = .ok a u) : after m t = u := by
  rw [after, h]

theorem after_congr {m n : ParseM α} (h : m t = n u) : after m t = after n u := by
  rw [after, h, after]

theorem answer_congr {m n : ParseM α} (h : m t = n u) : answer m t = answer n u := by
  rw [answer, h, answer]

theorem bind_congr_of_run {m n : ParseM α} {f : α → ParseM β} (h : m t = n u) :
    (m >>= f) t = (n >>= f) u := by
  show EStateM.bind m f t = EStateM.bind n f u
  rw [EStateM.bind, EStateM.bind, h]

theorem steady_report (e : ParseError) : Steady (ParseM.report e) := by
  have hafter (t : Session) : after (ParseM.report e) t = t ∨ after (ParseM.report e) t =
      { t with parser := { t.parser with diagnostics := t.parser.diagnostics ++ [e] } } := by
    rw [after, report_run]
    cases t.parser.strict
    · exact Or.inr rfl
    · exact Or.inl rfl
  refine ⟨fun t => ?_, fun t => ?_, fun t q => ?_⟩ <;> rcases hafter t with h | h <;> rw [h]

theorem steady_refuse (line : Nat) (e : PolicyError) : Steady (refuse line e) := by
  unfold refuse
  split
  · exact (steady_report _).bind fun _ => .pure _
  · exact .throw e

theorem steady_addValue (p : Policy) (name : String) (line : Nat) (v : Value Policy) :
    Steady (addValue p name line v) := by
  have hcases (t : Session) : (∃ s, t.store.add p name v = .ok s ∧
      after (addValue p name line v) t = { t with store := s }) ∨
        ∃ e, after (addValue p name line v) t = after (refuse line e) t := by
    cases hadd : t.store.add p name v with
    | ok s => exact Or.inl ⟨s, rfl, after_of_run (addValue_of_add line hadd)⟩
    | error e => exact Or.inr ⟨e, after_congr (addValue_of_error hadd)⟩
  refine ⟨fun t => ?_, fun t => ?_, fun t q => ?_⟩
  · rcases hcases t with ⟨s, _, h⟩ | ⟨e, h⟩
    · rw [h]
    · rw [h, (steady_refuse line e).depth]
  · rcases hcases t with ⟨s, _, h⟩ | ⟨e, h⟩
    · rw [h]
    · rw [h, (steady_refuse line e).strict]
  · rcases hcases t with ⟨s, hadd, h⟩ | ⟨e, h⟩
    · rw [h, Store.dictionary?_add hadd]
    · rw [h, (steady_refuse line e).dictionary]

theorem steady_addItem (p : Policy) (name : String) (item : Item) :
    Steady (addItem p name item) := by
  cases item with
  | value line v => exact steady_addValue _ _ _ _
  | fault e => exact (steady_report e).bind fun _ => .pure _

theorem steady_addItems (p : Policy) (name : String) (items : List Item) :
    Steady (addItems p name items) := by
  induction items with
  | nil => exact .pure _
  | cons item items ih =>
    exact (steady_addItem p name item).bind fun _ => ih.bind fun _ => .pure _

/-! ## Opening a block -/

/-- The session in which a block has been opened whose policy is still empty. -/
def Session.opened (t : Session) : Session :=
  ⟨(t.store.alloc {}).2, { t.parser with depth := t.parser.depth + 1 }⟩

theorem run_opening_eq (inner : Block) (outer : List Block) (line : Nat) (name : String)
    (rest : List Statement) (t : Session) : run inner outer (.opening line name :: rest) t =
      (addValue inner.policy name line (.policy ⟨t.store.size⟩) >>= fun attached =>
        run { policy := ⟨t.store.size⟩, attached := attached } (inner :: outer) rest) t.opened :=
  rfl

/-- A run leaves the mode of the parser as it is. -/
theorem strict_run (statements : List Statement) : ∀ (inner : Block) (outer : List Block)
    (t : Session), (after (run inner outer statements) t).parser.strict = t.parser.strict := by
  induction statements with
  | nil => exact fun _ _ _ => rfl
  | cons statement rest ih =>
    intro inner outer t
    cases statement with
    | fault e => exact (steady_report e).strict_bind (fun _ => ih _ _) t
    | values name items => exact (steady_addItems _ _ _).strict_bind (fun _ => ih _ _) t
    | opening line name =>
      rw [after_congr (run_opening_eq inner outer line name rest t)]
      exact (steady_addValue _ _ _ _).strict_bind (fun _ => ih _ _) t.opened
    | closing line followed =>
      by_cases hzero : t.parser.depth = 0
      · rw [after_congr (run_closing_of_unmatched hzero)]
        exact (steady_report _).strict_bind (fun _ => ih _ _) t
      · cases outer with
        | nil =>
          rw [after_congr (run_closing_of_last hzero)]
          rfl
        | cons enclosing others =>
          rw [after_congr (run_closing_of_enclosing hzero)]
          exact ih _ _ t.closed
    | unreadable => rfl

/-! ## The end of the input -/

/-- What is left to do when all statements are carried out: open blocks are a fault. -/
def finish (lines : Nat) (o : Outcome) : ParseM Nat := do
  let depth := (← get).parser.depth
  if 0 < depth then
    ParseM.modifyParser fun parser => { parser with depth := 0 }
    ParseM.report ⟨.eof, "end of input with " ++ toString depth ++ " unclosed block(s)",
      some (o.stopped.getD lines), none⟩
  return o.count

theorem parse_eq (target : Policy) (lines : List Line) : parse target lines =
    run { policy := target } [] (statements lines) >>= finish lines.length :=
  rfl

theorem finish_of_closed {lines : Nat} {o : Outcome} (h : t.parser.depth = 0) :
    finish lines o t = .ok o.count t := by
  change (if 0 < t.parser.depth then _ else pure o.count : ParseM Nat) t = _
  rw [if_neg (by omega)]
  rfl

theorem finish_of_open {lines : Nat} {o : Outcome} (h : 0 < t.parser.depth) : finish lines o t =
    (do
      ParseM.report ⟨.eof, "end of input with " ++ toString t.parser.depth ++ " unclosed block(s)",
        some (o.stopped.getD lines), none⟩
      return o.count : ParseM Nat) { t with parser := { t.parser with depth := 0 } } := by
  change (if 0 < t.parser.depth then _ else _ : ParseM Nat) t = _
  rw [if_pos h]
  rfl

end Paf

end PolicyStore
