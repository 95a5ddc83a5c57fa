import PolicyStore.Proofs.Paf.Appending
import PolicyStore.Proofs.Store.Renaming

set_option autoImplicit false

namespace PolicyStore.Paf

/-!
# Parsing beside other policies

A lenient parser does the same in a store that has policies more and the old ones under other
handles, further down in a text, and after other faults that it has noted there.
-/

variable {α β γ δ : Type} {t t' : Session}

/-! ## Sessions -/

/-- What is different in the second of two sessions. -/
structure Change where
  rename : Policy → Policy
  earlier : List ParseError
  lines : Nat

variable {σ : Change}

structure Mirrors (σ : Change) (t t' : Session) : Prop where
  store : t.store.Renames σ.rename t'.store
  depth : t'.parser.depth = t.parser.depth
  lenient : t.parser.strict = false
  lenient' : t'.parser.strict = false
  diagnostics : t'.parser.diagnostics =
    σ.earlier ++ t.parser.diagnostics.map (ParseError.later σ.lines)

/-- The second outcome is the first, in a session with the change. -/
inductive Follows (σ : Change) (g : α → β) :
    EStateM.Result PolicyError Session α → EStateM.Result PolicyError Session β → Prop
  | ok {a : α} {u u' : Session} (h : Mirrors σ u u') : Follows σ g (.ok a u) (.ok (g a) u')
  | error {e : PolicyError} {u u' : Session} (h : Mirrors σ u u') :
      Follows σ g (.error e u) (.error (e.later σ.lines) u')

namespace Mirrors

theorem opened (h : Mirrors σ t t') : Mirrors σ t.opened t'.opened where
  store := h.store.alloc rfl
  depth := congrArg (· + 1) h.depth
  lenient := h.lenient
  lenient' := h.lenient'
  diagnostics := h.diagnostics

/-- As many blocks may be open in both as one likes. -/
theorem setDepth (h : Mirrors σ t t') (n : Nat) :
    Mirrors σ { t with parser := { t.parser with depth := n } }
      { t' with parser := { t'.parser with depth := n } } :=
  ⟨h.store, rfl, h.lenient, h.lenient', h.diagnostics⟩

theorem closed (h : Mirrors σ t t') : Mirrors σ t.closed t'.closed := by
  rw [Session.closed, Session.closed, h.depth]
  exact h.setDepth _

end Mirrors

namespace Follows

theorem pure (h : Mirrors σ t t') {g : α → β} {a : α} {b : β} (hb : g a = b) :
    Follows σ g ((Pure.pure a : ParseM α) t) ((Pure.pure b : ParseM β) t') :=
  hb ▸ .ok h

theorem bind {m : ParseM α} {m' : ParseM β} {f : α → ParseM γ} {f' : β → ParseM δ} {g : α → β}
    {g' : γ → δ} (hm : Follows σ g (m t) (m' t'))
    (hf : ∀ a u u', m t = .ok a u → Mirrors σ u u' → Follows σ g' (f a u) (f' (g a) u')) :
    Follows σ g' ((m >>= f) t) ((m' >>= f') t') := by
  show Follows σ g' (EStateM.bind m f t) (EStateM.bind m' f' t')
  rw [EStateM.bind, EStateM.bind]
  cases hrun : m t with
  | ok a u =>
    rw [hrun] at hm
    cases hrun' : m' t' with
    | ok b u' =>
      rw [hrun'] at hm
      cases hm with
      | ok h => exact hf a u u' hrun h
    | error e u' =>
      rw [hrun'] at hm
      cases hm
  | error e u =>
    rw [hrun] at hm
    cases hrun' : m' t' with
    | ok b u' =>
      rw [hrun'] at hm
      cases hm
    | error e' u' =>
      rw [hrun'] at hm
      cases hm with
      | error h => exact .error h

theorem mirrors {m : ParseM α} {m' : ParseM β} {g : α → β} (h : Follows σ g (m t) (m' t')) :
    Mirrors σ (after m t) (after m' t') := by
  unfold after
  cases hrun : m t <;> cases hrun' : m' t' <;> rw [hrun, hrun'] at h <;> cases h <;> assumption

/-- The answers are the same unless the parser fails with a fault of the text. -/
theorem answer_eq {m m' : ParseM α} (h : Follows σ id (m t) (m' t'))
    (hnever : NeverParseError (answer m t)) : answer m' t' = answer m t := by
  unfold answer at hnever ⊢
  cases hrun : m t with
  | ok a u =>
    cases hrun' : m' t' <;> rw [hrun, hrun'] at h <;> cases h
    rfl
  | error e u =>
    cases hrun' : m' t' <;> rw [hrun, hrun'] at h <;> cases h
    rw [hrun] at hnever
    exact congrArg _ (PolicyError.later_of_not_parse σ.lines (hnever e rfl))

end Follows

/-! ## Values -/

theorem follows_report (h : Mirrors σ t t') (e : ParseError) :
    Follows σ id (ParseM.report e t) (ParseM.report (e.later σ.lines) t') := by
  rw [report_of_lenient h.lenient, report_of_lenient h.lenient']
  refine .ok ⟨h.store, h.depth, h.lenient, h.lenient', ?_⟩
  simp [Session.noted, h.diagnostics]

theorem follows_refuse (h : Mirrors σ t t') (line : Nat) {e : PolicyError}
    (he : e.isParse = false) :
    Follows σ id (refuse line e t) (refuse (line + σ.lines) e t') := by
  unfold refuse
  split
  · exact (follows_report h _).bind fun _ _ _ _ hu => .pure hu rfl
  · have herror : Follows (α := Bool) σ id (.error e t) (.error (e.later σ.lines) t') := .error h
    rwa [PolicyError.later_of_not_parse σ.lines he] at herror

theorem follows_addValue (h : Mirrors σ t t') (p : Policy) (name : String) (line : Nat)
    (v : Value Policy) :
    Follows σ id (addValue p name line v t)
      (addValue (σ.rename p) name (line + σ.lines) (v.map σ.rename) t') := by
  rcases h.store.add p name v with ⟨s, s', hadd, hadd', hstore⟩ | ⟨e, hadd, hadd'⟩
  · rw [addValue_of_add line hadd, addValue_of_add (line + σ.lines) hadd']
    exact .ok ⟨hstore, h.depth, h.lenient, h.lenient', h.diagnostics⟩
  · rw [addValue_of_error hadd, addValue_of_error hadd']
    exact follows_refuse h line (Store.neverParseError_add _ _ _ _ e hadd)

theorem follows_addItems (p : Policy) (name : String) (items : List Item) :
    ∀ {t t' : Session}, Mirrors σ t t' → Follows σ id (addItems p name items t)
      (addItems (σ.rename p) name (items.map (Item.later σ.lines)) t') := by
  induction items with
  | nil => exact fun h => .pure h rfl
  | cons item items ih =>
    intro t t' h
    refine Follows.bind (g := id) ?_ fun _ _ _ _ hu => (ih hu).bind fun _ _ _ _ hu => .pure hu rfl
    cases item with
    | value line v =>
      have hliteral : (Value.ofLiteral v).map σ.rename = Value.ofLiteral v := by
        cases v with
        | policy e => exact e.elim
        | _ => rfl
      have hadd := follows_addValue h p name line (.ofLiteral v)
      rwa [hliteral] at hadd
    | fault e => exact (follows_report h e).bind fun _ _ _ _ hu => .pure hu rfl

/-! ## Statements -/

def Block.rename (f : Policy → Policy) (b : Block) : Block := { b with policy := f b.policy }

theorem total_rename (f : Policy → Policy) (outer : List Block) :
    ∀ inner : Block, (inner.rename f).total (outer.map (Block.rename f)) = inner.total outer := by
  induction outer with
  | nil => exact fun _ => rfl
  | cons b outer ih => exact fun inner => ih (inner.close b)

theorem follows_run (statements : List Statement) : ∀ (inner : Block) (outer : List Block)
    {t t' : Session}, Mirrors σ t t' → t.parser.depth = outer.length →
      Follows σ (Outcome.later σ.lines) (run inner outer statements t)
        (run (inner.rename σ.rename) (outer.map (Block.rename σ.rename))
          (statements.map (Statement.later σ.lines)) t') := by
  induction statements with
  | nil =>
    intro inner outer t t' h _
    refine .pure h ?_
    rw [total_rename]
    rfl
  | cons statement rest ih =>
    intro inner outer t t' h hdepth
    -- what a step does to the depth is known from the session that it leaves
    have hkept {α : Type} {m : ParseM α} (hm : Steady m) {t u : Session} {a : α}
        (hrun : m t = .ok a u) : u.parser.depth = t.parser.depth := by
      rw [← after_of_run hrun, hm.depth]
    cases statement with
    | fault e =>
      refine (follows_report h e).bind fun _ u u' hrun hu => ih inner outer hu ?_
      rw [hkept (steady_report e) hrun, hdepth]
    | values name items =>
      refine (follows_addItems inner.policy name items h).bind fun added u u' hrun hu =>
        ih { inner with count := inner.count + if added then 1 else 0 } outer hu ?_
      rw [hkept (steady_addItems _ _ _) hrun, hdepth]
    | opening line name =>
      have hnew : σ.rename ⟨t.store.size⟩ = ⟨t'.store.size⟩ := h.store.next 0
      rw [List.map_cons, Statement.later, run_opening_eq, run_opening_eq, ← hnew]
      refine (follows_addValue h.opened inner.policy name line (.policy ⟨t.store.size⟩)).bind
        fun attached u u' hrun hu =>
          ih { policy := ⟨t.store.size⟩, attached := attached } (inner :: outer) hu ?_
      rw [hkept (steady_addValue _ _ _ _) hrun, List.length_cons, ← hdepth]
      rfl
    | closing line followed =>
      rw [List.map_cons, Statement.later]
      cases outer with
      | nil =>
        rw [run_closing_of_unmatched hdepth, run_closing_of_unmatched (h.depth.trans hdepth)]
        refine (follows_report h (syntaxFault line "unmatched '\x7d'")).bind fun _ u u' hrun hu =>
          ih inner [] hu ?_
        rw [hkept (steady_report _) hrun, hdepth]
      | cons enclosing others =>
        have hopen : t.parser.depth ≠ 0 := by
          rw [hdepth]
          exact Nat.succ_ne_zero _
        rw [List.map_cons, run_closing_of_enclosing hopen,
          run_closing_of_enclosing (h.depth ▸ hopen)]
        refine ih (inner.close enclosing) others h.closed ?_
        rw [Session.closed, hdepth]
        rfl
    | unreadable => exact .error h

theorem follows_finish (h : Mirrors σ t t') (lines : Nat) (o : Outcome) :
    Follows σ id (finish lines o t) (finish (lines + σ.lines) (o.later σ.lines) t') := by
  by_cases hdepth : t.parser.depth = 0
  · rw [finish_of_closed hdepth, finish_of_closed (h.depth.trans hdepth)]
    exact .ok h
  · have hline : (o.later σ.lines).stopped.getD (lines + σ.lines) =
        o.stopped.getD lines + σ.lines := by
      cases hstopped : o.stopped <;> simp [Outcome.later, hstopped]
    have hopen := Nat.pos_of_ne_zero hdepth
    rw [finish_of_open hopen, finish_of_open (h.depth ▸ hopen), hline, h.depth]
    exact (follows_report (h.setDepth 0) _).bind fun _ _ _ _ hu => .pure hu rfl

end PolicyStore.Paf
