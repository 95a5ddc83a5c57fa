import PolicyStore.Proofs.Paf.Leniency
import PolicyStore.Proofs.Store.Extending

set_option autoImplicit false

namespace PolicyStore.Paf

/-!
# Parsing into a store that is in use

A parser makes new policies and adds values, and does nothing else to a store. What both keep, a
parser keeps, in whatever way it ends. So nothing that was in the store is taken away by a text.
-/

variable {P : Store → Prop} {legal : String → Prop} {α β : Type}

/-! ## What new policies and added values keep -/

/-- Making a policy keeps a property of stores, and so does adding a value under a legal name. -/
structure Keeps (P : Store → Prop) (legal : String → Prop) : Prop where
  create : ∀ {s}, P s → P (s.alloc {}).2
  add : ∀ {s s' p name v}, legal name → P s → s.add p name v = .ok s' → P s'

/-- The property holds of the store that a computation leaves if it held before. -/
def Kept (P : Store → Prop) (m : ParseM α) : Prop :=
  ∀ t : Session, P t.store → P (after m t).store

namespace Kept

theorem pure (a : α) : Kept P (Pure.pure a : ParseM α) := fun _ h => h

theorem bind {m : ParseM α} {f : α → ParseM β} (hm : Kept P m) (hf : ∀ a, Kept P (f a)) :
    Kept P (m >>= f) := by
  intro t h
  rcases after_bind m f t with hafter | ⟨a, hafter⟩
  · rw [hafter]
    exact hm t h
  · rw [hafter]
    exact hf a _ (hm t h)

theorem report (e : ParseError) : Kept P (ParseM.report e) := by
  intro t h
  rw [after, report_run]
  cases t.parser.strict <;> exact h

theorem refuse (line : Nat) (e : PolicyError) : Kept P (refuse line e) := by
  unfold Paf.refuse
  split
  · exact (report _).bind fun _ => .pure _
  · exact fun _ h => h

theorem finish (lines : Nat) (o : Outcome) : Kept P (finish lines o) := by
  intro t h
  by_cases hdepth : t.parser.depth = 0
  · rw [after_of_run (finish_of_closed hdepth)]
    exact h
  · rw [after_congr (finish_of_open (Nat.pos_of_ne_zero hdepth))]
    exact (report _).bind (fun _ => .pure _) _ h

end Kept

namespace Keeps

variable (h : Keeps P legal)

include h

theorem addValue (p : Policy) {name : String} (hname : legal name) (line : Nat)
    (v : Value Policy) : Kept P (addValue p name line v) := by
  intro t ht
  cases hadd : t.store.add p name v with
  | ok s =>
    rw [after_of_run (addValue_of_add line hadd)]
    exact h.add hname ht hadd
  | error e =>
    rw [after_congr (addValue_of_error hadd)]
    exact Kept.refuse line e t ht

theorem addItems (p : Policy) (name : String) (items : List Item)
    (hnames : ∀ other ∈ (Statement.values name items).names, legal other) :
    Kept P (addItems p name items) := by
  induction items with
  | nil => exact .pure _
  | cons item items ih =>
    cases item with
    | value line v =>
      have hname : legal name := hnames name List.mem_cons_self
      refine (h.addValue p hname line _).bind fun _ => (ih fun other hother => ?_).bind fun _ => .pure _
      exact hnames other (List.mem_cons_of_mem _ hother)
    | fault e => exact ((Kept.report e).bind fun _ => .pure _).bind fun _ =>
        (ih hnames).bind fun _ => .pure _

/-- Along a run the property holds if the names of all statements are legal. -/
theorem run (statements : List Statement)
    (hnames : ∀ statement ∈ statements, ∀ name ∈ statement.names, legal name) :
    ∀ (inner : Block) (outer : List Block), Kept P (run inner outer statements) := by
  induction statements with
  | nil => exact fun _ _ => .pure _
  | cons statement rest ih =>
    intro inner outer
    have hfirst := hnames statement List.mem_cons_self
    have ih := ih fun other hother => hnames other (List.mem_cons_of_mem _ hother)
    cases statement with
    | fault e => exact (Kept.report e).bind fun _ => ih _ _
    | values name items => exact (h.addItems _ name items hfirst).bind fun _ => ih _ _
    | opening line name =>
      intro t ht
      rw [after_congr (run_opening_eq inner outer line name rest t)]
      exact (h.addValue _ (hfirst name List.mem_cons_self) line _).bind (fun _ => ih _ _) t.opened
        (h.create ht)
    | closing line followed =>
      intro t ht
      by_cases hzero : t.parser.depth = 0
      · rw [after_congr (run_closing_of_unmatched hzero)]
        exact (Kept.report _).bind (fun _ => ih _ _) t ht
      · cases outer with
        | nil =>
          rw [after_congr (run_closing_of_last hzero)]
          exact ht
        | cons enclosing others =>
          rw [after_congr (run_closing_of_enclosing hzero)]
          exact ih _ _ t.closed ht
    | unreadable => exact fun _ ht => ht

theorem parse (target : Policy) {lines : List Line}
    (hnames : ∀ statement ∈ statements lines, ∀ name ∈ statement.names, legal name) :
    Kept P (parse target lines) := by
  rw [parse_eq]
  exact (h.run (statements lines) hnames { policy := target } []).bind fun o => .finish _ o

end Keeps

/-! ## Nothing is taken away -/

theorem keeps_extends (s : Store) : Keeps s.Extends fun _ => True where
  create h := h.trans (.alloc _ _)
  add _ h hadd := h.trans (.add hadd)

/-- Whatever is parsed into a policy, strictly or not and with whatever outcome, a policy that stood
at a position below it still stands there, and each array that it held is the beginning of the array
that it holds under the same key afterwards. -/
theorem parse_extends_store (parser : Parser) (s : Store) (target : Policy) (lines : List Line)
    {path : List (String × Nat)} {q : Policy} (hq : s.Stands target path q) :
    let s' := (after (parse target lines) ⟨s, parser⟩).store
    s'.Stands target path q ∧ ∀ key vs, Table.get? key (s.entries q) = some vs →
      ∃ ws, Table.get? key (s'.entries q) = some ws ∧ vs.IsPrefix ws := by
  have hkept : Kept s.Extends (parse target lines) :=
    (keeps_extends s).parse target fun _ _ _ _ => trivial
  have hextends := hkept ⟨s, parser⟩ (.refl s)
  exact ⟨hextends.stands hq, hextends q⟩

/-- The first of two policies is not written to, and the last is up to the value that does not fit. -/
theorem parse_extends_store_of_failure :
    let s : Store := ⟨#[⟨[("a", .policies [⟨1⟩, ⟨2⟩])], none⟩, ⟨[("b", .ints [1])], none⟩,
      ⟨[("b", .ints [2])], none⟩]⟩
    let s' := (after (parse ⟨0⟩ (linesOfText "a.b: 3\na.b: 4 x")) ⟨s, { strict := true }⟩).store
    s.Stands ⟨0⟩ [("a", 1)] ⟨2⟩ ∧ s'.entries ⟨2⟩ = [("b", .ints [2, 3, 4])] ∧
      s'.Stands ⟨0⟩ [("a", 1)] ⟨2⟩ ∧ ∀ key vs, Table.get? key (s.entries ⟨2⟩) = some vs →
        ∃ ws, Table.get? key (s'.entries ⟨2⟩) = some ws ∧ vs.IsPrefix ws := by
  intro s s'
  have hchildren : Table.get? "a" (s.entries ⟨0⟩) = some (.policies [⟨1⟩, ⟨2⟩]) := by
    decide
  have hstands : s.Stands ⟨0⟩ [("a", 1)] ⟨2⟩ := .step hchildren rfl (.here _)
  have hrows : s'.entries ⟨2⟩ = [("b", .ints [2, 3, 4])] := by
    decide +kernel
  have hextends := parse_extends_store { strict := true } s ⟨0⟩
    (linesOfText "a.b: 3\na.b: 4 x") hstands
  exact ⟨hstands, hrows, hextends⟩

end PolicyStore.Paf
