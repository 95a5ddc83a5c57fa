import PolicyStore.Proofs.Paf.Raising
import PolicyStore.Proofs.Paf.Balance
import PolicyStore.Proofs.Store.Renaming
import PolicyStore.Proofs.Update.Rewording

set_option autoImplicit false

namespace PolicyStore.Paf

/-!
# Parsing on after another string

What a policy holds as the first string under a name makes no difference to a parser. After another
string it answers or fails in the same way, and leaves a store with the other string.
-/

variable {α β : Type} {p : Policy} {key x y : String} {t t' : Session}

/-! ## Sessions with another string -/

/-- The second session is the first with another string in its store. -/
structure Alike (p : Policy) (key x y : String) (t t' : Session) : Prop where
  store : t.store.Rewords p key x y t'.store
  parser : t'.parser = t.parser

/-- The second outcome is the first, in a session with another string. -/
inductive Agrees (p : Policy) (key x y : String) :
    EStateM.Result PolicyError Session α → EStateM.Result PolicyError Session α → Prop
  | ok {a : α} {u u' : Session} (h : Alike p key x y u u') : Agrees p key x y (.ok a u) (.ok a u')
  | error {e : PolicyError} {u u' : Session} (h : Alike p key x y u u') :
      Agrees p key x y (.error e u) (.error e u')

namespace Alike

theorem setParser (h : Alike p key x y t t') (parser : Parser) :
    Alike p key x y { t with parser := parser } { t' with parser := parser } :=
  ⟨h.store, rfl⟩

theorem opened (h : Alike p key x y t t') : Alike p key x y t.opened t'.opened :=
  ⟨h.store.alloc {}, by simp only [Session.opened, h.parser]⟩

theorem closed (h : Alike p key x y t t') : Alike p key x y t.closed t'.closed :=
  ⟨h.store, by simp only [Session.closed, h.parser]⟩

end Alike

namespace Agrees

theorem pure (h : Alike p key x y t t') (a : α) :
    Agrees p key x y ((Pure.pure a : ParseM α) t) ((Pure.pure a : ParseM α) t') :=
  .ok h

theorem bind {m : ParseM α} {f : α → ParseM β} (hm : Agrees p key x y (m t) (m t'))
    (hf : ∀ a u', answer m t = .ok a → Alike p key x y (after m t) u' →
      Agrees p key x y (f a (after m t)) (f a u')) :
    Agrees p key x y ((m >>= f) t) ((m >>= f) t') := by
  show Agrees p key x y (EStateM.bind m f t) (EStateM.bind m f t')
  rw [EStateM.bind, EStateM.bind]
  cases hrun : m t with
  | ok a u =>
    rw [hrun] at hm
    generalize m t' = outcome at hm
    cases hm with
    | ok h =>
      rw [← after_of_run hrun] at h
      have hnext := hf a _ (by rw [answer, hrun]) h
      rwa [after_of_run hrun] at hnext
  | error e u =>
    rw [hrun] at hm
    generalize m t' = outcome at hm
    cases hm with
    | error h => exact .error h

end Agrees

theorem agrees_report (h : Alike p key x y t t') (e : ParseError) :
    Agrees p key x y (ParseM.report e t) (ParseM.report e t') := by
  rw [report_run, report_run, h.parser]
  split
  · exact .error h
  · exact .ok ⟨h.store, rfl⟩

theorem agrees_refuse (h : Alike p key x y t t') (line : Nat) (e : PolicyError) :
    Agrees p key x y (refuse line e t) (refuse line e t') := by
  unfold refuse
  split
  · exact (agrees_report h _).bind fun _ _ _ hu => .pure hu _
  · exact .error h

theorem agrees_addValue (h : Alike p key x y t t') {q : Policy} (hq : t.store.dictionary? q = none)
    (name : String) (line : Nat) (v : Value Policy) :
    Agrees p key x y (addValue q name line v t) (addValue q name line v t') := by
  rcases h.store.add hq name v with ⟨s, s', hadd, hadd', hstore⟩ | ⟨e, hadd, hadd'⟩
  · rw [addValue_of_add line hadd, addValue_of_add line hadd']
    exact .ok ⟨hstore, h.parser⟩
  · rw [addValue_of_error hadd, addValue_of_error hadd']
    exact agrees_refuse h line e

theorem agrees_addItems (q : Policy) (name : String) (items : List Item) :
    ∀ {t t' : Session}, Alike p key x y t t' → t.store.dictionary? q = none →
      Agrees p key x y (addItems q name items t) (addItems q name items t') := by
  induction items with
  | nil => exact fun h _ => .pure h _
  | cons item items ih =>
    intro t t' h hq
    refine Agrees.bind ?_ fun first u' _ hu => (ih hu ?_).bind fun _ _ _ hu => .pure hu _
    · cases item with
      | value line v => exact agrees_addValue h hq name line _
      | fault e => exact (agrees_report h e).bind fun _ _ _ hu => .pure hu _
    · rw [(steady_addItem q name item).dictionary, hq]

/-- Statements that are carried out in policies without a dictionary. -/
theorem agrees_run (statements : List Statement) : ∀ (inner : Block) (outer : List Block)
    {t t' : Session}, Alike p key x y t t' →
      (∀ b ∈ inner :: outer, t.store.dictionary? b.policy = none) →
      Agrees p key x y (run inner outer statements t) (run inner outer statements t') := by
  induction statements with
  | nil => exact fun inner outer _ _ h _ => .pure h _
  | cons statement rest ih =>
    intro inner outer t t' h hplain
    have hinner := hplain inner List.mem_cons_self
    have houter : ∀ b ∈ outer, t.store.dictionary? b.policy = none :=
      fun b hb => hplain b (List.mem_cons_of_mem _ hb)
    cases statement with
    | fault e =>
      refine (agrees_report h e).bind fun _ _ _ hu => ih inner outer hu fun b hb => ?_
      rw [(steady_report e).dictionary, hplain b hb]
    | values name items =>
      refine (agrees_addItems inner.policy name items h hinner).bind fun added _ _ hu =>
        ih { inner with count := inner.count + if added then 1 else 0 } outer hu ?_
      simp only [(steady_addItems inner.policy name items).dictionary]
      exact List.forall_mem_cons.mpr ⟨hinner, houter⟩
    | opening line name =>
      have hnew : t'.store.size = t.store.size := h.store.size_eq
      have hkept (q : Policy) : t.opened.store.dictionary? q = t.store.dictionary? q :=
        Store.dictionary?_alloc _ _ _
      have hsub : t.store.dictionary? ⟨t.store.size⟩ = none := by
        have hle : t.store.size ≤ (⟨t.store.size⟩ : Policy).id := Nat.le_refl _
        rw [Store.dictionary?, Store.node_of_le hle]
      rw [run_opening_eq, run_opening_eq, hnew]
      refine (agrees_addValue h.opened ((hkept _).trans hinner) name line
        (.policy ⟨t.store.size⟩)).bind fun attached _ _ hu =>
          ih { policy := ⟨t.store.size⟩, attached := attached } (inner :: outer) hu fun b hb => ?_
      rw [(steady_addValue _ _ _ _).dictionary, hkept]
      rcases List.mem_cons.mp hb with rfl | hb
      · exact hsub
      · exact hplain b hb
    | closing line followed =>
      by_cases hdepth : t.parser.depth = 0
      · have hdepth' : t'.parser.depth = 0 := h.parser ▸ hdepth
        rw [run_closing_of_unmatched hdepth, run_closing_of_unmatched hdepth']
        refine (agrees_report h _).bind fun _ _ _ hu => ih inner outer hu fun b hb => ?_
        rw [(steady_report _).dictionary, hplain b hb]
      · have hdepth' : t'.parser.depth ≠ 0 := h.parser ▸ hdepth
        cases outer with
        | nil =>
          rw [run_closing_of_last hdepth, run_closing_of_last hdepth']
          exact .pure h.closed _
        | cons enclosing others =>
          rw [run_closing_of_enclosing hdepth, run_closing_of_enclosing hdepth']
          obtain ⟨henclosing, hothers⟩ := List.forall_mem_cons.mp houter
          exact ih (inner.close enclosing) others h.closed
            (List.forall_mem_cons.mpr ⟨henclosing, hothers⟩)
    | unreadable => exact .error h

theorem agrees_finish (h : Alike p key x y t t') (lines : Nat) (o : Outcome) :
    Agrees p key x y (finish lines o t) (finish lines o t') := by
  by_cases hdepth : t.parser.depth = 0
  · rw [finish_of_closed hdepth, finish_of_closed (h.parser ▸ hdepth)]
    exact .ok h
  · have hopen := Nat.pos_of_ne_zero hdepth
    rw [finish_of_open hopen, finish_of_open (h.parser ▸ hopen), h.parser]
    exact (agrees_report (h.setParser _) _).bind fun _ _ _ hu => .pure hu _

end PolicyStore.Paf
