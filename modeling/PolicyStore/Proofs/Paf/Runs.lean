import PolicyStore.Paf.Parser
import Mathlib.Tactic.Basic

set_option autoImplicit false

namespace PolicyStore.Paf

/-!
# Runs of the parser

A computation of the parser answers something or fails, and leaves a session in either case.
-/

variable {α β : Type}

/-- What a computation of the parser answers. -/
def answer (m : ParseM α) (t : Session) : Except PolicyError α :=
  match m t with
  | .ok a _ => .ok a
  | .error e _ => .error e

/-- The session that a computation leaves, whether it fails or not. -/
def after (m : ParseM α) (t : Session) : Session :=
  match m t with
  | .ok _ u => u
  | .error _ u => u

theorem ok_of_answer {m : ParseM α} {t : Session} {a : α} (h : answer m t = .ok a) :
    m t = .ok a (after m t) := by
  unfold answer at h
  unfold after
  split at h <;> simp_all

theorem error_of_answer {m : ParseM α} {t : Session} {e : PolicyError}
    (h : answer m t = .error e) : m t = .error e (after m t) := by
  unfold answer at h
  unfold after
  split at h <;> simp_all

theorem bind_of_ok {m : ParseM α} {t : Session} {a : α} (h : answer m t = .ok a)
    (f : α → ParseM β) : (m >>= f) t = f a (after m t) := by
  simp [bind, EStateM.bind, ok_of_answer h]

theorem bind_of_error {m : ParseM α} {t : Session} {e : PolicyError}
    (h : answer m t = .error e) (f : α → ParseM β) : (m >>= f) t = .error e (after m t) := by
  simp [bind, EStateM.bind, error_of_answer h]

theorem answer_bind_of_ok {m : ParseM α} {t : Session} {a : α} (h : answer m t = .ok a)
    (f : α → ParseM β) : answer (m >>= f) t = answer (f a) (after m t) := by
  rw [answer, bind_of_ok h, answer]

theorem after_bind_of_ok {m : ParseM α} {t : Session} {a : α} (h : answer m t = .ok a)
    (f : α → ParseM β) : after (m >>= f) t = after (f a) (after m t) := by
  rw [after, bind_of_ok h]
  rfl

theorem answer_bind_of_error {m : ParseM α} {t : Session} {e : PolicyError}
    (h : answer m t = .error e) (f : α → ParseM β) : answer (m >>= f) t = .error e := by
  rw [answer, bind_of_error h]

theorem after_bind_of_error {m : ParseM α} {t : Session} {e : PolicyError}
    (h : answer m t = .error e) (f : α → ParseM β) : after (m >>= f) t = after m t := by
  rw [after, bind_of_error h]

theorem bind_of_run {m : ParseM α} {f : α → ParseM β} {t u : Session} {a : α} (h : m t = .ok a u) :
    (m >>= f) t = f a u := by
  show EStateM.bind m f t = _
  rw [EStateM.bind, h]

theorem ok_of_bind {m : ParseM α} {f : α → ParseM β} {t u : Session} {b : β}
    (h : (m >>= f) t = .ok b u) : ∃ a t', m t = .ok a t' ∧ f a t' = .ok b u := by
  change EStateM.bind m f t = _ at h
  rw [EStateM.bind] at h
  split at h
  · rename_i a t' hm
    exact ⟨a, t', hm, h⟩
  · cases h

theorem report_run (e : ParseError) (t : Session) : ParseM.report e t =
    if t.parser.strict then .error (.parse e) t
    else .ok () { t with
      parser := { t.parser with diagnostics := t.parser.diagnostics ++ [e] } } := by
  change (if t.parser.strict then (throw (.parse e) : ParseM Unit)
    else ParseM.modifyParser fun parser =>
      { parser with diagnostics := parser.diagnostics ++ [e] }) t = _
  split <;> rfl

theorem addValue_of_add {p : Policy} {name : String} (line : Nat) {v : Value Policy} {t : Session}
    {s : Store} (h : t.store.add p name v = .ok s) :
    addValue p name line v t = .ok true { t with store := s } := by
  apply (bind_of_run (m := (get : ParseM Session)) (t := t) (a := t) rfl).trans
  rw [h]
  rfl

/-- What is left to do for a value that the store does not accept. -/
def refuse (line : Nat) (e : PolicyError) : ParseM Bool :=
  if e.isTypeError then do
    ParseM.report (formatFault line ("array type mismatch: " ++ e.message))
    return false
  else throw e

theorem addValue_of_error {p : Policy} {name : String} {line : Nat} {v : Value Policy} {t : Session}
    {e : PolicyError} (h : t.store.add p name v = .error e) :
    addValue p name line v t = refuse line e t := by
  apply (bind_of_run (m := (get : ParseM Session)) (t := t) (a := t) rfl).trans
  rw [h]
  rfl

end PolicyStore.Paf
