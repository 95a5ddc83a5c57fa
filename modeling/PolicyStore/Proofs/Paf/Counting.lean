import PolicyStore.Proofs.Paf.Halting
import PolicyStore.Proofs.Paf.Strictness

set_option autoImplicit false

namespace PolicyStore

/-!
# The lines of faults

Each fault of a text is numbered with the line that the parser was at when it came upon the fault,
however often parts of lines had been taken back before, and the faults are found in the order of
their lines.
-/

/-- The fault of a text that an error stands for. -/
def PolicyError.fault? : PolicyError → Option ParseError
  | parse e => some e
  | _ => none

theorem PolicyError.fault?_of_not_parse {e : PolicyError} (h : e.isParse = false) :
    e.fault? = none := by
  cases e <;> first | rfl | cases h

namespace Paf

variable {α β : Type} {lines : List Line} {n l : Nat}

/-! ## Computations that report on one line -/

/-- The faults that a computation has noted, and the one that it has failed with. -/
def faults (result : EStateM.Result PolicyError Session α) : List ParseError :=
  match result with
  | .ok _ t => t.parser.diagnostics
  | .error e t => t.parser.diagnostics ++ e.fault?.toList

/-- Whatever the computation reports is numbered with the line. -/
def ReportsAt (l : Nat) (m : ParseM α) : Prop :=
  ∀ t, ∃ new, faults (m t) = t.parser.diagnostics ++ new ∧ ∀ e ∈ new, e.line = some l

namespace ReportsAt

theorem pure (a : α) : ReportsAt l (Pure.pure a : ParseM α) :=
  fun _ => ⟨[], (List.append_nil _).symm, nofun⟩

theorem throw {e : PolicyError} (h : e.isParse = false) : ReportsAt l (MonadExcept.throw e : ParseM α) := by
  intro t
  refine ⟨[], ?_, nofun⟩
  show t.parser.diagnostics ++ e.fault?.toList = _
  rw [PolicyError.fault?_of_not_parse h]
  rfl

theorem bind {m : ParseM α} {f : α → ParseM β} (hm : ReportsAt l m) (hf : ∀ a, ReportsAt l (f a)) :
    ReportsAt l (m >>= f) := by
  intro t
  obtain ⟨new, hnew, hlines⟩ := hm t
  show ∃ new, faults (EStateM.bind m f t) = _ ∧ _
  unfold EStateM.bind
  cases hrun : m t with
  | error e u =>
    rw [hrun] at hnew
    exact ⟨new, hnew, hlines⟩
  | ok a u =>
    rw [hrun] at hnew
    obtain ⟨more, hmore, hlines'⟩ := hf a u
    refine ⟨new ++ more, ?_, fun e he => (List.mem_append.mp he).elim (hlines e) (hlines' e)⟩
    rw [← List.append_assoc, ← hnew]
    exact hmore

end ReportsAt

theorem reportsAt_report {e : ParseError} (h : e.line = some l) : ReportsAt l (ParseM.report e) := by
  intro t
  refine ⟨[e], ?_, List.forall_mem_singleton.mpr h⟩
  rw [report_run]
  cases t.parser.strict <;> rfl

theorem reportsAt_refuse (l : Nat) {e : PolicyError} (h : e.isParse = false) :
    ReportsAt l (refuse l e) := by
  unfold refuse
  split
  · exact (reportsAt_report rfl).bind fun _ => .pure _
  · exact .throw h

theorem reportsAt_addValue (p : Policy) (name : String) (l : Nat) (v : Value Policy) :
    ReportsAt l (addValue p name l v) := by
  intro t
  cases hadd : t.store.add p name v with
  | ok s =>
    rw [addValue_of_add l hadd]
    exact ⟨[], (List.append_nil _).symm, nofun⟩
  | error e =>
    rw [addValue_of_error hadd]
    exact reportsAt_refuse l (Store.neverParseError_add t.store p name v e hadd) t

theorem reportsAt_addItem (p : Policy) (name : String) {item : Item} (h : item.IsAt l) :
    ReportsAt l (addItem p name item) := by
  cases item with
  | value line v =>
    obtain rfl : line = l := h
    exact reportsAt_addValue _ _ _ _
  | fault e => exact (reportsAt_report h).bind fun _ => .pure _

theorem reportsAt_addItems (p : Policy) (name : String) {items : List Item}
    (h : ∀ item ∈ items, item.IsAt l) : ReportsAt l (addItems p name items) := by
  induction items with
  | nil => exact .pure _
  | cons item items ih =>
    obtain ⟨hfirst, hrest⟩ := List.forall_mem_cons.mp h
    exact (reportsAt_addItem p name hfirst).bind fun _ => (ih hrest).bind fun _ => .pure _

/-! ## Steps that report -/

namespace Machine

def reported (c : Machine) : List ParseError :=
  c.reader.session.parser.diagnostics ++
    match c.stage with
    | .failed e => e.fault?.toList
    | _ => []

theorem Ends.reported_eq {c : Machine} {result : EStateM.Result PolicyError Session Nat}
    (h : c.Ends result) : c.reported = faults result := by
  cases result with
  | ok count t =>
    obtain ⟨hstage, rfl⟩ := h
    rw [reported, hstage]
    exact List.append_nil _
  | error e t =>
    obtain ⟨hstage, rfl⟩ := h
    rw [reported, hstage]
    rfl

/-- The number of the line that the next step is about: the line of the text that is handed out, or
when there is none, the line with the mark of the string that is open, or else the last line. -/
def place (total : Nat) (c : Machine) : Nat :=
  match c.reader.cursor.fetch.1, c.stage with
  | .ended, .string q => q.origin
  | .ended, _ => total
  | _, _ => c.reader.cursor.fetch.2.current

/-- The number of a line that no fault has been found after. -/
def reached (total : Nat) (c : Machine) : Nat :=
  match c.stage with
  | .block => c.reader.cursor.taken
  | .string q => q.origin
  | _ => total

end Machine

section Steps

variable {r : Reader} {added : Bool} {st : Step} {result : EStateM.Result PolicyError Reader Stage}

theorem reported_carry {m : ParseM α} {f : α → Session → Machine} (hm : ReportsAt l m)
    (hf : ∀ a t, (f a t).reported = t.parser.diagnostics) :
    ∃ new, (carry m r f).reported = r.session.parser.diagnostics ++ new ∧
      ∀ e ∈ new, e.line = some l := by
  obtain ⟨new, hnew, hlines⟩ := hm r.session
  refine ⟨new, hnew ▸ ?_, hlines⟩
  unfold carry
  cases m r.session with
  | ok a t => exact hf a t
  | error e t => rfl

theorem reached_carry {m : ParseM α} {f : α → Session → Machine} (hle : l ≤ n)
    (hf : ∀ a t, l ≤ (f a t).reached n) : l ≤ (carry m r f).reached n := by
  unfold carry
  split
  · exact hf _ _
  · exact hle

theorem Does.reports (h : Does n r added st result) (hr : r.cursor.At lines n) (hs : r.Standing) :
    ∃ new, (Machine.of result).reported = r.session.parser.diagnostics ++ new ∧
      ∀ e ∈ new, e.line = some n := by
  cases h with
  | nothing => exact ⟨[], rfl, nofun⟩
  | fault he => exact of_report .. ▸ reported_carry (reportsAt_report he) fun _ t => List.append_nil _
  | values hitems =>
    exact of_endValues .. ▸ reported_carry (reportsAt_addItems _ _ hitems) fun _ t =>
      List.append_nil _
  | string hitems =>
    exact of_pauseValues .. ▸ reported_carry (reportsAt_addItems _ _ hitems) fun _ t =>
      List.append_nil _
  | opening =>
    rw [of_openBlock, hr.counter]
    exact reported_carry (reportsAt_addValue _ _ _ _) fun _ t => List.append_nil _
  | closing =>
    rcases hs.outer_cases hr.ended with hzero | ⟨hpos, enclosing, others, houter⟩
    · rw [of_closeBlock_of_unmatched hzero, hr.counter]
      exact reported_carry (reportsAt_report rfl) fun _ t => List.append_nil _
    · rw [of_closeBlock_of_enclosing hpos houter]
      exact ⟨[], rfl, nofun⟩

theorem Cursor.taken_keep (c : Cursor) (kept : Bool) (rest : List Char) :
    (c.keep kept rest).taken = c.taken := by
  cases kept <;> rfl

theorem Does.le_reached (h : Does n r added st result) (hr : r.cursor.At lines n) (hs : r.Standing) :
    n ≤ (Machine.of result).reached lines.length := by
  have hle : n ≤ lines.length := hr.taken ▸ hr.sound.le
  have hkeep (kept : Bool) (rest : List Char) : n ≤ (r.cursor.keep kept rest).taken := by
    rw [Cursor.taken_keep, hr.taken]
  cases h with
  | nothing => exact Nat.le_of_eq hr.taken.symm
  | fault => exact of_report .. ▸ reached_carry hle fun _ t => hkeep _ _
  | values => exact of_endValues .. ▸ reached_carry hle fun _ t => hkeep _ _
  | string hitems hopened horigin =>
    exact of_pauseValues .. ▸ reached_carry hle fun _ t =>
      Nat.le_of_eq (horigin.trans hr.current).symm
  | opening => exact of_openBlock .. ▸ reached_carry hle fun _ t => hkeep _ _
  | closing =>
    rcases hs.outer_cases hr.ended with hzero | ⟨hpos, enclosing, others, houter⟩
    · exact of_closeBlock_of_unmatched hzero _ ▸ reached_carry hle fun _ t => hkeep _ _
    · rw [of_closeBlock_of_enclosing hpos houter]
      exact hkeep _ _

end Steps

namespace Machine

variable {c : Machine}

theorem Sound.reached_le (h : c.Sound lines) : c.reached lines.length ≤ lines.length := by
  cases h with
  | block hcursor => exact hcursor.le
  | string hcursor _ _ _ _ _ hle => exact hle.trans hcursor.le
  | answered => exact Nat.le_refl _
  | failed => exact Nat.le_refl _

end Machine

/-- The faults that one step adds, and what it reaches with them. -/
structure Adds (total : Nat) (c c' : Machine) (new : List ParseError) : Prop where
  reported : c'.reported = c.reported ++ new
  place : ∀ e ∈ new, e.line = some (c.place total)
  mono : c.reached total ≤ c'.reached total
  pos : new ≠ [] → 0 < c.place total
  after : new ≠ [] → c.reached total ≤ c.place total
  upto : new ≠ [] → c.place total ≤ c'.reached total

namespace Adds

variable {total : Nat} {c c' : Machine} {new : List ParseError}

theorem nothing (hreported : c'.reported = c.reported) (hmono : c.reached total ≤ c'.reached total) :
    Adds total c c' [] where
  reported := by rw [hreported, List.append_nil]
  place := nofun
  mono := hmono
  pos h := (h rfl).elim
  after h := (h rfl).elim
  upto h := (h rfl).elim

theorem at_place {before : List ParseError} (hplace : c.place total = l)
    (hbefore : c.reported = before) (hreported : c'.reported = before ++ new)
    (hlines : ∀ e ∈ new, e.line = some l) (hpos : 0 < l) (hafter : c.reached total ≤ l)
    (hupto : l ≤ c'.reached total) : Adds total c c' new := by
  subst hplace hbefore
  exact ⟨hreported, hlines, hafter.trans hupto, fun _ => hpos, fun _ => hafter, fun _ => hupto⟩

end Adds

theorem place_of_text {r : Reader} {cs : List Char} (hfetch : r.cursor.fetch.1 = .text cs)
    (stage : Stage) (total : Nat) :
    Machine.place total ⟨stage, r⟩ = r.cursor.fetch.2.current := by
  unfold Machine.place
  rw [hfetch]

/-- What a step reports is numbered with the line that the step is about. -/
theorem Advances.exists_adds {c c' : Machine} (h : Advances lines c c') (hc : c.Sound lines) :
    ∃ new, Adds lines.length c c' new := by
  cases h with
  | @text r cs n result hfetch hnext hdoes =>
    cases hc with
    | block hcursor hstanding =>
      obtain ⟨new, hnew, hlines⟩ := hdoes.reports hnext hstanding.next
      have htaken : r.cursor.taken ≤ n := hnext.taken ▸ r.cursor.taken_le_fetch
      exact ⟨new, .at_place ((place_of_text hfetch _ _).trans hnext.current) (List.append_nil _) hnew
        hlines hnext.pos htaken (hdoes.le_reached hnext hstanding.next)⟩
  | @leaving r enclosing others hfetch houter =>
    exact ⟨[], .nothing rfl r.cursor.taken_le_fetch⟩
  | ending => exact ⟨[], .nothing rfl hc.reached_le⟩
  | @unclosed r hfetch houter hdepth =>
    cases hc with
    | block hcursor hstanding =>
      have hplace : Machine.place lines.length ⟨.block, r⟩ = lines.length := by
        unfold Machine.place
        rw [hfetch]
      obtain ⟨new, hnew, hlines⟩ := reported_carry (r := r.next.reset)
        (f := fun _ t => ⟨.answered r.inner.count, { r.next.reset with session := t }⟩)
        (reportsAt_report (e := unclosedFault r.session.parser.depth lines.length) rfl)
        fun _ t => List.append_nil _
      refine ⟨new, .at_place hplace (List.append_nil _) hnew hlines ?_ hcursor.le ?_⟩
      · exact Nat.lt_of_lt_of_le (hstanding.begun hdepth) hcursor.le
      · exact reached_carry (Nat.le_refl _) fun _ t => Nat.le_refl _
  | piece => exact ⟨[], .nothing rfl (Nat.le_refl _)⟩
  | @close r q cs piece after n result hfetch hcut hnext hdoes =>
    cases hc with
    | string hcursor hstanding hpending hended horigin hpos hle =>
      obtain ⟨new, hnew, hlines⟩ := hdoes.reports hnext hstanding.next
      have htaken : r.cursor.taken ≤ n := hnext.taken ▸ r.cursor.taken_le_fetch
      exact ⟨new, .at_place ((place_of_text hfetch _ _).trans hnext.current) (List.append_nil _) hnew
        hlines hnext.pos (hle.trans htaken) (hdoes.le_reached hnext hstanding.next)⟩
  | @unterminated r q hfetch =>
    cases hc with
    | string hcursor hstanding hpending hended horigin hpos hle =>
      have hplace : Machine.place lines.length ⟨.string q, r⟩ = q.origin := by
        unfold Machine.place
        rw [hfetch]
      obtain ⟨new, hnew, hlines⟩ := reported_carry (r := r.next)
        (f := fun _ t => ⟨.block, Reader.count q.added { r.next with session := t }⟩)
        (reportsAt_report (e := unterminatedFault q) (congrArg some horigin))
        fun _ t => List.append_nil _
      exact ⟨new, .at_place hplace (List.append_nil _) hnew hlines hpos (Nat.le_refl _)
        (reached_carry (hle.trans hcursor.le) fun _ t => hle.trans r.cursor.taken_le_fetch)⟩
  | unreadable hstage =>
    refine ⟨[], .nothing ?_ hc.reached_le⟩
    rcases hstage with rfl | ⟨q, rfl⟩ <;> rfl
  | answered => exact ⟨[], .nothing rfl (Nat.le_refl _)⟩
  | failed => exact ⟨[], .nothing rfl (Nat.le_refl _)⟩

/-! ## All steps -/

/-- The faults are numbered with lines up to the given one, which do not go down. -/
def Numbered (l : Nat) (faults : List ParseError) : Prop :=
  ∃ numbers : List Nat, faults.map ParseError.line = numbers.map some ∧ numbers.Pairwise (· ≤ ·) ∧
    ∀ n ∈ numbers, 1 ≤ n ∧ n ≤ l

theorem Numbered.mono {faults : List ParseError} (h : Numbered l faults) (hle : l ≤ n) :
    Numbered n faults := by
  obtain ⟨numbers, hmap, hsorted, hbounds⟩ := h
  exact ⟨numbers, hmap, hsorted, fun m hm => ⟨(hbounds m hm).1, (hbounds m hm).2.trans hle⟩⟩

theorem Numbered.append {before new : List ParseError} (h : Numbered l before) (hle : l ≤ n)
    (hpos : 1 ≤ n) (hlines : ∀ e ∈ new, e.line = some n) : Numbered n (before ++ new) := by
  obtain ⟨numbers, hmap, hsorted, hbounds⟩ := h
  have hnew : new.map ParseError.line = (List.replicate new.length n).map some := by
    rw [List.map_replicate]
    exact List.eq_replicate_iff.mpr ⟨List.length_map _, by simpa using hlines⟩
  refine ⟨numbers ++ List.replicate new.length n, ?_, ?_, ?_⟩
  · rw [List.map_append, List.map_append, hmap, hnew]
  · refine List.pairwise_append.mpr ⟨hsorted, List.pairwise_replicate.mpr (Or.inr (Nat.le_refl _)), ?_⟩
    intro m hm m' hm'
    rw [List.eq_of_mem_replicate hm']
    exact (hbounds m hm).2.trans hle
  · intro m hm
    rcases List.mem_append.mp hm with hm | hm
    · exact ⟨(hbounds m hm).1, (hbounds m hm).2.trans hle⟩
    · rw [List.eq_of_mem_replicate hm]
      exact ⟨hpos, Nat.le_refl _⟩

theorem Adds.numbered {total : Nat} {c c' : Machine} {new : List ParseError} (h : Adds total c c' new)
    (hnumbered : Numbered (c.reached total) c.reported) : Numbered (c'.reached total) c'.reported := by
  rw [h.reported]
  by_cases hnew : new = []
  · rw [hnew, List.append_nil]
    exact hnumbered.mono h.mono
  · exact (hnumbered.append (h.after hnew) (h.pos hnew) h.place).mono (h.upto hnew)

namespace Machine

variable {c : Machine}

theorem Sound.numbered_iterate (h : c.Sound lines)
    (hnumbered : Numbered (c.reached lines.length) c.reported) (k : Nat) :
    Numbered ((Machine.advance^[k] c).reached lines.length) (Machine.advance^[k] c).reported := by
  induction k with
  | zero => exact hnumbered
  | succ k ih =>
    rw [Function.iterate_succ_apply']
    obtain ⟨new, hadds⟩ := (h.iterate k).advances.exists_adds (h.iterate k)
    exact hadds.numbered ih

end Machine

/-- Whatever a new parser reports, strictly or not, is numbered with the line that it is about, from
the first to the last one, and the numbers do not go down. The cursor hands out the lines one after
the other and never has to count below zero. -/
theorem faults_carry_line_numbers (strict : Bool) (s : Store) (target : Policy) (lines : List Line) :
    let t : Session := ⟨s, { strict := strict }⟩
    let c := fun k => Machine.advance^[k] (Machine.start target lines t)
    Numbered lines.length (faults (parse target lines t)) ∧
      (∃ k, (c k).Ends (parse target lines t)) ∧
      ∀ k, (c k).reader.cursor.unread = lines.drop (c k).reader.cursor.taken ∧
        (c k).reader.cursor.saturated = false ∧
        Numbered lines.length (c k).reported ∧
        ∃ new, (c (k + 1)).reported = (c k).reported ++ new ∧
          ∀ e ∈ new, e.line = some ((c k).place lines.length) := by
  intro t c
  have hsound (k : Nat) : (c k).Sound lines := (Machine.sound_start target lines rfl).iterate k
  have hnumbered (k : Nat) : Numbered lines.length (c k).reported :=
    ((Machine.sound_start target lines rfl).numbered_iterate ⟨[], rfl, .nil, nofun⟩ k).mono
      (hsound k).reached_le
  obtain ⟨k, hends⟩ := Machine.exists_ends_parse target lines (t := t) rfl
  refine ⟨hends.reported_eq ▸ hnumbered k, ⟨k, hends⟩, fun k => ?_⟩
  have hcursor := (hsound k).cursor
  obtain ⟨new, hadds⟩ := (hsound k).advances.exists_adds (hsound k)
  refine ⟨hcursor.unread, hcursor.saturated, hnumbered k, new, ?_, hadds.place⟩
  rw [← hadds.reported]
  exact congrArg Machine.reported (Function.iterate_succ_apply' _ _ _)

/-- Two braces too many on the first line, and a string that is opened on the second. -/
example : (faults (parse ⟨0⟩ (linesOfText "\x7d \x7d\na: \"b\n\n")
    ⟨⟨#[⟨[], none⟩]⟩, { strict := false }⟩)).map ParseError.line = [some 1, some 1, some 2] := by
  decide +kernel

end Paf

end PolicyStore
