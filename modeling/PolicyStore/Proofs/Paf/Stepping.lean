import PolicyStore.Proofs.Paf.Carrying

set_option autoImplicit false

namespace PolicyStore.Paf

/-!
# Reading step by step

What holds before each step of the parser: the count of the cursor and the texts it has taken back
belong together, and the depth of the parser is the number of blocks that are open.
-/

variable {lines : List Line} {n : Nat}

/-! ## The cursor -/

namespace Cursor

variable {c : Cursor} {cs : List Char}

/-- The lines up to a number have been handed out, and of the last one a rest may have been taken
back. -/
structure Sound (lines : List Line) (c : Cursor) : Prop where
  unread : c.unread = lines.drop c.taken
  le : c.taken ≤ lines.length
  counter : c.counter + c.pending.length = c.taken
  single : c.pending.length ≤ 1
  number : ∀ p ∈ c.pending, p.number = c.taken
  saturated : c.saturated = false
  ended : c.ended = true → c.pending = [] ∧ c.unread = []

/-- A text of the line with the number has just been handed out. -/
structure At (lines : List Line) (n : Nat) (c : Cursor) : Prop where
  sound : c.Sound lines
  pending : c.pending = []
  current : c.current = n
  taken : c.taken = n
  pos : 0 < n
  ended : c.ended = false

theorem At.counter (h : c.At lines n) : c.counter = n := by
  have hcounter := h.sound.counter
  rwa [h.pending, h.taken] at hcounter

theorem Sound.start (lines : List Line) : Sound lines { unread := lines } where
  unread := rfl
  le := Nat.zero_le _
  counter := rfl
  single := Nat.zero_le _
  number := nofun
  saturated := rfl
  ended := nofun

theorem fetch_of_pending {p : Piece} {rest : List Piece} (h : c.pending = p :: rest) :
    c.fetch = (.text p.text, { c with
      pending := rest
      counter := c.counter + 1
      current := p.number }) := by
  unfold fetch
  rw [h]

theorem fetch_of_line {rest : List Line} (h : c.pending = []) (hunread : c.unread = some cs :: rest) :
    c.fetch = (.text cs, { c with
      unread := rest
      counter := c.counter + 1
      taken := c.taken + 1
      current := c.taken + 1 }) := by
  unfold fetch
  rw [h, hunread]

theorem fetch_of_unreadable {rest : List Line} (h : c.pending = [])
    (hunread : c.unread = none :: rest) : c.fetch = (.unreadable, c) := by
  unfold fetch
  rw [h, hunread]

theorem fetch_of_nothing (h : c.pending = []) (hunread : c.unread = []) :
    c.fetch = (.ended, { c with ended := true }) := by
  unfold fetch
  rw [h, hunread]

/-- Where the next text comes from. -/
theorem next_cases (c : Cursor) : (∃ p rest, c.pending = p :: rest) ∨
    (c.pending = [] ∧ ∃ cs rest, c.unread = some cs :: rest) ∨
    (c.pending = [] ∧ ∃ rest, c.unread = none :: rest) ∨ (c.pending = [] ∧ c.unread = []) := by
  cases c.pending with
  | cons p rest => exact Or.inl ⟨p, rest, rfl⟩
  | nil =>
    cases c.unread with
    | nil => exact Or.inr (Or.inr (Or.inr ⟨rfl, rfl⟩))
    | cons line rest =>
      cases line with
      | none => exact Or.inr (Or.inr (Or.inl ⟨rfl, rest, rfl⟩))
      | some cs => exact Or.inr (Or.inl ⟨rfl, cs, rest, rfl⟩)

theorem nothing_of_fetch (h : c.fetch.1 = .ended) : c.pending = [] ∧ c.unread = [] := by
  rcases c.next_cases with ⟨p, rest, hp⟩ | ⟨hp, cs, rest, hu⟩ | ⟨hp, rest, hu⟩ | hnothing
  · rw [fetch_of_pending hp] at h
    cases h
  · rw [fetch_of_line hp hu] at h
    cases h
  · rw [fetch_of_unreadable hp hu] at h
    cases h
  · exact hnothing

theorem unreadable_of_fetch (h : c.fetch.1 = .unreadable) :
    c.pending = [] ∧ ∃ rest, c.unread = none :: rest := by
  rcases c.next_cases with ⟨p, rest, hp⟩ | ⟨hp, cs, rest, hu⟩ | hline | ⟨hp, hu⟩
  · rw [fetch_of_pending hp] at h
    cases h
  · rw [fetch_of_line hp hu] at h
    cases h
  · exact hline
  · rw [fetch_of_nothing hp hu] at h
    cases h

/-- A text comes from what has been taken back, or else from the next line. -/
theorem text_of_fetch (h : c.fetch.1 = .text cs) :
    (∃ p rest, c.pending = p :: rest ∧ p.text = cs ∧ c.fetch.2 = { c with
      pending := rest
      counter := c.counter + 1
      current := p.number }) ∨
    (c.pending = [] ∧ ∃ rest, c.unread = some cs :: rest ∧ c.fetch.2 = { c with
      unread := rest
      counter := c.counter + 1
      taken := c.taken + 1
      current := c.taken + 1 }) := by
  rcases c.next_cases with ⟨p, rest, hp⟩ | ⟨hp, cs', rest, hu⟩ | ⟨hp, rest, hu⟩ | ⟨hp, hu⟩
  · rw [fetch_of_pending hp] at h ⊢
    cases h
    exact Or.inl ⟨p, rest, hp, rfl, rfl⟩
  · rw [fetch_of_line hp hu] at h ⊢
    cases h
    exact Or.inr ⟨hp, rest, hu, rfl⟩
  · rw [fetch_of_unreadable hp hu] at h
    cases h
  · rw [fetch_of_nothing hp hu] at h
    cases h

theorem ended_of_fetch_ended (h : c.fetch.1 = .ended) : c.fetch.2.ended = true := by
  obtain ⟨hp, hu⟩ := nothing_of_fetch h
  rw [fetch_of_nothing hp hu]

theorem taken_le_fetch (c : Cursor) : c.taken ≤ c.fetch.2.taken := by
  unfold fetch
  split
  · exact Nat.le_refl _
  · exact Nat.le_succ _
  · exact Nat.le_refl _
  · exact Nat.le_refl _

theorem ended_of_fetch (h : c.fetch.2.ended = false) : c.ended = false := by
  unfold fetch at h
  split at h
  · exact h
  · exact h
  · exact h
  · cases h

namespace Sound

theorem at_of_fetch (h : c.Sound lines) (hfetch : c.fetch.1 = .text cs) :
    c.fetch.2.At lines c.fetch.2.taken := by
  have hcounter := h.counter
  rcases text_of_fetch hfetch with ⟨p, rest, hp, -, hnext⟩ | ⟨hp, rest, hu, hnext⟩
  · have hrest : rest = [] := by
      have hsingle := h.single
      rw [hp, List.length_cons] at hsingle
      exact List.length_eq_zero_iff.mp (by omega)
    have hended : c.ended = false := by
      refine Bool.eq_false_iff.mpr fun hend => ?_
      cases hp.symm.trans (h.ended hend).1
    rw [hp, hrest] at hcounter
    rw [hnext]
    exact {
      sound := {
        unread := h.unread
        le := h.le
        counter := by rw [hrest]; exact hcounter
        single := by rw [hrest]; exact Nat.zero_le _
        number := by rw [hrest]; exact nofun
        saturated := h.saturated
        ended := fun hend => ⟨hrest, (h.ended hend).2⟩ }
      pending := hrest
      current := h.number p (by rw [hp]; exact List.mem_cons_self)
      taken := rfl
      pos := by rw [← hcounter]; exact Nat.succ_pos _
      ended := hended }
  · have hdrop : lines.drop c.taken = some cs :: rest := h.unread.symm.trans hu
    have hlt : c.taken < lines.length := by
      refine Nat.lt_of_not_le fun hle => ?_
      rw [List.drop_eq_nil_of_le hle] at hdrop
      cases hdrop
    have hended : c.ended = false := by
      refine Bool.eq_false_iff.mpr fun hend => ?_
      cases hu.symm.trans (h.ended hend).2
    rw [hp] at hcounter
    rw [hnext]
    exact {
      sound := {
        unread := by
          rw [List.drop_eq_getElem_cons hlt] at hdrop
          exact (List.cons.inj hdrop).2.symm
        le := hlt
        counter := by rw [← hcounter, hp]; exact Nat.add_right_comm _ _ _
        single := by rw [hp]; exact Nat.zero_le _
        number := by rw [hp]; exact nofun
        saturated := h.saturated
        ended := fun hend => by rw [hended] at hend; cases hend }
      pending := hp
      current := rfl
      taken := rfl
      pos := Nat.succ_pos _
      ended := hended }

/-- At the end of the input the count is the number of lines. -/
theorem counter_of_nothing (h : c.Sound lines) (hp : c.pending = []) (hu : c.unread = []) :
    c.counter = lines.length ∧ c.taken = lines.length := by
  have hcounter := h.counter
  have hdrop := List.drop_eq_nil_iff.mp (h.unread.symm.trans hu)
  have hle := h.le
  rw [hp, List.length_nil] at hcounter
  omega

theorem fetch (h : c.Sound lines) : c.fetch.2.Sound lines := by
  rcases hfetch : c.fetch.1 with cs | _ | _
  · exact (h.at_of_fetch hfetch).sound
  · obtain ⟨hp, rest, hu⟩ := unreadable_of_fetch hfetch
    rw [fetch_of_unreadable hp hu]
    exact h
  · obtain ⟨hp, hu⟩ := nothing_of_fetch hfetch
    rw [fetch_of_nothing hp hu]
    exact ⟨h.unread, h.le, h.counter, h.single, h.number, h.saturated, fun _ => ⟨hp, hu⟩⟩

end Sound

theorem At.pushBack (h : c.At lines n) (rest : List Char) : (c.pushBack rest).Sound lines where
  unread := h.sound.unread
  le := h.sound.le
  counter := by
    have hpos := h.pos
    show c.counter - 1 + (c.pending.length + 1) = c.taken
    rw [h.counter, h.taken, h.pending, List.length_nil]
    omega
  single := by
    show c.pending.length + 1 ≤ 1
    rw [h.pending, List.length_nil]
  number := by
    show ∀ p ∈ ⟨c.current, rest⟩ :: c.pending, p.number = c.taken
    rw [h.pending, List.forall_mem_singleton, h.taken]
    exact h.current
  saturated := by
    have hpos := h.pos
    show (c.saturated || decide (c.counter = 0)) = false
    rw [h.sound.saturated, h.counter, Bool.false_or]
    exact decide_eq_false (by omega)
  ended := by
    intro hend
    cases h.ended.symm.trans hend

end Cursor

/-! ## What is done with the session -/

section Carry

variable {α : Type} {r : Reader}

/-- Does something with the session and goes on with the outcome, or fails. -/
def carry (m : ParseM α) (r : Reader) (f : α → Session → Machine) : Machine :=
  match m r.session with
  | .ok a t => f a t
  | .error e t => ⟨.failed e, { r with session := t }⟩

theorem of_onSession_bind (m : ParseM α) (f : α → ReadM Stage) :
    Machine.of ((ReadM.onSession m >>= f) r) =
      carry m r fun a t => .of (f a { r with session := t }) := by
  show Machine.of (EStateM.bind _ _ r) = _
  unfold EStateM.bind ReadM.onSession carry
  cases m r.session <;> rfl

/-- The cursor after it has taken back a rest, unless the rest is dropped. -/
def Cursor.keep (kept : Bool) (rest : List Char) (c : Cursor) : Cursor :=
  if kept then c.pushBack rest else c

def Reader.keep (kept : Bool) (rest : List Char) (r : Reader) : Reader :=
  { r with cursor := r.cursor.keep kept rest }

/-- The reader after a parameter. -/
def Reader.count (added : Bool) (r : Reader) : Reader :=
  { r with inner := { r.inner with count := r.inner.count + if added then 1 else 0 } }

theorem of_report (e : ParseError) (kept : Bool) (rest : List Char) :
    Machine.of ((do
      ReadM.onSession (ParseM.report e)
      pushIf kept rest
      return .block : ReadM Stage) r) =
      carry (ParseM.report e) r fun _ t => ⟨.block, Reader.keep kept rest { r with session := t }⟩ := by
  rw [of_onSession_bind]
  cases kept <;> rfl

theorem of_endValues (name : List Char) (items : List Item) (added kept : Bool) (rest : List Char) :
    Machine.of (endValues name items added kept rest r) =
      carry (addItems r.inner.policy (String.ofList name) items) r fun more t =>
        ⟨.block, (Reader.keep kept rest { r with session := t }).count (added || more)⟩ := by
  rw [endValues, gather, of_onSession_bind]
  cases kept <;> rfl

theorem of_pauseValues (q : OpenString) (items : List Item) (added : Bool) :
    Machine.of (pauseValues q items added r) =
      carry (addItems r.inner.policy (String.ofList q.name) items) r fun more t =>
        ⟨.string { q with added := added || more }, { r with session := t }⟩ := by
  rw [pauseValues, gather, of_onSession_bind]
  rfl

/-- The reader when the brace of a block has been read, before the block is added to the policy. -/
def Reader.opened (r : Reader) : Reader :=
  { r with
    session := r.session.opened
    braces := r.braces ++ [.opening] }

/-- The reader in a block that has been added to the policy or not. -/
def Reader.enter (p : Policy) (attached : Bool) (r : Reader) : Reader :=
  { r with
    inner := { policy := p, attached := attached }
    outer := r.inner :: r.outer }

theorem of_openBlock (name rest : List Char) : Machine.of (openBlock name rest r) =
    carry (addValue r.inner.policy (String.ofList name) r.cursor.counter
      (.policy ⟨r.session.store.size⟩)) r.opened fun attached t =>
        ⟨.block, (Reader.keep (!(Text.trim rest).isEmpty) (Text.trim rest)
          { r.opened with session := t }).enter ⟨r.session.store.size⟩ attached⟩ := by
  have hopen : openBlock name rest r =
      (ReadM.onSession (addValue r.inner.policy (String.ofList name) r.cursor.counter
        (.policy ⟨r.session.store.size⟩)) >>= fun attached => do
          ReadM.pushRest (Text.trim rest)
          modify (Reader.enter ⟨r.session.store.size⟩ attached)
          return .block) r.opened := rfl
  rw [hopen, of_onSession_bind]
  simp only [pushRest_eq]
  cases (Text.trim rest).isEmpty <;> rfl

/-- The reader when the closing brace of a block has been read. -/
def Reader.closing (r : Reader) : Reader := { r with braces := r.braces ++ [.closing] }

/-- The reader in the block around the innermost one. -/
def Reader.leave (enclosing : Block) (others : List Block) (r : Reader) : Reader :=
  { r with
    inner := r.inner.close enclosing
    outer := others }

theorem of_closeBlock_of_unmatched (h : r.session.parser.depth = 0) (rest : List Char) :
    Machine.of (closeBlock rest r) =
      carry (ParseM.report (syntaxFault r.cursor.counter "unmatched '\x7d'")) r.closing fun _ t =>
        ⟨.block, Reader.keep (!rest.isEmpty) rest { r.closing with session := t }⟩ := by
  have hclose : closeBlock rest r = (if r.session.parser.depth = 0 then do
      ReadM.onSession (ParseM.report (syntaxFault r.cursor.counter "unmatched '\x7d'"))
      ReadM.pushRest rest
      return .block
    else do
      ReadM.setDepth (r.session.parser.depth - 1)
      ReadM.pushRest rest
      leaveBlock : ReadM Stage) r.closing := by
    show (if r.session.parser.depth = 0 then _ else _ : ReadM Stage) r.closing = _
    split <;> rfl
  rw [hclose, if_pos h, pushRest_eq]
  exact of_report _ _ _

theorem of_closeBlock_of_enclosing (h : r.session.parser.depth ≠ 0) {enclosing : Block}
    {others : List Block} (houter : r.outer = enclosing :: others) (rest : List Char) :
    Machine.of (closeBlock rest r) =
      ⟨.block, (Reader.keep (!rest.isEmpty) rest
        { r.closing with session := r.session.closed }).leave enclosing others⟩ := by
  have hclose : closeBlock rest r = (if r.session.parser.depth = 0 then _ else do
      ReadM.setDepth (r.session.parser.depth - 1)
      ReadM.pushRest rest
      leaveBlock : ReadM Stage) r.closing := rfl
  rw [hclose, if_neg h, pushRest_eq]
  obtain ⟨session, cursor, inner, outer, braces⟩ := r
  obtain rfl : outer = enclosing :: others := houter
  cases rest <;> rfl

end Carry

/-! ## Open blocks -/

theorem unclosed_opening (braces : List Brace) :
    unclosed (braces ++ [.opening]) = unclosed braces + 1 := by
  rw [unclosed, List.foldl_append]
  rfl

theorem unclosed_closing (braces : List Brace) :
    unclosed (braces ++ [.closing]) = unclosed braces - 1 := by
  rw [unclosed, List.foldl_append]
  rfl

/-- The depth of the parser is the number of blocks that are open; as long as there may be another
text, these are the blocks around the innermost one. -/
structure Reader.Standing (r : Reader) : Prop where
  depth : r.session.parser.depth = unclosed r.braces
  outer : r.cursor.ended = false → r.session.parser.depth = r.outer.length
  begun : 0 < r.session.parser.depth → 0 < r.cursor.taken

namespace Reader.Standing

variable {r : Reader}

theorem session (h : r.Standing) {t : Session} (ht : t.parser.depth = r.session.parser.depth) :
    Reader.Standing { r with session := t } where
  depth := ht.trans h.depth
  outer hended := ht.trans (h.outer hended)
  begun hpos := h.begun (ht ▸ hpos)

theorem keep (h : r.Standing) (kept : Bool) (rest : List Char) : (r.keep kept rest).Standing := by
  cases kept
  · exact h
  · exact ⟨h.depth, h.outer, h.begun⟩

theorem count (h : r.Standing) (added : Bool) : (r.count added).Standing :=
  ⟨h.depth, h.outer, h.begun⟩

theorem enter (h : r.Standing) (htaken : 0 < r.cursor.taken) {t : Session}
    (ht : t.parser.depth = r.session.parser.depth + 1) (kept : Bool) (rest : List Char) (p : Policy)
    (attached : Bool) :
    ((Reader.keep kept rest { r.opened with session := t }).enter p attached).Standing := by
  have hdepth : t.parser.depth = unclosed (r.braces ++ [.opening]) := by
    rw [ht, h.depth, unclosed_opening]
  have houter : r.cursor.ended = false → t.parser.depth = (r.inner :: r.outer).length := by
    intro hended
    rw [ht, h.outer hended, List.length_cons]
  cases kept
  · exact ⟨hdepth, houter, fun _ => htaken⟩
  · exact ⟨hdepth, houter, fun _ => htaken⟩

theorem closing (h : r.Standing) (hzero : r.session.parser.depth = 0) : r.closing.Standing where
  depth := by
    show r.session.parser.depth = unclosed (r.braces ++ [.closing])
    rw [unclosed_closing, ← h.depth, hzero]
  outer := h.outer
  begun := h.begun

theorem leave (h : r.Standing) {enclosing : Block} {others : List Block}
    (houter : r.outer = enclosing :: others) (kept : Bool) (rest : List Char) :
    ((Reader.keep kept rest { r.closing with session := r.session.closed }).leave enclosing
      others).Standing := by
  have hdepth : r.session.parser.depth - 1 = unclosed (r.braces ++ [.closing]) := by
    rw [h.depth, unclosed_closing]
  have hothers : r.cursor.ended = false → r.session.parser.depth - 1 = others.length := by
    intro hended
    rw [h.outer hended, houter, List.length_cons, Nat.add_sub_cancel]
  have hbegun : 0 < r.session.parser.depth - 1 → 0 < r.cursor.taken := fun hpos =>
    h.begun (Nat.lt_of_lt_of_le hpos (Nat.sub_le _ _))
  cases kept
  · exact ⟨hdepth, hothers, hbegun⟩
  · exact ⟨hdepth, hothers, hbegun⟩

/-- While there may be another text, a closing brace closes the innermost block if any is open. -/
theorem outer_cases (h : r.Standing) (hended : r.cursor.ended = false) :
    r.session.parser.depth = 0 ∨ r.session.parser.depth ≠ 0 ∧ ∃ enclosing others,
      r.outer = enclosing :: others := by
  by_cases hzero : r.session.parser.depth = 0
  · exact Or.inl hzero
  · refine Or.inr ⟨hzero, List.exists_cons_of_ne_nil fun hnil => hzero ?_⟩
    rw [h.outer hended, hnil, List.length_nil]

end Reader.Standing

/-! ## Machines -/

inductive Machine.Sound (lines : List Line) : Machine → Prop
  | block {r : Reader} (hcursor : r.cursor.Sound lines) (hstanding : r.Standing) :
      Sound lines ⟨.block, r⟩
  | string {r : Reader} {q : OpenString} (hcursor : r.cursor.Sound lines) (hstanding : r.Standing)
      (hpending : r.cursor.pending = []) (hended : r.cursor.ended = false)
      (horigin : q.opened = q.origin) (hpos : 0 < q.origin) (hle : q.origin ≤ r.cursor.taken) :
      Sound lines ⟨.string q, r⟩
  | answered {r : Reader} {count : Nat} (hcursor : r.cursor.Sound lines)
      (hended : r.cursor.ended = true) : Sound lines ⟨.answered count, r⟩
  | failed {r : Reader} {e : PolicyError} (hcursor : r.cursor.Sound lines) : Sound lines ⟨.failed e, r⟩

section Step

variable {α : Type} {r : Reader} {added : Bool} {st : Step}
  {result : EStateM.Result PolicyError Reader Stage}

theorem sound_carry {m : ParseM α} {f : α → Session → Machine} (hm : Steady m)
    (hcursor : r.cursor.Sound lines)
    (hf : ∀ a t, t.parser.depth = r.session.parser.depth → (f a t).Sound lines) :
    (carry m r f).Sound lines := by
  unfold carry
  cases hrun : m r.session with
  | ok a t => exact hf a t (after_of_run hrun ▸ hm.depth r.session)
  | error e t => exact .failed hcursor

theorem Cursor.At.keep {c : Cursor} (h : c.At lines n) (kept : Bool) (rest : List Char) :
    (c.keep kept rest).Sound lines := by
  cases kept
  · exact h.sound
  · exact h.pushBack rest

theorem Does.sound (h : Does n r added st result) (hr : r.cursor.At lines n) (hs : r.Standing) :
    (Machine.of result).Sound lines := by
  cases h with
  | nothing => exact .block hr.sound hs
  | fault =>
    rw [of_report]
    exact sound_carry (steady_report _) hr.sound fun _ t ht =>
      .block (hr.keep _ _) ((hs.session ht).keep _ _)
  | values =>
    rw [of_endValues]
    exact sound_carry (steady_addItems _ _ _) hr.sound fun more t ht =>
      .block (hr.keep _ _) (((hs.session ht).keep _ _).count _)
  | string hitems hopened horigin =>
    rw [of_pauseValues]
    refine sound_carry (steady_addItems _ _ _) hr.sound fun more t ht => .string hr.sound
      (hs.session ht) hr.pending hr.ended ?_ ?_ ?_
    · exact hopened.trans (horigin.trans hr.current).symm
    · exact Nat.lt_of_lt_of_eq hr.pos (horigin.trans hr.current).symm
    · exact Nat.le_of_eq ((horigin.trans hr.current).trans hr.taken.symm)
  | opening =>
    rw [of_openBlock]
    exact sound_carry (steady_addValue _ _ _ _) hr.sound fun attached t ht =>
      .block (hr.keep _ _) (hs.enter (Nat.lt_of_lt_of_eq hr.pos hr.taken.symm) ht _ _ _ _)
  | closing =>
    rcases hs.outer_cases hr.ended with hzero | ⟨hpos, enclosing, others, houter⟩
    · rw [of_closeBlock_of_unmatched hzero]
      exact sound_carry (steady_report _) hr.sound fun _ t ht =>
        .block (hr.keep _ _) (((hs.closing hzero).session ht).keep _ _)
    · rw [of_closeBlock_of_enclosing hpos houter]
      exact .block (hr.keep _ _) (hs.leave houter _ _)

end Step

/-! ## Steps -/

section Advance

variable {r : Reader} {q : OpenString} {cs : List Char} {c c' : Machine}

/-- The reader when the next text has been handed out. -/
def Reader.next (r : Reader) : Reader := { r with cursor := r.cursor.fetch.2 }

theorem Reader.Standing.next (h : r.Standing) : r.next.Standing where
  depth := h.depth
  outer hended := h.outer (Cursor.ended_of_fetch hended)
  begun hpos := Nat.lt_of_lt_of_le (h.begun hpos) r.cursor.taken_le_fetch

def unclosedFault (depth line : Nat) : ParseError :=
  ⟨.eof, "end of input with " ++ toString depth ++ " unclosed block(s)", some line, none⟩

def unterminatedFault (q : OpenString) : ParseError :=
  ⟨.eof, "unterminated string opened with " ++ String.ofList [q.mark], some q.opened, none⟩

/-- The reader when the outermost block is left while others are open. -/
def Reader.reset (r : Reader) : Reader :=
  { r with session := { r.session with parser := { r.session.parser with depth := 0 } } }

/-- What a step does to a machine that is sound. -/
inductive Advances (lines : List Line) : Machine → Machine → Prop
  | text {r : Reader} {cs : List Char} {n : Nat} {result : EStateM.Result PolicyError Reader Stage}
      (hfetch : r.cursor.fetch.1 = .text cs) (hnext : r.next.cursor.At lines n)
      (h : Does n r.next false (step n cs) result) : Advances lines ⟨.block, r⟩ (.of result)
  | leaving {r : Reader} {enclosing : Block} {others : List Block} (hfetch : r.cursor.fetch.1 = .ended)
      (houter : r.outer = enclosing :: others) :
      Advances lines ⟨.block, r⟩ ⟨.block, r.next.leave enclosing others⟩
  | ending {r : Reader} (hfetch : r.cursor.fetch.1 = .ended) (houter : r.outer = [])
      (hdepth : r.session.parser.depth = 0) :
      Advances lines ⟨.block, r⟩ ⟨.answered r.inner.count, r.next⟩
  | unclosed {r : Reader} (hfetch : r.cursor.fetch.1 = .ended) (houter : r.outer = [])
      (hdepth : 0 < r.session.parser.depth) : Advances lines ⟨.block, r⟩
        (carry (ParseM.report (unclosedFault r.session.parser.depth lines.length)) r.next.reset
          fun _ t => ⟨.answered r.inner.count, { r.next.reset with session := t }⟩)
  | piece {r : Reader} {q : OpenString} {cs : List Char} (hfetch : r.cursor.fetch.1 = .text cs)
      (hcut : Text.cut q.mark (Text.trimStart cs) = none) :
      Advances lines ⟨.string q, r⟩ ⟨.string (q.extend cs), r.next⟩
  | close {r : Reader} {q : OpenString} {cs piece after : List Char} {n : Nat}
      {result : EStateM.Result PolicyError Reader Stage} (hfetch : r.cursor.fetch.1 = .text cs)
      (hcut : Text.cut q.mark (Text.trimStart cs) = some (piece, after))
      (hnext : r.next.cursor.At lines n) (h : Does n r.next q.added (stepClosed n q piece after) result) :
      Advances lines ⟨.string q, r⟩ (.of result)
  | unterminated {r : Reader} {q : OpenString} (hfetch : r.cursor.fetch.1 = .ended) :
      Advances lines ⟨.string q, r⟩ (carry (ParseM.report (unterminatedFault q)) r.next fun _ t =>
        ⟨.block, Reader.count q.added { r.next with session := t }⟩)
  | unreadable {r : Reader} {stage : Stage} (hstage : stage = .block ∨ ∃ q, stage = .string q)
      (hfetch : r.cursor.fetch.1 = .unreadable) :
      Advances lines ⟨stage, r⟩ ⟨.failed (.unreadable none .notText), r.next⟩
  | answered {r : Reader} {count : Nat} : Advances lines ⟨.answered count, r⟩ ⟨.answered count, r⟩
  | failed {r : Reader} {e : PolicyError} : Advances lines ⟨.failed e, r⟩ ⟨.failed e, r⟩

theorem stepBlock_eq (r : Reader) : stepBlock r =
    match r.cursor.fetch.1 with
    | .ended => leaveBlock r.next
    | .unreadable => .error (.unreadable none .notText) r.next
    | .text cs => readText cs r.next := by
  have hrun : stepBlock r = (match r.cursor.fetch.1 with
    | .ended => leaveBlock
    | .unreadable => throw (.unreadable none .notText)
    | .text cs => readText cs : ReadM Stage) r.next := rfl
  rw [hrun]
  cases r.cursor.fetch.1 <;> rfl

theorem stepString_eq (q : OpenString) (r : Reader) : stepString q r =
    match r.cursor.fetch.1 with
    | .ended => (ReadM.onSession (ParseM.report (unterminatedFault q)) >>= fun _ =>
        ReadM.counted q.added) r.next
    | .unreadable => .error (.unreadable none .notText) r.next
    | .text cs => readMore q cs r.next := by
  have hrun : stepString q r = (match r.cursor.fetch.1 with
    | .ended => do
      ReadM.report fun _ => unterminatedFault q
      ReadM.counted q.added
    | .unreadable => throw (.unreadable none .notText)
    | .text cs => readMore q cs : ReadM Stage) r.next := rfl
  rw [hrun]
  cases r.cursor.fetch.1 <;> rfl

theorem leaveBlock_of_enclosing {enclosing : Block} {others : List Block}
    (houter : r.outer = enclosing :: others) :
    leaveBlock r = .ok .block (r.leave enclosing others) := by
  obtain ⟨session, cursor, inner, outer, braces⟩ := r
  obtain rfl : outer = enclosing :: others := houter
  rfl

theorem leaveBlock_of_outermost (houter : r.outer = []) :
    leaveBlock r = (if 0 < r.session.parser.depth then (do
      ReadM.setDepth 0
      ReadM.report fun n => unclosedFault r.session.parser.depth n
      return .answered r.inner.count : ReadM Stage) r
    else .ok (.answered r.inner.count) r) := by
  obtain ⟨session, cursor, inner, outer, braces⟩ := r
  obtain rfl : outer = [] := houter
  show (if 0 < session.parser.depth then _ else _ : ReadM Stage) _ = _
  split <;> rfl

theorem leaveBlock_of_closed (houter : r.outer = []) (hdepth : r.session.parser.depth = 0) :
    leaveBlock r = .ok (.answered r.inner.count) r := by
  rw [leaveBlock_of_outermost houter, if_neg (by omega)]

theorem of_leaveBlock_of_open (houter : r.outer = []) (hdepth : 0 < r.session.parser.depth) :
    Machine.of (leaveBlock r) =
      carry (ParseM.report (unclosedFault r.session.parser.depth r.cursor.counter)) r.reset fun _ t =>
        ⟨.answered r.inner.count, { r.reset with session := t }⟩ := by
  rw [leaveBlock_of_outermost houter, if_pos hdepth]
  exact of_onSession_bind (r := r.reset) _ _

namespace Machine

theorem Sound.advances (h : c.Sound lines) : Advances lines c c.advance := by
  cases h with
  | @block r hcursor hstanding =>
    show Advances lines _ (.of (stepBlock r))
    rw [stepBlock_eq]
    cases hfetch : r.cursor.fetch.1 with
    | text cs =>
      have hnext := hcursor.at_of_fetch hfetch
      exact .text hfetch hnext (readText_does (r := r.next) hnext.counter cs)
    | unreadable => exact .unreadable (Or.inl rfl) hfetch
    | ended =>
      dsimp only
      cases houter : r.outer with
      | cons enclosing others =>
        rw [leaveBlock_of_enclosing (r := r.next) houter]
        exact .leaving hfetch houter
      | nil =>
        by_cases hdepth : 0 < r.session.parser.depth
        · obtain ⟨hpending, hunread⟩ := Cursor.nothing_of_fetch hfetch
          have hcounter : r.next.cursor.counter = lines.length := by
            show r.cursor.fetch.2.counter = _
            rw [Cursor.fetch_of_nothing hpending hunread]
            exact (hcursor.counter_of_nothing hpending hunread).1
          rw [of_leaveBlock_of_open (r := r.next) houter hdepth, hcounter]
          exact .unclosed hfetch houter hdepth
        · have hzero := Nat.eq_zero_of_not_pos hdepth
          rw [leaveBlock_of_closed (r := r.next) houter hzero]
          exact .ending hfetch houter hzero
  | @string r q hcursor hstanding hpending hended horigin hpos hle =>
    show Advances lines _ (.of (stepString q r))
    rw [stepString_eq]
    cases hfetch : r.cursor.fetch.1 with
    | text cs =>
      have hnext := hcursor.at_of_fetch hfetch
      dsimp only
      cases hcut : Text.cut q.mark (Text.trimStart cs) with
      | none =>
        rw [readMore_of_open hcut]
        exact .piece hfetch hcut
      | some parts =>
        obtain ⟨piece, after⟩ := parts
        exact .close hfetch hcut hnext (readMore_does (r := r.next) hnext.counter hcut)
    | unreadable => exact .unreadable (Or.inr ⟨q, rfl⟩) hfetch
    | ended =>
      dsimp only
      rw [of_onSession_bind]
      exact .unterminated hfetch
  | answered => exact .answered
  | failed => exact .failed

/-- A step keeps a machine sound. -/
theorem Sound.advance (h : c.Sound lines) : c.advance.Sound lines := by
  have hstep := h.advances
  generalize c.advance = c' at hstep
  cases hstep with
  | text hfetch hnext hdoes =>
    cases h with
    | block hcursor hstanding => exact hdoes.sound hnext hstanding.next
  | @leaving r enclosing others hfetch houter =>
    cases h with
    | block hcursor hstanding =>
      have hnext := hstanding.next
      refine .block hcursor.fetch ⟨hnext.depth, fun hend => ?_, hnext.begun⟩
      cases (Cursor.ended_of_fetch_ended hfetch).symm.trans hend
  | ending hfetch houter hdepth =>
    cases h with
    | block hcursor hstanding => exact .answered hcursor.fetch (Cursor.ended_of_fetch_ended hfetch)
  | unclosed hfetch houter hdepth =>
    cases h with
    | block hcursor hstanding =>
      exact sound_carry (steady_report _) hcursor.fetch fun _ t ht =>
        .answered hcursor.fetch (Cursor.ended_of_fetch_ended hfetch)
  | piece hfetch hcut =>
    cases h with
    | string hcursor hstanding hpending hended horigin hpos hle =>
      have hnext := hcursor.at_of_fetch hfetch
      exact .string hcursor.fetch hstanding.next hnext.pending hnext.ended horigin hpos
        (hle.trans (Cursor.taken_le_fetch _))
  | close hfetch hcut hnext hdoes =>
    cases h with
    | string hcursor hstanding => exact hdoes.sound hnext hstanding.next
  | unterminated hfetch =>
    cases h with
    | string hcursor hstanding =>
      exact sound_carry (steady_report _) hcursor.fetch fun _ t ht =>
        .block hcursor.fetch ((hstanding.next.session ht).count _)
  | unreadable hstage hfetch =>
    rcases hstage with rfl | ⟨q, rfl⟩
    · cases h with
      | block hcursor => exact .failed hcursor.fetch
    · cases h with
      | string hcursor => exact .failed hcursor.fetch
  | answered => exact h
  | failed => exact h

theorem Sound.cursor (h : c.Sound lines) : c.reader.cursor.Sound lines := by
  cases h <;> assumption

theorem sound_start (target : Policy) (lines : List Line) {t : Session} (ht : t.parser.depth = 0) :
    (start target lines t).Sound lines :=
  .block (Cursor.Sound.start lines) ⟨ht, fun _ => ht, fun hpos => absurd hpos (by
    show ¬ 0 < t.parser.depth
    omega)⟩

/-- A machine stays sound through all steps. -/
theorem Sound.iterate (h : c.Sound lines) (k : Nat) : (Machine.advance^[k] c).Sound lines := by
  induction k with
  | zero => exact h
  | succ k ih =>
    rw [Function.iterate_succ_apply']
    exact ih.advance

end Machine

end Advance

end PolicyStore.Paf
