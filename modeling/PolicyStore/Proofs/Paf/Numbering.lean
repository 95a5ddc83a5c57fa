import PolicyStore.Proofs.Paf.Reading

set_option autoImplicit false

namespace PolicyStore

/-!
# Numbers of lines

A text that stands further down in another has the same statements there, each with a higher line
number. What a text leaves open at its end is all that the text after it depends on.
-/

/-- The fault when it is found some lines further down. -/
def ParseError.later (k : Nat) (e : ParseError) : ParseError :=
  { e with line := e.line.map (· + k) }

def PolicyError.later (k : Nat) : PolicyError → PolicyError
  | parse e => parse (e.later k)
  | e => e

namespace Paf

variable (k : Nat)

def Item.later : Item → Item
  | .value line v => .value (line + k) v
  | .fault e => .fault (e.later k)

def Statement.later : Statement → Statement
  | .fault e => .fault (e.later k)
  | .values name items => .values name (items.map (Item.later k))
  | .opening line name => .opening (line + k) name
  | .closing line followed => .closing (line + k) followed
  | .unreadable => .unreadable

def OpenQuote.later (q : OpenQuote) : OpenQuote :=
  { q with items := q.items.map (Item.later k), opened := q.opened + k }

def Step.later : Step → Step
  | .finished => .finished
  | .emit s rest => .emit (s.later k) rest
  | .pause q => .pause (q.later k)

/-! ## A line further down -/

/-- The equation of `quoted` without the facts that its termination rests on. -/
theorem quoted_eq (n : Nat) (name cs : List Char) : quoted n name cs =
    match Text.trimStart cs with
    | [] => ([], .rest [])
    | c :: body =>
      if isStop c then ([], .rest (c :: body))
      else if isQuote c then
        match Text.cut c body with
        | none => ([], .open_ c (joinPiece [] (Text.trimEnd body)))
        | some (value, after) =>
          (.value n (.string (String.ofList value)) :: (quoted n name after).1,
            (quoted n name after).2)
      else
        ([.fault (formatFault n ("expected quoted string for " ++ String.ofList name ++ ", found: " ++
          String.ofList (c :: body)))], .rest []) := by
  fun_cases quoted n name cs with
  | case1 h => rw [h]
  | case2 c body h hstop => simp [h, hstop]
  | case3 c body h hstop hquote hcut => simp [h, hstop, hquote, hcut]
  | case4 c body h hstop hquote value after hcut _ items tail hrest =>
    simp [h, hstop, hquote, hcut, hrest]
  | case5 c body h hstop hquote => simp [h, hstop, hquote]

theorem quoted_later (n : Nat) (name cs : List Char) : quoted (n + k) name cs =
    ((quoted n name cs).1.map (Item.later k), (quoted n name cs).2) := by
  fun_induction quoted n name cs with
  | case1 cs h =>
    rw [quoted_eq, h]
    rfl
  | case2 cs c body h hstop =>
    rw [quoted_eq, h]
    simp [hstop]
  | case3 cs c body h hstop hquote hcut =>
    rw [quoted_eq, h]
    simp [hstop, hquote, hcut]
  | case4 cs c body h hstop hquote value after hcut _ items tail hrest ih =>
    rw [quoted_eq, h]
    simp [hstop, hquote, hcut, ih, hrest, Item.later]
  | case5 cs c body h hstop hquote =>
    rw [quoted_eq, h]
    simp [hstop, hquote, Item.later, ParseError.later, formatFault]

theorem scalarItem_later (n : Nat) (kind : ScalarKind) (token : List Char) :
    scalarItem (n + k) kind token = (scalarItem n kind token).later k := by
  unfold scalarItem
  split <;> rfl

theorem bareItem_later (n : Nat) (name content : List Char) :
    bareItem (n + k) name content = (bareItem n name content).later k := by
  unfold bareItem
  split
  · split <;> rfl
  · rfl

theorem stepValue_later (n : Nat) (name text : List Char) :
    stepValue (n + k) name text = (stepValue n name text).later k := by
  unfold stepValue
  split
  · rfl
  · rfl
  · rfl
  · rfl
  · rename_i c cs _ _ _
    split
    · rw [quoted_later]
      obtain ⟨items, tail⟩ := quoted n name (c :: cs)
      cases tail <;> rfl
    · split
      · rename_i kind _
        have htokens : scalarItem (n + k) kind = Item.later k ∘ scalarItem n kind :=
          funext fun token => scalarItem_later k n kind token
        dsimp only
        rw [htokens, ← List.map_map]
        rfl
      · dsimp only
        rw [bareItem_later]
        rfl

theorem step_later (n : Nat) (cs : List Char) : step (n + k) cs = (step n cs).later k := by
  unfold step
  split
  · rfl
  · rfl
  · rfl
  · split
    · rfl
    · split
      · exact stepValue_later k n _ _
      · rfl

theorem scan_eq (n : Nat) (cs : List Char) : scan n cs =
    match step n cs with
    | .finished => ([], none)
    | .pause q => ([], some q)
    | .emit s rest => (s :: (scan n rest).1, (scan n rest).2) := by
  fun_cases scan n cs with
  | case1 h => rw [h]
  | case2 q h => rw [h]
  | case3 s rest h more q hrest =>
    rw [h]
    dsimp only
    rw [hrest]

theorem scan_later (n : Nat) (cs : List Char) : scan (n + k) cs =
    ((scan n cs).1.map (Statement.later k), (scan n cs).2.map (OpenQuote.later k)) := by
  fun_induction scan n cs with
  | case1 cs h =>
    rw [scan_eq, step_later, h]
    rfl
  | case2 cs q h =>
    rw [scan_eq, step_later, h]
    rfl
  | case3 cs s rest h more q hrest ih =>
    rw [hrest] at ih
    rw [scan_eq, step_later, h]
    exact congrArg (fun found : List Statement × Option OpenQuote =>
      (s.later k :: found.1, found.2)) ih

theorem resume_later (q : OpenQuote) (n : Nat) (cs : List Char) : resume (q.later k) (n + k) cs =
    ((resume q n cs).1.map (Statement.later k), (resume q n cs).2.map (OpenQuote.later k)) := by
  unfold resume
  dsimp only [OpenQuote.later]
  split
  · rfl
  · rename_i piece after _
    rw [quoted_later]
    cases hafter : quoted n q.name.toList after with
    | mk items tail =>
      cases tail with
      | rest rest => simp [scan_later, Statement.later, Item.later]
      | open_ mark text => simp [OpenQuote.later, Item.later]

theorem readLine_later (n : Nat) (cs : List Char) (q : Option OpenQuote) :
    readLine (n + k) cs (q.map (OpenQuote.later k)) =
      ((readLine n cs q).1.map (Statement.later k), (readLine n cs q).2.map (OpenQuote.later k)) := by
  cases q with
  | none => exact scan_later k n cs
  | some q => exact resume_later k q n cs

theorem unterminated_later (q : OpenQuote) : unterminated (q.later k) = (unterminated q).later k := by
  simp [unterminated, OpenQuote.later, Statement.later, Item.later, ParseError.later]

/-- Lines that stand further down give the same statements with higher numbers. -/
theorem statementsFrom_later (lines : List Line) : ∀ (n : Nat) (q : Option OpenQuote),
    statementsFrom (n + k) (q.map (OpenQuote.later k)) lines =
      (statementsFrom n q lines).map (Statement.later k) := by
  induction lines with
  | nil =>
    intro n q
    cases q with
    | none => rfl
    | some q => exact congrArg (fun s => [s]) (unterminated_later k q)
  | cons line lines ih =>
    intro n q
    cases line with
    | none => cases q <;> rfl
    | some cs =>
      rw [statementsFrom, statementsFrom, readLine_later, List.map_append, Nat.add_right_comm]
      exact congrArg _ (ih _ _)

/-! ## A text after another -/

/-- Lines of text give statements and leave a quoted string open or none, whatever comes after. -/
theorem exists_statementsFrom_append {lines : List Line} (h : none ∉ lines) :
    ∀ (n : Nat) (q : Option OpenQuote), ∃ found q', ∀ more : List Line,
      statementsFrom n q (lines ++ more) = found ++ statementsFrom (n + lines.length) q' more := by
  induction lines with
  | nil => exact fun n q => ⟨[], q, fun more => rfl⟩
  | cons line lines ih =>
    intro n q
    cases line with
    | none => exact (h List.mem_cons_self).elim
    | some cs =>
      obtain ⟨found, q', hfound⟩ := ih (fun hmem => h (List.mem_cons_of_mem _ hmem)) (n + 1)
        (readLine n cs q).2
      refine ⟨(readLine n cs q).1 ++ found, q', fun more => ?_⟩
      have hstep : statementsFrom n q (some cs :: (lines ++ more)) =
          (readLine n cs q).1 ++ statementsFrom (n + 1) (readLine n cs q).2 (lines ++ more) := by
        rw [statementsFrom]
      rw [List.cons_append, hstep, hfound, List.append_assoc, List.length_cons, Nat.add_assoc,
        Nat.add_comm 1]

theorem linesOfText_append (front back : String) : linesOfText (front ++ "\n" ++ back) =
    linesOfText (front ++ "\n") ++ linesOfText back := by
  have hcut := @Text.splitAfter_append_cons Char (· = '\n') '\n' (by decide) front.toList back.toList
  have hfront : (front ++ "\n").toList = front.toList ++ ['\n'] := by
    rw [String.toList_append]
    rfl
  have hwhole : (front ++ "\n" ++ back).toList = front.toList ++ '\n' :: back.toList := by
    rw [String.toList_append, hfront, List.append_assoc, List.singleton_append]
  rw [linesOfText, hwhole, hcut, List.map_append, linesOfText, hfront, linesOfText]

/-- A line with a line feed is one line. -/
theorem linesOfText_line {line : List Char} (h : '\n' ∉ line) :
    linesOfText (String.ofList line ++ "\n") = given [line] := by
  have hplain : ∀ c ∈ line, decide (c = '\n') = false := by
    intro c hc
    apply decide_eq_false
    rintro rfl
    exact h hc
  have htext : (String.ofList line ++ "\n").toList = line ++ '\n' :: [] := by
    rw [String.toList_append, String.toList_ofList]
    rfl
  rw [linesOfText, htext, Text.splitAfter_append hplain (by decide)]
  exact congrArg (fun cs => [some cs]) (chomp_append_newline _)

/-- A line feed at the end of a text at most adds an empty line. -/
theorem linesOfText_newline (text : String) :
    linesOfText (text ++ "\n") = linesOfText text ∨
      linesOfText (text ++ "\n") = linesOfText text ++ [some []] := by
  have htext : (text ++ "\n").toList = text.toList ++ ['\n'] := by
    rw [String.toList_append]
    rfl
  rw [linesOfText, linesOfText, htext]
  rcases @Text.splitAfter_append_end Char (· = '\n') '\n' (by decide) text.toList with
    h | ⟨pieces, last, h, hend⟩
  · rw [h, List.map_append]
    exact Or.inr rfl
  · rw [h, hend, List.map_append, List.map_append]
    refine Or.inl (congrArg _ (congrArg (fun cs => [some cs]) ?_))
    exact chomp_append_newline last

theorem statements_newline (text : String) :
    statements (linesOfText (text ++ "\n")) = statements (linesOfText text) := by
  rcases linesOfText_newline text with h | h
  · rw [h]
  · rw [h]
    exact statementsFrom_append_empty _ 1 none

end Paf

end PolicyStore
