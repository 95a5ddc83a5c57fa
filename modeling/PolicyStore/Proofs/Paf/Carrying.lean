import PolicyStore.Proofs.Paf.Balance
import PolicyStore.Proofs.Paf.Cursor
import PolicyStore.Proofs.Paf.Leniency
import PolicyStore.Proofs.Paf.Numbering
import PolicyStore.Proofs.Paf.Scanning

set_option autoImplicit false

namespace PolicyStore

/-!
# What a step carries out

With each text that it takes from the cursor the parser carries out one statement, and takes back
what comes after it. At the time of a report nothing has been taken back yet, so that the count of
the cursor is the number of the line.
-/

/-! ## Tokens one by one -/

namespace Text

theorem words_append_of_blank {blanks : List Char} (h : ∀ c ∈ blanks, isBlank c = true)
    (cs : List Char) : words (blanks ++ cs) = words cs := by
  induction blanks with
  | nil => rfl
  | cons c blanks ih =>
    have hfirst := words_append_cons (h c List.mem_cons_self) [] (blanks ++ cs)
    exact hfirst.trans (ih fun d hd => h d (List.mem_cons_of_mem _ hd))

theorem words_append_of_token {w rest : List Char} (hne : w ≠ [])
    (hplain : ∀ c ∈ w, isBlank c = false) (hrest : ∀ c ∈ rest.head?, isBlank c = true) :
    words (w ++ rest) = w :: words rest := by
  have hpos : w.isEmpty = false := by
    simpa using hne
  cases rest with
  | nil => simp [words, splitWhere_of_none hplain, hpos, splitWhere]
  | cons c rest =>
    have hblank := hrest c rfl
    have hskip := @words_append_of_blank [c] (by simpa using hblank) rest
    rw [words_append_cons hblank, show c :: rest = [c] ++ rest from rfl, hskip]
    simp [words, splitWhere_of_none hplain, hpos]

end Text

namespace Paf

section Tokens

variable {text cs : List Char} {c : Char}

theorem isStop_of_isBlank (h : Text.isBlank c = true) : isStop c = false := by
  refine Bool.eq_false_iff.mpr fun hstop => ?_
  rcases (by simpa [isStop] using hstop : c = '#' ∨ c = '\x7d') with rfl | rfl <;> cases h

/-- The blanks before a text are before the first comment or closing brace. -/
theorem exists_blanks (text : List Char) : ∃ blanks, text = blanks ++ Text.trimStart text ∧
    (∀ c ∈ blanks, Text.isBlank c = true) ∧ ∀ c ∈ blanks, (!isStop c) = true := by
  obtain ⟨blanks, htext, hblanks⟩ := Text.exists_of_trimStart text
  refine ⟨blanks, htext, hblanks, fun c hc => ?_⟩
  rw [isStop_of_isBlank (hblanks c hc)]
  rfl

theorem tokens_of_stop (h : ∀ c ∈ (Text.trimStart text).head?, isStop c = true) :
    Text.words (text.takeWhile (!isStop ·)) = [] ∧
      text.dropWhile (!isStop ·) = Text.trimStart text := by
  obtain ⟨blanks, htext, hblanks, hopen⟩ := exists_blanks text
  generalize Text.trimStart text = rest at h htext
  have hempty : Text.words blanks = [] := by
    have := Text.words_append_of_blank hblanks []
    rwa [List.append_nil] at this
  rw [htext, List.takeWhile_append_of_pos hopen, List.dropWhile_append_of_pos hopen]
  cases rest with
  | nil => exact ⟨by rw [List.takeWhile_nil, List.append_nil, hempty], rfl⟩
  | cons c rest => simp [h c rfl, hempty]

theorem tokens_of_token (h : Text.trimStart text = c :: cs) (hstop : isStop c = false) :
    Text.words (text.takeWhile (!isStop ·)) = (c :: cs).takeWhile isTokenPart ::
        Text.words (((c :: cs).dropWhile isTokenPart).takeWhile (!isStop ·)) ∧
      text.dropWhile (!isStop ·) = ((c :: cs).dropWhile isTokenPart).dropWhile (!isStop ·) := by
  obtain ⟨blanks, htext, hblanks, hopen⟩ := exists_blanks text
  have hfirst : isTokenPart c = true := by
    simp [isTokenPart, Text.not_blank_of_trimStart h, hstop]
  have hparts : ∀ d ∈ (c :: cs).takeWhile isTokenPart,
      Text.isBlank d = false ∧ (!isStop d) = true := by
    intro d hd
    have hpart := List.all_eq_true.mp List.all_takeWhile d hd
    simpa [isTokenPart] using hpart
  have hrest : ∀ d ∈ ((c :: cs).dropWhile isTokenPart).head?,
      Text.isBlank d = true ∨ isStop d = true := by
    intro d hd
    have hnot := List.head?_dropWhile_not isTokenPart (c :: cs)
    rw [hd] at hnot
    simpa [isTokenPart, or_iff_not_imp_left] using hnot
  have hne : (c :: cs).takeWhile isTokenPart ≠ [] := by
    rw [List.takeWhile_cons_of_pos hfirst]
    exact List.cons_ne_nil _ _
  have hsplit : c :: cs = (c :: cs).takeWhile isTokenPart ++ (c :: cs).dropWhile isTokenPart :=
    List.takeWhile_append_dropWhile.symm
  rw [h, hsplit] at htext
  generalize (c :: cs).takeWhile isTokenPart = token at htext hparts hne
  generalize (c :: cs).dropWhile isTokenPart = rest at htext hrest
  have hopen' : ∀ d ∈ blanks ++ token, (!isStop d) = true := fun d hd =>
    (List.mem_append.mp hd).elim (hopen d) fun hd => (hparts d hd).2
  rw [htext, ← List.append_assoc, List.takeWhile_append_of_pos hopen',
    List.dropWhile_append_of_pos hopen', List.append_assoc, Text.words_append_of_blank hblanks]
  refine ⟨Text.words_append_of_token hne (fun d hd => (hparts d hd).1) fun d hd => ?_, rfl⟩
  cases rest with
  | nil => cases hd
  | cons e rest =>
    rcases hrest e rfl with hblank | hstop
    · rw [List.takeWhile_cons_of_pos (by simp [isStop_of_isBlank hblank])] at hd
      cases hd
      exact hblank
    · rw [List.takeWhile_cons_of_neg (by simp [hstop])] at hd
      cases hd

end Tokens

/-! ## Runs of the reader -/

namespace ReadM

variable {α β γ : Type} {r r' : Reader}

theorem bind_ok {m : ReadM α} {a : α} (h : m r = .ok a r') (f : α → ReadM β) :
    (m >>= f) r = f a r' := by
  show EStateM.bind m f r = _
  rw [EStateM.bind, h]

theorem onSession_bind (m : ParseM α) (f : α → ParseM β) :
    onSession (m >>= f) = onSession m >>= fun a => onSession (f a) := by
  funext r
  show _ = EStateM.bind _ _ r
  unfold onSession
  simp only [EStateM.bind, bind]
  cases m r.session <;> rfl

/-- What is done with a session leaves the rest of the reader as it is. -/
theorem bind_congr_onSession {m : ParseM α} {f g : α → ReadM β}
    (h : ∀ a t, f a { r with session := t } = g a { r with session := t }) :
    (onSession m >>= f) r = (onSession m >>= g) r := by
  show EStateM.bind _ _ r = EStateM.bind _ _ r
  unfold EStateM.bind onSession
  cases m r.session with
  | ok a t => exact h a t
  | error e t => rfl

end ReadM

open ReadM

/-! ## Values -/

section Values

/-- Adds all values of a parameter to the innermost block, and goes on with whether one of them, or
one before, has been accepted. -/
def gather (name : List Char) (items : List Item) (added : Bool) (k : Bool → ReadM Stage) :
    ReadM Stage := fun r =>
  (onSession (addItems r.inner.policy (String.ofList name) items) >>= fun more => k (added || more)) r

variable {name : List Char} {added : Bool} {k : Bool → ReadM Stage} {r : Reader}

theorem gather_nil : gather name [] added k r = k added r := by
  show k (added || false) r = _
  rw [Bool.or_false]

theorem gather_cons (item : Item) (items : List Item) : gather name (item :: items) added k r =
    (onSession (addItem r.inner.policy (String.ofList name) item) >>= fun first =>
      gather name items (added || first) k) r := by
  rw [gather, addItems, onSession_bind, bind_assoc]
  refine bind_congr_onSession fun first t => ?_
  rw [gather, onSession_bind, bind_assoc]
  refine bind_congr_onSession fun others u => ?_
  show k (added || (first || others)) _ = _
  rw [Bool.or_assoc]

/-! The equations of the two loops, without the facts that their termination rests on. -/

section Loops

variable {kind : ScalarKind} {text cs : List Char} {c : Char}

theorem readScalars_of_nil (h : Text.trimStart text = []) :
    readScalars name kind added text = counted added := by
  rw [readScalars]
  split
  · rfl
  · rename_i heq
    cases h.symm.trans heq

theorem readScalars_of_stop (h : Text.trimStart text = c :: cs) (hstop : isStop c = true) :
    readScalars name kind added text = (do
      pushBrace (c :: cs)
      counted added) := by
  rw [readScalars]
  split
  · rename_i heq
    cases h.symm.trans heq
  · rename_i heq
    cases h.symm.trans heq
    rw [dif_pos hstop]

theorem readScalars_of_token (h : Text.trimStart text = c :: cs) (hstop : isStop c = false) :
    readScalars name kind added text = (do
      let more ← add name (scalarItem · kind ((c :: cs).takeWhile isTokenPart))
      readScalars name kind (added || more) ((c :: cs).dropWhile isTokenPart)) := by
  rw [readScalars]
  split
  · rename_i heq
    cases h.symm.trans heq
  · rename_i heq
    cases h.symm.trans heq
    rw [dif_neg (Bool.eq_false_iff.mp hstop)]

theorem readStrings_eq_match (name : List Char) (added : Bool) (text : List Char) :
    readStrings name added text =
      (match Text.trimStart text with
      | [] => counted added
      | c :: body =>
        if isStop c then do
          pushBrace (c :: body)
          counted added
        else if isQuote c then
          match Text.cut c body with
          | none => do
            let r ← get
            return .string ⟨name, c, r.cursor.counter, r.cursor.current,
              joinPiece [] (Text.trimEnd body), added⟩
          | some (value, after) => do
            let more ← add name (.value · (.string (String.ofList value)))
            readStrings name (added || more) after
        else do
          report fun n => formatFault n ("expected quoted string for " ++ String.ofList name ++
            ", found: " ++ String.ofList (c :: body))
          counted added) := by
  fun_cases readStrings name added text with
  | case1 h => rw [h]
  | case2 c body h hstop => simp only [h, hstop, if_true]
  | case3 c body h hstop hquote hcut =>
    simp only [h, hstop, hquote, hcut, if_true]
    rfl
  | case4 c body h hstop hquote value after hcut =>
    simp only [h, hstop, hquote, hcut, if_true]
    rfl
  | case5 c body h hstop hquote =>
    simp only [h, hstop, hquote]
    rfl

end Loops

theorem readScalars_eq (name : List Char) (kind : ScalarKind) (text : List Char) :
    ∀ (added : Bool) {r : Reader}, readScalars name kind added text r =
      gather name ((Text.words (text.takeWhile (!isStop ·))).map (scalarItem r.cursor.counter kind))
        added (fun any => do
          pushBrace (text.dropWhile (!isStop ·))
          counted any) r := by
  induction hlength : text.length using Nat.strong_induction_on generalizing text with
  | h length ih =>
    intro added r
    cases h : Text.trimStart text with
    | nil =>
      obtain ⟨hwords, hrest⟩ := @tokens_of_stop text (by simp [h])
      rw [readScalars_of_nil h, hwords, hrest, h, List.map_nil, gather_nil]
      rfl
    | cons c cs =>
      cases hstop : isStop c with
      | true =>
        obtain ⟨hwords, hrest⟩ := @tokens_of_stop text (by simpa [h] using hstop)
        rw [readScalars_of_stop h hstop, hwords, hrest, h, List.map_nil, gather_nil]
      | false =>
        obtain ⟨hwords, hrest⟩ := tokens_of_token h hstop
        have hlt := length_lt_of_token h (Bool.eq_false_iff.mp hstop)
        rw [readScalars_of_token h hstop, hwords, hrest, List.map_cons, gather_cons]
        exact bind_congr_onSession fun first t => ih _ (by omega) _ rfl (added || first)

/-- The strings of a parameter on a line, after which it goes on or is still open. -/
theorem readStrings_eq (n : Nat) (name text : List Char) : ∀ (added : Bool) {r : Reader},
    r.cursor.counter = n → readStrings name added text r =
      gather name (quoted n name text).1 added (fun any =>
        match (quoted n name text).2 with
        | .rest rest => do
          pushBrace rest
          counted any
        | .open_ mark value => return .string ⟨name, mark, n, r.cursor.current, value, any⟩) r := by
  fun_induction quoted n name text with
  | case1 text h =>
    intro added r hn
    rw [readStrings_eq_match, h, gather_nil]
    rfl
  | case2 text c body h hstop =>
    intro added r hn
    rw [readStrings_eq_match, h, gather_nil]
    dsimp only
    rw [if_pos hstop]
  | case3 text c body h hstop hquote hcut =>
    intro added r hn
    rw [readStrings_eq_match, h, gather_nil]
    dsimp only
    rw [if_neg hstop, if_pos hquote, hcut, ← hn]
    rfl
  | case4 text c body h hstop hquote value after hcut _ items tail hrest ih =>
    intro added r hn
    rw [hrest] at ih
    rw [readStrings_eq_match, h, gather_cons]
    dsimp only
    rw [if_neg hstop, if_pos hquote, hcut, ← hn]
    exact bind_congr_onSession fun first t => hn ▸ ih (added || first) hn
  | case5 text c body h hstop hquote =>
    intro added r hn
    rw [readStrings_eq_match, h, gather_cons, addItem, onSession_bind, bind_assoc]
    dsimp only
    rw [if_neg hstop, if_neg hquote, ← hn]
    refine bind_congr_onSession fun _ t => Eq.symm ?_
    refine (bind_ok (m := onSession (pure false)) (a := false) rfl _).trans ?_
    rw [gather_nil, Bool.or_false]
    rfl

end Values

/-! ## Numbers -/

/-- The item is numbered with the line. -/
def Item.IsAt (n : Nat) : Item → Prop
  | .value line _ => line = n
  | .fault e => e.line = some n

theorem isAt_quoted (n : Nat) (name text : List Char) :
    ∀ item ∈ (quoted n name text).1, item.IsAt n := by
  fun_induction quoted n name text with
  | case1 => simp
  | case2 => simp
  | case3 => simp
  | case4 text c body h hstop hquote value after hcut _ items tail hrest ih =>
    rw [hrest] at ih
    exact List.forall_mem_cons.mpr ⟨rfl, ih⟩
  | case5 => exact List.forall_mem_singleton.mpr rfl

theorem isAt_bareItem (n : Nat) (name content : List Char) : (bareItem n name content).IsAt n := by
  unfold bareItem
  split
  · split <;> rfl
  · rfl

theorem isAt_scalarItem (n : Nat) (kind : ScalarKind) (token : List Char) :
    (scalarItem n kind token).IsAt n := by
  unfold scalarItem
  split <;> rfl

/-! ## A text in a block -/

/-- Takes back a rest or drops it. -/
def pushIf (kept : Bool) (rest : List Char) : ReadM Unit :=
  if kept then pushBack rest else pure ()

/-- Adds the values of a parameter that ends on the line. -/
def endValues (name : List Char) (items : List Item) (added kept : Bool) (rest : List Char) :
    ReadM Stage :=
  gather name items added fun any => do
    pushIf kept rest
    counted any

/-- Adds the values of a parameter before a string that the line leaves open. -/
def pauseValues (q : OpenString) (items : List Item) (added : Bool) : ReadM Stage :=
  gather q.name items added fun any => return .string { q with added := any }

/-- The string as it is when its values so far are carried out already. -/
def OpenString.quote (q : OpenString) : OpenQuote := ⟨String.ofList q.name, [], q.mark, q.opened, q.text⟩

/-- What the parser does with a text, by the first step of reading it as a line with the number, and
by whether values of the parameter that it goes on with have been accepted before. -/
inductive Does (n : Nat) (r : Reader) :
    Bool → Step → EStateM.Result PolicyError Reader Stage → Prop
  | nothing : Does n r false .finished (.ok .block r)
  | fault {e : ParseError} {rest : List Char} {kept : Bool} (he : e.line = some n)
      (hquiet : kept = false → Quiet rest) : Does n r false (.emit (.fault e) rest) ((do
        onSession (ParseM.report e)
        pushIf kept rest
        return .block : ReadM Stage) r)
  | values {added kept : Bool} {name rest : List Char} {items : List Item}
      (hitems : ∀ item ∈ items, item.IsAt n) (hquiet : kept = false → Quiet rest) :
      Does n r added (.emit (.values (String.ofList name) items) rest)
        (endValues name items added kept rest r)
  | string {added : Bool} {q : OpenString} {items : List Item} (hitems : ∀ item ∈ items, item.IsAt n)
      (hopened : q.opened = n) (horigin : q.origin = r.cursor.current) :
      Does n r added (.pause { q.quote with items := items }) (pauseValues q items added r)
  | opening {name rest : List Char} :
      Does n r false (.emit (.opening n (String.ofList name)) (Text.trim rest)) (openBlock name rest r)
  | closing {rest : List Char} :
      Does n r false (.emit (.closing n (!rest.isEmpty)) rest) (closeBlock rest r)

section Does

variable {n : Nat} {r : Reader}

theorem pushRest_eq (rest : List Char) : pushRest rest = pushIf (!rest.isEmpty) rest := by
  cases rest <;> rfl

theorem pushBrace_eq (rest : List Char) :
    pushBrace rest = pushIf (rest.head? == some '\x7d') rest := by
  unfold pushBrace pushIf
  simp only [beq_iff_eq]

/-- What comes after values and is no closing brace is a comment, or nothing. -/
theorem quiet_of_stop {rest : List Char} (h : ∀ c ∈ rest.head?, isStop c = true)
    (hbrace : (rest.head? == some '\x7d') = false) : Quiet rest := by
  cases rest with
  | nil => exact Or.inl rfl
  | cons c rest =>
    rcases (by simpa [isStop] using h c rfl : c = '#' ∨ c = '\x7d') with rfl | rfl
    · exact Or.inr ⟨rest, rfl⟩
    · cases hbrace

theorem stop_of_quoted {name text rest : List Char} (h : (quoted n name text).2 = .rest rest) :
    ∀ c ∈ rest.head?, isStop c = true := by
  fun_induction quoted n name text with
  | case1 => cases h; simp
  | case2 text c body _ hstop =>
    cases h
    simpa using hstop
  | case3 => cases h
  | case4 text c body _ _ _ value after _ _ items tail hrest ih =>
    rw [hrest] at ih
    exact ih h
  | case5 => cases h; simp

theorem readScalars_does (hn : r.cursor.counter = n) (name text : List Char) (kind : ScalarKind) :
    ∃ kept, (kept = false → Quiet (text.dropWhile (!isStop ·))) ∧
      readScalars name kind false text r =
        endValues name ((Text.words (text.takeWhile (!isStop ·))).map (scalarItem n kind)) false kept
          (text.dropWhile (!isStop ·)) r := by
  refine ⟨_, quiet_of_stop fun c hc => ?_, ?_⟩
  · have hnot := List.head?_dropWhile_not (!isStop ·) text
    rw [hc] at hnot
    simpa using hnot
  · rw [readScalars_eq, hn, endValues]
    simp only [pushBrace_eq]

theorem readBare_eq (name text : List Char) : readBare name text r =
    endValues name [bareItem r.cursor.counter name (cutBare text).1] false
      (!(cutBare text).2.isEmpty) (cutBare text).2 r := by
  rw [endValues, gather_cons]
  simp only [← pushRest_eq]
  refine bind_congr_onSession fun added t => ?_
  rw [gather_nil, Bool.false_or]

theorem quiet_of_isEmpty {rest : List Char} (h : (!rest.isEmpty) = false) : Quiet rest := by
  cases rest with
  | nil => exact Or.inl rfl
  | cons c rest => cases h

/-- A fault with which the rest of the line is dropped. -/
theorem does_fault {e : ParseError} (he : e.line = some n) : Does n r false (.emit (.fault e) [])
    ((do
      onSession (ParseM.report e)
      return .block : ReadM Stage) r) :=
  @Does.fault n r e [] false he fun _ => Or.inl rfl

/-- Values up to a comment, which is dropped, or to a closing brace, which is taken back. -/
theorem does_values {added : Bool} {name rest : List Char} {items : List Item}
    (hitems : ∀ item ∈ items, item.IsAt n) (hstop : ∀ c ∈ rest.head?, isStop c = true) :
    Does n r added (.emit (.values (String.ofList name) items) rest)
      (gather name items added (fun any => do
        pushBrace rest
        counted any) r) := by
  have hvalues : Does n r added (.emit (.values (String.ofList name) items) rest)
      (endValues name items added (rest.head? == some '\x7d') rest r) :=
    .values hitems (quiet_of_stop hstop)
  rw [endValues] at hvalues
  simp only [← pushBrace_eq] at hvalues
  exact hvalues

theorem does_string {added : Bool} {name value : List Char} {items : List Item} {mark : Char}
    (hitems : ∀ item ∈ items, item.IsAt n) :
    Does n r added (.pause ⟨String.ofList name, items, mark, n, value⟩)
      (gather name items added
        (fun any => return .string ⟨name, mark, n, r.cursor.current, value, any⟩) r) :=
  .string (q := ⟨name, mark, n, r.cursor.current, value, false⟩) hitems rfl rfl

theorem readValue_eq_match {name cs : List Char} {c : Char} (hsharp : c ≠ '#') (hclose : c ≠ '\x7d')
    (hopen : c ≠ '\x7b') : readValue name (c :: cs) =
      if isQuote c then readStrings name false (c :: cs)
      else match ScalarKind.ofToken? ((c :: cs).takeWhile isTokenPart) with
        | some kind => readScalars name kind false (c :: cs)
        | none => readBare name (c :: cs) := by
  unfold readValue
  split
  · rename_i heq
    cases heq
  · rename_i heq
    cases heq
    exact (hsharp rfl).elim
  · rename_i heq
    cases heq
    exact (hclose rfl).elim
  · rename_i heq
    cases heq
    exact (hopen rfl).elim
  · rename_i heq
    cases heq
    rfl

theorem readValue_does (hn : r.cursor.counter = n) (name text : List Char) :
    Does n r false (stepValue n name text) (readValue name text r) := by
  unfold stepValue
  split
  · rw [← hn]
    exact does_fault rfl
  · rw [← hn]
    exact does_fault rfl
  · rename_i rest
    rw [← hn]
    exact @Does.fault _ r _ _ true rfl nofun
  · exact .opening
  · rename_i c cs hsharp hclose hopen
    rw [readValue_eq_match hsharp hclose hopen]
    split
    · have hitems := isAt_quoted n name (c :: cs)
      have hstop {rest : List Char} := @stop_of_quoted n name (c :: cs) rest
      rw [readStrings_eq n name (c :: cs) false hn]
      generalize quoted n name (c :: cs) = found at hitems hstop
      obtain ⟨items, tail⟩ := found
      cases tail with
      | rest rest =>
        exact does_values hitems (hstop rfl)
      | open_ mark value => exact does_string hitems
    · split
      · rename_i kind hkind
        have hkind : ScalarKind.ofToken? ((c :: cs).takeWhile isTokenPart) = some kind := hkind
        obtain ⟨kept, hquiet, hscalars⟩ := readScalars_does hn name (c :: cs) kind
        rw [hkind]
        dsimp only
        rw [hscalars]
        refine .values (fun item hitem => ?_) hquiet
        obtain ⟨token, -, rfl⟩ := List.mem_map.mp hitem
        exact isAt_scalarItem n kind token
      · rename_i hkind
        have hkind : ScalarKind.ofToken? ((c :: cs).takeWhile isTokenPart) = none := hkind
        rw [hkind]
        dsimp only
        rw [readBare_eq, hn]
        exact .values (List.forall_mem_singleton.mpr (isAt_bareItem n name _)) quiet_of_isEmpty

theorem readText_of_parameter {cs : List Char} (hempty : Text.trimStart cs ≠ [])
    (hsharp : ∀ rest, Text.trimStart cs ≠ '#' :: rest)
    (hclose : ∀ rest, Text.trimStart cs ≠ '\x7d' :: rest) :
    readText cs = readParameter (Text.trimStart cs) := by
  unfold readText
  split
  · rename_i h
    exact (hempty h).elim
  · rename_i h
    exact (hsharp _ h).elim
  · rename_i h
    exact (hclose _ h).elim
  · rfl

theorem readText_does (hn : r.cursor.counter = n) (cs : List Char) :
    Does n r false (step n cs) (readText cs r) := by
  unfold step
  split
  · rename_i h
    unfold readText
    rw [h]
    exact .nothing
  · rename_i h
    unfold readText
    rw [h]
    exact .nothing
  · rename_i h
    unfold readText
    rw [h]
    exact .closing
  · rename_i hempty hsharp hclose
    rw [readText_of_parameter hempty hsharp hclose]
    split
    · rename_i hsplit
      unfold readParameter
      rw [hsplit, ← hn]
      exact does_fault rfl
    · rename_i name after hsplit
      unfold readParameter
      rw [hsplit]
      dsimp only
      split
      · exact readValue_does hn _ _
      · rw [← hn]
        exact does_fault rfl

/-! ## A text in a string -/

/-- The statements of a line by the first step of reading it. -/
def follow (n : Nat) : Step → List Statement × Option OpenQuote
  | .finished => ([], none)
  | .pause q => ([], some q)
  | .emit s rest => (s :: (scan n rest).1, (scan n rest).2)

theorem scan_eq_follow (n : Nat) (cs : List Char) : scan n cs = follow n (step n cs) := by
  rw [scan_eq]
  cases step n cs <;> rfl

section Strings

variable {q : OpenString} {cs piece after : List Char}

/-- The string when a line has been read that does not close it. -/
def OpenString.extend (q : OpenString) (cs : List Char) : OpenString :=
  { q with text := joinPiece q.text (Text.trimEnd (Text.trimStart cs)) }

theorem readMore_of_open (h : Text.cut q.mark (Text.trimStart cs) = none) :
    readMore q cs r = .ok (.string (q.extend cs)) r := by
  unfold readMore
  rw [h]
  rfl

theorem resume_of_open (h : Text.cut q.mark (Text.trimStart cs) = none) (n : Nat) :
    resume q.quote n cs = ([], some (q.extend cs).quote) := by
  have hcut : Text.cut q.quote.mark (Text.trimStart cs) = none := h
  unfold resume
  dsimp only
  rw [hcut]
  rfl

/-- The value of the string when a piece of a line closes it. -/
def OpenString.item (n : Nat) (q : OpenString) (piece : List Char) : Item :=
  .value n (.string (String.ofList (joinPiece q.text (Text.trimEnd piece))))

/-- The step that closes a string with a piece of a line and goes on after it. -/
def stepClosed (n : Nat) (q : OpenString) (piece after : List Char) : Step :=
  match quoted n q.name after with
  | (items, .rest rest) => .emit (.values (String.ofList q.name) (q.item n piece :: items)) rest
  | (items, .open_ mark text) =>
    .pause ⟨String.ofList q.name, q.item n piece :: items, mark, n, text⟩

theorem resume_of_closed (h : Text.cut q.mark (Text.trimStart cs) = some (piece, after)) (n : Nat) :
    resume q.quote n cs = follow n (stepClosed n q piece after) := by
  have hcut : Text.cut q.quote.mark (Text.trimStart cs) = some (piece, after) := h
  have hname : q.quote.name.toList = q.name := String.toList_ofList
  unfold resume stepClosed
  dsimp only
  rw [hcut, hname]
  dsimp only
  obtain ⟨items, tail⟩ := quoted n q.name after
  cases tail <;> rfl

theorem readMore_does (hn : r.cursor.counter = n)
    (h : Text.cut q.mark (Text.trimStart cs) = some (piece, after)) :
    Does n r q.added (stepClosed n q piece after) (readMore q cs r) := by
  have hitems := isAt_quoted n q.name after
  have hstop {rest : List Char} := @stop_of_quoted n q.name after rest
  have hread : readMore q cs r =
      gather q.name (q.item n piece :: (quoted n q.name after).1) q.added (fun any =>
          match (quoted n q.name after).2 with
          | .rest rest => do
            pushBrace rest
            counted any
          | .open_ mark value =>
            return .string ⟨q.name, mark, n, r.cursor.current, value, any⟩) r := by
    unfold readMore
    rw [h, gather_cons, ← hn]
    exact bind_congr_onSession fun more t => readStrings_eq _ q.name after (q.added || more) rfl
  rw [hread, stepClosed]
  generalize quoted n q.name after = found at hitems hstop
  obtain ⟨items, tail⟩ := found
  have hall : ∀ item ∈ q.item n piece :: items, item.IsAt n :=
    List.forall_mem_cons.mpr ⟨rfl, hitems⟩
  cases tail with
  | rest rest => exact does_values hall (hstop rfl)
  | open_ mark value => exact does_string hall

theorem length_lt_of_stepClosed {s : Statement} {rest : List Char}
    (h : Text.cut q.mark (Text.trimStart cs) = some (piece, after))
    (hstep : stepClosed n q piece after = .emit s rest) : rest.length < cs.length := by
  have hcut := Text.length_lt_of_cut h
  have htrim := Text.length_trimStart_le cs
  unfold stepClosed at hstep
  split at hstep
  · rename_i items rest' hquoted
    cases hstep
    have hle := length_quoted_le hquoted
    omega
  · cases hstep

end Strings

end Does

end Paf

end PolicyStore
