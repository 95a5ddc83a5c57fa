import PolicyStore.Proofs.Paf.Noting
import PolicyStore.Proofs.Paf.Numbering

set_option autoImplicit false

namespace PolicyStore.Paf

/-!
# Tokens that are dropped

A lenient parser drops what is no value among the values of a parameter. After truth values and
numbers it goes on behind the dropped tokens, so that a closing brace on the line is read as if they
were not there. After quoted strings it gives up the rest of the line, closing braces included.
-/

/-- Literals on a line, with spaces between them. -/
def spaced (vs : List Literal) : List Char := [' '].intercalate (vs.map literalText)

/-- A text that is no value of a kind, and neither begins a string nor ends the values. -/
structure IsJunk (kind : Kind) (junk : List Char) : Prop where
  content : ∃ c ∈ junk, Text.isBlank c = false
  plain : ∀ c ∈ junk, isQuote c = false ∧ isStop c = false ∧ c ≠ '\n'
  foreign : ∀ w ∈ Text.words junk, ∀ other ∈ ScalarKind.ofToken? w, other.kind ≠ kind

/-- A line that opens a block and has a parameter of the block on it. -/
def blockLine (outer inner : String) (text : List Char) : List Char :=
  outer.toList ++ ':' :: ' ' :: '\x7b' :: ' ' :: (inner.toList ++ ':' :: ' ' :: text)

/-! ## The ends of values -/

variable {vs : List Literal}

theorem trimStart_spaced (hne : vs ≠ []) (hvs : ∀ v ∈ vs, IsWritable v) (rest : List Char) :
    Text.trimStart (spaced vs ++ rest) = spaced vs ++ rest := by
  obtain ⟨v, vs, rfl⟩ := List.exists_cons_of_ne_nil hne
  obtain ⟨after, hafter, -⟩ := Text.intercalate_cons ' ' (literalText v) (vs.map literalText)
  obtain ⟨⟨c, cs, hc, hblank, -⟩, -⟩ := exists_literalText (hvs v List.mem_cons_self)
  rw [spaced, List.map_cons, hafter, hc]
  exact Text.trimStart_cons_of_not_blank hblank _

theorem ends_spaced (hne : vs ≠ []) (hvs : ∀ v ∈ vs, IsWritable v) :
    ∃ before c, spaced vs = before ++ [c] ∧ Text.isBlank c = false := by
  refine ends_intercalate (by simpa using hne) fun w hw => ?_
  obtain ⟨v, hv, rfl⟩ := List.mem_map.mp hw
  exact (exists_literalText (hvs v hv)).2

theorem oneLine_spaced (hvs : ∀ v ∈ vs, IsWritable v) : '\n' ∉ spaced vs := oneLine_literals hvs

theorem closed_of_ends {cs : List Char}
    (h : ∃ before c, cs = before ++ [c] ∧ Text.isBlank c = false) : Closed cs := by
  obtain ⟨before, c, rfl, hc⟩ := h
  refine ⟨before, c, rfl, Bool.eq_false_iff.mpr fun hend => ?_⟩
  rw [blank_of_isLineEnd hend] at hc
  cases hc

/-! ## Values with junk behind them -/

theorem scalarItem_foreign (n : Nat) {kind : ScalarKind} {w : List Char}
    (h : ScalarKind.ofToken? w ≠ some kind) : scalarItem n kind w =
      .fault (formatFault n ("expected " ++ kind.label ++ " value, found: " ++ String.ofList w)) := by
  simp only [scalarItem, scalar, if_pos h]
  rfl

/-- Tokens among values of another kind are faults, and the line is read on behind them. -/
theorem stepValue_of_foreign (n : Nat) (name : List Char) {kind : ScalarKind} {v : Literal}
    {vs : List Literal} (hvs : ∀ w ∈ v :: vs, IsScalar kind w) {junk rest : List Char}
    (hjunk : ∀ c ∈ junk, isStop c = false)
    (hforeign : ∀ w ∈ Text.words junk, ScalarKind.ofToken? w ≠ some kind)
    (hrest : ∀ c ∈ rest.head?, isStop c = true) :
    stepValue n name (spaced (v :: vs) ++ ' ' :: junk ++ rest) =
      .emit (.values (String.ofList name) ((v :: vs).map (.value n) ++
        ((Text.words junk).map fun w => formatFault n
          ("expected " ++ kind.label ++ " value, found: " ++ String.ofList w)).map .fault)) rest := by
  have htokens : ∀ w ∈ (v :: vs).map literalText, IsToken w := by
    intro w hw
    obtain ⟨u, hu, rfl⟩ := List.mem_map.mp hw
    exact (hvs u hu).token
  have hwords : Text.words (spaced (v :: vs) ++ ' ' :: junk) =
      (v :: vs).map literalText ++ Text.words junk := by
    have hspaced : Text.words (spaced (v :: vs)) = (v :: vs).map literalText := by
      have h := Text.words_intercalate (fun w hw => (htokens w hw).nonempty)
        (fun w hw c hc => ((htokens w hw).plain c hc).1) (Or.inl rfl)
      rwa [List.append_nil] at h
    rw [Text.words_append_cons (by rfl), hspaced]
  have hitems : ((v :: vs).map literalText ++ Text.words junk).map (scalarItem n kind) =
      (v :: vs).map (.value n) ++ ((Text.words junk).map fun w => formatFault n
        ("expected " ++ kind.label ++ " value, found: " ++ String.ofList w)).map .fault := by
    rw [List.map_append, List.map_map, List.map_map]
    refine congrArg₂ _ (List.map_congr_left fun w hw => (hvs w hw).item n) ?_
    exact List.map_congr_left fun w hw => scalarItem_foreign n (hforeign w hw)
  have hfirst := hvs v List.mem_cons_self
  obtain ⟨after, hafter, hends⟩ := Text.intercalate_cons ' ' (literalText v) (vs.map literalText)
  have hsplit : spaced (v :: vs) = literalText v ++ after := hafter
  have hopen : ∀ c ∈ after ++ ' ' :: junk, isStop c = false := by
    intro c hc
    rcases List.mem_append.mp hc with hc | hc
    · have hmem : c ∈ spaced (v :: vs) := hsplit ▸ List.mem_append_right _ hc
      rcases Text.mem_intercalate hmem with rfl | ⟨w, hw, hcw⟩
      · decide
      · exact ((htokens w hw).plain c hcw).2.1
    · rcases List.mem_cons.mp hc with rfl | hc
      · decide
      · exact hjunk c hc
  have hblank : ∀ c ∈ (after ++ ' ' :: junk).head?, Text.isBlank c = true := by
    intro c hc
    rcases hends with rfl | ⟨more, rfl⟩
    · exact Option.some.inj hc ▸ rfl
    · exact Option.some.inj hc ▸ rfl
  have hvalue := stepValue_of_scalars n name hfirst.token hfirst.ofToken? hopen hblank hrest
  rw [← List.append_assoc (literalText v), ← hsplit, hwords, hitems] at hvalue
  exact hvalue

/-- Junk behind quoted strings is a fault, together with the rest of the line. -/
theorem quoted_of_junk (n : Nat) (name : List Char) {kind : Kind} {junk : List Char}
    (h : IsJunk kind junk) (rest : List Char) :
    ∃ e, quoted n name (' ' :: junk ++ rest) = ([.fault e], .rest []) := by
  obtain ⟨c, body, hc⟩ : ∃ c body, Text.trimStart junk = c :: body := by
    refine List.exists_cons_of_ne_nil fun hnil => ?_
    obtain ⟨d, hd, hcontent⟩ := h.content
    rw [Text.blank_of_trimStart_eq_nil hnil d hd] at hcontent
    cases hcontent
  have hmem : c ∈ junk := by
    have hsuffix : (c :: body) <:+ junk := hc ▸ List.dropWhile_suffix _
    exact hsuffix.subset List.mem_cons_self
  obtain ⟨hquote, hstop, -⟩ := h.plain c hmem
  have htrim : Text.trimStart (' ' :: junk ++ rest) = c :: (body ++ rest) :=
    Text.trimStart_append_of_eq_cons (hc : Text.trimStart (' ' :: junk) = c :: body) rest
  rw [quoted_eq, htrim]
  simp [hquote, hstop]

/-! ## The line of a block -/

section Lines

variable {outer inner : String} {text : List Char}

theorem scan_of_step {n : Nat} {cs rest : List Char} {s : Statement}
    (h : step n cs = .emit s rest) : scan n cs = (s :: (scan n rest).1, (scan n rest).2) := by
  rw [scan_eq, h]

theorem scan_blockLine {n : Nat} {s : Statement} {rest : List Char}
    (houter : isParameterName outer.toList = true) (hinner : isParameterName inner.toList = true)
    (hfirst : Text.trimStart text = text)
    (hlast : ∃ before c, text = before ++ [c] ∧ Text.isBlank c = false)
    (hvalue : stepValue n inner.toList text = .emit s rest) :
    scan n (blockLine outer inner text) =
      (.opening n outer :: s :: (scan n rest).1, (scan n rest).2) := by
  have hindent : IsIndent [] := by
    simp [IsIndent]
  have hwritten := isWritten_of_isParameterName hinner
  have htrim : Text.trim (' ' :: (inner.toList ++ ':' :: ' ' :: text)) =
      inner.toList ++ ':' :: ' ' :: text := by
    obtain ⟨before, c, rfl, hc⟩ := hlast
    have hstart : Text.trimStart (' ' :: (inner.toList ++ ':' :: ' ' :: (before ++ [c]))) =
        inner.toList ++ ':' :: ' ' :: (before ++ [c]) := by
      obtain ⟨d, ds, hd⟩ := List.exists_cons_of_ne_nil hwritten.nonempty
      have hblank := not_blank_of_isNamePart (hwritten.part d (by simp [hd]))
      have hspace : ∀ c ∈ [' '], Text.isBlank c = true := fun c hc => List.mem_singleton.mp hc ▸ rfl
      rw [hd]
      exact (Text.trimStart_append_of_blank hspace _).trans
        (Text.trimStart_cons_of_not_blank hblank _)
    have hend := Text.trimEnd_append_cons hc (inner.toList ++ ':' :: ' ' :: before) []
    simp only [List.append_assoc, List.cons_append] at hend
    rw [Text.trim, hstart, hend]
    rfl
  have hopening : step n (blockLine outer inner text) =
      .emit (.opening n outer) (inner.toList ++ ':' :: ' ' :: text) := by
    have hstep := step_of_written (n := n) hindent (isWritten_of_isParameterName houter)
      (' ' :: '\x7b' :: ' ' :: (inner.toList ++ ':' :: ' ' :: text))
    rw [if_pos houter] at hstep
    refine hstep.trans ?_
    show stepValue n _ ('\x7b' :: ' ' :: (inner.toList ++ ':' :: ' ' :: text)) = _
    rw [← htrim]
    simp only [stepValue, String.ofList_toList, htrim]
  have hparameter : step n (inner.toList ++ ':' :: ' ' :: text) = .emit s rest := by
    have hstep := step_of_written (n := n) hindent hwritten (' ' :: text)
    rw [if_pos hinner] at hstep
    have hspace : Text.trimStart (' ' :: text) = Text.trimStart text := rfl
    rw [hspace, hfirst, hvalue] at hstep
    exact hstep
  rw [scan_of_step hopening, scan_of_step hparameter]

theorem oneLine_blockLine (houter : isParameterName outer.toList = true)
    (hinner : isParameterName inner.toList = true) (htext : '\n' ∉ text) :
    '\n' ∉ blockLine outer inner text := by
  have houter' := (isWritten_of_isParameterName houter).oneLine
  have hinner' := (isWritten_of_isParameterName hinner).oneLine
  simp [blockLine, houter', hinner', htext]

/-- The statements of a text whose first line is read by itself. -/
theorem statements_line {line : List Char} (hline : '\n' ∉ line) {found : List Statement}
    (hchomp : chomp line = line) (hscan : scan 1 line = (found, none)) (text : String) :
    statements (linesOfText (String.ofList line ++ "\n" ++ text)) =
      found ++ statementsFrom 2 none (linesOfText text) := by
  rw [linesOfText_append, linesOfText_line hline, statements,
    statementsFrom_of_scan (hchomp.symm ▸ hscan)]

end Lines

/-! ## Texts -/

/-- The first computation answers what the second answers and leaves the same store. It notes what
the second notes, and possibly more. -/
structure OnlyNotes {α : Type} (m n : ParseM α) (t : Session) : Prop where
  answer : answer m t = answer n t
  store : (after m t).store = (after n t).store
  diagnostics : (after n t).parser.diagnostics.Sublist (after m t).parser.diagnostics

theorem NotesBesides.onlyNotes {α : Type} {faults : List ParseError} {m n : ParseM α} {t : Session}
    (h : NotesBesides faults m n t) : OnlyNotes m n t := by
  obtain ⟨before, noted, behind, -, hleft, hright⟩ := h.diagnostics
  have hstore : (after m t).unnoted.store = (after n t).unnoted.store := by
    rw [h.session]
  refine ⟨h.answer, hstore, ?_⟩
  rw [hleft, hright]
  exact (List.Sublist.refl before).append (List.sublist_append_right noted behind)

/-- Two first lines that give the same statements, but for faults among the values of one. -/
theorem onlyNotes_parse_line {line line' : List Char} {front back : List Statement} {name : String}
    {items : List Item} {faults : List ParseError} (hline : '\n' ∉ line) (hline' : '\n' ∉ line')
    (hchomp : chomp line = line) (hchomp' : chomp line' = line')
    (hscan : scan 1 line = (front ++ .values name (items ++ faults.map .fault) :: back, none))
    (hscan' : scan 1 line' = (front ++ .values name items :: back, none)) (text : String)
    (target : Policy) {t : Session} (ht : t.parser.strict = false) :
    OnlyNotes (parse target (linesOfText (String.ofList line ++ "\n" ++ text)))
      (parse target (linesOfText (String.ofList line' ++ "\n" ++ text))) t := by
  have hlength : (linesOfText (String.ofList line ++ "\n" ++ text)).length =
      (linesOfText (String.ofList line' ++ "\n" ++ text)).length := by
    rw [linesOfText_append, linesOfText_line hline, linesOfText_append, linesOfText_line hline']
    rfl
  have hrun := notesBesides_run_values name items faults front
    (back ++ statementsFrom 2 none (linesOfText text)) { policy := target } [] ht
  rw [parse_eq, parse_eq, statements_line hline hchomp hscan, statements_line hline' hchomp' hscan',
    hlength, List.append_assoc, List.append_assoc]
  exact (hrun.bind fun o => noteBlind_finish _ o).onlyNotes

/-! ## Blocks with junk in them -/

section Junk

variable {outer inner : String} {vs : Values Empty} {junk : List Char}

theorem scan_closing_brace (n : Nat) : scan n ['\x7d'] = ([.closing n false], none) := by
  have hstep : step n ['\x7d'] = .emit (.closing n false) [] := rfl
  rw [scan_of_step hstep, scan_of_quiet (Or.inl rfl)]

/-- The brace behind tokens of another kind closes the block. -/
theorem scan_blockLine_of_foreign {n : Nat} (houter : isParameterName outer.toList = true)
    (hinner : isParameterName inner.toList = true) {kind : ScalarKind} (hne : vs.toList ≠ [])
    (hvs : ∀ v ∈ vs.toList, IsScalar kind v) (hwritable : ∀ v ∈ vs.toList, IsWritable v)
    (hjunk : ∀ c ∈ junk, isStop c = false)
    (hforeign : ∀ w ∈ Text.words junk, ScalarKind.ofToken? w ≠ some kind) :
    scan n (blockLine outer inner (spaced vs.toList ++ ' ' :: junk ++ ['\x7d'])) =
      ([.opening n outer] ++ .values inner (vs.toList.map (.value n) ++
        ((Text.words junk).map fun w => formatFault n
          ("expected " ++ kind.label ++ " value, found: " ++ String.ofList w)).map .fault) ::
            [.closing n false], none) := by
  have hvalue : stepValue n inner.toList (spaced vs.toList ++ ' ' :: junk ++ ['\x7d']) =
      .emit (.values inner (vs.toList.map (.value n) ++
        ((Text.words junk).map fun w => formatFault n
          ("expected " ++ kind.label ++ " value, found: " ++ String.ofList w)).map .fault))
        ['\x7d'] := by
    obtain ⟨v, rest, hlist⟩ := List.exists_cons_of_ne_nil hne
    rw [hlist] at hvs ⊢
    have hbrace : ∀ c ∈ ['\x7d'].head?, isStop c = true := fun c hc => Option.some.inj hc ▸ rfl
    have h := stepValue_of_foreign n inner.toList hvs hjunk hforeign hbrace
    rwa [String.ofList_toList] at h
  have hfirst : Text.trimStart (spaced vs.toList ++ ' ' :: junk ++ ['\x7d']) =
      spaced vs.toList ++ ' ' :: junk ++ ['\x7d'] := by
    rw [List.append_assoc]
    exact trimStart_spaced hne hwritable _
  rw [scan_blockLine houter hinner hfirst ⟨_, _, rfl, rfl⟩ hvalue, scan_closing_brace]
  rfl

/-- What quoted strings are followed by is the end of the line. -/
theorem scan_blockLine_of_strings {n : Nat} (houter : isParameterName outer.toList = true)
    (hinner : isParameterName inner.toList = true) (hkind : vs.kind = .string)
    (hne : vs.toList ≠ []) (hvs : ∀ v ∈ vs.toList, IsWritable v) {tail : List Char}
    {items : List Item} (htail : quoted n inner.toList tail = (items, .rest []))
    (hlast : ∃ before c, spaced vs.toList ++ tail = before ++ [c] ∧ Text.isBlank c = false) :
    scan n (blockLine outer inner (spaced vs.toList ++ tail)) =
      ([.opening n outer] ++ .values inner (vs.toList.map (.value n) ++ items) :: [], none) := by
  cases vs with
  | strings ss =>
    obtain ⟨s, ss, rfl⟩ := List.exists_cons_of_ne_nil (l := ss) (by simpa [Values.toList] using hne)
    have hstrings : ∀ t ∈ s :: ss, '"' ∉ t.toList := by
      intro t ht
      cases hvs (.string t) (List.mem_map_of_mem ht)
      assumption
    have hvalue : stepValue n inner.toList
        (spaced (Values.strings (s :: ss) : Values Empty).toList ++ tail) =
          .emit (.values inner ((Values.strings (s :: ss) : Values Empty).toList.map (.value n) ++
            items)) [] := by
      have h := stepValue_of_strings n inner.toList hstrings htail
      rw [String.ofList_toList] at h
      simpa [spaced, Values.toList, Function.comp_def] using h
    rw [scan_blockLine houter hinner (trimStart_spaced hne hvs tail) hlast hvalue,
      scan_of_quiet (Or.inl rfl)]
    rfl
  | _ => cases hkind

theorem chomp_blockLine {text : List Char}
    (h : ∃ before c, text = before ++ [c] ∧ Text.isBlank c = false) :
    chomp (blockLine outer inner text) = blockLine outer inner text := by
  obtain ⟨before, c, rfl, hc⟩ := h
  refine (closed_of_ends ⟨blockLine outer inner before, c, ?_, hc⟩).chomp
  simp [blockLine]

theorem oneLine_junk (houter : isParameterName outer.toList = true)
    (hinner : isParameterName inner.toList = true) (hvs : ∀ v ∈ vs.toList, IsWritable v)
    (hjunk : IsJunk vs.kind junk) :
    '\n' ∉ blockLine outer inner (spaced vs.toList ++ ' ' :: (junk ++ " \x7d".toList)) := by
  have hspaced := oneLine_spaced hvs
  have hplain : '\n' ∉ junk := fun hmem => (hjunk.plain _ hmem).2.2 rfl
  exact oneLine_blockLine houter hinner (by simp [hspaced, hplain])

/-- Junk behind truth values or numbers is only noted. -/
theorem onlyNotes_parse_of_foreign (houter : isParameterName outer.toList = true)
    (hinner : isParameterName inner.toList = true) (hkind : vs.kind ≠ .string)
    (hne : vs.toList ≠ []) (hvs : ∀ v ∈ vs.toList, IsWritable v) (hjunk : IsJunk vs.kind junk)
    (text : String) (target : Policy) {t : Session} (ht : t.parser.strict = false) :
    OnlyNotes
      (parse target (linesOfText (String.ofList (blockLine outer inner
        (spaced vs.toList ++ ' ' :: (junk ++ " \x7d".toList))) ++ "\n" ++ text)))
      (parse target (linesOfText (String.ofList (blockLine outer inner
        (spaced vs.toList ++ " \x7d".toList)) ++ "\n" ++ text))) t := by
  obtain ⟨kind, hsame, hscalars⟩ := exists_isScalar hne hvs hkind
  have hforeign : ∀ w ∈ Text.words (junk ++ [' ']), ScalarKind.ofToken? w ≠ some kind := by
    intro w hw hsome
    have hwords : Text.words (junk ++ [' ']) = Text.words junk :=
      (Text.words_append_cons rfl junk []).trans (List.append_nil _)
    exact hjunk.foreign w (hwords ▸ hw) kind hsome hsame
  have hopen : ∀ c ∈ junk ++ [' '], isStop c = false := by
    intro c hc
    rcases List.mem_append.mp hc with hc | hc
    · exact (hjunk.plain c hc).2.1
    · exact List.mem_singleton.mp hc ▸ rfl
  have hscan := scan_blockLine_of_foreign (n := 1) houter hinner hne hscalars hvs hopen hforeign
  have htext : spaced vs.toList ++ ' ' :: (junk ++ [' ']) ++ ['\x7d'] =
      spaced vs.toList ++ ' ' :: (junk ++ " \x7d".toList) := by
    simp
  rw [htext] at hscan
  -- the line without junk is the one whose junk is empty
  have hnone : ∀ c ∈ ([] : List Char), isStop c = false := by
    simp
  have hscan' := scan_blockLine_of_foreign (n := 1) houter hinner hne hscalars hvs hnone
    (by simp [Text.words, Text.splitWhere])
  have hitems : (Text.words []).map (fun w => formatFault 1
      ("expected " ++ kind.label ++ " value, found: " ++ String.ofList w)) = [] := rfl
  rw [hitems, List.map_nil, List.append_nil] at hscan'
  have hclean : '\n' ∉ blockLine outer inner (spaced vs.toList ++ " \x7d".toList) :=
    oneLine_blockLine houter hinner (by simp [oneLine_spaced hvs])
  refine onlyNotes_parse_line (oneLine_junk houter hinner hvs hjunk) hclean
    (chomp_blockLine ⟨_, '\x7d', htext.symm, rfl⟩)
    (chomp_blockLine ⟨spaced vs.toList ++ [' '], '\x7d', by simp, rfl⟩) hscan ?_ text target ht
  rw [← hscan']
  simp

/-- Junk behind quoted strings is noted together with the brace behind it. -/
theorem onlyNotes_parse_of_strings (houter : isParameterName outer.toList = true)
    (hinner : isParameterName inner.toList = true) (hkind : vs.kind = .string)
    (hne : vs.toList ≠ []) (hvs : ∀ v ∈ vs.toList, IsWritable v) (hjunk : IsJunk vs.kind junk)
    (text : String) (target : Policy) {t : Session} (ht : t.parser.strict = false) :
    OnlyNotes
      (parse target (linesOfText (String.ofList (blockLine outer inner
        (spaced vs.toList ++ ' ' :: (junk ++ " \x7d".toList))) ++ "\n" ++ text)))
      (parse target (linesOfText (String.ofList (blockLine outer inner
        (spaced vs.toList)) ++ "\n" ++ text))) t := by
  obtain ⟨e, hquoted⟩ := quoted_of_junk 1 inner.toList hjunk " \x7d".toList
  have hends : ∃ before c, spaced vs.toList ++ ' ' :: (junk ++ " \x7d".toList) = before ++ [c] ∧
      Text.isBlank c = false :=
    ⟨spaced vs.toList ++ ' ' :: junk ++ [' '], '\x7d', by simp, rfl⟩
  have hscan : scan 1 (blockLine outer inner
      (spaced vs.toList ++ ' ' :: (junk ++ " \x7d".toList))) = ([.opening 1 outer] ++
        .values inner (vs.toList.map (.value 1) ++ [e].map .fault) :: [], none) :=
    scan_blockLine_of_strings houter hinner hkind hne hvs hquoted hends
  have hnil : quoted 1 inner.toList [] = ([], .rest []) := by
    rw [quoted_eq]
    rfl
  have hends' := ends_spaced hne hvs
  have hscan' := scan_blockLine_of_strings houter hinner hkind hne hvs hnil
    (by rwa [List.append_nil])
  rw [List.append_nil, List.append_nil] at hscan'
  have hclean : '\n' ∉ blockLine outer inner (spaced vs.toList) :=
    oneLine_blockLine houter hinner (oneLine_spaced hvs)
  exact onlyNotes_parse_line (oneLine_junk houter hinner hvs hjunk) hclean (chomp_blockLine hends)
    (chomp_blockLine hends') hscan hscan' text target ht

end Junk

/-- A lenient parser that meets junk behind truth values or numbers in a block goes on as if it were
not there: the brace behind it closes the block. Behind quoted strings it goes on as if the line
ended before the junk, and the brace is dropped together with it. -/
theorem lenient_parse_of_junk {outer inner : String}
    (houter : isParameterName outer.toList = true) (hinner : isParameterName inner.toList = true)
    {vs : Values Empty} (hne : vs.toList ≠ []) (hvs : ∀ v ∈ vs.toList, IsWritable v)
    {junk : List Char} (hjunk : IsJunk vs.kind junk) (text : String) (target : Policy) (s : Store) :
    let read (line : List Char) := parse target (linesOfText (String.ofList line ++ "\n" ++ text))
    let dirty := blockLine outer inner (spaced vs.toList ++ ' ' :: (junk ++ " \x7d".toList))
    (vs.kind ≠ .string → OnlyNotes (read dirty)
      (read (blockLine outer inner (spaced vs.toList ++ " \x7d".toList)))
      ⟨s, { strict := false }⟩) ∧
    (vs.kind = .string → OnlyNotes (read dirty) (read (blockLine outer inner (spaced vs.toList)))
      ⟨s, { strict := false }⟩) := by
  intro read dirty
  exact ⟨fun hkind => onlyNotes_parse_of_foreign houter hinner hkind hne hvs hjunk text target rfl,
    fun hkind => onlyNotes_parse_of_strings houter hinner hkind hne hvs hjunk text target rfl⟩

/-- Two words behind a number, and a parameter on the next line. -/
theorem lenient_parse_of_words_after_number :
    isParameterName "a.b".toList = true ∧ isParameterName "n".toList = true ∧
      (∀ v ∈ (Values.ints [1] : Values Empty).toList, IsWritable v) ∧
      IsJunk .int "x true".toList ∧
      OnlyNotes (parse ⟨0⟩ (linesOfText "a.b: \x7b n: 1 x true \x7d\nc: 2"))
        (parse ⟨0⟩ (linesOfText "a.b: \x7b n: 1 \x7d\nc: 2")) ⟨⟨#[{}]⟩, { strict := false }⟩ := by
  have houter : isParameterName "a.b".toList = true := by
    decide +kernel
  have hinner : isParameterName "n".toList = true := by
    decide +kernel
  have hvs : ∀ v ∈ (Values.ints [1] : Values Empty).toList, IsWritable v := by
    simp [Values.toList, IsWritable.int]
  have hwords : Text.words "x true".toList = ["x".toList, "true".toList] := by
    decide +kernel
  have hjunk : IsJunk .int "x true".toList := by
    refine ⟨⟨'x', by decide, by decide⟩, by simp [isQuote, isStop], fun w hw other hother => ?_⟩
    rw [hwords] at hw
    rcases List.mem_pair.mp hw with rfl | rfl
    · revert other
      decide +kernel
    · revert other
      decide +kernel
  refine ⟨houter, hinner, hvs, hjunk, ?_⟩
  exact (lenient_parse_of_junk houter hinner (by simp [Values.toList]) hvs hjunk "c: 2" ⟨0⟩
    ⟨#[{}]⟩).1 (by decide)

/-- Junk behind a string takes the brace with it, and the next line is read into the block. -/
theorem lenient_parse_drops_brace_after_string :
    IsJunk .string "y".toList ∧
      (after (parse ⟨0⟩ (linesOfText "a: \x7b n: \"x\" y \x7d\nb: 1"))
        ⟨⟨#[{}]⟩, { strict := false }⟩).store =
          ⟨#[⟨[("a", .policies [⟨1⟩])], none⟩,
            ⟨[("b", .ints [1]), ("n", .strings ["x"])], none⟩]⟩ ∧
      (after (parse ⟨0⟩ (linesOfText "a: \x7b n: \"x\" \x7d\nb: 1"))
        ⟨⟨#[{}]⟩, { strict := false }⟩).store =
          ⟨#[⟨[("a", .policies [⟨1⟩]), ("b", .ints [1])], none⟩,
            ⟨[("n", .strings ["x"])], none⟩]⟩ := by
  refine ⟨⟨⟨'y', by decide, by decide⟩, by simp [isQuote, isStop], ?_⟩, ?_, ?_⟩
  · decide +kernel
  · decide +kernel
  · decide +kernel

end PolicyStore.Paf
