import PolicyStore.Proofs.Paf.Building
import PolicyStore.Proofs.Paf.Runs
import PolicyStore.Proofs.Paf.Scanning

set_option autoImplicit false

namespace PolicyStore.Paf

/-!
# Reading a written document

A parser builds exactly the document that a text was written from, whatever its layout.
-/

/-! ## Single statements -/

/-- Appends literals of one kind to the array under a name. -/
theorem addItems_of_literals (line : Nat) {p : Policy} {name : String} {kind : Kind}
    {literals : List Literal} {t : Session} (hname : Name.segments name = .ok [name])
    (hkind : ∀ v ∈ literals, v.kind = kind) (hne : literals ≠ [])
    {new : Values Policy} (hp : p.id < t.store.size)
    (hdict : t.store.dictionary? p = none)
    (hpush : ((Table.get? name (t.store.entries p)).getD (.empty kind)).pushAll?
      (literals.map .ofLiteral) = some new) :
    addItems p name (literals.map (.value line)) t = .ok true { t with
      store := t.store.setEntries p (Table.insert name new (t.store.entries p)) } := by
  induction literals generalizing t with
  | nil => exact (hne rfl).elim
  | cons v rest ih =>
    obtain ⟨ws, hfirst, hrest⟩ := Option.bind_eq_some_iff.mp hpush
    have hv : (Value.ofLiteral v : Value Policy).kind = kind := by
      rw [Value.ofLiteral, Value.kind_map]
      exact hkind v List.mem_cons_self
    have hadd := Store.add_eq_setEntries _ hname hdict (hv.symm ▸ hfirst)
    apply (bind_of_run (addValue_of_add _ hadd)).trans
    cases rest with
    | nil =>
      cases hrest
      rfl
    | cons w rest =>
      have hrest' (u : Literal) (hu : u ∈ w :: rest) := hkind u (List.mem_cons_of_mem _ hu)
      refine (bind_of_run (ih hrest' (by simp) ?_ ?_ ?_)).trans ?_
      · simpa using hp
      · rw [Store.dictionary?_setEntries_self hp, hdict]
      · rw [Store.entries_setEntries_self hp, Table.get?_insert_self]
        exact hrest
      · rw [Store.entries_setEntries_self hp, Table.insert_insert, Store.setEntries_setEntries]
        rfl

theorem run_values {b : Block} {outer : List Block} {name : String} {items : List Item}
    {rest : List Statement} {t : Session} {s' : Store}
    (h : addItems b.policy name items t = .ok true { t with store := s' }) :
    run b outer (.values name items :: rest) t =
      run { b with count := b.count + 1 } outer rest { t with store := s' } :=
  bind_of_run h

theorem run_opening {b : Block} {outer : List Block} {name : String} {line : Nat}
    {rest : List Statement} {t : Session} {s' : Store}
    (h : (t.store.alloc {}).2.add b.policy name (.policy ⟨t.store.size⟩) = .ok s') :
    run b outer (.opening line name :: rest) t =
      run { policy := ⟨t.store.size⟩ } (b :: outer) rest
        ⟨s', { t.parser with depth := t.parser.depth + 1 }⟩ :=
  bind_of_run (m := addValue b.policy name line (.policy ⟨t.store.size⟩))
    (t := ⟨(t.store.alloc {}).2,
      { t.parser with depth := t.parser.depth + 1 }⟩)
    (addValue_of_add _ h)

theorem run_closing {inner b : Block} {outer : List Block} {line : Nat} {followed : Bool}
    {rest : List Statement} {s : Store} {parser : Parser} (hinner : inner.attached = true) :
    run inner (b :: outer) (.closing line followed :: rest)
        ⟨s, { parser with depth := parser.depth + 1 }⟩ =
      run { b with count := b.count + (1 + inner.count) } outer rest ⟨s, parser⟩ := by
  have hclose : inner.close b = { b with count := b.count + (1 + inner.count) } := by
    rw [Block.close, hinner]
    rfl
  rw [← hclose]
  rfl

/-! ## Documents -/

/-- The lines of a text as the parser is given them. -/
def given (lines : List (List Char)) : List Line := lines.map fun cs => some (chomp cs)

theorem given_append (lines others : List (List Char)) :
    given (lines ++ others) = given lines ++ given others :=
  List.map_append

theorem statementsFrom_of_scan {n : Nat} {line : List Char} {found : List Statement}
    (h : scan n (chomp line) = (found, none)) (more : List Line) :
    statementsFrom n none (given [line] ++ more) = found ++ statementsFrom (n + 1) none more := by
  simp [given, statementsFrom, readLine, h]

theorem files_of_rows {rows : Entries Policy} {name : String} {f : Policy → Content}
    {earlier : List FileRef}
    (h : (((Table.get? name rows).map (Values.map f)).getD (.files [])) = .files earlier) :
    (Table.get? name rows).getD (.files []) = .files earlier := by
  cases hget : Table.get? name rows with
  | none => simpa [hget] using h
  | some vs =>
    cases vs <;> simp [hget, Values.map] at h
    simp [h]

theorem policies_of_rows {rows : Entries Policy} {name : String} {f : Policy → Content}
    {earlier : List Content}
    (h : (((Table.get? name rows).map (Values.map f)).getD (.policies [])) = .policies earlier) :
    ∃ ps, (Table.get? name rows).getD (.policies []) = .policies ps := by
  cases hget : Table.get? name rows with
  | none => exact ⟨[], rfl⟩
  | some vs =>
    cases vs <;> simp [hget, Values.map] at h
    exact ⟨_, rfl⟩

/-- Reading the lines in the innermost block, in whatever surroundings, builds the rows in it. -/
def Reads (rows : List (String × Values Content)) (n : Nat) (lines : List (List Char)) : Prop :=
  ∀ (k : Nat) (more : List Line) (b : Block) (outer : List Block) (s : Store) (parser : Parser),
    b.policy.id < s.size → s.node b.policy = {} → ∃ s', Built s s' b.policy rows ∧
      run b outer (statementsFrom k none (given lines ++ more)) ⟨s, parser⟩ =
        run { b with count := b.count + n } outer
          (statementsFrom (k + lines.length) none more) ⟨s', parser⟩

namespace Reads

variable {rows : List (String × Values Content)} {n : Nat} {lines : List (List Char)}
  {line : List Char} {name : String}

theorem empty : Reads [] 0 [] :=
  fun _ _ _ _ s _ _ hempty => ⟨s, .refl hempty, rfl⟩

theorem filler (h : Reads rows n lines) (hline : Filler line) : Reads rows n (lines ++ [line]) := by
  intro k more b outer s parser hb hempty
  obtain ⟨s', hbuilt, hrun⟩ := h k (given [line] ++ more) b outer s parser hb hempty
  refine ⟨s', hbuilt, ?_⟩
  rw [given_append, List.append_assoc, hrun, statementsFrom_of_scan (scan_filler hline),
    List.length_append, ← Nat.add_assoc]
  rfl

theorem literals {kind : Kind} {added : List Literal} (ws : Values Policy) {vs : Values Content}
    (h : Reads rows n lines) (hname : IsName name)
    (hscan : ∀ k, scan k (chomp line) = ([.values name (added.map (.value k))], none))
    (hkind : ∀ v ∈ added, v.kind = kind) (hne : added ≠ [])
    (hpush : ∀ (entries : Entries Policy) (f : Policy → Content),
      (Table.get? name entries).map (Values.map f) = Table.get? name rows →
      ((Table.get? name entries).getD (.empty kind)).pushAll? (added.map .ofLiteral) = some ws)
    (hws : ∀ f : Policy → Content, ws.map f = vs) (hnone : ws.children = []) :
    Reads (Table.insert name vs rows) (n + 1) (lines ++ [line]) := by
  intro k more b outer s parser hb hempty
  obtain ⟨s', hbuilt, hrun⟩ := h k (given [line] ++ more) b outer s parser hb hempty
  have hb' : b.policy.id < s'.size := Nat.lt_of_lt_of_le hb hbuilt.size_le
  have hget := hbuilt.rows _ (Nat.le_refl _) ▸ (Store.get?_rowsTo s' _ b.policy name).symm
  have hadd := addItems_of_literals (k + lines.length) (t := ⟨s', parser⟩) hname.segments hkind hne
    hb' hbuilt.dictionary (hpush _ _ hget)
  refine ⟨_, hbuilt.literals hb hws hnone, ?_⟩
  rw [given_append, List.append_assoc, hrun, statementsFrom_of_scan (hscan _), List.length_append,
    ← Nat.add_assoc, ← Nat.add_assoc]
  exact run_values hadd

theorem block {inner : List (String × Values Content)} {m : Nat} {body : List (List Char)}
    {first last : List Char} {earlier : List Content} (h : Reads rows n lines)
    (hinner : Reads inner m body) (hname : IsName name)
    (hfirst : ∀ k, scan k (chomp first) = ([.opening k name], none))
    (hlast : ∀ k, ∃ followed, scan k (chomp last) = ([.closing k followed], none))
    (hearlier : (Table.get? name rows).getD (.policies []) = .policies earlier) :
    Reads (Table.insert name (.policies (earlier ++ [.node inner])) rows) (n + (1 + m))
      (lines ++ [first] ++ body ++ [last]) := by
  intro k more b outer s parser hb hempty
  obtain ⟨s', hbuilt, hrun⟩ :=
    h k (given [first] ++ (given body ++ (given [last] ++ more))) b outer s parser hb hempty
  have hb' : b.policy.id < s'.size := Nat.lt_of_lt_of_le hb hbuilt.size_le
  have hget := hbuilt.rows _ (Nat.le_refl _) ▸ Store.get?_rowsTo s' _ b.policy name
  obtain ⟨ps, hps⟩ := policies_of_rows (hget ▸ hearlier)
  obtain ⟨s₁, hs₁⟩ : ∃ s₁, s₁ = (s'.alloc {}).2.setEntries b.policy
      (Table.insert name (.policies (ps ++ [⟨s'.size⟩])) (s'.entries b.policy)) := ⟨_, rfl⟩
  have hadd : (s'.alloc {}).2.add b.policy name (.policy ⟨s'.size⟩) = .ok s₁ := by
    have hnode := Store.node_alloc_of_lt hb' {}
    rw [hs₁, Store.add_eq_setEntries (.policies (ps ++ [⟨s'.size⟩])) hname.segments]
    · rw [Store.entries, hnode, ← Store.entries]
    · rw [Store.dictionary?, hnode, ← Store.dictionary?, hbuilt.dictionary]
    · rw [Store.entries, hnode, ← Store.entries]
      show ((Table.get? name (s'.entries b.policy)).getD (.policies [])).push? _ = _
      rw [hps]
      rfl
  have hempty₁ : s₁.node ⟨s'.size⟩ = {} := by
    have hne : (⟨s'.size⟩ : Policy) ≠ b.policy := by
      intro heq
      rw [← heq] at hb'
      exact Nat.lt_irrefl _ hb'
    rw [hs₁, Store.node_setEntries_of_ne hne]
    exact Store.node_alloc_self s' {}
  have hsize₁ : s'.size < s₁.size := by
    rw [hs₁, Store.size_setEntries, Store.size_alloc]
    exact Nat.lt_succ_self _
  obtain ⟨s₂, hbuilt₂, hrun₂⟩ := hinner (k + lines.length + 1) (given [last] ++ more)
    { policy := ⟨s'.size⟩ } ({ b with count := b.count + n } :: outer) s₁
    { parser with depth := parser.depth + 1 } hsize₁ hempty₁
  obtain ⟨followed, hscan⟩ := hlast (k + lines.length + 1 + body.length)
  refine ⟨s₂, hbuilt.block hb hearlier hps hs₁ hbuilt₂, ?_⟩
  have hlength : k + (lines ++ [first] ++ body ++ [last]).length =
      k + lines.length + 1 + body.length + 1 := by
    simp
    omega
  rw [hlength, given_append, given_append, given_append, List.append_assoc, List.append_assoc,
    List.append_assoc, hrun, statementsFrom_of_scan (hfirst _), List.singleton_append,
    run_opening (b := { b with count := b.count + n }) (t := ⟨s', parser⟩) hadd, hrun₂,
    statementsFrom_of_scan hscan, List.singleton_append, run_closing rfl]
  simp only [Nat.zero_add, Nat.add_assoc]

end Reads

/-- A parser that has read the lines of a document has built it in the innermost block. -/
theorem reads_of_written {rows : List (String × Values Content)} {n : Nat}
    {lines : List (List Char)} (h : Written rows n lines) : Reads rows n lines := by
  induction h with
  | empty => exact .empty
  | filler _ hline ih => exact ih.filler hline
  | @values rows n lines indent tail name vs _ hindent htail hname habsent hne hvs ih =>
    refine ih.literals (vs.map Empty.elim) hname
      (fun k => scan_values hindent htail hname.isParameterName hne hvs)
      (fun v hv => Values.kind_of_mem_toList hv) hne ?_ ?_ ?_
    · intro entries f hget
      have hall := Values.pushAll?_toList (vs.map Empty.elim : Values Policy)
      rw [Values.kind_map, Values.toList_map] at hall
      rw [habsent, Option.map_eq_none_iff] at hget
      rw [hget]
      exact hall
    · intro f
      rw [Values.map_map]
      exact Values.map_congr fun e _ => e.elim
    · rw [Values.children_map]
      exact List.map_eq_nil_iff.mpr (List.eq_nil_iff_forall_not_mem.mpr fun e _ => e.elim)
  | @file rows n lines indent tail name path earlier _ hindent htail hname hearlier hpath ih =>
    have hkind : ∀ v ∈ [(.file ⟨path, none⟩ : Literal)], v.kind = .file := by
      intro v hv
      rw [List.mem_singleton.mp hv]
      rfl
    refine ih.literals (.files (earlier ++ [⟨path, none⟩])) hname
      (fun k => scan_file hindent htail hname.isParameterName hpath) hkind (by simp) ?_
      (fun f => rfl) rfl
    intro entries f hget
    rw [← hget] at hearlier
    show ((Table.get? name entries).getD (.files [])).pushAll? _ = _
    rw [files_of_rows hearlier]
    rfl
  | block _ _ hindent htail hindent' htail' hname hearlier ih ihinner =>
    exact ih.block ihinner hname (fun _ => scan_opening hindent htail hname.isParameterName)
      (fun _ => scan_closing hindent' htail') hearlier

/-! ## Texts -/

/-- The last line of a text may be empty, and then it is not there. -/
theorem linesOfText_textOf {lines : List (List Char)} (h : ∀ line ∈ lines, '\n' ∉ line) :
    given lines = linesOfText (textOf lines) ∨
      given lines = linesOfText (textOf lines) ++ [some []] := by
  have hplain {line : List Char} (hline : '\n' ∉ line) : ∀ c ∈ line, decide (c = '\n') = false := by
    intro c hc
    apply decide_eq_false
    rintro rfl
    exact hline hc
  rw [linesOfText, textOf, String.toList_ofList]
  induction lines with
  | nil => exact Or.inl rfl
  | cons line lines ih =>
    have hline := hplain (h line List.mem_cons_self)
    cases lines with
    | nil =>
      cases line with
      | nil => exact Or.inr rfl
      | cons c cs =>
        apply Or.inl
        have hone : ['\n'].intercalate [c :: cs] = c :: cs := by
          simp [List.intercalate]
        rw [hone, Text.splitAfter_of_none (by simp) hline]
        rfl
    | cons next lines =>
      have hcut : ['\n'].intercalate (line :: next :: lines) =
          line ++ '\n' :: ['\n'].intercalate (next :: lines) := by
        simp [List.intercalate]
      rw [hcut, Text.splitAfter_append hline (by decide), List.map_cons, chomp_append_newline]
      rcases ih fun other hother => h other (List.mem_cons_of_mem _ hother) with heq | heq
      · exact Or.inl (congrArg (some (chomp line) :: ·) heq)
      · exact Or.inr (congrArg (some (chomp line) :: ·) heq)

theorem statementsFrom_append_empty (lines : List Line) : ∀ (k : Nat) (q : Option OpenQuote),
    statementsFrom k q (lines ++ [some []]) = statementsFrom k q lines := by
  have hquiet (k : Nat) : scan k [] = ([], none) := scan_of_quiet (Or.inl rfl)
  induction lines with
  | nil =>
    intro k q
    cases q with
    | none => simp [statementsFrom, readLine, hquiet]
    | some q => simp [statementsFrom, readLine, resume, Text.trimStart, Text.cut, unterminated]
  | cons line lines ih =>
    intro k q
    cases line with
    | none => cases q <;> rfl
    | some cs =>
      rw [List.cons_append, statementsFrom, statementsFrom]
      exact congrArg _ (ih _ _)

theorem IsIndent.oneLine {indent : List Char} (h : IsIndent indent) : '\n' ∉ indent := fun hmem => by
  rcases h _ hmem with h | h <;> revert h <;> decide

theorem Tail.oneLine {tail : List Char} (h : Tail tail) : '\n' ∉ tail := by
  cases h with
  | none => simp
  | comment h => simpa using h

theorem Filler.oneLine {line : List Char} (h : Filler line) : '\n' ∉ line := by
  cases h with
  | blank hindent => exact hindent.oneLine
  | comment hindent htext => simp [hindent.oneLine, htext]

theorem oneLine_named {indent body tail : List Char} {name : String} (hindent : IsIndent indent)
    (hname : isParameterName name.toList = true) (hbody : '\n' ∉ body) (htail : Tail tail) :
    '\n' ∉ named indent name body tail := by
  have hname' := (isWritten_of_isParameterName hname).oneLine
  simp [named, hindent.oneLine, hname', hbody, htail.oneLine]

theorem oneLine_literalText {v : Literal} (h : IsWritable v) : '\n' ∉ literalText v := by
  have hplain {w : List Char} (hw : IsToken w) : '\n' ∉ w := fun hmem => by
    have := (hw.plain _ hmem).1
    revert this
    decide
  cases h with
  | bool b => exact hplain (isToken_bool b)
  | int i => exact hplain (isToken_int i)
  | string _ hline => simpa [literalText] using hline

theorem oneLine_literals {vs : List Literal} (h : ∀ v ∈ vs, IsWritable v) :
    '\n' ∉ [' '].intercalate (vs.map literalText) := by
  intro hmem
  rcases Text.mem_intercalate hmem with heq | ⟨w, hw, hmem⟩
  · revert heq
    decide
  · obtain ⟨v, hv, rfl⟩ := List.mem_map.mp hw
    exact oneLine_literalText (h v hv) hmem

theorem oneLine_concat {lines : List (List Char)} {last : List Char}
    (hlines : ∀ line ∈ lines, '\n' ∉ line) (hlast : '\n' ∉ last) :
    ∀ line ∈ lines ++ [last], '\n' ∉ line := by
  intro line hline
  rcases List.mem_append.mp hline with hline | hline
  · exact hlines line hline
  · rw [List.mem_singleton.mp hline]
    exact hlast

theorem Written.oneLine {rows : List (String × Values Content)} {n : Nat} {lines : List (List Char)}
    (h : Written rows n lines) : ∀ line ∈ lines, '\n' ∉ line := by
  induction h with
  | empty => simp
  | filler _ hline ih => exact oneLine_concat ih hline.oneLine
  | values _ hindent htail hname _ _ hvs ih =>
    exact oneLine_concat ih
      (oneLine_named hindent hname.isParameterName (oneLine_literals hvs) htail)
  | file _ hindent htail hname _ hpath ih =>
    exact oneLine_concat ih
      (oneLine_named hindent hname.isParameterName (by simpa using hpath.oneLine) htail)
  | @block _ _ _ _ _ _ indent tail _ _ name _ _ _ hindent htail hindent' htail' hname _ ih ihinner =>
    refine oneLine_concat (fun line hline => ?_) (by simp [hindent'.oneLine, htail'.oneLine])
    rcases List.mem_append.mp hline with hline | hline
    · have hopening : '\n' ∉ named indent name ['\x7b'] tail :=
        oneLine_named hindent hname.isParameterName (by decide) htail
      exact oneLine_concat ih hopening line hline
    · exact ihinner line hline

theorem statements_textOf {lines : List (List Char)} (h : ∀ line ∈ lines, '\n' ∉ line) :
    statements (linesOfText (textOf lines)) = statementsFrom 1 none (given lines) := by
  rcases linesOfText_textOf h with heq | heq
  · rw [heq, statements]
  · rw [heq, statementsFrom_append_empty, statements]

/-- In either mode, a document is carried out on an empty policy without a fault. -/
theorem run_of_written {rows : List (String × Values Content)} {n : Nat} {lines : List (List Char)}
    (h : Written rows n lines) {s : Store} {p : Policy} (hp : p.id < s.size)
    (hempty : s.node p = {}) (parser : Parser) :
    ∃ s', run { policy := p } [] (statements (linesOfText (textOf lines))) ⟨s, parser⟩ =
        .ok ⟨n, none⟩ ⟨s', parser⟩ ∧
      s'.content p = .node rows ∧ ∀ q : Policy, q.id < s.size → q ≠ p → s'.node q = s.node q := by
  obtain ⟨s', hbuilt, hrun⟩ := reads_of_written h 1 [] { policy := p } [] s parser hp hempty
  rw [List.append_nil] at hrun
  refine ⟨s', ?_, ?_, hbuilt.frame⟩
  · rw [statements_textOf h.oneLine, hrun]
    show EStateM.Result.ok (Outcome.mk (0 + n) none) _ = _
    rw [Nat.zero_add]
  · obtain ⟨depth, hdepth⟩ : ∃ depth, s'.size = depth + 1 := by
      have := hbuilt.size_le
      exact ⟨s'.size - 1, by omega⟩
    rw [Store.content_eq, hdepth, Store.contentTo_succ, hbuilt.rows depth (by omega)]

/-- A strict parser reads every text that a document can be written as into an empty policy without
a fault. It answers the number of parameters, what it has built is the document, and every other
policy is left as it was. -/
theorem parse_builds_written_document {rows : List (String × Values Content)} {n : Nat}
    {lines : List (List Char)} (h : Written rows n lines) {s : Store} {p : Policy}
    (hp : p.id < s.size) (hempty : s.node p = {}) :
    ∃ s', parse p (linesOfText (textOf lines)) ⟨s, { strict := true }⟩ =
        .ok n ⟨s', { strict := true }⟩ ∧
      s'.content p = .node rows ∧ ∀ q : Policy, q.id < s.size → q ≠ p → s'.node q = s.node q := by
  obtain ⟨s', hrun, hcontent, hframe⟩ := run_of_written h hp hempty { strict := true }
  exact ⟨s', (bind_of_run hrun).trans rfl, hcontent, hframe⟩

/-- A block with a comment in it, between an empty line and two truth values. -/
theorem parse_builds_nested_document :
    ∃ s' : Store, parse ⟨0⟩
        (linesOfText "\nserver: \x7b\n\tname: \"a b\" # who\n\x7d\non: true false")
        ⟨⟨#[{}]⟩, { strict := true }⟩ = .ok 3 ⟨s', { strict := true }⟩ ∧
      s'.content ⟨0⟩ = .node [("on", .bools [true, false]),
        ("server", .policies [.node [("name", .strings ["a b"])]])] ∧
      ∀ q : Policy, q.id < 1 → q ≠ ⟨0⟩ → s'.node q = (⟨#[{}]⟩ : Store).node q := by
  have hindent : IsIndent [] := by
    simp [IsIndent]
  have hinner : Written [("name", .strings ["a b"])] 1 ["\tname: \"a b\" # who".toList] :=
    @Written.values [] 0 [] ['\t'] " # who".toList "name" (.strings ["a b"]) .empty
      (by simp [IsIndent]) (.comment (by decide)) (by decide) rfl (by simp [Values.toList])
      (by simpa [Values.toList] using IsWritable.string (by decide) (by decide))
  have hblock : Written [("server", .policies [.node [("name", .strings ["a b"])]])] 2
      [[], "server: \x7b".toList, "\tname: \"a b\" # who".toList, "\x7d".toList] :=
    @Written.block [] _ 0 1 [[]] _ [] [] [] [] "server" [] (.filler .empty (.blank hindent)) hinner
      hindent .none hindent .none (by decide) rfl
  have hwritten := @Written.values _ _ _ [] [] "on" (.bools [true, false]) hblock hindent .none
    (by decide) (by decide) (by simp [Values.toList]) (by simp [Values.toList, IsWritable.bool])
  exact parse_builds_written_document hwritten (s := ⟨#[{}]⟩) (p := ⟨0⟩) (by decide) rfl

end PolicyStore.Paf
