import PolicyStore.Proofs.Paf.Leniency
import PolicyStore.Proofs.Paf.Reading

set_option autoImplicit false

namespace PolicyStore.Paf

/-!
# Lines of a document

A document is read line by line: no line of it has a fault or leaves a string open, and as many
blocks are opened as are closed. Without the line of one of its values it is a document still.
-/

/-! ## Arrays of a document with less in it -/

/-- Under each name there is nothing in the second table, or values of the same kind in both. -/
def Thinner (rows rows' : List (String × Values Content)) : Prop :=
  ∀ name, Table.get? name rows' = none ∨ ∃ vs vs', Table.get? name rows = some vs ∧
    Table.get? name rows' = some vs' ∧ vs'.kind = vs.kind

namespace Thinner

variable {rows rows' : List (String × Values Content)} {name : String} {vs : Values Content}

theorem refl (rows : List (String × Values Content)) : Thinner rows rows := by
  intro name
  cases hget : Table.get? name rows with
  | none => exact Or.inl rfl
  | some vs => exact Or.inr ⟨vs, vs, rfl, rfl, rfl⟩

theorem insert (h : Thinner rows rows') (name : String) (vs vs' : Values Content)
    (hkind : vs'.kind = vs.kind) :
    Thinner (Table.insert name vs rows) (Table.insert name vs' rows') := by
  intro other
  by_cases hother : other = name
  · subst hother
    exact Or.inr ⟨vs, vs', Table.get?_insert_self _ _ _, Table.get?_insert_self _ _ _, hkind⟩
  · rw [Table.get?_insert_of_ne hother, Table.get?_insert_of_ne hother]
    exact h other

/-- What is added last may be left out. -/
theorem of_insert (h : ((Table.get? name rows).getD (.empty vs.kind)).kind = vs.kind) :
    Thinner (Table.insert name vs rows) rows := by
  intro other
  by_cases hother : other = name
  · subst hother
    cases hget : Table.get? other rows with
    | none => exact Or.inl rfl
    | some ws =>
      rw [hget] at h
      exact Or.inr ⟨vs, ws, Table.get?_insert_self _ _ _, rfl, h⟩
  · rw [Table.get?_insert_of_ne hother]
    exact refl rows other

theorem get?_eq_none (h : Thinner rows rows') (hnone : Table.get? name rows = none) :
    Table.get? name rows' = none := by
  rcases h name with hnone' | ⟨vs, _, hsome, _⟩
  · exact hnone'
  · rw [hnone] at hsome
    cases hsome

theorem kind_getD (h : Thinner rows rows') (kind : Kind)
    (hkind : ((Table.get? name rows).getD (.empty kind)).kind = kind) :
    ((Table.get? name rows').getD (.empty kind)).kind = kind := by
  rcases h name with hnone | ⟨vs, vs', hget, hget', hsame⟩
  · rw [hnone]
    cases kind <;> rfl
  · rw [hget] at hkind
    rw [hget']
    exact hsame.trans hkind

theorem files (h : Thinner rows rows') {earlier : List FileRef}
    (hfiles : (Table.get? name rows).getD (.files []) = .files earlier) :
    ∃ earlier', (Table.get? name rows').getD (.files []) = .files earlier' := by
  have hkind : ((Table.get? name rows').getD (.files [])).kind = .file :=
    h.kind_getD .file (congrArg Values.kind hfiles)
  cases hget : (Table.get? name rows').getD (.files []) with
  | files earlier' => exact ⟨earlier', rfl⟩
  | _ =>
    rw [hget] at hkind
    cases hkind

theorem policies (h : Thinner rows rows') {earlier : List Content}
    (hpolicies : (Table.get? name rows).getD (.policies []) = .policies earlier) :
    ∃ earlier', (Table.get? name rows').getD (.policies []) = .policies earlier' := by
  have hkind : ((Table.get? name rows').getD (.policies [])).kind = .policy :=
    h.kind_getD .policy (congrArg Values.kind hpolicies)
  cases hget : (Table.get? name rows').getD (.policies []) with
  | policies earlier' => exact ⟨earlier', rfl⟩
  | _ =>
    rw [hget] at hkind
    cases hkind

end Thinner

/-! ## Lines without one of them -/

theorem exists_of_append_eq_append_cons {α : Type} {xs ys before after : List α} {x : α}
    (h : xs ++ ys = before ++ x :: after) :
    (∃ middle, before = xs ++ middle ∧ ys = middle ++ x :: after) ∨
      ∃ middle, xs = before ++ x :: middle ∧ after = middle ++ ys := by
  rcases List.append_eq_append_iff.mp h with ⟨middle, hbefore, hys⟩ | ⟨middle, hxs, hcons⟩
  · exact Or.inl ⟨middle, hbefore, hys⟩
  · cases middle with
    | nil => exact Or.inl ⟨[], by simpa using hxs.symm, hcons.symm⟩
    | cons y middle =>
      obtain ⟨rfl, rfl⟩ := List.cons.inj hcons
      exact Or.inr ⟨middle, hxs, rfl⟩

theorem eq_of_singleton_eq_append_cons {α : Type} {y x : α} {before after : List α}
    (h : [y] = before ++ x :: after) : before = [] ∧ y = x ∧ after = [] := by
  cases before with
  | nil =>
    obtain ⟨rfl, rfl⟩ := List.cons.inj h
    exact ⟨rfl, rfl, rfl⟩
  | cons z before =>
    obtain ⟨-, hnil⟩ := List.cons.inj h
    simp at hnil

section Lines

variable {indent indent' tail rest line : List Char} {name : List Char}

theorem filler_ne_written (hline : Filler line) (hindent : IsIndent indent)
    (hname : IsWritten name) (rest : List Char) : line ≠ indent ++ (name ++ ':' :: rest) := by
  rintro rfl
  have htrim := trimStart_written hindent hname rest
  obtain ⟨c, cs, hcs⟩ := List.exists_cons_of_ne_nil hname.nonempty
  generalize indent ++ (name ++ ':' :: rest) = written at hline htrim
  cases hline with
  | blank hblank =>
    rw [Text.trimStart_eq_nil_of_blank (blank_of_indent hblank), hcs] at htrim
    cases htrim
  | @comment indent' text hindent' htext =>
    have hsharp : Text.trimStart (indent' ++ '#' :: text) = '#' :: text :=
      Text.trimStart_append_of_blank (blank_of_indent hindent') _
    rw [hsharp, hcs] at htrim
    obtain ⟨rfl, -⟩ := List.cons.inj htrim
    exact (hname.first '#' (by rw [hcs]; rfl)).1 rfl

theorem closing_ne_written (hindent' : IsIndent indent') (hindent : IsIndent indent)
    (hname : IsWritten name) (rest : List Char) :
    indent' ++ '\x7d' :: tail ≠ indent ++ (name ++ ':' :: rest) := by
  intro heq
  have htrim := trimStart_written hindent hname rest
  obtain ⟨c, cs, hcs⟩ := List.exists_cons_of_ne_nil hname.nonempty
  have hbrace : Text.trimStart (indent' ++ '\x7d' :: tail) = '\x7d' :: tail :=
    Text.trimStart_append_of_blank (blank_of_indent hindent') _
  rw [← heq, hbrace, hcs] at htrim
  obtain ⟨rfl, -⟩ := List.cons.inj htrim
  exact (hname.first '\x7d' (by rw [hcs]; rfl)).2 rfl

/-- The text behind the colon of a line is all of it. -/
theorem rest_of_named {body : List Char} {label : String} (hindent' : IsIndent indent')
    (hlabel : IsName label) (hindent : IsIndent indent) (hname : IsWritten name)
    (h : named indent' label body tail = indent ++ (name ++ ':' :: rest)) :
    name = label.toList ∧ rest = ' ' :: (body ++ tail) := by
  have hlabel' := isWritten_of_isParameterName hlabel.isParameterName
  have hsplit := splitParameter?_append hname rest
  rw [← trimStart_written hindent hname, ← h, named, trimStart_written hindent' hlabel',
    splitParameter?_append hlabel'] at hsplit
  cases hsplit
  exact ⟨rfl, rfl⟩

end Lines

theorem Written.fillers {rows : List (String × Values Content)} {n : Nat}
    {lines fill : List (List Char)} (h : Written rows n lines) (hfill : ∀ line ∈ fill, Filler line) :
    Written rows n (lines ++ fill) := by
  induction fill using List.reverseRecOn with
  | nil => rwa [List.append_nil]
  | append_singleton fill line ih =>
    rw [← List.append_assoc]
    exact .filler (ih fun other hother => hfill other (by simp [hother])) (hfill line (by simp))

/-- The line of a value may be deleted, or lines without content may stand in its place. -/
theorem Written.delete {rows : List (String × Values Content)} {n : Nat} {lines : List (List Char)}
    (h : Written rows n lines) : ∀ {before after : List (List Char)} {indent name rest : List Char},
      lines = before ++ (indent ++ (name ++ ':' :: rest)) :: after → IsIndent indent →
      IsWritten name → (Text.trimStart rest).head? ≠ some '\x7b' →
      ∃ rows' n', Thinner rows rows' ∧ ∀ fill : List (List Char), (∀ line ∈ fill, Filler line) →
        Written rows' n' (before ++ fill ++ after) := by
  induction h with
  | empty =>
    intro before after indent name rest hlines
    simp at hlines
  | @filler rows n lines line h hline ih =>
    intro before after indent name rest hlines hindent hname hscalar
    rcases exists_of_append_eq_append_cons hlines with ⟨middle, rfl, hlast⟩ | ⟨middle, hrest, rfl⟩
    · obtain ⟨-, hsame, -⟩ := eq_of_singleton_eq_append_cons hlast
      exact (filler_ne_written hline hindent hname rest hsame).elim
    · obtain ⟨rows', n', hthin, hall⟩ := ih hrest hindent hname hscalar
      refine ⟨rows', n', hthin, fun fill hfill => ?_⟩
      rw [← List.append_assoc]
      exact .filler (hall fill hfill) hline
  | @values rows n lines indent' tail label vs h hindent' htail hlabel habsent hne hvs ih =>
    intro before after indent name rest hlines hindent hname hscalar
    rcases exists_of_append_eq_append_cons hlines with ⟨middle, rfl, hlast⟩ | ⟨middle, hrest, rfl⟩
    · obtain ⟨rfl, -, rfl⟩ := eq_of_singleton_eq_append_cons hlast
      refine ⟨rows, n, .of_insert ?_, fun fill hfill => ?_⟩
      · rw [habsent]
        cases vs <;> rfl
      · rw [List.append_nil, List.append_nil]
        exact h.fillers hfill
    · obtain ⟨rows', n', hthin, hall⟩ := ih hrest hindent hname hscalar
      refine ⟨_, n' + 1, hthin.insert label _ _ rfl, fun fill hfill => ?_⟩
      rw [← List.append_assoc]
      exact .values (hall fill hfill) hindent' htail hlabel (hthin.get?_eq_none habsent) hne hvs
  | @file rows n lines indent' tail label path earlier h hindent' htail hlabel hearlier hpath ih =>
    intro before after indent name rest hlines hindent hname hscalar
    rcases exists_of_append_eq_append_cons hlines with ⟨middle, rfl, hlast⟩ | ⟨middle, hrest, rfl⟩
    · obtain ⟨rfl, -, rfl⟩ := eq_of_singleton_eq_append_cons hlast
      refine ⟨rows, n, .of_insert ?_, fun fill hfill => ?_⟩
      · show ((Table.get? label rows).getD (.files [])).kind = _
        rw [hearlier]
        rfl
      · rw [List.append_nil, List.append_nil]
        exact h.fillers hfill
    · obtain ⟨rows', n', hthin, hall⟩ := ih hrest hindent hname hscalar
      obtain ⟨earlier', hearlier'⟩ := hthin.files hearlier
      refine ⟨_, n' + 1, hthin.insert label _ (.files (earlier' ++ [⟨path, none⟩])) rfl,
        fun fill hfill => ?_⟩
      rw [← List.append_assoc]
      exact .file (hall fill hfill) hindent' htail hlabel hearlier' hpath
  | @block rows inner n m lines body indent' tail indent'' tail' label earlier h hinner hindent'
      htail hindent'' htail' hlabel hearlier ih ihinner =>
    intro before after indent name rest hlines hindent hname hscalar
    rcases exists_of_append_eq_append_cons hlines with ⟨middle, rfl, hlast⟩ | ⟨closing, hopen, rfl⟩
    · obtain ⟨-, hsame, -⟩ := eq_of_singleton_eq_append_cons hlast
      exact (closing_ne_written hindent'' hindent hname rest hsame).elim
    rcases exists_of_append_eq_append_cons hopen with ⟨middle, rfl, hbody⟩ | ⟨behind, houtside, rfl⟩
    · obtain ⟨inner', m', -, hall⟩ := ihinner hbody hindent hname hscalar
      refine ⟨_, n + (1 + m'), (Thinner.refl rows).insert label _
        (.policies (earlier ++ [.node inner'])) rfl, fun fill hfill => ?_⟩
      have hblock := Written.block h (hall fill hfill) hindent' htail hindent'' htail' hlabel hearlier
      simpa [List.append_assoc] using hblock
    rcases exists_of_append_eq_append_cons houtside with ⟨middle, rfl, hfirst⟩ | ⟨middle, hrest, rfl⟩
    · obtain ⟨-, hsame, -⟩ := eq_of_singleton_eq_append_cons hfirst
      rw [(rest_of_named hindent' hlabel hindent hname hsame).2] at hscalar
      exact (hscalar rfl).elim
    · obtain ⟨rows', n', hthin, hall⟩ := ih hrest hindent hname hscalar
      obtain ⟨earlier', hearlier'⟩ := hthin.policies hearlier
      refine ⟨_, n' + (1 + m), hthin.insert label _ (.policies (earlier' ++ [.node inner])) rfl,
        fun fill hfill => ?_⟩
      have hblock := Written.block (hall fill hfill) hinner hindent' htail hindent'' htail' hlabel
        hearlier'
      simpa [List.append_assoc] using hblock

/-! ## What the lines are read as -/

/-- A statement that can be carried out, whatever the policy holds. -/
structure Statement.IsSound (s : Statement) : Prop where
  faultless : s.faults = []
  storable : ∀ name ∈ s.names, isUnstorable name = false
  readable : s ≠ .unreadable

/-- Each line is read by itself and without a fault. -/
def Sound (lines : List (List Char)) : Prop :=
  ∀ line ∈ lines, ∀ k, ∃ found, scan k (chomp line) = (found, none) ∧ ∀ s ∈ found, s.IsSound

theorem Sound.append {lines others : List (List Char)} (h : Sound lines) (h' : Sound others) :
    Sound (lines ++ others) := by
  intro line hline
  rcases List.mem_append.mp hline with hline | hline
  · exact h line hline
  · exact h' line hline

theorem Sound.singleton {line : List Char} {found : Nat → List Statement}
    (hscan : ∀ k, scan k (chomp line) = (found k, none)) (h : ∀ k, ∀ s ∈ found k, s.IsSound) :
    Sound [line] := by
  intro other hother k
  rw [List.mem_singleton.mp hother]
  exact ⟨found k, hscan k, h k⟩

theorem IsName.isUnstorable {name : String} (h : IsName name) : isUnstorable name = false := by
  have hsegments := h.segments
  rw [Name.segments] at hsegments
  cases hname : Name.segments? name with
  | none =>
    rw [hname] at hsegments
    cases hsegments
  | some parts => rw [Paf.isUnstorable, hname, Option.isNone_some]

theorem isSound_values {name : String} (h : IsName name) (k : Nat) (vs : List Literal) :
    (Statement.values name (vs.map (.value k))).IsSound := by
  refine ⟨?_, fun other hother => ?_, by simp⟩
  · rw [Statement.faults, List.filterMap_map]
    exact List.filterMap_eq_nil_iff.mpr fun v _ => rfl
  · obtain ⟨_, -, rfl⟩ := List.mem_map.mp hother
    exact h.isUnstorable

theorem Written.sound {rows : List (String × Values Content)} {n : Nat} {lines : List (List Char)}
    (h : Written rows n lines) : Sound lines := by
  induction h with
  | empty => exact fun line hline => by cases hline
  | filler _ hline ih => exact ih.append (.singleton (fun k => scan_filler hline) (by simp))
  | @values rows n lines indent tail name vs _ hindent htail hname _ hne hvs ih =>
    refine ih.append (.singleton
      (fun k => scan_values hindent htail hname.isParameterName hne hvs) fun k s hs => ?_)
    rw [List.mem_singleton.mp hs]
    exact isSound_values hname k vs.toList
  | @file rows n lines indent tail name path earlier _ hindent htail hname _ hpath ih =>
    refine ih.append (.singleton
      (fun k => scan_file hindent htail hname.isParameterName hpath) fun k s hs => ?_)
    rw [List.mem_singleton.mp hs]
    exact isSound_values hname k [.file ⟨path, none⟩]
  | block _ _ hindent htail hindent' htail' hname _ ih ihinner =>
    refine ((ih.append (.singleton
      (fun k => scan_opening hindent htail hname.isParameterName) fun k s hs => ?_)).append
        ihinner).append fun line hline k => ?_
    · rw [List.mem_singleton.mp hs]
      refine ⟨rfl, fun other hother => ?_, by simp⟩
      rw [List.mem_singleton.mp hother]
      exact hname.isUnstorable
    · obtain ⟨followed, hscan⟩ := scan_closing (n := k) hindent' htail'
      rw [List.mem_singleton.mp hline]
      refine ⟨_, hscan, fun s hs => ?_⟩
      rw [List.mem_singleton.mp hs]
      exact ⟨rfl, by simp [Statement.names], by simp⟩

/-- Sound lines give their statements whatever comes after them. -/
theorem Sound.exists_statements {lines : List (List Char)} (h : Sound lines) :
    ∀ k, ∃ found : List Statement, (∀ s ∈ found, s.IsSound) ∧ ∀ more : List Line,
      statementsFrom k none (given lines ++ more) =
        found ++ statementsFrom (k + lines.length) none more := by
  induction lines with
  | nil => exact fun k => ⟨[], by simp, fun more => rfl⟩
  | cons line lines ih =>
    intro k
    obtain ⟨first, hscan, hfirst⟩ := h line List.mem_cons_self k
    obtain ⟨others, hothers, hrest⟩ := ih (fun l hl => h l (List.mem_cons_of_mem _ hl)) (k + 1)
    refine ⟨first ++ others, fun s hs => ?_, fun more => ?_⟩
    · rcases List.mem_append.mp hs with hs | hs
      · exact hfirst s hs
      · exact hothers s hs
    · have hcons : given (line :: lines) ++ more = given [line] ++ (given lines ++ more) := rfl
      rw [hcons, statementsFrom_of_scan hscan, hrest, List.append_assoc, List.length_cons,
        Nat.add_assoc, Nat.add_comm 1]

/-- A line with an opening brace behind its colon is the first line of a block. -/
theorem Written.scan_of_brace {rows : List (String × Values Content)} {n : Nat}
    {lines : List (List Char)} (h : Written rows n lines) {indent name rest : List Char}
    (hindent : IsIndent indent) (hname : IsWritten name)
    (hbrace : (Text.trimStart rest).head? = some '\x7b')
    (hmem : indent ++ (name ++ ':' :: rest) ∈ lines) (k : Nat) :
    scan k (chomp (indent ++ (name ++ ':' :: rest))) =
      ([.opening k (String.ofList name)], none) := by
  induction h with
  | empty => cases hmem
  | filler _ hline ih =>
    rcases List.mem_append.mp hmem with hmem | hmem
    · exact ih hmem
    · exact (filler_ne_written hline hindent hname rest (List.mem_singleton.mp hmem).symm).elim
  | @values rows n lines indent' tail label vs _ hindent' _ hlabel _ hne hvs ih =>
    rcases List.mem_append.mp hmem with hmem | hmem
    · exact ih hmem
    · obtain ⟨-, hrest⟩ :=
        rest_of_named hindent' hlabel hindent hname (List.mem_singleton.mp hmem).symm
      obtain ⟨v, vs', hlist⟩ := List.exists_cons_of_ne_nil hne
      obtain ⟨⟨c, cs, hc, hblank, hopen⟩, -⟩ := exists_literalText (hvs v (by simp [hlist]))
      obtain ⟨after, hafter, -⟩ := Text.intercalate_cons ' ' (literalText v) (vs'.map literalText)
      rw [hrest, hlist, List.map_cons, hafter, hc] at hbrace
      have htrim : Text.trimStart (' ' :: (c :: cs ++ after ++ tail)) = c :: (cs ++ after ++ tail) :=
        Text.trimStart_cons_of_not_blank hblank _
      rw [htrim] at hbrace
      exact (hopen (Option.some.inj hbrace)).elim
  | file _ hindent' _ hlabel _ _ ih =>
    rcases List.mem_append.mp hmem with hmem | hmem
    · exact ih hmem
    · obtain ⟨-, hrest⟩ :=
        rest_of_named hindent' hlabel hindent hname (List.mem_singleton.mp hmem).symm
      rw [hrest] at hbrace
      cases hbrace
  | block _ _ hindent' htail hindent'' _ hlabel _ ih ihinner =>
    rcases List.mem_append.mp hmem with hmem | hmem
    · rcases List.mem_append.mp hmem with hmem | hmem
      · rcases List.mem_append.mp hmem with hmem | hmem
        · exact ih hmem
        · have hsame := List.mem_singleton.mp hmem
          obtain ⟨rfl, -⟩ := rest_of_named hindent' hlabel hindent hname hsame.symm
          rw [hsame, String.ofList_toList]
          exact scan_opening hindent' htail hlabel.isParameterName
      · exact ihinner hmem
    · exact (closing_ne_written hindent'' hindent hname rest (List.mem_singleton.mp hmem).symm).elim

/-! ## Blocks that are opened and closed -/

def Statement.isOpening : Statement → Bool
  | .opening _ _ => true
  | _ => false

def Statement.isClosing : Statement → Bool
  | .closing _ _ => true
  | _ => false

/-- As many blocks are closed as are opened. -/
def Level (found : List Statement) : Prop :=
  found.countP Statement.isOpening = found.countP Statement.isClosing

theorem Level.append {found others : List Statement} (h : Level found) (h' : Level others) :
    Level (found ++ others) := by
  unfold Level at h h' ⊢
  rw [List.countP_append, List.countP_append, h, h']

theorem Written.level {rows : List (String × Values Content)} {n : Nat} {lines : List (List Char)}
    (h : Written rows n lines) : ∀ (k : Nat) (more : List Line), ∃ found, Level found ∧
      statementsFrom k none (given lines ++ more) =
        found ++ statementsFrom (k + lines.length) none more := by
  induction h with
  | empty => exact fun k more => ⟨[], rfl, rfl⟩
  | @filler rows n lines line _ hline ih =>
    intro k more
    obtain ⟨found, hlevel, hfound⟩ := ih k (given [line] ++ more)
    refine ⟨found, hlevel, ?_⟩
    rw [given_append, List.append_assoc, hfound, statementsFrom_of_scan (scan_filler hline),
      List.length_append, List.nil_append, Nat.add_assoc]
    rfl
  | @values rows n lines indent tail name vs _ hindent htail hname _ hne hvs ih =>
    intro k more
    obtain ⟨found, hlevel, hfound⟩ := ih k (given [_] ++ more)
    refine ⟨found ++ [.values name (vs.toList.map (.value (k + lines.length)))],
      hlevel.append (by rfl), ?_⟩
    rw [given_append, List.append_assoc, hfound,
      statementsFrom_of_scan (scan_values hindent htail hname.isParameterName hne hvs),
      List.length_append, List.append_assoc, Nat.add_assoc]
    rfl
  | @file rows n lines indent tail name path earlier _ hindent htail hname _ hpath ih =>
    intro k more
    obtain ⟨found, hlevel, hfound⟩ := ih k (given [_] ++ more)
    refine ⟨found ++ [.values name [.value (k + lines.length) (.file ⟨path, none⟩)]],
      hlevel.append (by rfl), ?_⟩
    rw [given_append, List.append_assoc, hfound,
      statementsFrom_of_scan (scan_file hindent htail hname.isParameterName hpath),
      List.length_append, List.append_assoc, Nat.add_assoc]
    rfl
  | @block rows inner n m lines body indent tail indent' tail' name earlier _ _ hindent htail
      hindent' htail' hname _ ih ihinner =>
    intro k more
    obtain ⟨found, hlevel, hfound⟩ := ih k (given [_] ++ (given body ++ (given [_] ++ more)))
    obtain ⟨inside, hlevel', hinside⟩ := ihinner (k + lines.length + 1) (given [_] ++ more)
    obtain ⟨followed, hclosing⟩ :=
      scan_closing (n := k + lines.length + 1 + body.length) hindent' htail'
    refine ⟨found ++ (.opening (k + lines.length) name :: (inside ++
      [.closing (k + lines.length + 1 + body.length) followed])), hlevel.append ?_, ?_⟩
    · have hinner : inside.countP Statement.isOpening = inside.countP Statement.isClosing := hlevel'
      simp only [Level, List.countP_cons, List.countP_append, List.countP_nil, hinner]
      simp [Statement.isOpening, Statement.isClosing]
    · rw [given_append, given_append, given_append, List.append_assoc, List.append_assoc,
        List.append_assoc, hfound,
        statementsFrom_of_scan (scan_opening hindent htail hname.isParameterName), hinside,
        statementsFrom_of_scan hclosing]
      have hlength : k + (lines ++ [named indent name ['\x7b'] tail] ++ body ++
          [indent' ++ '\x7d' :: tail']).length = k + lines.length + 1 + body.length + 1 := by
        simp
        omega
      rw [hlength]
      simp [List.append_assoc]

theorem Written.level_statements {rows : List (String × Values Content)} {n : Nat}
    {lines : List (List Char)} (h : Written rows n lines) :
    Level (statements (linesOfText (textOf lines))) := by
  obtain ⟨found, hlevel, hfound⟩ := h.level 1 []
  rw [List.append_nil, statementsFrom, List.append_nil] at hfound
  rwa [statements_textOf h.oneLine, hfound]

end PolicyStore.Paf
