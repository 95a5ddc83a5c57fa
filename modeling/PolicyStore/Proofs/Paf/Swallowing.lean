import PolicyStore.Proofs.Paf.Extending
import PolicyStore.Proofs.Paf.Mirroring
import PolicyStore.Proofs.Paf.Nesting
import PolicyStore.Proofs.Store.Keys

set_option autoImplicit false

namespace PolicyStore.Paf

/-!
# Blocks that are dropped

A block whose name holds other values already has no place in its policy. A lenient parser notes
this, reads the block to its end and forgets it, so that the text goes on as if it were not there.
-/

variable {t u w : Session}

/-! ## Accepted statements in a block that is dropped -/

/-- The session when the parser is lenient. -/
def Session.leniently (t : Session) : Session :=
  { t with parser := { t.parser with strict := false } }

/-- What a strict parser accepts, a lenient one accepts in the same way. -/
theorem leniently_of_ok {α : Type} {m : ParseM α} (hm : Strictable m) {a : α}
    (ht : t.parser.strict = true) (h : m t = .ok a u) : m t.leniently = .ok a u.leniently := by
  obtain ⟨hstrict, -, noted, -, hstops⟩ := hm t.leniently rfl
  have hsame : t.leniently.strictly = t := by
    obtain ⟨s, strict, depth, diagnostics⟩ := t
    cases (show strict = true from ht)
    rfl
  have hanswer : answer m t = .ok a := by
    rw [answer, h]
  cases noted with
  | nil =>
    obtain ⟨hends, hafter⟩ := hstops
    rw [hsame] at hends hafter
    rw [ok_of_answer (hends.symm.trans hanswer), ← after_of_run h, hafter]
    generalize after m t.leniently = v at hstrict
    obtain ⟨s, strict, depth, diagnostics⟩ := v
    cases (show strict = false from hstrict)
    rfl
  | cons first rest =>
    change answer m t.leniently.strictly = _ at hstops
    rw [hsame, hanswer] at hstops
    cases hstops

/-- Whether blocks are dropped or not, statements that are accepted among them come to an end, with
other blocks around them and other statements after them. Only the count may be another. -/
theorem exists_run_of_accepted (statements : List Statement) : ∀ (inner : Block)
    (outer : List Block) {t : Session} {o : Outcome}, t.parser.strict = true →
      t.parser.depth = outer.length → run inner outer statements t = .ok o u →
      u.parser.depth = 0 → ∀ (inner' : Block) (outer' : List Block),
        inner'.policy = inner.policy → outer'.map Block.policy = outer.map Block.policy →
        ∃ count, ∀ (below : List Block) (more : List Statement),
          run inner' (outer' ++ below) (statements ++ more) (t.deeper below.length).leniently =
            run { inner'.bottom outer' with count := count } below more
              (u.deeper below.length).leniently := by
  induction statements with
  | nil =>
    intro inner outer t o _ hdepth h hu inner' outer' _ houter
    cases h
    obtain rfl : outer = [] := List.eq_nil_of_length_eq_zero (hdepth ▸ hu)
    obtain rfl : outer' = [] := List.map_eq_nil_iff.mp houter
    exact ⟨inner'.count, fun below more => rfl⟩
  | cons statement rest ih =>
    intro inner outer t o ht hdepth h hu inner' outer' hinner houter
    cases statement with
    | fault e =>
      obtain ⟨_, _, hreport, -⟩ := ok_of_bind h
      rw [report_of_strict ht] at hreport
      cases hreport
    | values name items =>
      obtain ⟨added, t₁, hitems, h⟩ := ok_of_bind h
      obtain ⟨-, ht₁⟩ := eq_of_addItems items ht hitems
      obtain ⟨count, hrun⟩ := ih _ outer (ht₁ ▸ ht) (ht₁ ▸ hdepth) h hu
        { inner' with count := inner'.count + if added then 1 else 0 } outer' hinner houter
      refine ⟨count, fun below more => ?_⟩
      have hdeeper : addItems inner'.policy name items (t.deeper below.length).leniently =
          .ok added (t₁.deeper below.length).leniently := by
        refine leniently_of_ok (strictable_addItems _ _ _) ht ?_
        rw [hinner, depthBlind_addItems, hitems, raised]
      refine (bind_of_run hdeeper).trans ((hrun below more).trans ?_)
      rw [Block.bottom_count]
    | opening line name =>
      rw [run_opening_eq] at h
      obtain ⟨attached, t₁, hadd, h⟩ := ok_of_bind h
      obtain ⟨-, ht₁⟩ := eq_of_addValue (t := t.opened) ht hadd
      have hdepth₁ : t₁.parser.depth = (inner :: outer).length := by
        rw [ht₁, List.length_cons, ← hdepth]
        rfl
      obtain ⟨count, hrun⟩ := ih _ (inner :: outer) (by rw [ht₁]; exact ht) hdepth₁ h hu
        { policy := ⟨t.store.size⟩, attached := attached } (inner' :: outer') rfl
        (by rw [List.map_cons, List.map_cons, hinner, houter])
      refine ⟨count, fun below more => ?_⟩
      have hopened : (t.deeper below.length).leniently.opened =
          (t.opened.deeper below.length).leniently := by
        simp only [Session.leniently, Session.opened, Session.deeper, Nat.add_right_comm]
      have hdeeper : addValue inner'.policy name line (.policy ⟨t.store.size⟩)
          (t.opened.deeper below.length).leniently =
            .ok attached (t₁.deeper below.length).leniently := by
        refine leniently_of_ok (strictable_addValue _ _ _ _) ht ?_
        rw [hinner, depthBlind_addValue, hadd, raised]
      rw [List.cons_append, run_opening_eq, hopened]
      exact (bind_of_run hdeeper).trans (hrun below more)
    | closing line followed =>
      cases outer with
      | nil =>
        rw [run_closing_of_unmatched hdepth] at h
        obtain ⟨_, _, hreport, -⟩ := ok_of_bind h
        rw [report_of_strict ht] at hreport
        cases hreport
      | cons enclosing others =>
        obtain ⟨enclosing', others', rfl⟩ : ∃ b bs, outer' = b :: bs := by
          refine List.exists_cons_of_ne_nil fun hnil => ?_
          rw [hnil] at houter
          cases houter
        rw [List.map_cons, List.map_cons, List.cons.injEq] at houter
        have hopen : t.parser.depth ≠ 0 := by
          rw [hdepth]
          exact Nat.succ_ne_zero _
        rw [run_closing_of_enclosing hopen] at h
        obtain ⟨count, hrun⟩ := ih (inner.close enclosing) others (t := t.closed) ht
          (by rw [Session.closed, hdepth]; rfl) h hu (inner'.close enclosing') others' houter.1
          houter.2
        refine ⟨count, fun below more => ?_⟩
        have hclosed : (t.deeper below.length).leniently.closed =
            (t.closed.deeper below.length).leniently := by
          have harith : t.parser.depth + below.length - 1 =
              t.parser.depth - 1 + below.length := by
            omega
          simp only [Session.leniently, Session.closed, Session.deeper, harith]
        have hopen' : (t.deeper below.length).leniently.parser.depth ≠ 0 :=
          fun hzero => hopen (Nat.eq_zero_of_add_eq_zero_right hzero)
        rw [List.cons_append, List.cons_append, run_closing_of_enclosing hopen', hclosed,
          hrun below more, Block.close, Block.bottom_count]
        rfl
    | unreadable => cases h

/-! ## Names that hold values -/

/-- A name that may be written and stored, without dots. -/
def IsKey (key : String) : Prop := IsLabel key ∧ Name.segments key = .ok [key]

theorem isKey_of_segments {name key : String} {segments : List String}
    (hname : isParameterName name.toList = true) (h : Name.segments name = .ok segments)
    (hkey : key ∈ segments) : IsKey key := by
  have hsegments : (Text.splitOn '.' name.toList).map String.ofList = segments := by
    unfold Name.segments at h
    split at h
    · rename_i parts hparts
      cases h
      simp only [Name.segments?] at hparts
      split at hparts
      · exact Option.some.inj hparts
      · cases hparts
    · cases h
  refine ⟨?_, Name.segments_of_mem h hkey⟩
  rw [← hsegments] at hkey
  obtain ⟨piece, hpiece, rfl⟩ := List.mem_map.mp hkey
  have hwritten := List.all_eq_true.mp hname piece hpiece
  rw [Bool.and_eq_true] at hwritten
  refine ⟨?_, ?_⟩
  · rw [String.toList_ofList]
    simpa using hwritten.1
  · rw [String.toList_ofList]
    exact List.all_eq_true.mp hwritten.2

theorem keeps_keyed : Keeps (Store.Keyed IsKey) fun name => isParameterName name.toList = true where
  create h := h.alloc fun _ hrow => by cases hrow
  add hname h hadd := h.add (fun _ hsegments _ => isKey_of_segments hname hsegments) hadd

/-- A name that a text has given values may be written and stored by itself. -/
theorem isKey_of_parse {text key : String} {n : Nat} {vs : Values Policy} {q : Policy}
    (h : parse ⟨0⟩ (linesOfText text) (.fresh .empty) = .ok n u)
    (hget : Table.get? key (u.store.entries q) = some vs) : IsKey key := by
  have hnames : ∀ statement ∈ statements (linesOfText text), ∀ name ∈ statement.names,
      isParameterName name.toList = true := fun statement hstatement name hname =>
    isParameterName_of_mem_names (isLegible_statements text statement hstatement) hname
  have hempty : (Session.fresh .empty).store.Keyed IsKey := by
    have hnone : Store.empty.Keyed IsKey := fun _ _ hrow => by cases hrow
    exact hnone.alloc fun _ hrow => by cases hrow
  have hkeyed := keeps_keyed.parse ⟨0⟩ hnames (.fresh .empty) hempty
  rw [after_of_run h] at hkeyed
  exact hkeyed q _ (Table.mem_of_get? hget)

/-! ## A block that is dropped -/

theorem add_of_kind_ne {s : Store} {p : Policy} {name : String} {vs : Values Policy}
    {v : Value Policy} (hplain : s.dictionary? p = none) (hname : Name.segments name = .ok [name])
    (hget : Table.get? name (s.entries p) = some vs) (hkind : vs.kind ≠ v.kind) :
    s.add p name v = .error (.wrongType name vs.kind v.kind) := by
  have hvalues : s.valuesAt ⟨p, name, []⟩ v.kind = vs := by
    rw [Store.valuesAt, hget]
    rfl
  rw [Store.add_eq_of_plain hplain, Store.place_of_segment hname]
  simp only [bind, Except.bind, hvalues, Values.push?_eq_none_iff.mpr hkind]

/-- What is noted of a block whose name holds other values. -/
def blockFault (n : Nat) (name : String) (held : Kind) : ParseError :=
  formatFault n ("array type mismatch: " ++ (PolicyError.wrongType name held .policy).message)

/-- Of a block whose name holds other values there remain a fault, and policies without a place. -/
theorem run_dropped {s : Store} {b : Block} {name : String} {vs : Values Policy}
    (hs : s.Tidy) (hb : b.policy.id < s.size) (hname : Name.segments name = .ok [name])
    (hget : Table.get? name (s.entries b.policy) = some vs) (hkind : vs.kind ≠ .policy)
    {found : List Statement} {o : Outcome}
    (hbody : run { policy := ⟨s.size⟩ } [] found (.fresh s) = .ok o w)
    (hw : w.parser = { strict := true }) (n line : Nat) (followed : Bool) (more : List Statement) :
    run b [] (.opening n name :: (found ++ .closing line followed :: more))
        ⟨s, { strict := false }⟩ =
      run b [] more
        ⟨w.store, { strict := false, diagnostics := [blockFault n name vs.kind] }⟩ := by
  obtain ⟨ws, strict, depth, diagnostics⟩ := w
  cases hw
  obtain ⟨count, hrun⟩ := exists_run_of_accepted found _ [] rfl rfl hbody rfl
    { policy := ⟨s.size⟩, attached := false } [] rfl rfl
  have hrefused : addValue b.policy name n (.policy ⟨s.size⟩)
      (Session.opened ⟨s, { strict := false }⟩) = .ok false
        ((Session.opened ⟨s, { strict := false }⟩).noted [blockFault n name vs.kind]) := by
    have hplain : (s.alloc {}).2.dictionary? b.policy = none :=
      (Store.dictionary?_alloc s [] _).trans (hs.plain _)
    have hrows : Table.get? name ((s.alloc {}).2.entries b.policy) = some vs := by
      rw [Store.entries, Store.node_alloc_of_lt hb]
      exact hget
    rw [addValue_of_error (t := Session.opened ⟨s, { strict := false }⟩)
      (add_of_kind_ne (v := .policy ⟨s.size⟩) hplain hname hrows hkind)]
    rfl
  have hdropped := hrun [b] (.closing line followed :: more)
  -- the fault has been noted before the block, of which the statements do not know
  have hnoting := noteBlind_run (found ++ .closing line followed :: more)
    { policy := ⟨s.size⟩, attached := false } [b] [blockFault n name vs.kind]
    ((Session.fresh s).deeper 1).leniently
  have hclosing := noteBlind_run (.closing line followed :: more)
    { policy := ⟨s.size⟩, count := count, attached := false } [b] [blockFault n name vs.kind]
    (Session.deeper 1 ⟨ws, { strict := true }⟩).leniently
  rw [run_opening_eq, bind_of_run hrefused]
  refine hnoting.trans ((congrArg _ hdropped).trans (hclosing.symm.trans ?_))
  rw [run_closing_of_enclosing (by exact Nat.one_ne_zero), Block.close]
  rfl

/-! ## Texts with a block that is dropped -/

section Texts

variable {body name : String} {found : List Statement}

theorem statementsFrom_blockText (hlabel : IsLabel name)
    (hfound : ∀ more, statements (linesOfText (body ++ "\n") ++ more) =
      found ++ statementsFrom (1 + (linesOfText (body ++ "\n")).length) none more)
    (n : Nat) (more : List Line) : ∃ line followed,
    statementsFrom n none (linesOfText (blockText name body ++ "\n") ++ more) =
      .opening n name :: (found.map (Statement.later n) ++ .closing line followed ::
        statementsFrom (n + (linesOfText (blockText name body ++ "\n")).length) none more) := by
  have hindent : IsIndent [] := by
    simp [IsIndent]
  have hlines : linesOfText (blockText name body ++ "\n") =
      given [named [] name ['\x7b'] []] ++ (linesOfText (body ++ "\n") ++ given [['\x7d']]) := by
    have hlast : linesOfText ("\x7d" ++ "\n") = given [['\x7d']] :=
      @linesOfText_line ['\x7d'] (by simp)
    have htext : blockText name body ++ "\n" =
        name ++ ": \x7b" ++ "\n" ++ (body ++ "\n" ++ ("\x7d" ++ "\n")) := by
      simp only [blockText, String.append_assoc]
    rw [htext, linesOfText_append, linesOfText_opening hlabel, linesOfText_append, hlast]
  generalize linesOfText (body ++ "\n") = inside at hfound hlines
  have hopening := @scan_opening n [] [] name hindent .none hlabel.isParameterName
  obtain ⟨followed, hclosing⟩ := @scan_closing (1 + inside.length + n) [] [] hindent .none
  rw [List.nil_append] at hclosing
  have hinside (rest : List Line) : statementsFrom (n + 1) none (inside ++ rest) =
      found.map (Statement.later n) ++ statementsFrom (1 + inside.length + n) none rest := by
    have hlater := statementsFrom_later n (inside ++ rest) 1 none
    rw [← statements, hfound, List.map_append, ← statementsFrom_later, Nat.add_comm 1] at hlater
    exact hlater
  refine ⟨1 + inside.length + n, followed, ?_⟩
  have hlength : n + (linesOfText (blockText name body ++ "\n")).length =
      1 + inside.length + n + 1 := by
    rw [hlines]
    simp only [given, List.length_append, List.length_map, List.length_singleton]
    omega
  rw [hlength, hlines, List.append_assoc, List.append_assoc, statementsFrom_of_scan hopening,
    hinside, statementsFrom_of_scan hclosing]
  rfl

/-- What comes after the dropped block is read with its policies in between and its lines before. -/
theorem follows_parse_dropped {front : String} {n m : Nat} {vs : Values Policy}
    (hfront : parse ⟨0⟩ (linesOfText front) (.fresh .empty) = .ok n u)
    (hget : Table.get? name (u.store.entries ⟨0⟩) = some vs) (hkind : vs.kind ≠ .policy)
    (hbody : parse ⟨0⟩ (linesOfText body) (.fresh .empty) = .ok m w) (back : String) :
    Follows ⟨Policy.skip u.store.size w.store.size,
        [blockFault (1 + (linesOfText (front ++ "\n")).length) name vs.kind],
        (linesOfText (blockText name body ++ "\n")).length⟩ id
      (parse ⟨0⟩ (linesOfText (front ++ "\n" ++ back)) (Session.fresh .empty).leniently)
      (parse ⟨0⟩ (linesOfText (front ++ "\n" ++ (blockText name body ++ "\n" ++ back)))
        (Session.fresh .empty).leniently) := by
  obtain ⟨found, hfound, hrun, hconsumes⟩ := exists_consumes_of_parse hfront
  obtain ⟨inside, hinside, hbody, hcloses⟩ :=
    exists_consumes_of_parse (parse_fresh_of_ok u.store hbody)
  obtain ⟨hlabel, hname⟩ := isKey_of_parse hfront hget
  obtain ⟨htidy, hsize⟩ := tidy_of_parse_fresh hfront
  have hu : (u.deeper 0).leniently = ⟨u.store, { strict := false }⟩ := by
    obtain ⟨s, parser⟩ := u
    cases (show parser = { strict := true } from hconsumes.parser)
    rfl
  obtain ⟨count, hpass⟩ := exists_run_of_accepted found _ [] rfl rfl hrun
    (congrArg Parser.depth hconsumes.parser) { policy := ⟨0⟩ } [] rfl rfl
  have hpass (more : List Statement) : run { policy := ⟨0⟩ } [] (found ++ more)
      (Session.fresh .empty).leniently =
        run { policy := ⟨0⟩, count := count } [] more ⟨u.store, { strict := false }⟩ :=
    hu ▸ hpass [] more
  generalize hlines : (linesOfText (front ++ "\n")).length = first at hfound
  generalize hblock : (linesOfText (blockText name body ++ "\n")).length = k
  have hshort : statements (linesOfText (front ++ "\n" ++ back)) =
      found ++ statementsFrom (1 + first) none (linesOfText back) := by
    rw [linesOfText_append, hfound]
  obtain ⟨line, followed, hstatements⟩ :=
    statementsFrom_blockText hlabel hinside (1 + first) (linesOfText back)
  have hlong : statements (linesOfText (front ++ "\n" ++ (blockText name body ++ "\n" ++ back))) =
      found ++ .opening (1 + first) name :: (inside.map (Statement.later (1 + first)) ++
        .closing line followed ::
          (statementsFrom (1 + first) none (linesOfText back)).map (Statement.later k)) := by
    rw [linesOfText_append, hfound, linesOfText_append, hstatements, hblock]
    rw [show none = Option.map (OpenQuote.later k) none from rfl, statementsFrom_later]
    rfl
  have hdelays := (delays_run (1 + first) inside { policy := ⟨u.store.size⟩ } []
    (t := .fresh u.store) rfl rfl).trans (congrArg _ hbody)
  have hdropped := run_dropped (b := { policy := ⟨0⟩, count := count }) htidy hsize hname hget hkind
    hdelays hcloses.parser (1 + first) line followed
    ((statementsFrom (1 + first) none (linesOfText back)).map (Statement.later k))
  have hlength : (linesOfText (front ++ "\n" ++ (blockText name body ++ "\n" ++ back))).length =
      (linesOfText (front ++ "\n" ++ back)).length + k := by
    rw [linesOfText_append, linesOfText_append, linesOfText_append, List.length_append,
      List.length_append, List.length_append, hblock]
    omega
  have hmirrors : Mirrors ⟨Policy.skip u.store.size w.store.size,
      [blockFault (1 + first) name vs.kind], k⟩ ⟨u.store, { strict := false }⟩
        ⟨(w.above u.store).store,
          { strict := false, diagnostics := [blockFault (1 + first) name vs.kind] }⟩ :=
    ⟨Store.renames_above htidy w.store, rfl, rfl, rfl, rfl⟩
  have hfollows := follows_run (statementsFrom (1 + first) none (linesOfText back))
    { policy := ⟨0⟩, count := count } [] hmirrors rfl
  have htarget : Block.rename (Policy.skip u.store.size w.store.size)
      { policy := ⟨0⟩, count := count } = { policy := ⟨0⟩, count := count } := by
    rw [Block.rename, Store.skip_of_lt hsize]
  rw [htarget] at hfollows
  rw [parse_eq, parse_eq, hlength, hshort, hlong, bind_congr_of_run (hpass _),
    bind_congr_of_run ((hpass _).trans hdropped)]
  exact hfollows.bind fun o _ _ _ hu => follows_finish hu _ o

/-- On top of other policies a lenient parser makes the same of a text. -/
theorem lenient_parse_above (s : Store) (lines : List Line) :
    let m := parse ⟨0⟩ lines
    let t := (Session.fresh .empty).leniently
    answer (parse ⟨s.size⟩ lines) (Session.fresh s).leniently = answer m t ∧
      after (parse ⟨s.size⟩ lines) (Session.fresh s).leniently = (after m t).above s ∧
      (after m t).store.Tidy ∧ 0 < (after m t).store.size := by
  intro m t
  have htidy : t.store.Tidy :=
    Store.tidy_empty.alloc List.Pairwise.nil (fun c hc => by cases hc) rfl fun row hrow => by
      cases hrow
  have hraises : Raises s m (parse (Policy.raise s.size ⟨0⟩) lines) t :=
    raises_parse s htidy Nat.zero_lt_one lines
  rw [Policy.raise, Nat.zero_add] at hraises
  have hfresh : (Session.fresh s).leniently = t.above s := by
    rw [fresh_eq_above]
    rfl
  refine ⟨?_, ?_, hraises.tidy, hraises.size_le⟩
  · rw [hfresh, answer, hraises.run, answer]
    cases m t <;> rfl
  · rw [hfresh, after, hraises.run, after]
    cases m t <;> rfl

/-- A lenient parser drops a block as a whole if its name holds other values than blocks already.
With any text before it and any text in it that a strict parser accepts into a new policy, and any
text after it at all, the answer and the policy are those of the text without the block. One fault
more is noted, at the line of the block, and those of the lines after it are further down. -/
theorem lenient_parse_swallows_block {s : Store} {front : String} {n m : Nat} {vs : Values Policy}
    (hfront : parse ⟨s.size⟩ (linesOfText front) ⟨(s.alloc {}).2, { strict := true }⟩ = .ok n u)
    (hget : Table.get? name (u.store.entries ⟨s.size⟩) = some vs) (hkind : vs.kind ≠ .policy)
    (hbody : parse ⟨s.size⟩ (linesOfText body) ⟨(s.alloc {}).2, { strict := true }⟩ = .ok m w)
    (back : String) :
    let t : Session := ⟨(s.alloc {}).2, { strict := false }⟩
    let short := parse ⟨s.size⟩ (linesOfText (front ++ "\n" ++ back))
    let long := parse ⟨s.size⟩
      (linesOfText (front ++ "\n" ++ (blockText name body ++ "\n" ++ back)))
    answer long t = answer short t ∧
      (after long t).store.content ⟨s.size⟩ = (after short t).store.content ⟨s.size⟩ ∧
      (after long t).parser.diagnostics =
        blockFault (1 + (linesOfText (front ++ "\n")).length) name vs.kind ::
          (after short t).parser.diagnostics.map
            (ParseError.later (linesOfText (blockText name body ++ "\n")).length) := by
  intro t short long
  obtain ⟨u', hfront', rfl⟩ := exists_of_parse_fresh hfront
  obtain ⟨w', hbody', rfl⟩ := exists_of_parse_fresh hbody
  obtain ⟨vs', hget', rfl⟩ : ∃ vs', Table.get? name (u'.store.entries ⟨0⟩) = some vs' ∧
      vs'.map (Policy.raise s.size) = vs := by
    have hrows := Store.entries_above_raise s u'.store ⟨0⟩
    rw [Policy.raise, Nat.zero_add] at hrows
    rw [Session.above, hrows, Entries.get?_raise] at hget
    exact Option.map_eq_some_iff.mp hget
  rw [Values.kind_map] at hkind ⊢
  have hfollows := follows_parse_dropped hfront' hget' hkind hbody' back
  have hnever := (strictable_parse ⟨0⟩ (linesOfText (front ++ "\n" ++ back))
    (Session.fresh .empty).leniently rfl).2.1
  have hmirrors := hfollows.mirrors
  have hsame := hfollows.answer_eq hnever
  obtain ⟨hshort, hshort', htidy, hsize⟩ :=
    lenient_parse_above s (linesOfText (front ++ "\n" ++ back))
  obtain ⟨hlong, hlong', htidy', hsize'⟩ := lenient_parse_above s
    (linesOfText (front ++ "\n" ++ (blockText name body ++ "\n" ++ back)))
  refine ⟨hlong.trans (hsame.trans hshort.symm), ?_, ?_⟩
  · have hcontent := hmirrors.store.content_eq htidy htidy' hsize
    dsimp only at hcontent
    rw [Store.skip_of_lt (tidy_of_parse_fresh hfront').2] at hcontent
    rw [show after long t = _ from hlong', show after short t = _ from hshort', Session.above,
      Session.above, content_above_new s htidy' hsize', content_above_new s htidy hsize, hcontent]
  · rw [show after long t = _ from hlong', show after short t = _ from hshort']
    exact hmirrors.diagnostics

/-- The block of a name with an integer goes, with a block and a string on two lines in it. A brace
too many and a line that is no parameter are found after it, where they are. -/
theorem lenient_parse_swallows_block_of_integer :
    let front := "a: 1\nb: \x7b\n\x7d"
    let body := "b: \x7b c: 'x\n y' \x7d\na.d: 2"
    let back := "\x7d\na: 3\ne"
    let t : Session := ⟨(Store.empty.alloc {}).2, { strict := false }⟩
    let long := parse ⟨0⟩ (linesOfText (front ++ "\n" ++ (blockText "a" body ++ "\n" ++ back)))
    answer long t = .ok 3 ∧
      (after long t).store.content ⟨0⟩ = .node [("a", .ints [1, 3]), ("b", .policies [.node []])] ∧
      (after long t).parser.diagnostics = [blockFault 4 "a" .int,
        syntaxFault 9 "unmatched '\x7d'", syntaxFault 11 "bad parameter line: e"] := by
  intro front body back t long
  let new : Session := ⟨(Store.empty.alloc {}).2, { strict := true }⟩
  have hfront : parse ⟨0⟩ (linesOfText front) new = .ok 2 (after (parse ⟨0⟩ (linesOfText front)) new) :=
    ok_of_answer (by decide +kernel)
  have hbody : parse ⟨0⟩ (linesOfText body) new = .ok 3 (after (parse ⟨0⟩ (linesOfText body)) new) :=
    ok_of_answer (by decide +kernel)
  have hget : Table.get? "a" ((after (parse ⟨0⟩ (linesOfText front)) new).store.entries ⟨0⟩) =
      some (.ints [1]) := by
    decide +kernel
  obtain ⟨hanswer, hcontent, hdiagnostics⟩ :=
    lenient_parse_swallows_block (s := .empty) hfront hget (by decide) hbody back
  let short := parse ⟨0⟩ (linesOfText (front ++ "\n" ++ back))
  have hshort : answer short t = .ok 3 := by
    decide +kernel
  have hstore : (after short t).store =
      ⟨#[⟨[("a", .ints [1, 3]), ("b", .policies [⟨1⟩])], none⟩, {}]⟩ := by
    decide +kernel
  have hnoted : (after short t).parser.diagnostics =
      [syntaxFault 4 "unmatched '\x7d'", syntaxFault 6 "bad parameter line: e"] := by
    decide +kernel
  have hlines : (linesOfText (blockText "a" body ++ "\n")).length = 5 := by
    decide +kernel
  have hfirst : (linesOfText (front ++ "\n")).length = 3 := by
    decide +kernel
  refine ⟨hanswer.trans hshort, hcontent.trans ?_, hdiagnostics.trans ?_⟩
  · show (after short t).store.content ⟨0⟩ = _
    rw [hstore]
    rfl
  · show _ :: (after short t).parser.diagnostics.map _ = _
    rw [hnoted, hlines, hfirst]
    rfl

end Texts

end PolicyStore.Paf
