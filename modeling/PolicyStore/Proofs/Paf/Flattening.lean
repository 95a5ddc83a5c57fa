import PolicyStore.Proofs.Paf.Reading
import PolicyStore.Proofs.Update.Growing

set_option autoImplicit false

namespace PolicyStore.Paf

/-!
# Flat documents

A document may give every parameter on a line of its own, under the whole path to it. Where the
policies of a document stand alone in their arrays, the flat document in any order builds what the
nested one does: one by blocks, the other by policies that are made on the way to a name.
-/

/-- Lines that name parameters by their paths. -/
inductive Listed : List (List String × Values Content) → List (List Char) → Prop
  | empty : Listed [] []
  | filler {leaves : List (List String × Values Content)} {lines : List (List Char)}
      {line : List Char} : Listed leaves lines → Filler line → Listed leaves (lines ++ [line])
  | leaf {leaves : List (List String × Values Content)} {lines : List (List Char)}
      {indent tail : List Char} {path : List String} {vs : Values Empty} : Listed leaves lines →
      IsIndent indent → Tail tail → path ≠ [] → (∀ segment ∈ path, IsName segment) →
      vs.toList ≠ [] → (∀ v ∈ vs.toList, IsWritable v) →
      Listed (leaves ++ [(path, vs.map Empty.elim)])
        (lines ++
          [named indent (Name.join path) ([' '].intercalate (vs.toList.map literalText)) tail])

variable {leaves : List (List String × Values Content)} {rows : List (String × Values Content)}
  {n : Nat} {lines : List (List Char)} {path : List String} {name : String} {s : Store} {p : Policy}

/-! ## Names -/

theorem isParameterName_concat (name other : String) :
    isParameterName (name ++ "." ++ other).toList =
      (isParameterName name.toList && isParameterName other.toList) := by
  rw [isParameterName, Name.splitOn_concat, List.all_append, isParameterName, isParameterName]

theorem isParameterName_join (hne : path ≠ []) (h : ∀ segment ∈ path, IsName segment) :
    isParameterName (Name.join path).toList = true := by
  induction path with
  | nil => exact (hne rfl).elim
  | cons key rest ih =>
    have hkey := (h key List.mem_cons_self).isParameterName
    cases rest with
    | nil =>
      rw [Name.join, String.intercalate_singleton]
      exact hkey
    | cons next rest =>
      have hrest := ih (List.cons_ne_nil _ _) fun segment hsegment =>
        h segment (List.mem_cons_of_mem _ hsegment)
      rw [Name.join, String.intercalate_cons_cons, ← Name.join, isParameterName_concat, hkey, hrest]
      rfl

/-! ## Lines -/

theorem Listed.oneLine (h : Listed leaves lines) : ∀ line ∈ lines, '\n' ∉ line := by
  induction h with
  | empty => simp
  | filler _ hline ih => exact oneLine_concat ih hline.oneLine
  | leaf _ hindent htail hpath hnames _ hvs ih =>
    exact oneLine_concat ih
      (oneLine_named hindent (isParameterName_join hpath hnames) (oneLine_literals hvs) htail)

/-- Literals of one kind are added to a tree one after the other, if their array can be put. -/
theorem addItems_of_rooted (line : Nat) (parser : Parser) (hname : Name.segments name = .ok path)
    {kind : Kind} {literals : List Literal} {new : Values Content} {t : Content}
    (hkind : ∀ v ∈ literals, v.kind = kind) (hne : literals ≠ []) (h : s.Rooted p)
    (hpush : ((Content.find? path (s.content p)).getD (.empty kind)).pushAll?
      (literals.map .ofLiteral) = some new)
    (hput : Content.put? new path (s.content p) = some t) :
    ∃ s' : Store, addItems p name (literals.map (.value line)) ⟨s, parser⟩ = .ok true ⟨s', parser⟩ ∧
      s'.Rooted p ∧ s'.content p = t := by
  induction literals generalizing s with
  | nil => exact (hne rfl).elim
  | cons v rest ih =>
    obtain ⟨ws, hfirst, hrest⟩ := Option.bind_eq_some_iff.mp hpush
    obtain ⟨t₁, ht₁⟩ := Content.exists_put? ws hput
    rw [← hkind v List.mem_cons_self] at hfirst
    obtain ⟨s₁, hadd, hrooted, hcontent⟩ := h.add hname hfirst ht₁
    have hrun := addValue_of_add (t := ⟨s, parser⟩) line hadd
    cases rest with
    | nil =>
      cases hrest
      cases ht₁.symm.trans hput
      exact ⟨s₁, (bind_of_run hrun).trans rfl, hrooted, hcontent⟩
    | cons w rest =>
      obtain ⟨s', hrun', hrooted', hcontent'⟩ := ih
        (fun u hu => hkind u (List.mem_cons_of_mem _ hu)) (List.cons_ne_nil _ _) hrooted
        (by rw [hcontent, Content.find?_put?_self ht₁]; exact hrest)
        (by rw [hcontent, Content.put?_put? ht₁]; exact hput)
      exact ⟨s', (bind_of_run hrun).trans ((bind_of_run hrun').trans rfl), hrooted', hcontent'⟩

/-- The values of a line make the leaf that the line names, besides those that are there. -/
theorem addItems_of_leaf (line : Nat) (parser : Parser) (h : s.Rooted p)
    (hbears : (s.content p).Bears leaves) (hpath : path ≠ []) (hnames : ∀ segment ∈ path, IsName segment)
    {vs : Values Empty} (hne : vs.toList ≠ [])
    (hapart : ∀ leaf ∈ leaves, Content.Apart leaf.1 path) :
    ∃ s' : Store, addItems p (Name.join path) (vs.toList.map (.value line)) ⟨s, parser⟩ =
        .ok true ⟨s', parser⟩ ∧
      s'.Rooted p ∧ (s'.content p).Bears (leaves ++ [(path, vs.map Empty.elim)]) := by
  have hname : Name.segments (Name.join path) = .ok path :=
    Name.segments_join hpath fun segment hsegment => (hnames segment hsegment).segments
  have hkind : (vs.map Empty.elim : Values Content).kind ≠ .policy := by
    obtain ⟨v, hv⟩ := List.exists_mem_of_ne_nil _ hne
    rw [Values.kind_map, ← Values.kind_of_mem_toList hv]
    exact v.kind_ne_policy
  have hfull : (vs.map Empty.elim : Values Content).isEmpty = false := by
    simp [Values.isEmpty, hne]
  obtain ⟨hnone, t, hput, hbears'⟩ := hbears.put? hpath hkind hfull hapart
  have hpush := Values.pushAll?_toList (vs.map Empty.elim : Values Content)
  rw [Values.kind_map, Values.toList_map] at hpush
  obtain ⟨s', hadd, hrooted, hcontent⟩ := addItems_of_rooted line parser hname
    (fun v hv => Values.kind_of_mem_toList hv) hne h (by rw [hnone]; exact hpush) hput
  exact ⟨s', hadd, hrooted, hcontent ▸ hbears'⟩

/-- Reading the lines in the innermost block makes the leaves in it. -/
theorem reads_of_listed (h : Listed leaves lines)
    (hapart : leaves.Pairwise fun a b => Content.Apart a.1 b.1) (k : Nat) (more : List Line)
    (b : Block) (outer : List Block) (parser : Parser) (hs : s.Rooted b.policy)
    (hempty : s.content b.policy = .node []) :
    ∃ s' : Store, s'.Rooted b.policy ∧ (s'.content b.policy).Bears leaves ∧
      run b outer (statementsFrom k none (given lines ++ more)) ⟨s, parser⟩ =
        run { b with count := b.count + leaves.length } outer
          (statementsFrom (k + lines.length) none more) ⟨s', parser⟩ := by
  induction h generalizing more with
  | empty => exact ⟨s, hs, hempty ▸ .empty, rfl⟩
  | @filler leaves lines line _ hline ih =>
    obtain ⟨s', hrooted, hbears, hrun⟩ := ih hapart (given [line] ++ more)
    refine ⟨s', hrooted, hbears, ?_⟩
    rw [given_append, List.append_assoc, hrun, statementsFrom_of_scan (scan_filler hline),
      List.length_append, ← Nat.add_assoc]
    rfl
  | @leaf leaves lines indent tail path vs _ hindent htail hpath hnames hne hvs ih =>
    obtain ⟨hearlier, -, hlast⟩ := List.pairwise_append.mp hapart
    obtain ⟨s', hrooted, hbears, hrun⟩ := ih hearlier (given [named indent (Name.join path)
      ([' '].intercalate (vs.toList.map literalText)) tail] ++ more)
    obtain ⟨s'', hadd, hrooted', hbears'⟩ := addItems_of_leaf (k + lines.length) parser hrooted hbears
      hpath hnames hne fun leaf hleaf => hlast leaf hleaf _ List.mem_cons_self
    refine ⟨s'', hrooted', hbears', ?_⟩
    rw [given_append, List.append_assoc, hrun,
      statementsFrom_of_scan (scan_values hindent htail (isParameterName_join hpath hnames) hne hvs),
      List.length_append, List.length_append, ← Nat.add_assoc, ← Nat.add_assoc]
    exact run_values (b := { b with count := b.count + leaves.length }) hadd

/-! ## Documents -/

theorem Written.regular (h : Written rows n lines) : (Content.node rows).Regular := by
  induction h with
  | empty => exact Content.regular_empty
  | filler _ _ ih => exact ih
  | values _ _ _ _ _ hne _ ih =>
    refine ih.insert (by simp [Values.isEmpty, hne]) fun c hc => ?_
    rw [Values.children_map] at hc
    obtain ⟨e, -, -⟩ := List.mem_map.mp hc
    exact e.elim
  | file _ _ _ _ _ _ ih =>
    exact ih.insert (by simp [Values.isEmpty, Values.toList]) fun c hc => absurd hc List.not_mem_nil
  | @block rows inner n m lines body _ _ _ _ name earlier _ _ _ _ _ _ _ hearlier ih ihinner =>
    refine ih.insert (by simp [Values.isEmpty, Values.toList]) fun c hc => ?_
    rcases List.mem_append.mp hc with hc | hc
    · cases hget : Table.get? name rows with
      | none =>
        rw [hget] at hearlier
        cases hearlier
        cases hc
      | some vs =>
        rw [hget] at hearlier
        cases hearlier
        exact ih.child hget c hc
    · rw [List.mem_singleton.mp hc]
      exact ihinner

/-- A strict parser builds the same from a document with nested blocks and from a flat one with the
same leaves in any order, if every policy stands alone in its array and holds something. It reads
both without a fault, and what it builds is the document. -/
theorem parse_flat_document {nested flat : List (List Char)} (hnested : Written rows n nested)
    (hsingle : (Content.node rows).Single) (hflat : Listed leaves flat)
    (hleaves : leaves.Perm (Content.node rows).leaves) (hs : s.WellFormed) (hp : p.id < s.size)
    (hempty : s.node p = {}) :
    ∃ s₁ s₂ : Store,
      parse p (linesOfText (textOf nested)) ⟨s, { strict := true }⟩ =
        .ok n ⟨s₁, { strict := true }⟩ ∧
      parse p (linesOfText (textOf flat)) ⟨s, { strict := true }⟩ =
        .ok leaves.length ⟨s₂, { strict := true }⟩ ∧
      s₁.content p = .node rows ∧ s₂.content p = s₁.content p := by
  obtain ⟨s₁, hrun₁, hcontent, -⟩ := run_of_written hnested hp hempty { strict := true }
  have hregular := hnested.regular
  have hapart : leaves.Pairwise fun a b => Content.Apart a.1 b.1 :=
    (hleaves.pairwise_iff Content.Apart.symm).mpr hregular.pairwise_leaves
  obtain ⟨s₂, -, hbears, hrun₂⟩ := reads_of_listed hflat hapart 1 [] { policy := p } []
    { strict := true } (.of_empty hs hp hempty) (hs.content_of_empty hp hempty)
  refine ⟨s₁, s₂, (bind_of_run hrun₁).trans rfl, ?_, hcontent, ?_⟩
  · rw [List.append_nil, ← statements_textOf hflat.oneLine] at hrun₂
    refine (bind_of_run hrun₂).trans ?_
    show EStateM.Result.ok (0 + leaves.length) _ = _
    rw [Nat.zero_add]
  · rw [hcontent]
    exact hbears.eq_of_perm (.of_single hsingle hregular) hleaves

/-- A block with two values and one value besides it, and the three values in another order. -/
theorem parse_flat_document_pair :
    ∃ s₁ s₂ : Store,
      parse ⟨0⟩ (linesOfText "a: \x7b\n\tb: 1\n\tc: \"x\"\n\x7d\non: true")
        ⟨⟨#[{}]⟩, { strict := true }⟩ = .ok 4 ⟨s₁, { strict := true }⟩ ∧
      parse ⟨0⟩ (linesOfText "on: true\na.c: \"x\"\na.b: 1")
        ⟨⟨#[{}]⟩, { strict := true }⟩ = .ok 3 ⟨s₂, { strict := true }⟩ ∧
      s₁.content ⟨0⟩ = .node [("a", .policies [.node [("b", .ints [1]), ("c", .strings ["x"])]]),
        ("on", .bools [true])] ∧ s₂.content ⟨0⟩ = s₁.content ⟨0⟩ := by
  have hindent : IsIndent [] := by simp [IsIndent]
  have htab : IsIndent ['\t'] := by simp [IsIndent]
  have hone : ∀ v ∈ (Values.ints [1] : Values Empty).toList, IsWritable v := by
    simpa [Values.toList] using IsWritable.int 1
  have hx : ∀ v ∈ (Values.strings ["x"] : Values Empty).toList, IsWritable v := by
    simpa [Values.toList] using IsWritable.string (s := "x") (by decide) (by decide)
  have htrue : ∀ v ∈ (Values.bools [true] : Values Empty).toList, IsWritable v := by
    simpa [Values.toList] using IsWritable.bool true
  have hinner : Written [("b", .ints [1]), ("c", .strings ["x"])] 2
      ["\tb: 1".toList, "\tc: \"x\"".toList] :=
    @Written.values _ _ _ ['\t'] [] "c" (.strings ["x"])
      (@Written.values [] 0 [] ['\t'] [] "b" (.ints [1]) .empty htab .none (by decide) rfl
        (by simp [Values.toList]) hone)
      htab .none (by decide) (by decide) (by simp [Values.toList]) hx
  have hblock : Written [("a", .policies [.node [("b", .ints [1]), ("c", .strings ["x"])]])] 3
      ["a: \x7b".toList, "\tb: 1".toList, "\tc: \"x\"".toList, "\x7d".toList] :=
    @Written.block [] _ 0 2 [] _ [] [] [] [] "a" [] .empty hinner hindent .none hindent .none
      (by decide) rfl
  have hnested : Written [("a", .policies [.node [("b", .ints [1]), ("c", .strings ["x"])]]),
      ("on", .bools [true])] 4 ["a: \x7b".toList, "\tb: 1".toList, "\tc: \"x\"".toList,
        "\x7d".toList, "on: true".toList] :=
    @Written.values _ _ _ [] [] "on" (.bools [true]) hblock hindent .none (by decide) (by decide)
      (by simp [Values.toList]) htrue
  have hflat : Listed [(["on"], .bools [true]), (["a", "c"], .strings ["x"]), (["a", "b"], .ints [1])]
      ["on: true".toList, "a.c: \"x\"".toList, "a.b: 1".toList] :=
    @Listed.leaf _ _ [] [] ["a", "b"] (.ints [1])
      (@Listed.leaf _ _ [] [] ["a", "c"] (.strings ["x"])
        (@Listed.leaf [] [] [] [] ["on"] (.bools [true]) .empty hindent .none (by decide) (by decide)
          (by simp [Values.toList]) htrue)
        hindent .none (by decide) (by decide) (by simp [Values.toList]) hx)
      hindent .none (by decide) (by decide) (by simp [Values.toList]) hone
  have hsingle : (Content.node [("a", .policies [.node [("b", .ints [1]), ("c", .strings ["x"])]]),
      ("on", .bools [true])]).Single := by
    refine .node (by simp) ?_
    simpa [Values.children] using Content.Single.node (by simp) (by simp [Values.children])
  have hleaves : (Content.node [("a", .policies [.node [("b", .ints [1]), ("c", .strings ["x"])]]),
      ("on", .bools [true])]).leaves =
        [(["a", "b"], .ints [1]), (["a", "c"], .strings ["x"]), (["on"], .bools [true])] := by
    simp [Content.leaves, Content.paths, Content.pathsOfRows, Content.pathsOfLast, Content.find?,
      Table.get?, Values.children, Values.kind]
  have hperm := hleaves ▸ List.reverse_perm
    [(["a", "b"], Values.ints [1]), (["a", "c"], .strings ["x"]), (["on"], .bools [true])]
  have hempty : (⟨#[{}]⟩ : Store).WellFormed := .of_lt (by decide) (by decide)
  have hnestedText : textOf ["a: \x7b".toList, "\tb: 1".toList, "\tc: \"x\"".toList, "\x7d".toList,
      "on: true".toList] = "a: \x7b\n\tb: 1\n\tc: \"x\"\n\x7d\non: true" := by decide
  have hflatText : textOf ["on: true".toList, "a.c: \"x\"".toList, "a.b: 1".toList] =
      "on: true\na.c: \"x\"\na.b: 1" := by decide
  have hparse := parse_flat_document hnested hsingle hflat hperm hempty (p := ⟨0⟩) (by decide) rfl
  rw [hnestedText, hflatText] at hparse
  exact hparse

end PolicyStore.Paf
