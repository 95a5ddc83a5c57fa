import PolicyStore.Proofs.Paf.Appending

set_option autoImplicit false

namespace PolicyStore

/-!
# Texts inside blocks

A block holds what its lines make of a policy by themselves, at every depth. A text that is accepted
by itself cannot close the block that it is put into, and leaves nothing open at its end.
-/

/-! ## Content on top of a store -/

namespace Store

variable {base s : Store} {p q : Policy}

theorem contentTo_above (base s : Store) (n : Nat) (q : Policy) :
    (base.above s).contentTo n (q.raise base.size) = s.contentTo n q := by
  induction n generalizing q with
  | zero => rfl
  | succ n ih =>
    rw [contentTo, contentTo, entries_above_raise, Entries.raise, List.map_map]
    refine congrArg Content.node (List.map_congr_left fun row _ => ?_)
    refine congrArg (Prod.mk row.1) ((Values.map_map _ _ _).trans ?_)
    exact Values.map_congr fun c _ => ih c

/-- A policy of a tidy store holds the same when the store is put on top of another. -/
theorem content_above (base : Store) (hs : s.Tidy) (hq : q.id < s.size) :
    (base.above s).content (q.raise base.size) = s.content q := by
  obtain ⟨n, hn⟩ := hs.founded q
  have hwithin := hn.acyclic.within hs.toWellFormed hq
  rw [content_eq, content_eq, contentTo_above, size_above]
  exact hwithin.contentTo_eq (Nat.le_add_left _ _)

end Store

namespace Paf

variable {s : Store} {lines : List Line} {name text : String} {n : Nat} {u w : Session}

/-! ## New policies -/

/-- The session of a new strict parser on top of a store, with a new policy to parse into. -/
def Session.fresh (s : Store) : Session := ⟨(s.alloc {}).2, { strict := true }⟩

theorem fresh_eq_above (s : Store) : Session.fresh s = (Session.fresh .empty).above s := by
  have halloc := congrArg Prod.snd (Store.alloc_above s .empty {})
  rw [above_empty] at halloc
  exact congrArg (Session.mk · { strict := true }) halloc

theorem raises_parse_fresh (s : Store) (lines : List Line) :
    Raises s (parse ⟨0⟩ lines) (parse ⟨s.size⟩ lines) (.fresh .empty) := by
  have htidy : (Session.fresh .empty).store.Tidy :=
    Store.tidy_empty.alloc List.Pairwise.nil (fun c hc => by cases hc) rfl fun row hrow => by
      cases hrow
  have h : Raises s (parse ⟨0⟩ lines) (parse (Policy.raise s.size ⟨0⟩) lines) (.fresh .empty) :=
    raises_parse s htidy Nat.zero_lt_one lines
  rwa [Policy.raise, Nat.zero_add] at h

theorem parse_fresh_of_ok (s : Store) (h : parse ⟨0⟩ lines (.fresh .empty) = .ok n w) :
    parse ⟨s.size⟩ lines (.fresh s) = .ok n (w.above s) := by
  rw [fresh_eq_above, (raises_parse_fresh s lines).run, h, raised]

/-- What is accepted into a new policy gives the same on top of no other policies. -/
theorem exists_of_parse_fresh (h : parse ⟨s.size⟩ lines (.fresh s) = .ok n u) :
    ∃ w, parse ⟨0⟩ lines (.fresh .empty) = .ok n w ∧ u = w.above s := by
  have hrun := (raises_parse_fresh s lines).run
  rw [← fresh_eq_above, h] at hrun
  cases hsmall : parse ⟨0⟩ lines (.fresh .empty) with
  | ok m w =>
    rw [hsmall] at hrun
    cases hrun
    exact ⟨w, rfl, rfl⟩
  | error e w =>
    rw [hsmall] at hrun
    cases hrun

theorem tidy_of_parse_fresh (h : parse ⟨0⟩ lines (.fresh .empty) = .ok n w) :
    w.store.Tidy ∧ 0 < w.store.size := by
  have hraises := raises_parse_fresh .empty lines
  have htidy := hraises.tidy
  have hsize := hraises.size_le
  rw [after_of_run h] at htidy hsize
  exact ⟨htidy, hsize⟩

theorem content_above_new (base : Store) {s : Store} (hs : s.Tidy) (hsize : 0 < s.size) :
    (base.above s).content ⟨base.size⟩ = s.content ⟨0⟩ := by
  have hcontent := Store.content_above base hs (q := ⟨0⟩) hsize
  rwa [Policy.raise, Nat.zero_add] at hcontent

theorem content_fresh (s : Store) (h : parse ⟨0⟩ lines (.fresh .empty) = .ok n w) :
    (w.above s).store.content ⟨s.size⟩ = w.store.content ⟨0⟩ :=
  content_above_new s (tidy_of_parse_fresh h).1 (tidy_of_parse_fresh h).2

/-! ## One block -/

/-- The text in a block with a name, on lines of its own. -/
def blockText (name text : String) : String :=
  name ++ ": \x7b" ++ "\n" ++ (text ++ "\n" ++ "\x7d")

/-- The store of a policy that holds nothing but the next policy. -/
def holder (name : String) : Store := ⟨#[{ entries := [(name, .policies [⟨1⟩])] }]⟩

/-- The first line of a block is one line. -/
theorem linesOfText_opening (hname : IsLabel name) :
    linesOfText (name ++ ": \x7b" ++ "\n") = given [named [] name ['\x7b'] []] := by
  have hplain : '\n' ∉ named [] name ['\x7b'] [] := by
    have hword : '\n' ∉ name.toList := fun hmem => hname.ne_of_mem hmem (by decide) rfl
    simp [named, hword]
  have hfirst : name ++ ": \x7b" = String.ofList (named [] name ['\x7b'] []) := by
    apply String.toList_injective
    simp [named]
  rw [hfirst, linesOfText_line hplain]

theorem linesOfText_blockText (hname : IsLabel name) (text : String) :
    linesOfText (blockText name text) = given [named [] name ['\x7b'] []] ++
      (linesOfText (text ++ "\n") ++ given [['\x7d']]) := by
  rw [blockText, linesOfText_append, linesOfText_opening hname, linesOfText_append]
  rfl

theorem content_holder (name : String) (s : Store) :
    ((holder name).above s).content ⟨0⟩ = .node [(name, .policies [s.content ⟨0⟩])] := by
  have hrows : ((holder name).above s).entries ⟨0⟩ = [(name, .policies [⟨1⟩])] := by
    rw [Store.entries, Store.node_above_of_lt Nat.zero_lt_one]
    rfl
  have hbelow := Store.contentTo_above (holder name) s s.size ⟨0⟩
  have hsize : ((holder name).above s).size = s.size + 1 := by
    rw [Store.size_above, Nat.add_comm]
    rfl
  rw [Store.content_eq, hsize, Store.contentTo, hrows, Store.content_eq]
  exact congrArg (fun c => Content.node [(name, .policies [c])]) hbelow

theorem run_opening_fresh (hname : Name.segments name = .ok [name]) (line : Nat)
    (rest : List Statement) :
    run { policy := ⟨0⟩ } [] (.opening line name :: rest) (.fresh .empty) =
      run { policy := ⟨1⟩ } [{ policy := ⟨0⟩ }] rest ((Session.fresh (holder name)).deeper 1) := by
  have hadd : ((Session.fresh .empty).store.alloc {}).2.add ⟨0⟩ name (.policy ⟨1⟩) =
      .ok ((holder name).alloc {}).2 := by
    refine (Store.add_eq_setEntries (.policies [⟨1⟩]) hname rfl rfl).trans ?_
    rfl
  exact run_opening hadd

/-- A text that is accepted into a new policy is accepted in a block, and makes of the policy of the
block what it makes of that policy. -/
theorem parse_blockText (hlabel : IsLabel name) (hname : Name.segments name = .ok [name])
    (h : parse ⟨0⟩ (linesOfText text) (.fresh .empty) = .ok n w) :
    parse ⟨0⟩ (linesOfText (blockText name text)) (.fresh .empty) =
      .ok (n + 1) (w.above (holder name)) := by
  have hinner := parse_fresh_of_ok (holder name) h
  obtain ⟨found, hfound, -, hconsumes⟩ := exists_consumes_of_parse hinner
  have hparser : (w.above (holder name)).parser = { strict := true } := hconsumes.parser
  generalize hk : (linesOfText (text ++ "\n")).length = k at hfound
  have hindent : IsIndent [] := by
    simp [IsIndent]
  obtain ⟨followed, hlast⟩ := @scan_closing (1 + k) [] [] hindent .none
  have hclosing : statementsFrom (1 + k) none (given [['\x7d']]) = [.closing (1 + k) followed] := by
    have h := statementsFrom_of_scan hlast []
    rwa [statementsFrom, List.append_nil, List.append_nil] at h
  have hstatements : statements (linesOfText (blockText name text)) = .opening 1 name ::
      (found ++ [Statement.closing (1 + k) followed]).map (Statement.later 1) := by
    have hfirst := @scan_opening 1 [] [] name hindent .none hlabel.isParameterName
    rw [linesOfText_blockText hlabel, statements, statementsFrom_of_scan hfirst, ← hclosing,
      ← hfound]
    exact congrArg _ (statementsFrom_later 1 _ 1 none)
  have hrest : run { policy := ⟨1⟩ } [{ policy := ⟨0⟩ }] (found ++ [.closing (1 + k) followed])
      ((Session.fresh (holder name)).deeper 1) = .ok ⟨0 + (1 + n), none⟩ (w.above (holder name)) := by
    refine (hconsumes.goes_on [{ policy := ⟨0⟩ }] [Statement.closing (1 + k) followed]).trans ?_
    exact run_closing rfl
  have hdelays := delays_run 1 (found ++ [.closing (1 + k) followed]) { policy := ⟨1⟩ }
    [{ policy := ⟨0⟩ }] (t := (Session.fresh (holder name)).deeper 1) rfl rfl
  rw [hrest] at hdelays
  have hrun : run { policy := ⟨0⟩ } [] (statements (linesOfText (blockText name text)))
      (.fresh .empty) = .ok ⟨0 + (1 + n), none⟩ (w.above (holder name)) := by
    rw [hstatements, run_opening_fresh hname, hdelays]
    rfl
  have hdepth : (w.above (holder name)).parser.depth = 0 := by
    rw [hparser]
  rw [parse_eq, bind_of_run hrun, finish_of_closed hdepth, Nat.zero_add, Nat.add_comm]

/-! ## Blocks in blocks -/

/-- The text in blocks, the first of them the outermost. -/
def nestedText (names : List String) (text : String) : String := names.foldr blockText text

/-- The content in policies that hold nothing but the next one. -/
def nestedContent (names : List String) (c : Content) : Content :=
  names.foldr (fun name c => .node [(name, .policies [c])]) c

theorem parse_nestedText {names : List String}
    (hnames : ∀ name ∈ names, IsLabel name ∧ Name.segments name = .ok [name])
    (h : parse ⟨0⟩ (linesOfText text) (.fresh .empty) = .ok n w) :
    ∃ w', parse ⟨0⟩ (linesOfText (nestedText names text)) (.fresh .empty) =
        .ok (n + names.length) w' ∧
      w'.store.content ⟨0⟩ = nestedContent names (w.store.content ⟨0⟩) := by
  induction names with
  | nil => exact ⟨w, h, rfl⟩
  | cons name names ih =>
    obtain ⟨w', hparse, hcontent⟩ :=
      ih fun other hother => hnames other (List.mem_cons_of_mem _ hother)
    obtain ⟨hlabel, hname⟩ := hnames name List.mem_cons_self
    refine ⟨w'.above (holder name), parse_blockText hlabel hname hparse, ?_⟩
    exact (content_holder name w'.store).trans
      (congrArg (fun c => Content.node [(name, .policies [c])]) hcontent)

/-- A block holds what the lines in it make of a policy by themselves. A text that a strict parser
accepts into a new policy is accepted in blocks of any depth, where each block counts as a parameter
more, and each of the policies holds nothing but the next. -/
theorem parse_blocks_around_accepted {names : List String}
    (hlabels : ∀ name ∈ names, IsLabel name)
    (hstored : ∀ name ∈ names, ∀ c ∈ name.toList, Text.isNameChar c = true) {s s' : Store}
    (h : parse ⟨s.size⟩ (linesOfText text) ⟨(s.alloc {}).2, { strict := true }⟩ = .ok n u) :
    ∃ u', parse ⟨s'.size⟩ (linesOfText (nestedText names text))
        ⟨(s'.alloc {}).2, { strict := true }⟩ = .ok (n + names.length) u' ∧
      u'.store.content ⟨s'.size⟩ = nestedContent names (u.store.content ⟨s.size⟩) := by
  obtain ⟨w, hw, rfl⟩ := exists_of_parse_fresh h
  have hnames : ∀ name ∈ names, IsLabel name ∧ Name.segments name = .ok [name] := by
    intro name hname
    have hlabel := hlabels name hname
    refine ⟨hlabel, Name.segments_of_isSegment ?_⟩
    rw [Name.isSegment, Bool.and_eq_true, List.all_eq_true]
    exact ⟨by simpa using hlabel.nonempty, hstored name hname⟩
  obtain ⟨w', hw', hcontent⟩ := parse_nestedText hnames hw
  refine ⟨w'.above s', parse_fresh_of_ok s' hw', ?_⟩
  rw [content_fresh s' hw', hcontent, content_fresh s hw]

theorem parse_two_blocks_around_accepted :
    (∀ name ∈ ["a", "é"], IsLabel name) ∧
      (∀ name ∈ ["a", "é"], ∀ c ∈ name.toList, Text.isNameChar c = true) ∧
      parse ⟨0⟩ (linesOfText "c: 1 2\nd: \x7b\n\x7d")
          ⟨(Store.empty.alloc {}).2, { strict := true }⟩ =
        .ok 2 ⟨⟨#[⟨[("c", .ints [1, 2]), ("d", .policies [⟨1⟩])], none⟩, {}]⟩,
          { strict := true }⟩ ∧
      ∃ u', parse ⟨0⟩ (linesOfText (nestedText ["a", "é"] "c: 1 2\nd: \x7b\n\x7d"))
          ⟨(Store.empty.alloc {}).2, { strict := true }⟩ = .ok 4 u' ∧
        u'.store.content ⟨0⟩ = nestedContent ["a", "é"]
          (.node [("c", .ints [1, 2]), ("d", .policies [.node []])]) := by
  have hlabels : ∀ name ∈ ["a", "é"], IsLabel name := by
    intro name hname
    rcases List.mem_pair.mp hname with rfl | rfl
    · exact ⟨by decide, List.all_eq_true.mp (by decide +kernel)⟩
    · exact ⟨by decide, List.all_eq_true.mp (by decide +kernel)⟩
  have hstored : ∀ name ∈ ["a", "é"], ∀ c ∈ name.toList, Text.isNameChar c = true := by
    intro name hname
    rcases List.mem_pair.mp hname with rfl | rfl
    · exact List.all_eq_true.mp (by decide +kernel)
    · exact List.all_eq_true.mp (by decide +kernel)
  have hparse : parse ⟨0⟩ (linesOfText "c: 1 2\nd: \x7b\n\x7d")
      ⟨(Store.empty.alloc {}).2, { strict := true }⟩ =
        .ok 2 ⟨⟨#[⟨[("c", .ints [1, 2]), ("d", .policies [⟨1⟩])], none⟩, {}]⟩,
          { strict := true }⟩ := by
    cbv
  exact ⟨hlabels, hstored, hparse,
    @parse_blocks_around_accepted _ _ _ _ hlabels hstored .empty .empty hparse⟩

end Paf

end PolicyStore
