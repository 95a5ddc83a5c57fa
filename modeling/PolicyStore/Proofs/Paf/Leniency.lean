import PolicyStore.Proofs.Paf.Balance
import PolicyStore.Proofs.Text.Naming

set_option autoImplicit false

namespace PolicyStore

/-!
# Lenient parsing

A lenient parser goes on to the end of every text and notes each fault of it on the way. It is only
stopped by a name that may be written but not stored, such as one with a combining mark in it.
-/

/-! ## Writing without a dictionary -/

namespace Store

variable {s s' : Store} {p : Policy} {name : String}

theorem add_eq_of_plain (h : s.dictionary? p = none) (name : String) (v : Value Policy) :
    s.add p name v = (do
      let spot ← s.place p name
      match (s.valuesAt spot v.kind).push? v with
      | some values => return s.write spot values
      | none => .error (.wrongType name (s.valuesAt spot v.kind).kind v.kind)) := by
  unfold add
  rw [approve_of_plain h]
  rfl

theorem add_of_unstorable (h : s.dictionary? p = none) (hname : Name.segments? name = none)
    (v : Value Policy) : s.add p name v = .error (.badName name) := by
  have hsegments : Name.segments name = .error (.badName name) := by
    rw [Name.segments, hname]
  rw [add_eq_of_plain h, place, hsegments]
  rfl

theorem isTypeError_of_placeFrom {full : String} {segments : List String} (hne : segments ≠ []) :
    ∀ {done : List String} {p : Policy} {e : PolicyError},
      s.placeFrom full done p segments = .error e → e.isTypeError = true := by
  induction segments with
  | nil => exact (hne rfl).elim
  | cons segment rest ih =>
    intro done p e h
    cases rest with
    | nil => cases h
    | cons next rest =>
      simp only [placeFrom] at h
      split at h
      · cases h
      · split at h
        · exact ih (by simp) h
        · cases h
          rfl
      · cases h
        rfl

/-- Where the name can be stored, a write only fails for the kind of what is there already. -/
theorem isTypeError_of_add (h : s.dictionary? p = none) {parts : List String}
    (hname : Name.segments name = .ok parts) {v : Value Policy} {e : PolicyError}
    (hadd : s.add p name v = .error e) : e.isTypeError = true := by
  rw [add_eq_of_plain h, place, hname] at hadd
  cases hspot : s.placeFrom name [] p parts with
  | error e' =>
    simp only [hspot, bind, Except.bind] at hadd
    cases hadd
    exact isTypeError_of_placeFrom (Name.segments_ne_nil hname) hspot
  | ok spot =>
    simp only [hspot, bind, Except.bind] at hadd
    split at hadd
    · cases hadd
    · cases hadd
      rfl

end Store

namespace Paf

variable {α β : Type} {t : Session}

/-! ## Names and faults of a text -/

def Item.fault? : Item → Option ParseError
  | .value _ _ => none
  | .fault e => some e

/-- What is wrong with a statement, whatever the policy holds that it is carried out on. -/
def Statement.faults : Statement → List ParseError
  | .fault e => [e]
  | .values _ items => items.filterMap Item.fault?
  | _ => []

/-- The name that a statement adds values or a block to, once for each of them. -/
def Statement.names : Statement → List String
  | .values name items => (items.filter fun item => item.fault?.isNone).map fun _ => name
  | .opening _ name => [name]
  | _ => []

/-- Whether the store refuses a name. -/
def isUnstorable (name : String) : Bool := (Name.segments? name).isNone

/-! ## Lenient computations -/

/-- A lenient computation fails for the first name that cannot be stored, and for nothing else; if
there is none, it has noted all the faults. -/
structure Tolerates (names : List String) (faults : List ParseError) (m : ParseM α) (t : Session) :
    Prop where
  strict : (after m t).parser.strict = false
  ends : match names.find? isUnstorable with
    | some name => answer m t = .error (.badName name)
    | none => ∃ a noted, answer m t = .ok a ∧
      (after m t).parser.diagnostics = t.parser.diagnostics ++ noted ∧ faults.Sublist noted

namespace Tolerates

variable {names names' : List String} {faults faults' : List ParseError}

theorem pure (ht : t.parser.strict = false) (a : α) :
    Tolerates [] [] (Pure.pure a : ParseM α) t :=
  ⟨ht, a, [], rfl, (List.append_nil _).symm, .refl _⟩

theorem bind {m : ParseM α} {f : α → ParseM β} (hm : Tolerates names faults m t)
    (hf : ∀ a, answer m t = .ok a → Tolerates names' faults' (f a) (after m t)) :
    Tolerates (names ++ names') (faults ++ faults') (m >>= f) t := by
  have hends := hm.ends
  cases hfind : names.find? isUnstorable with
  | some name =>
    rw [hfind] at hends
    refine ⟨?_, ?_⟩
    · rw [after_bind_of_error hends]
      exact hm.strict
    · rw [List.find?_append, hfind]
      exact answer_bind_of_error hends f
  | none =>
    rw [hfind] at hends
    obtain ⟨a, noted, hanswer, hnoted, hsub⟩ := hends
    have hnext := hf a hanswer
    have hends' := hnext.ends
    refine ⟨?_, ?_⟩
    · rw [after_bind_of_ok hanswer]
      exact hnext.strict
    · rw [List.find?_append, hfind, answer_bind_of_ok hanswer, after_bind_of_ok hanswer]
      show match names'.find? isUnstorable with
        | some name => _
        | none => _
      split at hends'
      · exact hends'
      · obtain ⟨b, more, hanswer', hmore, hsub'⟩ := hends'
        refine ⟨b, noted ++ more, hanswer', ?_, hsub.append hsub'⟩
        rw [hmore, hnoted, List.append_assoc]

/-- Faults may be left out of account. -/
theorem mono {m : ParseM α} (h : Tolerates names faults m t) (hsub : faults'.Sublist faults) :
    Tolerates names faults' m t := by
  refine ⟨h.strict, ?_⟩
  have hends := h.ends
  split at hends
  · exact hends
  · obtain ⟨a, noted, hanswer, hnoted, hsub'⟩ := hends
    exact ⟨a, noted, hanswer, hnoted, hsub.trans hsub'⟩

/-- Only the run counts, and the session it starts from may be reached on the way. -/
theorem of_run {m n : ParseM α} {u : Session} (h : Tolerates names faults n u) (hrun : m t = n u)
    (hnotes : u.parser.diagnostics = t.parser.diagnostics) : Tolerates names faults m t := by
  have hends := h.ends
  rw [hnotes] at hends
  exact ⟨(after_congr hrun).symm ▸ h.strict, by rwa [answer_congr hrun, after_congr hrun]⟩

end Tolerates

theorem tolerates_report (ht : t.parser.strict = false) (e : ParseError) :
    Tolerates [] [e] (ParseM.report e) t := by
  have hrun : ParseM.report e t = .ok () { t with parser :=
      { t.parser with diagnostics := t.parser.diagnostics ++ [e] } } := by
    rw [report_run, if_neg (by simp [ht])]
  refine ⟨((steady_report e).strict t).trans ht, (), [e], ?_, ?_, .refl _⟩
  · rw [answer, hrun]
  · rw [after_of_run hrun]

/-! ## Statements -/

theorem tolerates_addValue (ht : t.parser.strict = false) {p : Policy}
    (hp : t.store.dictionary? p = none) (name : String) (line : Nat) (v : Value Policy) :
    Tolerates [name] [] (addValue p name line v) t := by
  have hstrict := ((steady_addValue p name line v).strict t).trans ht
  refine ⟨hstrict, ?_⟩
  cases hname : Name.segments? name with
  | none =>
    have hadd := Store.add_of_unstorable hp hname v
    have hrun : addValue p name line v t = .error (.badName name) t := addValue_of_error hadd
    have hfind : [name].find? isUnstorable = some name := by
      rw [List.find?_cons_of_pos (by simp [isUnstorable, hname])]
    rw [hfind, answer, hrun]
  | some parts =>
    have hfind : [name].find? isUnstorable = none := by
      rw [List.find?_cons_of_neg (by simp [isUnstorable, hname]), List.find?_nil]
    rw [hfind]
    cases hadd : t.store.add p name v with
    | ok s =>
      have hrun := addValue_of_add line hadd
      refine ⟨true, [], by rw [answer, hrun], ?_, .refl _⟩
      rw [after_of_run hrun, List.append_nil]
    | error e =>
      have htype : e.isTypeError = true :=
        Store.isTypeError_of_add hp (by rw [Name.segments, hname]) hadd
      have hrefuse : Tolerates [] [] (refuse line e) t := by
        rw [refuse, if_pos htype]
        have hreport :=
          tolerates_report ht (formatFault line ("array type mismatch: " ++ e.message))
        exact (hreport.bind fun _ _ => .pure hreport.strict false).mono (List.nil_sublist _)
      exact (hrefuse.of_run (addValue_of_error hadd) rfl).ends

theorem tolerates_addItem (ht : t.parser.strict = false) {p : Policy}
    (hp : t.store.dictionary? p = none) (name : String) (item : Item) :
    Tolerates (Statement.names (.values name [item])) (Statement.faults (.values name [item]))
      (addItem p name item) t := by
  cases item with
  | value line v => exact tolerates_addValue ht hp name line _
  | fault e =>
    have hreport := tolerates_report ht e
    exact hreport.bind fun _ _ => .pure hreport.strict false

theorem tolerates_addItems {p : Policy} (name : String) (items : List Item) :
    ∀ {t : Session}, t.parser.strict = false → t.store.dictionary? p = none →
      Tolerates (Statement.names (.values name items)) (Statement.faults (.values name items))
        (addItems p name items) t := by
  induction items with
  | nil => exact fun ht _ => .pure ht false
  | cons item items ih =>
    intro t ht hp
    have hnames : Statement.names (.values name (item :: items)) =
        Statement.names (.values name [item]) ++ Statement.names (.values name items) := by
      simp only [Statement.names]
      rw [← List.map_append, ← List.filter_append, List.singleton_append]
    have hfaults : Statement.faults (.values name (item :: items)) =
        Statement.faults (.values name [item]) ++ Statement.faults (.values name items) := by
      simp only [Statement.faults]
      rw [← List.filterMap_append, List.singleton_append]
    rw [hnames, hfaults]
    have hfirst := tolerates_addItem ht hp name item
    refine hfirst.bind fun first _ => ?_
    have hothers := ih hfirst.strict (((steady_addItem p name item).dictionary t p).trans hp)
    have hboth := hothers.bind (f := fun others => (pure (first || others) : ParseM Bool))
      fun others _ => .pure hothers.strict _
    rwa [List.append_nil, List.append_nil] at hboth

/-- The blocks are those that are open in the session, and none of them has a dictionary. -/
structure OpenBlocks (t : Session) (inner : Block) (outer : List Block) : Prop where
  depth : t.parser.depth = outer.length
  plain : ∀ b ∈ inner :: outer, t.store.dictionary? b.policy = none

namespace OpenBlocks

variable {inner enclosing : Block} {outer : List Block}

theorem after {α : Type} {m : ParseM α} (h : OpenBlocks t inner outer) (hm : Steady m) :
    OpenBlocks (after m t) inner outer where
  depth := (hm.depth t).trans h.depth
  plain b hb := (hm.dictionary t _).trans (h.plain b hb)

theorem counted (h : OpenBlocks t inner outer) (n : Nat) :
    OpenBlocks t { inner with count := n } outer where
  depth := h.depth
  plain b hb := by
    rcases List.mem_cons.mp hb with rfl | hb
    · exact h.plain inner List.mem_cons_self
    · exact h.plain b (List.mem_cons_of_mem _ hb)

theorem opened (h : OpenBlocks t inner outer) (attached : Bool) :
    OpenBlocks t.opened { policy := ⟨t.store.size⟩, attached := attached } (inner :: outer) where
  depth := by
    rw [List.length_cons, ← h.depth]
    rfl
  plain b hb := by
    rcases List.mem_cons.mp hb with rfl | hb
    · show ((t.store.alloc {}).2.node ⟨t.store.size⟩).dictionary = none
      rw [Store.node_alloc, if_pos rfl]
    · exact (Store.dictionary?_alloc t.store [] _).trans (h.plain b hb)

theorem closed (h : OpenBlocks t inner (enclosing :: outer)) :
    OpenBlocks t.closed (inner.close enclosing) outer where
  depth := by
    show t.parser.depth - 1 = outer.length
    rw [h.depth, List.length_cons, Nat.add_sub_cancel]
  plain b hb := by
    rcases List.mem_cons.mp hb with rfl | hb
    · exact h.plain enclosing (by simp)
    · exact h.plain b (by simp [hb])

end OpenBlocks

theorem tolerates_run (statements : List Statement) (hreadable : .unreadable ∉ statements) :
    ∀ (inner : Block) (outer : List Block) {t : Session}, t.parser.strict = false →
      OpenBlocks t inner outer →
      Tolerates (statements.flatMap Statement.names) (statements.flatMap Statement.faults)
        (run inner outer statements) t := by
  induction statements with
  | nil => exact fun inner outer t ht _ => .pure ht _
  | cons statement rest ih =>
    intro inner outer t ht hblocks
    have hrest : .unreadable ∉ rest := fun hmem => hreadable (List.mem_cons_of_mem _ hmem)
    have hinner := hblocks.plain inner List.mem_cons_self
    rw [List.flatMap_cons, List.flatMap_cons]
    cases statement with
    | fault e =>
      have hreport := tolerates_report ht e
      exact hreport.bind fun _ _ => ih hrest _ _ hreport.strict (hblocks.after (steady_report e))
    | values name items =>
      have hitems := tolerates_addItems name items ht hinner
      have hsteady := steady_addItems inner.policy name items
      exact hitems.bind fun _ _ =>
        ih hrest _ outer hitems.strict ((hblocks.after hsteady).counted _)
    | opening line name =>
      have hsub := hblocks.opened false
      have hadd := tolerates_addValue (t := t.opened) ht (hsub.plain inner (by simp)) name line
        (.policy ⟨t.store.size⟩)
      have hsteady := steady_addValue inner.policy name line (.policy ⟨t.store.size⟩)
      exact (hadd.bind fun attached _ =>
        ih hrest { policy := ⟨t.store.size⟩, attached := attached } (inner :: outer) hadd.strict
          ((hblocks.opened attached).after hsteady)).of_run
            (run_opening_eq inner outer line name rest t) rfl
    | closing line followed =>
      by_cases hzero : t.parser.depth = 0
      · have hreport := tolerates_report ht (syntaxFault line "unmatched '\x7d'")
        have hsteady := steady_report (syntaxFault line "unmatched '\x7d'")
        exact ((hreport.bind fun _ _ => ih hrest inner outer hreport.strict
          (hblocks.after hsteady)).mono (List.sublist_cons_self _ _)).of_run
            (run_closing_of_unmatched hzero) rfl
      · cases outer with
        | nil => exact (hzero hblocks.depth).elim
        | cons enclosing others =>
          exact (ih hrest (inner.close enclosing) others (t := t.closed) ht
            hblocks.closed).of_run (run_closing_of_enclosing hzero) rfl
    | unreadable => exact (hreadable List.mem_cons_self).elim

theorem tolerates_finish (ht : t.parser.strict = false) (lines : Nat) (o : Outcome) :
    Tolerates [] [] (finish lines o) t := by
  by_cases hdepth : t.parser.depth = 0
  · exact (Tolerates.pure ht o.count).of_run (finish_of_closed hdepth) rfl
  · have hreport := tolerates_report (t := { t with parser := { t.parser with depth := 0 } }) ht
      ⟨.eof, "end of input with " ++ toString t.parser.depth ++ " unclosed block(s)",
        some (o.stopped.getD lines), none⟩
    exact ((hreport.bind fun _ _ => .pure hreport.strict o.count).mono
      (List.nil_sublist _)).of_run (finish_of_open (by omega)) rfl

/-! ## Texts -/

/-- The line it comes from is text, and a name in it has the form of one. -/
def Statement.IsLegible : Statement → Prop
  | .values name _ => isParameterName name.toList = true
  | .opening _ name => isParameterName name.toList = true
  | .unreadable => False
  | _ => True

def OpenQuote.IsLegible (q : OpenQuote) : Prop := isParameterName q.name.toList = true

def Step.IsLegible : Step → Prop
  | .finished => True
  | .emit s _ => s.IsLegible
  | .pause q => q.IsLegible

theorem isLegible_stepValue (n : Nat) {name : List Char} (h : isParameterName name = true)
    (text : List Char) : (stepValue n name text).IsLegible := by
  have hname : isParameterName (String.ofList name).toList = true := by
    rwa [String.toList_ofList]
  unfold stepValue
  split
  · trivial
  · trivial
  · trivial
  · exact hname
  · split
    · split <;> exact hname
    · split <;> exact hname

theorem isLegible_step (n : Nat) (cs : List Char) : (step n cs).IsLegible := by
  unfold step
  split
  · trivial
  · trivial
  · trivial
  · split
    · trivial
    · split
      · rename_i h
        exact isLegible_stepValue n h _
      · trivial

theorem isLegible_scan (n : Nat) (cs : List Char) :
    (∀ s ∈ (scan n cs).1, s.IsLegible) ∧ ∀ q ∈ (scan n cs).2, q.IsLegible := by
  have hstep := isLegible_step n cs
  fun_induction scan n cs with
  | case1 => simp
  | case2 cs q h =>
    rw [h] at hstep
    exact ⟨fun s hs => (List.not_mem_nil hs).elim, fun _ hq => by cases hq; exact hstep⟩
  | case3 cs s rest h more q heq ih =>
    rw [h] at hstep
    obtain ⟨hmore, hq⟩ := ih (isLegible_step n rest)
    rw [heq] at hmore hq
    exact ⟨List.forall_mem_cons.mpr ⟨hstep, hmore⟩, hq⟩

theorem isLegible_resume {q : OpenQuote} (h : q.IsLegible) (n : Nat) (cs : List Char) :
    (∀ s ∈ (resume q n cs).1, s.IsLegible) ∧ ∀ q' ∈ (resume q n cs).2, q'.IsLegible := by
  unfold resume
  dsimp only
  split
  · exact ⟨fun s hs => (List.not_mem_nil hs).elim, fun _ hq => by cases hq; exact h⟩
  · split
    · rename_i rest _
      obtain ⟨hmore, hq⟩ := isLegible_scan n rest
      exact ⟨List.forall_mem_cons.mpr ⟨h, hmore⟩, hq⟩
    · exact ⟨fun s hs => (List.not_mem_nil hs).elim, fun _ hq => by cases hq; exact h⟩

theorem isLegible_readLine (n : Nat) (cs : List Char) {q : Option OpenQuote}
    (h : ∀ open_ ∈ q, open_.IsLegible) : (∀ s ∈ (readLine n cs q).1, s.IsLegible) ∧
      ∀ open_ ∈ (readLine n cs q).2, open_.IsLegible := by
  cases q with
  | none => exact isLegible_scan n cs
  | some q => exact isLegible_resume (h q rfl) n cs

theorem isLegible_statementsFrom {lines : List Line} (hlines : none ∉ lines) :
    ∀ (n : Nat) {q : Option OpenQuote}, (∀ open_ ∈ q, open_.IsLegible) →
      ∀ s ∈ statementsFrom n q lines, s.IsLegible := by
  induction lines with
  | nil =>
    intro n q h s hs
    cases q with
    | none => cases hs
    | some q => exact List.mem_singleton.mp hs ▸ h q rfl
  | cons line lines ih =>
    intro n q h s hs
    cases line with
    | none => exact (hlines List.mem_cons_self).elim
    | some cs =>
      obtain ⟨hfound, hq⟩ := isLegible_readLine n cs h
      rw [statementsFrom] at hs
      rcases List.mem_append.mp hs with hs | hs
      · exact hfound s hs
      · exact ih (fun hmem => hlines (List.mem_cons_of_mem _ hmem)) _ hq s hs

theorem text_of_mem_linesOfText (text : String) : none ∉ linesOfText text := by
  simp [linesOfText]

theorem isLegible_statements (text : String) : ∀ s ∈ statements (linesOfText text), s.IsLegible :=
  isLegible_statementsFrom (text_of_mem_linesOfText text) 1 fun _ h => by cases h

/-- A name that is written but cannot be stored has a character that is for writing only. -/
theorem exists_of_isUnstorable {name : String} (hname : isParameterName name.toList = true)
    (h : isUnstorable name = true) : ∃ segment ∈ Text.splitOn '.' name.toList, ∃ c ∈ segment,
      Text.isWordChar c = true ∧ Text.isNameChar c = false := by
  have hpieces : (Text.splitOn '.' name.toList).all Name.isSegment = false := by
    cases hall : (Text.splitOn '.' name.toList).all Name.isSegment with
    | false => rfl
    | true =>
      rw [isUnstorable, Name.segments?, if_pos hall] at h
      cases h
  obtain ⟨segment, hmem, hsegment⟩ := List.all_eq_false.mp hpieces
  have hwritten := List.all_eq_true.mp hname segment hmem
  rw [Bool.and_eq_true] at hwritten
  rw [Name.isSegment, hwritten.1, Bool.true_and, Bool.not_eq_true] at hsegment
  obtain ⟨c, hc, hchar⟩ := List.all_eq_false.mp hsegment
  exact ⟨segment, hmem, c, hc, List.all_eq_true.mp hwritten.2 c hc, Bool.not_eq_true _ ▸ hchar⟩

theorem isParameterName_of_mem_names {statement : Statement} (h : statement.IsLegible)
    {name : String} (hname : name ∈ statement.names) : isParameterName name.toList = true := by
  cases statement with
  | values label items =>
    obtain ⟨_, -, rfl⟩ := List.mem_map.mp hname
    exact h
  | opening line label => exact List.mem_singleton.mp hname ▸ h
  | _ => cases hname

/-- A lenient parser whose target has no dictionary reads a text to its end and notes all that is
wrong with it, unless a name in it has a character that may be written but not stored. The first
such name is the only thing that it fails for. -/
theorem lenient_parse_reads_to_end {s : Store} {target : Policy}
    (hplain : s.dictionary? target = none) (text : String) :
    match ((statements (linesOfText text)).flatMap Statement.names).find? isUnstorable with
    | none => ∃ count u, parse target (linesOfText text) ⟨s, { strict := false }⟩ = .ok count u ∧
        ((statements (linesOfText text)).flatMap Statement.faults).Sublist u.parser.diagnostics
    | some name =>
      answer (parse target (linesOfText text)) ⟨s, { strict := false }⟩ = .error (.badName name) ∧
        ∃ segment ∈ Text.splitOn '.' name.toList, ∃ c ∈ segment,
          Text.isWordChar c = true ∧ Text.isNameChar c = false := by
  have hlegible := isLegible_statements text
  have hrun := tolerates_run (statements (linesOfText text)) (fun hmem => hlegible _ hmem)
    { policy := target } [] (t := ⟨s, { strict := false }⟩) rfl
    ⟨rfl, fun b hb => List.mem_singleton.mp hb ▸ hplain⟩
  have hparse := (hrun.bind fun o _ =>
    tolerates_finish hrun.strict (linesOfText text).length o).ends
  rw [← parse_eq, List.append_nil, List.append_nil] at hparse
  split at hparse
  · rename_i name hfind
    rw [hfind]
    obtain ⟨statement, hstatement, hname⟩ :=
      List.mem_flatMap.mp (List.mem_of_find?_eq_some hfind)
    exact ⟨hparse, exists_of_isUnstorable
      (isParameterName_of_mem_names (hlegible statement hstatement) hname)
      (List.find?_some hfind)⟩
  · rename_i hfind
    rw [hfind]
    obtain ⟨count, noted, hcount, hnoted, hsub⟩ := hparse
    exact ⟨count, _, ok_of_answer hcount, hnoted ▸ hsub⟩

theorem lenient_parse_reads_to_end_of_missing_value :
    (⟨#[{}]⟩ : Store).dictionary? ⟨0⟩ = none ∧
      ∃ count u, parse ⟨0⟩ (linesOfText "a:\n\x7d b: x y\n") ⟨⟨#[{}]⟩, { strict := false }⟩ =
        .ok count u ∧ [syntaxFault 1 "missing value for a"].Sublist u.parser.diagnostics := by
  have hplain : (⟨#[{}]⟩ : Store).dictionary? ⟨0⟩ = none := rfl
  have hnames : ((statements (linesOfText "a:\n\x7d b: x y\n")).flatMap Statement.names).find?
      isUnstorable = none := by
    decide +kernel
  have hfaults : (statements (linesOfText "a:\n\x7d b: x y\n")).flatMap Statement.faults =
      [syntaxFault 1 "missing value for a"] := by
    decide +kernel
  have h := lenient_parse_reads_to_end hplain "a:\n\x7d b: x y\n"
  rw [hnames, hfaults] at h
  exact ⟨hplain, h⟩

/-- A combining mark may be written in a name, and even a lenient parser fails for it. -/
theorem lenient_parse_fails_for_combining_mark :
    answer (parse ⟨0⟩ (linesOfText "e\u0301: 1")) ⟨⟨#[{}]⟩, { strict := false }⟩ =
      .error (.badName "e\u0301") := by
  decide +kernel

end Paf

end PolicyStore
