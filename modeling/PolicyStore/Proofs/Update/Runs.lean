import Mathlib
import PolicyStore.Proofs.Schema.Admission
import PolicyStore.Proofs.Schema.Inside
import PolicyStore.Proofs.Store.Linking
import PolicyStore.Proofs.Store.Trees

set_option autoImplicit false

namespace PolicyStore

/-!
# Runs of writes

A policy with a dictionary is written to under names without dots, again and again. Each write is
checked against the dictionary value by value, and whatever has been written and removed so far, the
arrays that the policy holds are admitted by their definitions.
-/

/-! ## Handles alone -/

/-- Allowed policies are told by their handles. -/
theorem Allowed.judge_map (a : Allowed) {f g : Policy → Tree} (hf : ∀ q, (f q).handle = q)
    (hg : ∀ q, (g q).handle = q) (v : Value Policy) : a.judge (v.map f) = a.judge (v.map g) := by
  have hsame (q : Policy) (w : Value Tree) :
      (Value.policy (f q)).sameNumber w = (Value.policy (g q)).sameNumber w := by
    cases w <;> simp [Value.sameNumber, Value.number?, Value.same, hf, hg]
  have hless (q : Policy) (w : Value Tree) : (Value.policy (f q)).less w = (Value.policy (g q)).less w ∧
      w.less (.policy (f q)) = w.less (.policy (g q)) := by
    cases w <;> simp [Value.less, Value.number?]
  cases v with
  | policy q => simp [Value.map, judge, hsame, (hless q _).1, (hless q _).2]
  | _ => rfl

theorem Definition.Admits.map_congr {d : Definition} {vs : Values Policy} {f g : Policy → Tree}
    (h : d.Admits (vs.map f)) (hf : ∀ q, (f q).handle = q) (hg : ∀ q, (g q).handle = q) :
    d.Admits (vs.map g) where
  kind := by
    have hkind := h.kind
    rwa [Values.kind_map] at hkind ⊢
  count := by
    have hcount := h.count
    rwa [Values.length, Values.toList_map, List.length_map] at hcount ⊢
  each := by
    rw [Values.toList_map]
    intro w hw
    obtain ⟨v, hv, rfl⟩ := List.mem_map.mp hw
    rw [d.allowed.judge_map hg hf]
    refine h.each _ ?_
    rw [Values.toList_map]
    exact List.mem_map_of_mem hv

/-! ## Writes -/

/-- A write under a name. -/
inductive Write where
  | set (v : Value Policy)
  | add (v : Value Policy)
  | setValues (values : Values Policy)
  | remove

namespace Write

def run (w : Write) (p : Policy) (name : String) : StoreM Unit :=
  match w with
  | set v => p.set name v
  | add v => p.add name v
  | setValues values => p.setValues name values
  | remove => do
    let _ ← p.remove name

/-- The store after a write, whether it succeeds or fails. -/
def after (p : Policy) (s : Store) (write : String × Write) : Store :=
  match write.2.run p write.1 s with
  | .ok _ s' => s'
  | .error _ s' => s'

end Write

namespace Store

section Apart

variable {s : Store} {p q : Policy}

theorem schema_setEntries (rows : Entries Policy) {d : Dictionary}
    (hapart : ∀ c ∈ d.entries.flatMap fun row => row.2.children, ¬s.Reaches c p) :
    (s.setEntries p rows).schema d = s.schema d := by
  unfold schema treesOf
  rw [size_setEntries]
  refine congrArg Schema.mk (List.map_congr_left fun row hrow => ?_)
  refine congrArg (Prod.mk row.1) (Values.map_congr fun c hc => ?_)
  exact unfold_congr not_reaches_below (fun _ => entries_setEntries_of_not_reaches rows)
    (fun q _ => dictionary?_setEntries s p q rows)
    (hapart c (List.mem_flatMap.mpr ⟨row, hrow, hc⟩))

end Apart

/-- Every array of a policy is admitted by the definition of its name. -/
structure Orderly (s : Store) (p : Policy) (d : Dictionary) (schema : Schema) : Prop where
  lt_size : p.id < s.size
  attached : s.dictionary? p = some d
  schema_eq : s.schema d = schema
  apart : ∀ c ∈ d.entries.flatMap fun row => row.2.children, ¬s.Reaches c p
  sorted : Table.Sorted (s.entries p)
  admitted : ∀ name vs, Table.get? name (s.entries p) = some vs →
    Name.segments name = .ok [name] ∧ ∃ definition, schema.Defines name definition ∧
      definition.Admits (vs.map s.tree)

namespace Orderly

variable {s s' : Store} {p : Policy} {d : Dictionary} {schema : Schema} {name : String}
  {rows : Entries Policy}

/-- Only the rows of the policy change, so the dictionary and the admitted arrays stay. -/
theorem setEntries (h : s.Orderly p d schema) (hsorted : Table.Sorted rows)
    (hrows : ∀ name vs, Table.get? name rows = some vs →
      Table.get? name (s.entries p) = some vs ∨
      Name.segments name = .ok [name] ∧ ∃ definition, schema.Defines name definition ∧
        definition.Admits (vs.map s.tree)) :
    (s.setEntries p rows).Orderly p d schema where
  lt_size := by
    rw [size_setEntries]
    exact h.lt_size
  attached := by
    rw [dictionary?_setEntries]
    exact h.attached
  schema_eq := (schema_setEntries rows h.apart).trans h.schema_eq
  apart c hc hreach := by
    have hback := (reaches_congr not_reaches_below
      (fun _ => entries_setEntries_of_not_reaches rows) (h.apart c hc) hreach).1
    exact h.apart c hc hback
  sorted := by
    rw [entries_setEntries_self h.lt_size]
    exact hsorted
  admitted name vs hget := by
    rw [entries_setEntries_self h.lt_size] at hget
    obtain ⟨hname, definition, hd, hadmits⟩ := (hrows name vs hget).elim (h.admitted name vs) id
    exact ⟨hname, definition, hd, hadmits.map_congr s.handle_tree (handle_tree _)⟩

theorem insert (h : s.Orderly p d schema) {vs : Values Policy} {definition : Definition}
    (hname : Name.segments name = .ok [name]) (hd : schema.Defines name definition)
    (hadmits : definition.Admits (vs.map s.tree)) :
    (s.setEntries p (Table.insert name vs (s.entries p))).Orderly p d schema := by
  refine h.setEntries (Table.sorted_insert h.sorted _ _) fun other ws hget => ?_
  by_cases heq : other = name
  · subst heq
    rw [Table.get?_insert_self] at hget
    cases hget
    exact Or.inr ⟨hname, definition, hd, hadmits⟩
  · rw [Table.get?_insert_of_ne heq] at hget
    exact Or.inl hget

theorem erase (h : s.Orderly p d schema) (name : String) :
    (s.setEntries p (Table.erase name (s.entries p))).Orderly p d schema := by
  refine h.setEntries (Table.sorted_erase h.sorted _) fun other ws hget => ?_
  by_cases heq : other = name
  · rw [heq, Table.get?_erase_self] at hget
    cases hget
  · rw [Table.get?_erase_of_ne heq] at hget
    exact Or.inl hget

/-- A value is approved only if the name has a definition that does not object to it. -/
theorem exists_of_approve (h : s.Orderly p d schema) (hname : Name.segments name = .ok [name])
    {v : Value Policy} {count : Nat} (happrove : s.approve p name v count = .ok ()) :
    ∃ definition, schema.Defines name definition ∧
      (s.schema d).lookup name = .ok definition ∧
      definition.judgeValue (v.map s.tree) (some count) = .none := by
  cases hlookup : (s.schema d).lookup name with
  | ok definition =>
    have hleads := (Schema.lookup_eq_ok_iff hname).mp hlookup
    rw [h.schema_eq] at hleads
    cases hleads with
    | last hd => exact ⟨definition, hd, rfl,
        (approve_eq_ok_iff_of_lookup h.attached hlookup).mp happrove⟩
  | error e =>
    rw [approve_eq_ok_iff, objection] at happrove
    simp only [h.attached, hlookup] at happrove
    cases e <;> cases happrove

/-! ## One write -/

/-- A name without dots that is not legal has no place. -/
theorem segments_of_place (hdot : '.' ∉ name.toList) {spot : Place}
    (hspot : s.place p name = .ok spot) : Name.segments name = .ok [name] := by
  obtain ⟨path, hpath, _⟩ := Except.bind_eq_ok hspot
  refine (Name.segments_of_dot_not_mem hdot).resolve_right fun hbad => ?_
  cases hbad.symm.trans hpath

theorem set (h : s.Orderly p d schema) (hdot : '.' ∉ name.toList) {v : Value Policy}
    (hrun : s.set p name v = .ok s') : s'.Orderly p d schema := by
  obtain ⟨_, happrove, hput⟩ := Except.bind_eq_ok hrun
  obtain ⟨_, hspot, _⟩ := Except.bind_eq_ok hput
  have hname := segments_of_place hdot hspot
  obtain ⟨definition, hd, _, hjudge⟩ := h.exists_of_approve hname happrove
  rw [set_eq_setEntries hname hrun]
  refine h.insert hname hd ((Definition.admits_iff_judgeValue ?_).mpr fun i w hw => ?_)
  · cases v <;> rfl
  · rw [Values.toList_map, Values.toList_singleton] at hw
    cases i with
    | zero =>
      cases hw
      exact hjudge
    | succ i => cases hw

theorem setValues (h : s.Orderly p d schema) (hdot : '.' ∉ name.toList) {vs : Values Policy}
    (hrun : s.setValues p name vs = .ok s') : s'.Orderly p d schema := by
  obtain ⟨_, happrove, hput⟩ := Except.bind_eq_ok hrun
  obtain ⟨_, hspot, _⟩ := Except.bind_eq_ok hput
  have hname := segments_of_place hdot hspot
  cases hne : vs.isEmpty with
  | true =>
    have hwrite : s.put p name vs = .ok (s.setEntries p (Table.erase name (s.entries p))) := by
      simp [put, place_of_segment hname, write, nest, hne, bind, Except.bind, pure, Except.pure]
    cases hwrite.symm.trans hput
    exact h.erase name
  | false =>
    -- The first of the values has been approved, so the name has a definition.
    obtain ⟨v, rest, hlist⟩ := List.exists_cons_of_ne_nil (List.isEmpty_eq_false_iff.mp hne)
    have hfirst := approveAll_eq_ok_iff.mp happrove 0 v (by rw [hlist]; rfl)
    obtain ⟨definition, hd, hlookup, _⟩ := h.exists_of_approve hname hfirst
    cases (put_eq_setEntries hname hne).symm.trans hput
    exact h.insert hname hd ((approveAll_eq_ok_iff_admits h.attached hlookup hne).mp happrove)

theorem add (h : s.Orderly p d schema) (hdot : '.' ∉ name.toList) {v : Value Policy}
    (hrun : s.add p name v = .ok s') : s'.Orderly p d schema := by
  obtain ⟨_, happrove, hrun⟩ := Except.bind_eq_ok hrun
  obtain ⟨spot, hspot, hrun⟩ := Except.bind_eq_ok hrun
  have hname := segments_of_place hdot hspot
  obtain ⟨definition, hd, _, hjudge⟩ := h.exists_of_approve hname happrove
  cases (place_of_segment hname).symm.trans hspot
  generalize hold : s.valuesAt ⟨p, name, []⟩ v.kind = old at hrun
  -- The number of values that the check has counted is that of the array that grows.
  have hcount : s.count p name = (old.map s.tree).length ∧
      ∀ w ∈ (old.map s.tree).toList, definition.allowed.judge w = .none := by
    have hfind : s.find? p name = Table.get? name (s.entries p) := by
      simp [find?, Entries.find?, Entries.lookup, hname, bind, Except.bind, Entries.descend]
    rw [← hold, count, hfind, valuesAt, Values.length, Values.toList_map, List.length_map]
    cases hget : Table.get? name (s.entries p) with
    | none => cases v <;> exact ⟨rfl, fun w hw => by cases hw⟩
    | some vs =>
      obtain ⟨_, other, hother, hadmits⟩ := h.admitted name vs hget
      obtain rfl := hd.unique hother
      rw [← Values.toList_map]
      exact ⟨rfl, hadmits.each⟩
  cases hpush : old.push? v with
  | none =>
    simp only [hpush] at hrun
    cases hrun
  | some vs =>
    simp only [hpush] at hrun
    cases hrun
    have hmapped : (old.map s.tree).push? (v.map s.tree) = some (vs.map s.tree) := by
      rw [Values.push?_map, hpush]
      rfl
    rw [hcount.1] at hjudge
    have hne : vs.isEmpty = false := by
      simp [Values.isEmpty, Values.toList_push? hpush]
    have hwrite : s.write ⟨p, name, []⟩ vs =
        s.setEntries p (Table.insert name vs (s.entries p)) := write_eq hne
    rw [hwrite]
    exact h.insert hname hd (Definition.admits_of_push? hmapped hcount.2 hjudge)

theorem remove (h : s.Orderly p d schema) (hdot : '.' ∉ name.toList) {found : Bool}
    (hrun : s.remove p name = .ok (found, s')) : s'.Orderly p d schema := by
  obtain ⟨_, hspot, _⟩ := Except.bind_eq_ok hrun
  have hname := segments_of_place hdot hspot
  cases hget : Table.get? name (s.entries p) with
  | none =>
    have hsame : s.remove p name = .ok (false, s) := by
      simp [Store.remove, place_of_segment hname, hget, bind, Except.bind, pure, Except.pure]
    cases hsame.symm.trans hrun
    exact h
  | some vs =>
    cases (remove_eq_setEntries hname hget).symm.trans hrun
    exact h.erase name

/-- A write under a name without dots keeps all arrays admitted, whether it succeeds or fails. -/
theorem after (h : s.Orderly p d schema) {write : String × Write} (hdot : '.' ∉ write.1.toList) :
    (Write.after p s write).Orderly p d schema := by
  obtain ⟨name, w⟩ := write
  cases w with
  | set v =>
    simp only [Write.after, Write.run, Policy.set, StoreM.update]
    cases hrun : s.set p name v with
    | ok s' => exact h.set hdot hrun
    | error e => exact h
  | add v =>
    simp only [Write.after, Write.run, Policy.add, StoreM.update]
    cases hrun : s.add p name v with
    | ok s' => exact h.add hdot hrun
    | error e => exact h
  | setValues vs =>
    simp only [Write.after, Write.run, Policy.setValues, StoreM.update]
    cases hrun : s.setValues p name vs with
    | ok s' => exact h.setValues hdot hrun
    | error e => exact h
  | remove =>
    simp only [Write.after, Write.run, Policy.remove, bind, EStateM.bind]
    cases hrun : s.remove p name with
    | ok removed => exact h.remove hdot hrun
    | error e => exact h

/-! ## Validation -/

/-- A policy without arrays. -/
theorem of_empty (hp : p.id < s.size) (hempty : s.entries p = [])
    (hattached : s.dictionary? p = some d)
    (hapart : ∀ c ∈ d.entries.flatMap fun row => row.2.children, ¬s.Reaches c p) :
    s.Orderly p d (s.schema d) where
  lt_size := hp
  attached := hattached
  schema_eq := rfl
  apart := hapart
  sorted := by
    rw [hempty]
    exact List.Pairwise.nil
  admitted name vs hget := by
    rw [hempty] at hget
    cases hget

/-- What is found under a name without dots is about the array there. -/
theorem eq_judgeRow_of_mem_findings {t : Tree} {values : Values Tree} {code : Code}
    (hsorted : Table.Sorted t.entries) (hdot : '.' ∉ name.toList)
    (hget : Table.get? name t.entries = some values) (hfound : (name, code) ∈ schema.findings t) :
    code = schema.judgeRow name values := by
  have hplain {key rest : String} : name ≠ key ++ "." ++ rest := by
    rintro rfl
    apply hdot
    simp
  obtain ⟨handle, dictionary, rows⟩ := t
  rw [Schema.findings, List.mem_append, Schema.mem_findingsOfRows_iff,
    Schema.mem_absences_iff] at hfound
  rcases hfound with ⟨key, others, hrow, heq | hbelow⟩ | ⟨_, habsent, _⟩
  · cases heq
    cases hget.symm.trans (Table.get?_of_mem hsorted hrow)
    rfl
  · obtain ⟨_, _, rest, _, _, _, hname⟩ := Schema.mem_findingsBelow_iff.mp hbelow
    exact (hplain hname).elim
  · cases hget.symm.trans habsent

/-- A run of writes under names without dots keeps all arrays admitted. -/
theorem run {writes : List (String × Write)} : ∀ {s : Store}, s.Orderly p d schema →
    (∀ write ∈ writes, '.' ∉ write.1.toList) →
    (writes.foldl (Write.after p) s).Orderly p d schema := by
  induction writes with
  | nil => exact fun h _ => h
  | cons write writes ih =>
    intro s h hdots
    exact ih (h.after (hdots write List.mem_cons_self)) fun other hother =>
      hdots other (List.mem_cons_of_mem _ hother)

/-- The row of a name in the tree of the policy, and the definition that admits it. -/
theorem exists_row (h : s.Orderly p d schema) (hname : name ∈ s.names p .all true) :
    Name.segments name = .ok [name] ∧ Table.Sorted (s.tree p).entries ∧
      ∃ values definition, Table.get? name (s.tree p).entries = some values ∧
        schema.Defines name definition ∧ definition.Admits values := by
  obtain ⟨n, hn⟩ := Nat.exists_eq_add_one_of_ne_zero (Nat.ne_zero_of_lt h.lt_size)
  have hrows : (s.tree p).entries =
      (s.entries p).map fun row => (row.1, row.2.map (s.unfold n)) := by
    rw [tree, hn]
    rfl
  have hkey : name ∈ Table.keys (s.entries p) := by
    simpa [names, Tree.topNames, NameFilter.accepts, Table.keys] using hname
  obtain ⟨vs, hvs⟩ := Option.ne_none_iff_exists'.mp (mt Table.get?_eq_none_iff.mp (not_not_intro hkey))
  obtain ⟨hsegments, definition, hd, hadmits⟩ := h.admitted name vs hvs
  rw [hrows]
  refine ⟨hsegments, Table.sorted_map h.sorted _, vs.map (s.unfold n), definition, ?_, hd, ?_⟩
  · rw [Table.get?_map, hvs]
    rfl
  · exact hadmits.map_congr s.handle_tree (s.handle_unfold n)

end Orderly

end Store

/-- A policy that is empty when a dictionary is attached to it, and that is then written to under
names without dots, holds only names that the dictionary defines, and a validation at any point of
the run finds nothing wrong with its arrays but that they have too few values. Whether the single
writes succeed or fail makes no difference. The policy is not a part of its own dictionary, which is
read while the policy is written to. -/
theorem Policy.writes_stay_valid {s₀ : Store} {p : Policy} {d : Dictionary} (hp : p.id < s₀.size)
    (hempty : s₀.entries p = []) (hattached : s₀.dictionary? p = some d)
    (hapart : ∀ c ∈ d.entries.flatMap fun row => row.2.children, ¬s₀.Reaches c p)
    (writes : List (String × Write)) (hdots : ∀ write ∈ writes, '.' ∉ write.1.toList) :
    let s := writes.foldl (Write.after p) s₀
    ∃ report, s.validate p (some .empty) = .ok (some report) ∧ ∀ name ∈ s.names p .all true,
      (report.codeAt name).contains .unknownName = false ∧
      (report.codeAt name).contains .badDefinition = false ∧
      ∃ definition, (s.schema d).lookup name = .ok definition ∧
        ((∀ path, definition.sub ≠ .unloaded path) → report.codeAt name ≤ .tooFewValues) := by
  intro s
  have h : s.Orderly p d (s₀.schema d) :=
    (Store.Orderly.of_empty hp hempty hattached hapart).run hdots
  refine ⟨Report.empty.record ((s.schema d).findings (s.tree p)), ?_, fun name hname => ?_⟩
  · rw [Store.validate, h.attached]
    exact congrArg (fun report => Except.ok (some report)) (Report.empty_absorb _)
  obtain ⟨hsegments, hsorted, values, definition, hget, hd, hadmits⟩ := h.exists_row hname
  rw [h.schema_eq]
  have hdot := Name.dot_not_mem_of_isSegment (Name.isSegment_of_segments_self hsegments)
  -- The code of the name is below whatever is above all that the definition blames on the array.
  have hbelow {u : Code} (hu : definition.judgeArray values ≤ u) :
      (Report.empty.record ((s₀.schema d).findings (s.tree p))).codeAt name ≤ u := by
    refine Report.codeAt_record_le_iff.mpr ⟨bot_le, fun code hfound => ?_⟩
    rw [Store.Orderly.eq_judgeRow_of_mem_findings hsorted hdot hget hfound, Schema.judgeRow,
      Schema.definition?_eq_ok_iff.mpr hd]
    exact hu
  refine ⟨?_, ?_, definition, (Schema.lookup_eq_ok_iff hsegments).mpr (.last hd), fun hloaded => ?_⟩
  · exact Code.contains_eq_false_of_le_allBut rfl
      (hbelow (definition.judgeArray_le_allBut values (Or.inl rfl)))
  · exact Code.contains_eq_false_of_le_allBut rfl
      (hbelow (definition.judgeArray_le_allBut values (Or.inr rfl)))
  · exact hbelow (hadmits.judgeArray_le hloaded)

/-- Two values are added of the two that are required, a third one and other names are refused, and
a value is removed and written again in the end. -/
theorem Policy.writes_stay_valid_pair :
    let s₀ : Store := ⟨#[{ entries := [("a", .policies [⟨1⟩])] },
      { entries := [("maxOccurs", .ints [2]), ("minOccurs", .ints [2]),
        ("type", .strings ["int"])] },
      { dictionary := some ⟨[("definitions", .policies [⟨0⟩])]⟩ }]⟩
    let s := [("a", Write.set (.int 5)), ("a", .add (.int 6)), ("a", .add (.int 7)),
      ("a", .set (.string "x")), ("b", .set (.int 5)), ("a", .remove),
      ("a", .setValues (.ints [8]))].foldl (Write.after ⟨2⟩) s₀
    s.entries ⟨2⟩ = [("a", .ints [8])] ∧
    ∃ report, s.validate ⟨2⟩ (some .empty) = .ok (some report) ∧
      (report.codeAt "a").contains .unknownName = false ∧ report.codeAt "a" ≤ .tooFewValues := by
  intro s₀ s
  have hrows : s.entries ⟨2⟩ = [("a", .ints [8])] := by
    decide +kernel
  have hclosed : ∀ i < 2, ∀ c ∈ s₀.below ⟨i⟩, c.id < 2 := by
    decide
  have hreach (q : Policy) (h : s₀.Reaches ⟨0⟩ q) : q.id < 2 := by
    induction h with
    | refl => decide
    | tail _ hstep ih => exact hclosed _ ih _ hstep
  have hattached : s₀.dictionary? ⟨2⟩ = some ⟨[("definitions", .policies [⟨0⟩])]⟩ := rfl
  have hapart : ∀ c ∈ [(⟨0⟩ : Policy)], ¬s₀.Reaches c ⟨2⟩ := by
    intro c hc h
    cases List.mem_singleton.mp hc
    exact absurd (hreach _ h) (by decide)
  have hdots : ∀ write ∈ [("a", Write.set (.int 5)), ("a", .add (.int 6)), ("a", .add (.int 7)),
      ("a", .set (.string "x")), ("b", .set (.int 5)), ("a", .remove), ("a", .setValues (.ints [8]))],
      '.' ∉ write.1.toList := by
    decide +kernel
  obtain ⟨report, hreport, hnames⟩ :=
    writes_stay_valid (by decide) (by rfl) hattached hapart _ hdots
  have hname : "a" ∈ s.names ⟨2⟩ .all true := by
    rw [Store.names, if_pos rfl, hrows]
    exact List.mem_singleton_self "a"
  obtain ⟨hunknown, _, definition, hlookup, hcode⟩ := hnames "a" hname
  refine ⟨hrows, report, hreport, hunknown, hcode fun path hsub => ?_⟩
  rw [((Store.Orderly.of_empty (by decide) (by rfl) hattached hapart).run hdots).schema_eq] at hlookup
  have hplain : (s₀.schema ⟨[("definitions", .policies [⟨0⟩])]⟩).lookup "a" = .ok
      { name := "a", kind := some .int, minOccurs := 2, maxOccurs := some 2 } := by
    cbv
  cases hplain.symm.trans hlookup
  cases hsub

end PolicyStore
