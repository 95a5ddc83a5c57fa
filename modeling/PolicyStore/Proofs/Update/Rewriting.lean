import Mathlib
import PolicyStore.DictionaryFiles
import PolicyStore.Proofs.Schema.Admission
import PolicyStore.Proofs.Schema.Inside
import PolicyStore.Proofs.Store.Forest
import PolicyStore.Proofs.Store.Trees
import PolicyStore.Proofs.Store.Ways

set_option autoImplicit false

namespace PolicyStore

/-!
# Writing again what is there

A validation goes down the policy and stops where a definition has no dictionary; a write goes down
the dictionary along the name. On a policy that nothing is wrong with the two come to the same
definitions, up to the place where the validation stops.
-/

/-! ## Policies that pass -/

namespace Schema

/-- A schema has nothing against a policy. -/
def Passes (s : Schema) (t : Tree) : Prop := ∀ f ∈ s.findings t, f.2 = .none

variable {s inner : Schema} {t c : Tree} {key : String} {values : Values Tree} {d : Definition}

theorem Passes.row (h : s.Passes t) (hrow : (key, values) ∈ t.entries) :
    ∃ d, s.Defines key d ∧ d.judgeArray values = .none := by
  obtain ⟨handle, dictionary, rows⟩ := t
  have hjudge : s.judgeRow key values = .none := by
    refine h (key, _) ?_
    rw [findings, List.mem_append, mem_findingsOfRows_iff]
    exact Or.inl ⟨key, values, hrow, Or.inl rfl⟩
  unfold judgeRow at hjudge
  split at hjudge
  · cases hjudge
  · cases hjudge
  · rename_i d hd
    exact ⟨d, definition?_eq_ok_iff.mp hd, hjudge⟩

theorem Passes.child (h : s.Passes t) (hrow : (key, values) ∈ t.entries) (hd : s.Defines key d)
    (hsub : d.sub = .inline inner) (hc : c ∈ values.children) : inner.Passes c := by
  obtain ⟨e, he, hjudge⟩ := h.row hrow
  obtain rfl := hd.unique he
  have hkind : d.Accepts .policy := by
    have haccept := (Definition.admits_of_judgeArray hjudge).kind
    cases values with
    | policies _ => exact haccept
    | _ => cases hc
  intro f hf
  refine h (key ++ "." ++ f.1, f.2) ?_
  obtain ⟨handle, dictionary, rows⟩ := t
  rw [findings, List.mem_append, mem_findingsOfRows_iff]
  refine Or.inl ⟨key, values, hrow, Or.inr (mem_findingsBelow_iff.mpr ?_)⟩
  exact ⟨inner, c, f.1, below?_eq_some_iff.mpr ⟨d, hd, hkind, hsub⟩, hc, hf, rfl⟩

/-- On the way to a definition there is a dictionary inside every other one. -/
theorem Leads.front {front back : List String} (hfront : front ≠ []) (hback : back ≠ []) :
    ∀ {s : Schema}, s.Leads (front ++ back) d →
      ∃ e inner, s.Leads front e ∧ e.sub = .inline inner := by
  induction front with
  | nil => exact (hfront rfl).elim
  | cons name front ih =>
    intro s h
    obtain ⟨next, rest, hnext⟩ : ∃ next rest, front ++ back = next :: rest :=
      List.exists_cons_of_ne_nil (List.append_ne_nil_of_right_ne_nil _ hback)
    rw [List.cons_append, hnext] at h
    cases h with
    | step he hsub h =>
      rw [← hnext] at h
      cases front with
      | nil => exact ⟨_, _, .last he, hsub⟩
      | cons first front =>
        obtain ⟨e, sub, hfront, hinline⟩ := ih (List.cons_ne_nil _ _) h
        exact ⟨e, sub, .step he hsub hfront, hinline⟩

/-- Nothing is known of names below a definition without a dictionary. -/
theorem Leads.follow_append {front back : List String} (h : s.Leads front d) (hsub : d.sub = .none)
    (hback : back ≠ []) (full : String) : ∀ done : List String,
      follow full done s (front ++ back) = .error (.nameNotFound full) := by
  induction h with
  | last hd =>
    intro done
    obtain ⟨next, rest, rfl⟩ := List.exists_cons_of_ne_nil hback
    simp only [List.singleton_append, follow, definitionFor_eq_ok_iff.mpr hd, enter, hsub, bind,
      Except.bind]
  | step he hinline _ ih =>
    intro done
    simp only [List.cons_append, follow, definitionFor_eq_ok_iff.mpr he,
      enter_eq_ok_iff.mpr hinline, bind, Except.bind]
    exact ih hsub _

end Schema

namespace Definition

/-- An array of policies that nothing is wrong with is not waiting for a dictionary file. -/
theorem sub_ne_unloaded {d : Definition} {children : List Tree} {t : Tree}
    (h : d.judgeArray (.policies children) = .none) (ht : t ∈ children) (path : String) :
    d.sub ≠ .unloaded path := by
  intro hsub
  have hblame : d.BlamesArray (.policies children) .notLoaded :=
    .schemaNotLoaded (admits_of_judgeArray h).kind (List.mem_map_of_mem ht) hsub
  have hcode := judgeArray_le_iff.mp h.le _ hblame
  revert hcode
  decide

end Definition

/-! ## Places that hold something -/

namespace Store

variable {s : Store} {p : Policy} {d : Dictionary} {name : String} {n : Nat}

theorem setEntries_entries (s : Store) (p : Policy) : s.setEntries p (s.entries p) = s := by
  simp only [setEntries, modify]
  refine congrArg mk (Array.ext_getElem? fun i => ?_)
  rw [Array.getElem?_modify]
  split
  · rename_i heq
    subst heq
    cases hnode : s.nodes[p.id]? with
    | none => rfl
    | some node => simp [entries, Store.node, hnode]
  · rfl

theorem way_of_values {vs : Values Policy} (h : s.values p name = .ok vs) :
    ∃ front key r, Name.segments name = .ok (front ++ [key]) ∧ s.Way p front r ∧
      Table.get? key (s.entries r) = some vs := by
  obtain ⟨found, hlookup, h⟩ := Except.bind_eq_ok h
  obtain ⟨path, hname, hfound⟩ := Except.bind_eq_ok hlookup
  cases found with
  | none => cases h
  | some vs =>
    cases h
    obtain ⟨front, key, r, rfl, hway, hget⟩ := way_of_descend hfound
    exact ⟨front, key, r, hname, hway, hget⟩

/-- Putting an array where it is changes nothing. -/
theorem put_of_values (hs : s.WellFormed) {vs : Values Policy} (hne : vs.isEmpty = false)
    (hvalues : s.values p name = .ok vs) : s.put p name vs = .ok s := by
  obtain ⟨front, key, r, hname, hway, hget⟩ := way_of_values hvalues
  have hwrite : s.write ⟨r, key, []⟩ vs = s := by
    rw [write_eq hne]
    simp only [nest, Table.insert_of_get? (hs.sorted r) hget, setEntries_entries]
  rw [put_eq_map hname, hway.placeFrom, Except.map, hwrite]

/-! ## Both ways down -/

theorem WellFormed.row_tree (hs : s.WellFormed) (hp : p.id < s.size) (hn : s.Within n p)
    {key : String} {vs : Values Policy} (hget : Table.get? key (s.entries p) = some vs) :
    (key, vs.map s.tree) ∈ (s.tree p).entries := by
  rw [hs.entries_tree hp hn]
  apply Table.mem_of_get?
  rw [get?_treesOf, hget]
  rfl

/-- Where a path leads to an array in a policy that passes, it leads through the schema as well, or
the schema ends at a definition without a dictionary. -/
theorem leads_of_passes (hs : s.WellFormed) {front : List String} {r : Policy}
    (hway : s.Way p front r) {key : String} {vs : Values Policy}
    (hget : Table.get? key (s.entries r) = some vs) :
    ∀ {schema : Schema}, p.id < s.size → s.Within n p → schema.Passes (s.tree p) →
      (∃ definition, schema.Leads (front ++ [key]) definition ∧
        definition.judgeArray (vs.map s.tree) = .none) ∨
      ∃ above below definition, front ++ [key] = above ++ below ∧ above ≠ [] ∧ below ≠ [] ∧
        schema.Leads above definition ∧ definition.sub = .none := by
  induction hway with
  | here p =>
    intro schema hp hn hpasses
    obtain ⟨definition, hd, hjudge⟩ := hpasses.row (hs.row_tree hp hn hget)
    exact Or.inl ⟨definition, .last hd, hjudge⟩
  | @step p c r first path children hrow hlast _ ih =>
    intro schema hp hn hpasses
    have hrows := hs.row_tree hp hn hrow
    obtain ⟨definition, hd, hjudge⟩ := hpasses.row hrows
    have hmem : c ∈ children := List.mem_of_getLast? hlast
    have hbelow := mem_below_of_get? hrow hmem
    have htree : s.tree c ∈ children.map s.tree := List.mem_map_of_mem hmem
    -- The way through the schema goes on where the definition has a dictionary, and ends without one.
    cases hsub : definition.sub with
    | none =>
      exact Or.inr ⟨[first], path ++ [key], definition, rfl, List.cons_ne_nil _ _,
        List.append_ne_nil_of_right_ne_nil _ (List.cons_ne_nil _ _), .last hd, hsub⟩
    | unloaded file => exact (Definition.sub_ne_unloaded hjudge htree file hsub).elim
    | inline inner =>
      have hinner := hpasses.child hrows hd hsub htree
      rcases ih hget (hs.closed p c hbelow) (hn.of_mem_below hbelow) hinner with
        ⟨e, he, hjudge'⟩ | ⟨above, below, e, heq, -, hbelow, he, hnone⟩
      · exact Or.inl ⟨e, he.cons hd hsub, hjudge'⟩
      · exact Or.inr ⟨first :: above, below, e, congrArg (first :: ·) heq, List.cons_ne_nil _ _,
          hbelow, he.cons hd hsub, hnone⟩

/-- A name that is looked up in vain is refused as unknown. -/
theorem approveAll_of_unknown (hdict : s.dictionary? p = some d) {full : String}
    (hunknown : (s.schema d).lookup name = .error (.nameNotFound full)) {vs : Values Policy}
    (hne : vs.isEmpty = false) (count : Nat) : s.approveAll p name count vs.toList =
      .error (.validation (Report.empty.add name .unknownName)) := by
  rw [Values.isEmpty, List.isEmpty_eq_false_iff] at hne
  obtain ⟨v, rest, hlist⟩ := List.exists_cons_of_ne_nil hne
  simp only [hlist, approveAll, approve, objection, hdict, hunknown, bind, Except.bind]
  rfl

end Store

namespace Policy

variable {s : Store} {p : Policy} {d : Dictionary} {name : String} {n : Nat}

/-- Where nothing is wrong with a policy, every array can be written again under its name, and this
changes nothing. Only names below a definition without a dictionary are refused, as unknown. -/
theorem setValues_of_valid (hs : s.WellFormed) (hfull : s.Full) (hlegal : s.Legal)
    (hp : p.id < s.size) (hn : s.Within n p) (hattached : s.dictionary? p = some d)
    (hvalid : s.validateBy d p none = .ok none) (hname : name ∈ s.names p .all false) :
    ∃ vs, s.values p name = .ok vs ∧
      ((∀ front back, name = front ++ "." ++ back → ∃ definition inner,
          (s.schema d).lookup front = .ok definition ∧ definition.sub = .inline inner) ∧
        p.setValues name vs s = .ok () s ∨
      (∃ front back definition, name = front ++ "." ++ back ∧
          (s.schema d).lookup front = .ok definition ∧ definition.sub = .none) ∧
        p.setValues name vs s = .error (.validation (Report.empty.add name .unknownName)) s) := by
  have hspell : List.Forall₂ Tree.Spells (s.names p .all false) (s.content p).paths :=
    Tree.names_spell_paths (s.tree p) (hlegal.named_tree p)
  obtain ⟨path, hpath, hsegments⟩ := exists_of_mem_left hspell hname
  obtain ⟨ws, hws⟩ :=
    Content.exists_find?_of_mem_paths (hs.regular_content hfull p) path hpath
  obtain ⟨vs, hvalues, -, r, key, -, hget⟩ := Store.exists_values hs hp hn hsegments hws
  have hne : vs.isEmpty = false := hfull r _ (Table.mem_of_get? hget)
  have hpasses : (s.schema d).Passes (s.tree p) := settle_eq_ok_none_iff.mp hvalid
  obtain ⟨before, last, q, hsegments', hway, hlast⟩ := Store.way_of_values hvalues
  cases hsegments.symm.trans hsegments'
  refine ⟨vs, hvalues, ?_⟩
  rcases Store.leads_of_passes hs hway hlast hp hn hpasses with
    ⟨definition, hleads, hjudge⟩ | ⟨front, back, definition, heq, hfront, hback, hleads, hnone⟩
  · refine Or.inl ⟨?_, ?_⟩
    · rintro front back rfl
      obtain ⟨left, right, hleft, hright, heq⟩ := Name.segments_concat_iff.mp hsegments
      rw [heq] at hleads
      obtain ⟨e, inner, he, hsub⟩ :=
        hleads.front (Name.segments_ne_nil hleft) (Name.segments_ne_nil hright)
      exact ⟨e, inner, (Schema.lookup_eq_ok_iff hleft).mpr he, hsub⟩
    · have hlookup := (Schema.lookup_eq_ok_iff hsegments).mpr hleads
      have happrove := (Store.approveAll_eq_ok_iff_admits hattached hlookup hne).mpr
        (Definition.admits_of_judgeArray hjudge)
      have hput := Store.put_of_values hs hne hvalues
      simp only [setValues, StoreM.update, Store.setValues, happrove, hput, bind, Except.bind]
  · rw [heq] at hsegments
    obtain ⟨left, right, hsplit, hleft, hright⟩ :=
      Name.exists_of_segments_eq_append hfront hback hsegments
    refine Or.inr ⟨⟨left, right, definition, hsplit, ?_, hnone⟩, ?_⟩
    · exact (Schema.lookup_eq_ok_iff hleft).mpr hleads
    · have hunknown : (s.schema d).lookup name = .error (.nameNotFound name) := by
        rw [Schema.lookup, hsegments]
        exact hleads.follow_append hnone hback name []
      have hrefused := Store.approveAll_of_unknown hattached hunknown hne 0
      simp only [setValues, StoreM.update, Store.setValues, hrefused, bind, Except.bind]

/-- Two values in a dictionary inside a dictionary. -/
theorem setValues_of_valid_pair :
    let s : Store := ⟨#[{ entries := [("a", .policies [⟨1⟩])] },
      { entries := [("dictionary", .policies [⟨2⟩]), ("type", .strings ["Policy"])] },
      { entries := [("definitions", .policies [⟨3⟩])] }, { entries := [("b", .policies [⟨4⟩])] },
      { entries := [("maxOccurs", .ints [2]), ("type", .strings ["int"])] },
      { entries := [("a", .policies [⟨6⟩])],
        dictionary := some ⟨[("definitions", .policies [⟨0⟩])]⟩ },
      { entries := [("b", .ints [7, 8])] }]⟩
    ∃ vs, s.values ⟨5⟩ "a.b" = .ok vs ∧ (⟨5⟩ : Policy).setValues "a.b" vs s = .ok () s := by
  intro s
  have hs : s.WellFormed := .of_lt (by decide) (by decide)
  have hn : s.Within 2 ⟨5⟩ := by decide
  have hvalid : s.validateBy ⟨[("definitions", .policies [⟨0⟩])]⟩ ⟨5⟩ none = .ok none := by
    cbv
  have hname : "a.b" ∈ s.names ⟨5⟩ .all false := by
    rw [show s.names ⟨5⟩ .all false = ["a", "a.b"] by cbv]
    exact List.mem_cons_of_mem _ List.mem_cons_self
  obtain ⟨vs, hvalues, h | ⟨-, h⟩⟩ := setValues_of_valid hs (.of_lt (by decide))
    (.of_lt (by decide +kernel)) (by decide) hn rfl hvalid hname
  · exact ⟨vs, hvalues, h.2⟩
  · have hpair : s.values ⟨5⟩ "a.b" = .ok (.ints [7, 8]) := by cbv
    cases hpair.symm.trans hvalues
    have hrun : (⟨5⟩ : Policy).setValues "a.b" (.ints [7, 8]) s = .ok () s := by cbv
    cases hrun.symm.trans h

/-- Where a definition has no dictionary, any policies pass, and no name below it can be written. -/
theorem setValues_refuses_valid_values : ∃ d s p s₁ s₂,
    Dictionary.ofText "definitions: \x7b\n a: \x7b\n type: Policy\n\x7d\n\x7d" .empty = .ok d s ∧
      ofText true "a: \x7b\n b: 1\n\x7d" s = .ok p s₁ ∧ s₁.validateBy d p none = .ok none ∧
      p.attach d s₁ = .ok () s₂ ∧ "a.b" ∈ s₂.names p .all false ∧
      s₂.values p "a.b" = .ok (.ints [1]) ∧
      p.setValues "a.b" (.ints [1]) s₂ =
        .error (.validation (Report.empty.add "a.b" .unknownName)) s₂ := by
  refine ⟨⟨[("definitions", .policies [⟨1⟩])]⟩,
    ⟨#[{ entries := [("definitions", .policies [⟨1⟩])] }, { entries := [("a", .policies [⟨2⟩])] },
      { entries := [("type", .strings ["Policy"])] }]⟩, ⟨3⟩,
    ⟨#[{ entries := [("definitions", .policies [⟨1⟩])] }, { entries := [("a", .policies [⟨2⟩])] },
      { entries := [("type", .strings ["Policy"])] }, { entries := [("a", .policies [⟨4⟩])] },
      { entries := [("b", .ints [1])] }]⟩,
    ⟨#[{ entries := [("definitions", .policies [⟨1⟩])] }, { entries := [("a", .policies [⟨2⟩])] },
      { entries := [("type", .strings ["Policy"])] },
      { entries := [("a", .policies [⟨4⟩])],
        dictionary := some ⟨[("definitions", .policies [⟨1⟩])]⟩ },
      { entries := [("b", .ints [1])] }]⟩, ?_, ?_, ?_, rfl, ?_, ?_, ?_⟩
  · cbv
  · cbv
  · cbv
  · rw [show Store.names _ ⟨3⟩ .all false = ["a", "a.b"] by cbv]
    exact List.mem_cons_of_mem _ List.mem_cons_self
  · cbv
  · cbv

end Policy

end PolicyStore
