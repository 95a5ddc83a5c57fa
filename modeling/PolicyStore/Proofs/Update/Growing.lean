import PolicyStore.Proofs.Merge.Defaults
import PolicyStore.Proofs.Merge.Leaves
import PolicyStore.Proofs.Update.Points

set_option autoImplicit false

namespace PolicyStore

/-!
# Literals added to a tree

What a tree holds after a literal has been added under a name is what its content with the longer
array at the end of the path is.
-/

namespace Values

variable {π ρ : Type}

theorem map_empty (f : π → ρ) (kind : Kind) : (empty kind).map f = empty kind := by
  cases kind <;> rfl

end Values

theorem Value.map_ofLiteral {π ρ : Type} (f : π → ρ) (v : Literal) :
    (ofLiteral v : Value π).map f = ofLiteral v := by
  cases v with
  | policy c => exact c.elim
  | _ => rfl

theorem Value.kind_ne_policy (v : Literal) : v.kind ≠ .policy := by
  cases v with
  | policy c => exact c.elim
  | _ => exact Kind.noConfusion

namespace Store

variable {s s' : Store} {p : Policy} {name : String} {path : List String} {spot : Place}
  {ws : Values Policy} {new : Values Content} {t : Content}

/-- A policy without a dictionary that is a tree. -/
structure Rooted (s : Store) (p : Policy) : Prop extends s.WellFormed where
  lt_size : p.id < s.size
  tree : s.Forest [p]
  plain : s.dictionary? p = none

theorem below_of_empty (hempty : s.node p = {}) : s.below p = [] := by
  rw [below, entries, hempty]
  rfl

theorem Rooted.of_empty (hs : s.WellFormed) (hp : p.id < s.size) (hempty : s.node p = {}) :
    s.Rooted p where
  toWellFormed := hs
  lt_size := hp
  tree := .of_below (by
    rw [below_of_empty hempty]
    exact forest_nil)
  plain := by rw [dictionary?, hempty]

theorem WellFormed.content_of_empty (hs : s.WellFormed) (hp : p.id < s.size)
    (hempty : s.node p = {}) : s.content p = .node [] := by
  have hwithin : s.Within 1 p := fun c hc => by
    rw [below_of_empty hempty] at hc
    cases hc
  rw [hs.content_eq_node hp hwithin, entries, hempty, List.map_nil]

theorem Finds.content_valuesAt (hs : s.WellFormed) {n : Nat} (hp : p.id < s.size) (hn : s.Within n p)
    (h : s.Finds p path spot) (hname : Name.segments name = .ok path) (kind : Kind) :
    (s.valuesAt spot kind).map s.content =
      (Content.find? path (s.content p)).getD (.empty kind) := by
  obtain ⟨found, hlookup, hvalues⟩ := h.valuesAt_eq hname
  rw [Store.lookup_eq hname] at hlookup
  rw [hvalues, find?_content_of_descend hs name [] hp hn, hlookup]
  cases found with
  | none => exact Values.map_empty _ _
  | some vs => rfl

namespace Rooted

variable (h : s.Rooted p)

include h

/-- An array without policies is put at a place where there are none. -/
theorem write (hfinds : s.Finds p path spot) (hne : ws.isEmpty = false) (hws : ws.children = [])
    (hold : ∀ old, Table.get? spot.key (s.entries spot.owner) = some old → old.children = []) :
    (s.write spot ws).Rooted p ∧
      Content.put? (ws.map s.content) path (s.content p) = some ((s.write spot ws).content p) := by
  obtain ⟨n, hn⟩ := h.tree.founded p List.mem_cons_self
  have hs := h.toWellFormed
  have hnil : Planted s s ws.children := hws ▸ Planted.nil hs
  obtain ⟨hplanted, hwrap⟩ := planted_nest hnil hne spot.below
  have hadds := hplanted.adds
  have hlt : ∀ r ∈ [p], r.id < s.size := fun r hr => List.mem_singleton.mp hr ▸ h.lt_size
  have hlink := hplanted.linkable hs hlt h.tree List.mem_cons_self hfinds.reaches hold
  have hfinds' : (s.nest ws spot.below).2.Finds p path spot :=
    hfinds.congr (P := fun r => r.id < s.size) (fun r _ => h.closed r)
      (fun r => hadds.entries_eq) h.lt_size
  have hcontent := hfinds'.content_link hlink (h.lt_size.trans_le hadds.size_le)
    (hadds.forest hs hlt h.tree) hwrap
  rw [hadds.content_eq hs h.lt_size hn] at hcontent
  rw [write_eq hne]
  refine ⟨⟨hlink.wellFormed_link, ?_, hlink.forest_link, ?_⟩, hcontent⟩
  · rw [size_setEntries]
    exact h.lt_size.trans_le hadds.size_le
  · rw [dictionary?_setEntries, hadds.dictionary p h.lt_size, h.plain]

/-- A literal is added if the array with it can be put. -/
theorem add (hname : Name.segments name = .ok path) {v : Literal}
    (hpush : ((Content.find? path (s.content p)).getD (.empty v.kind)).push? (.ofLiteral v) =
      some new)
    (hput : Content.put? new path (s.content p) = some t) :
    ∃ s', s.add p name (.ofLiteral v) = .ok s' ∧ s'.Rooted p ∧ s'.content p = t := by
  obtain ⟨n, hn⟩ := h.tree.founded p List.mem_cons_self
  have hs := h.toWellFormed
  rw [add_of_plain h.plain]
  cases hplace : s.place p name with
  | error e =>
    simp only [place, hname, bind, Except.bind] at hplace
    have hnone := (put?_of_placeFrom hs (Name.segments_ne_nil hname) new h.lt_size hn hplace).2
    cases hnone.symm.trans hput
  | ok spot =>
    have hfinds := finds_of_place hname hplace
    have hkind : (Value.ofLiteral v : Value Policy).kind = v.kind := Value.kind_map _ v
    rw [← hfinds.content_valuesAt hs h.lt_size hn hname, ← Value.map_ofLiteral s.content,
      Values.push?_map] at hpush
    obtain ⟨ws, hws, rfl⟩ := Option.map_eq_some_iff.mp hpush
    have holdkind : (s.valuesAt spot v.kind).kind = v.kind := by
      by_contra hne
      cases (Values.push?_eq_none_iff.mpr (hkind ▸ hne)).symm.trans hws
    have hold : ∀ old, Table.get? spot.key (s.entries spot.owner) = some old → old.children = [] := by
      intro old hget
      refine Values.children_of_kind_ne ?_
      obtain ⟨-, -, -, hfree⟩ := hfinds.way
      by_cases hbelow : spot.below = []
      · rw [valuesAt, hbelow, hget, Option.getD_some] at holdkind
        rw [holdkind]
        exact v.kind_ne_policy
      · cases (hfree hbelow).symm.trans hget
    have hchildren : ws.children = [] := by
      refine Values.children_of_kind_ne ?_
      rw [Values.kind_push? hws, holdkind]
      exact v.kind_ne_policy
    have hne : ws.isEmpty = false := by simp [Values.isEmpty, Values.toList_push? hws]
    obtain ⟨hrooted, hcontent⟩ := h.write hfinds hne hchildren hold
    refine ⟨s.write spot ws, ?_, hrooted, Option.some.inj (hcontent.symm.trans hput)⟩
    simp only [Except.bind, hkind, hws]

end Rooted

end Store

end PolicyStore
