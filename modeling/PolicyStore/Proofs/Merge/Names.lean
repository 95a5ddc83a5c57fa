import PolicyStore.Names
import PolicyStore.Proofs.Merge.Contents
import PolicyStore.Proofs.Store.Ways
import PolicyStore.Proofs.Text.Naming

set_option autoImplicit false

namespace PolicyStore

/-!
# Names and paths

The names of a policy are the paths of its content, and looking up a name is following its path.
-/

/-- All keys are names without dots, at every level. -/
inductive Content.Named : Content → Prop
  | node {rows : List (String × Values Content)} :
      (∀ row ∈ rows, Name.segments row.1 = .ok [row.1]) →
      (∀ row ∈ rows, ∀ c ∈ row.2.children, Named c) → Named (.node rows)

theorem Name.segments_append {key name : String} {path : List String}
    (hkey : Name.segments key = .ok [key]) (hname : Name.segments name = .ok path) :
    Name.segments (key ++ "." ++ name) = .ok (key :: path) :=
  segments_concat_iff.mpr ⟨[key], path, hkey, hname, rfl⟩

/-- All keys in a store are names without dots. -/
def Store.Legal (s : Store) : Prop :=
  ∀ q, ∀ key ∈ Table.keys (s.entries q), Name.segments key = .ok [key]

theorem Store.Legal.of_lt {s : Store}
    (h : ∀ i < s.size, ∀ key ∈ Table.keys (s.entries ⟨i⟩), Name.isSegment key.toList = true) :
    s.Legal := by
  intro q key hkey
  by_cases hq : q.id < s.size
  · exact Name.segments_of_isSegment (h q.id hq key hkey)
  · rw [entries_of_size_le (Nat.le_of_not_lt hq)] at hkey
    cases hkey

theorem Store.named_contentTo {s : Store} (n : Nat) {p : Policy}
    (h : ∀ r, s.Reaches p r → ∀ key ∈ Table.keys (s.entries r), Name.segments key = .ok [key]) :
    (s.contentTo n p).Named := by
  induction n generalizing p with
  | zero => exact .node (fun _ hrow => by cases hrow) fun _ hrow => by cases hrow
  | succ n ih =>
    refine .node (fun row hrow => ?_) fun row hrow c hc => ?_
    · obtain ⟨old, hold, rfl⟩ := List.mem_map.mp hrow
      exact h p .refl old.1 (List.mem_map_of_mem (f := Prod.fst) hold)
    · obtain ⟨old, hold, rfl⟩ := List.mem_map.mp hrow
      rw [Values.children_map] at hc
      obtain ⟨q, hq, rfl⟩ := List.mem_map.mp hc
      have hbelow : q ∈ s.below p := List.mem_flatMap.mpr ⟨old, hold, hq⟩
      exact ih fun r hreach => h r (hreach.head hbelow)

/-- A policy has legal names if all keys that it reaches are legal. -/
theorem Store.named_of_reaches {s : Store} {p : Policy}
    (h : ∀ r, s.Reaches p r → ∀ key ∈ Table.keys (s.entries r), Name.segments key = .ok [key]) :
    (s.content p).Named := by
  rw [content_eq]
  exact named_contentTo s.size h

theorem Store.Legal.named_tree {s : Store} (h : s.Legal) (p : Policy) : (s.tree p).content.Named :=
  named_of_reaches fun r _ => h r

namespace Tree

def Spells (name : String) (path : List String) : Prop := Name.segments name = .ok path

theorem spells_below {key : String} (hkey : Name.segments key = .ok [key]) {names : List String}
    {paths : List (List String)} (h : List.Forall₂ Spells names paths) :
    List.Forall₂ Spells (namesOfRow .all key .policy names) ([key] :: paths.map (key :: ·)) := by
  refine .cons hkey ?_
  induction h with
  | nil => exact .nil
  | cons hname _ ih => exact .cons (Name.segments_append hkey hname) ih

mutual

theorem names_spell_paths : ∀ t : Tree, t.content.Named →
    List.Forall₂ Spells (t.names .all) t.content.paths
  | .node _ _ rows, h => by
    rw [content] at h ⊢
    rw [names, Content.paths]
    cases h with
    | node hkeys hchildren => exact namesOfEntries_spell_paths rows hkeys hchildren

theorem namesOfEntries_spell_paths : ∀ rows : List (String × Values Tree),
    (∀ row ∈ contentOfRows rows, Name.segments row.1 = .ok [row.1]) →
    (∀ row ∈ contentOfRows rows, ∀ c ∈ row.2.children, c.Named) →
    List.Forall₂ Spells (namesOfEntries .all rows) (Content.pathsOfRows (contentOfRows rows))
  | [], _, _ => .nil
  | (key, vs) :: rows, hkeys, hchildren => by
    have hkey : Name.segments key = .ok [key] := by
      cases vs <;> exact hkeys (key, _) List.mem_cons_self
    cases vs with
    | policies children =>
      rw [contentOfRows] at hkeys hchildren ⊢
      have hfirst := namesOfLast_spell_paths children (hchildren _ List.mem_cons_self)
      have hrest := namesOfEntries_spell_paths rows
        (fun row hrow => hkeys row (List.mem_cons_of_mem _ hrow))
        fun row hrow => hchildren row (List.mem_cons_of_mem _ hrow)
      rw [namesOfEntries, Content.pathsOfRows]
      exact List.rel_append (spells_below hkey hfirst) hrest
    | _ =>
      rw [contentOfRows] at hkeys hchildren ⊢
      have hrest := namesOfEntries_spell_paths rows
        (fun row hrow => hkeys row (List.mem_cons_of_mem _ hrow))
        fun row hrow => hchildren row (List.mem_cons_of_mem _ hrow)
      exact .cons hkey hrest

theorem namesOfLast_spell_paths : ∀ ts : List Tree, (∀ c ∈ contentOfAll ts, c.Named) →
    List.Forall₂ Spells (namesOfLast .all ts) (Content.pathsOfLast (contentOfAll ts))
  | [], _ => .nil
  | [t], h => by
    rw [namesOfLast]
    exact names_spell_paths t (h _ List.mem_cons_self)
  | _ :: t :: ts, h => by
    rw [namesOfLast]
    exact namesOfLast_spell_paths (t :: ts) fun c hc => h c (List.mem_cons_of_mem _ hc)

end

end Tree

/-! ## Looking up -/

namespace Store

variable {s : Store} {p : Policy} {name : String} {path : List String} {n : Nat}

theorem find?_content_of_descend (hs : s.WellFormed) (full : String) :
    ∀ (done : List String) {p : Policy}, p.id < s.size → s.Within n p →
      Content.find? path (s.content p) =
        match Entries.descend s.entries full done (s.entries p) path with
        | .ok found => found.map (Values.map s.content)
        | .error _ => none := by
  induction path with
  | nil => exact fun _ _ _ _ => rfl
  | cons key rest ih =>
    intro done p hp hn
    cases rest with
    | nil => rw [Content.find?, hs.get?_content hp hn, Entries.descend]
    | cons next rest =>
      rw [Content.find?, hs.get?_content hp hn]
      simp only [Entries.descend]
      cases hget : Table.get? key (s.entries p) with
      | none => rfl
      | some vs =>
        cases vs with
        | policies children =>
          simp only [Option.map_some, Option.bind_some, Values.map, Values.children,
            List.getLast?_map]
          cases hlast : children.getLast? with
          | none => rfl
          | some c =>
            have hmem := mem_below_of_get? hget (List.mem_of_getLast? hlast)
            exact ih _ (hs.closed p c hmem) (hn.of_mem_below hmem)
        | _ => rfl

section Lookups

variable (hs : s.WellFormed) (hp : p.id < s.size) (hn : s.Within n p)
  (hname : Name.segments name = .ok path)

include hs hp hn hname

theorem exists?_eq : s.exists? p name = (Content.find? path (s.content p)).isSome := by
  rw [find?_content_of_descend hs name [] hp hn]
  simp only [exists?, find?, Entries.find?, Entries.lookup, hname, bind, Except.bind]
  cases Entries.descend s.entries name [] (s.entries p) path with
  | error e => rfl
  | ok found => cases found <;> rfl

/-- What a path leads to in the content is what the name holds. -/
theorem exists_values {ws : Values Content} (h : Content.find? path (s.content p) = some ws) :
    ∃ vs, s.values p name = .ok vs ∧ vs.map s.content = ws ∧
      ∃ r key, s.Reaches p r ∧ Table.get? key (s.entries r) = some vs := by
  rw [find?_content_of_descend hs name [] hp hn] at h
  simp only [values, Entries.values, Entries.lookup, hname, bind, Except.bind]
  cases hfound : Entries.descend s.entries name [] (s.entries p) path with
  | error e =>
    rw [hfound] at h
    cases h
  | ok found =>
    rw [hfound] at h
    obtain ⟨vs, rfl, hvs⟩ := Option.map_eq_some_iff.mp h
    obtain ⟨front, key, r, -, hway, hget⟩ := way_of_descend hfound
    exact ⟨vs, rfl, hvs, r, key, hway.reaches, hget⟩

end Lookups

end Store

end PolicyStore
