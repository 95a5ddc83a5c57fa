import PolicyStore.Proofs.Merge.Contents
import PolicyStore.Proofs.Store.Linking

set_option autoImplicit false

namespace PolicyStore

/-!
# Writing below a tree

A name leads down a tree to the place that is written to. What the tree holds afterwards is what its
content with an array at the end of the path is.
-/

namespace Store

variable {s : Store} {ps : List Policy} {owner p c : Policy} {key : String} {vs : Values Policy}

/-- A policy on the way to the owner holds what it held, but for the next policy on the way. -/
theorem Linkable.content_step (h : s.Linkable ps owner key vs) (htree : s.Forest [p])
    (hp : p.id < s.size) {first : String} {children : List Policy}
    (hget : Table.get? first (s.entries p) = some (.policies children))
    (hlast : children.getLast? = some c) (hreach : s.Reaches c owner) :
    (s.link owner key vs).content p = .node (Table.insert first
      (.policies ((children.map s.content).dropLast ++ [(s.link owner key vs).content c]))
      (s.content p).rows) := by
  obtain ⟨n, hn⟩ := htree.founded p List.mem_cons_self
  obtain ⟨m, hm⟩ := h.exists_within hn
  obtain ⟨front, rfl⟩ := List.getLast?_eq_some_iff.mp hlast
  have hmem : c ∈ s.below p := mem_below_of_get? hget (List.mem_append_right _ List.mem_cons_self)
  have hne : p ≠ owner := by
    rintro rfl
    exact hn.not_reaches hmem hreach
  have hbranches := htree.branches p List.mem_cons_self p .refl
  -- In a tree one policy alone leads on to the owner, so all others are out of reach of the change.
  have hothers {a : Policy} (ha : a ∈ s.below p) (hac : a ≠ c) :
      (s.link owner key vs).content a = s.content a :=
    content_of_not_reaches fun hback => hac (eq_of_reaches hbranches ha hmem hback hreach)
  obtain ⟨hrow, -⟩ := List.nodup_flatMap.mp (nodup_of_disjoint hbranches)
  have hlt : p.id < (s.link owner key vs).size := by
    rw [size_link]
    exact hp
  rw [h.wellFormed_link.content_eq_node hlt hm, h.toWellFormed.content_eq_node hp hn,
    entries_of_ne hne, Content.rows_node]
  refine congrArg Content.node (Table.eq_of_get?_eq (Table.sorted_map (h.sorted p) _)
    (Table.sorted_insert (Table.sorted_map (h.sorted p) _) _ _) fun other => ?_)
  rw [Table.get?_map]
  by_cases hother : other = first
  · have hfront : front.map (s.link owner key vs).content = front.map s.content := by
      refine List.map_congr_left fun a ha => hothers ?_ ?_
      · exact mem_below_of_get? hget (List.mem_append_left _ ha)
      · have hnodup : (front ++ [c]).Nodup := hrow _ (Table.mem_of_get? hget)
        rintro rfl
        exact (List.nodup_append.mp hnodup).2.2 a ha a List.mem_cons_self rfl
    rw [hother, hget, Table.get?_insert_self]
    simp [Values.map, hfront]
  · rw [Table.get?_insert_of_ne hother, Table.get?_map]
    cases hws : Table.get? other (s.entries p) with
    | none => rfl
    | some ws =>
      refine congrArg some (Values.map_congr fun a ha => hothers (mem_below_of_get? hws ha) ?_)
      rintro rfl
      exact hother (key_eq_of_mem_children hbranches hws hget ha
        (List.mem_append_right _ List.mem_cons_self))

/-! ## Places -/

/-- A path leads from a policy to a place. -/
inductive Finds (s : Store) : Policy → List String → Place → Prop
  | here (p : Policy) (key : String) : Finds s p [key] ⟨p, key, []⟩
  | free {p : Policy} {key next : String} {rest : List String} :
      Table.get? key (s.entries p) = none → Finds s p (key :: next :: rest) ⟨p, key, next :: rest⟩
  | step {p c : Policy} {key next : String} {rest : List String} {children : List Policy}
      {spot : Place} : Table.get? key (s.entries p) = some (.policies children) →
      children.getLast? = some c → Finds s c (next :: rest) spot →
      Finds s p (key :: next :: rest) spot

theorem finds_of_placeFrom {full : String} {segments : List String} :
    ∀ {done : List String} {p : Policy} {spot : Place},
      s.placeFrom full done p segments = .ok spot → s.Finds p segments spot := by
  induction segments with
  | nil =>
    intro done p spot h
    cases h
  | cons segment rest ih =>
    intro done p spot h
    cases rest with
    | nil =>
      cases h
      exact .here p segment
    | cons next rest =>
      simp only [placeFrom] at h
      split at h
      · rename_i hget
        cases h
        exact .free hget
      · rename_i children hget
        split at h
        · rename_i child hlast
          exact .step hget hlast (ih h)
        · cases h
      · cases h

theorem Finds.placeFrom {segments : List String} {spot : Place} (h : s.Finds p segments spot)
    (full : String) : ∀ done : List String, s.placeFrom full done p segments = .ok spot := by
  induction h with
  | here => exact fun _ => rfl
  | free hget =>
    intro done
    simp only [Store.placeFrom, hget]
  | step hget hlast _ ih =>
    intro done
    simp only [Store.placeFrom, hget, hlast]
    exact ih _

theorem exists_finds_of_place {name : String} {spot : Place} (h : s.place p name = .ok spot) :
    ∃ path, Name.segments name = .ok path ∧ s.Finds p path spot := by
  simp only [place, bind, Except.bind] at h
  cases hname : Name.segments name with
  | error e =>
    rw [hname] at h
    cases h
  | ok path =>
    rw [hname] at h
    exact ⟨path, rfl, finds_of_placeFrom h⟩

theorem Finds.congr {s' : Store} {P : Policy → Prop} (hclosed : ∀ q, P q → ∀ c ∈ s.below q, P c)
    (hrows : ∀ q, P q → s'.entries q = s.entries q) {segments : List String} {spot : Place}
    (h : s.Finds p segments spot) (hp : P p) : s'.Finds p segments spot := by
  induction h with
  | here p key => exact .here p key
  | free hget => exact .free (by rw [hrows _ hp, hget])
  | step hget hlast _ ih =>
    have hmem := mem_below_of_get? hget (List.mem_of_getLast? hlast)
    exact .step (by rw [hrows _ hp, hget]) hlast (ih (hclosed _ hp _ hmem))

theorem Finds.reaches {segments : List String} {spot : Place} (h : s.Finds p segments spot) :
    s.Reaches p spot.owner := by
  induction h with
  | here => exact .refl
  | free => exact .refl
  | step hget hlast _ ih => exact ih.head (mem_below_of_get? hget (List.mem_of_getLast? hlast))

section Contents

variable (hs : s.WellFormed)

include hs

/-- No place means that there is no way in the content either. -/
theorem put?_of_placeFrom {full : String} {segments : List String} {n : Nat} (hne : segments ≠ [])
    (ws : Values Content) : ∀ {done : List String} {p : Policy} {e : PolicyError}, p.id < s.size →
      s.Within n p → s.placeFrom full done p segments = .error e →
      e.isTypeError = true ∧ Content.put? ws segments (s.content p) = none := by
  induction segments with
  | nil => exact (hne rfl).elim
  | cons segment rest ih =>
    intro done p e hp hn h
    cases rest with
    | nil => cases h
    | cons next rest =>
      simp only [placeFrom] at h
      split at h
      · cases h
      · rename_i children hget
        rw [Content.put?, hs.get?_content hp hn, hget]
        simp only [Option.map_some, Values.map, List.getLast?_map]
        split at h
        · rename_i child hlast
          have hmem := mem_below_of_get? hget (List.mem_of_getLast? hlast)
          obtain ⟨herror, hput⟩ :=
            ih (List.cons_ne_nil _ _) (hs.closed p child hmem) (hn.of_mem_below hmem) h
          simp [hlast, herror, hput]
        · rename_i hlast
          cases h
          simp [hlast, PolicyError.isTypeError]
      · rename_i values hnot hget
        cases h
        rw [Content.put?, hs.get?_content hp hn, hget]
        cases values with
        | policies children => exact (hnot children rfl).elim
        | _ => exact ⟨rfl, rfl⟩

theorem Finds.get?_eq_none {segments : List String} {spot : Place} {n : Nat}
    (h : s.Finds p segments spot) (hp : p.id < s.size) (hn : s.Within n p)
    (hfind : Content.find? segments (s.content p) = none) :
    Table.get? spot.key (s.entries spot.owner) = none := by
  induction h with
  | here p key =>
    rw [Content.find?, hs.get?_content hp hn] at hfind
    exact Option.map_eq_none_iff.mp hfind
  | free hget => exact hget
  | step hget hlast _ ih =>
    have hmem := mem_below_of_get? hget (List.mem_of_getLast? hlast)
    refine ih (hs.closed _ _ hmem) (hn.of_mem_below hmem) ?_
    rw [Content.find?, hs.get?_content hp hn, hget, Option.map_some, Option.bind_some,
      Values.children_map, Values.children, List.getLast?_map, hlast, Option.map_some,
      Option.bind_some] at hfind
    exact hfind

end Contents

/-- The policies made for a name hold the array at the end of its path. -/
theorem planted_nest {s' : Store} (h : Planted s s' vs.children) (hne : vs.isEmpty = false)
    (segments : List String) :
    Planted s (s'.nest vs segments).2 (s'.nest vs segments).1.children ∧
      (s'.nest vs segments).1.map (s'.nest vs segments).2.content =
        Content.wrap (vs.map s'.content) segments := by
  induction segments with
  | nil => exact ⟨h, rfl⟩
  | cons segment rest ih =>
    obtain ⟨hplanted, hcontent⟩ := ih
    have hinner : (s'.nest vs rest).1.isEmpty = false := isEmpty_nest hne rest
    simp only [nest, hinner, Bool.false_eq_true, if_false]
    have hfull : ∀ row ∈ [(segment, (s'.nest vs rest).1)], row.2.isEmpty = false := by
      intro row hrow
      rw [List.mem_singleton.mp hrow]
      exact hinner
    obtain ⟨halloc, hnode⟩ := hplanted.alloc { entries := [(segment, (s'.nest vs rest).1)] }
      (List.pairwise_singleton _ _) hfull (List.append_nil _)
    refine ⟨halloc, ?_⟩
    rw [Values.map, List.map_singleton, hnode, List.map_singleton, hcontent, Content.wrap]

/-- What a tree holds after an array has been put at the place that a path leads to. -/
theorem Finds.content_link {segments : List String} {spot : Place}
    (hfinds : s.Finds p segments spot) (h : s.Linkable ps spot.owner spot.key vs)
    (hp : p.id < s.size) (htree : s.Forest [p]) {ws : Values Content}
    (hvs : vs.map s.content = Content.wrap ws spot.below) :
    Content.put? ws segments (s.content p) =
      some ((s.link spot.owner spot.key vs).content p) := by
  induction hfinds with
  | here p key => rw [Content.put?, h.content_self, hvs, Content.wrap]
  | @free p key next rest hget =>
    obtain ⟨n, hn⟩ := htree.founded p List.mem_cons_self
    rw [Content.put?, h.toWellFormed.get?_content hp hn, hget, h.content_self, hvs, Option.map_none]
  | @step p c key next rest children spot hget hlast hfinds ih =>
    obtain ⟨n, hn⟩ := htree.founded p List.mem_cons_self
    have hmem := mem_below_of_get? hget (List.mem_of_getLast? hlast)
    have hc := ih h (h.closed p c hmem) (htree.below.of_mem hmem) hvs
    have hstep := h.content_step htree hp hget hlast hfinds.reaches
    rw [Content.put?, h.toWellFormed.get?_content hp hn, hget, hstep]
    simp [Values.map, hlast, hc]

end Store

end PolicyStore
