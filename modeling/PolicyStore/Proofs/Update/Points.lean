import Mathlib
import PolicyStore.Proofs.Update.Branches

set_option autoImplicit false

namespace PolicyStore

/-!
# Writes seen as point updates

A policy is read as a map from names to arrays. Where a name cannot be read, for something else than
policies stands above it, it cannot be written either; otherwise a write to a tree changes the map at
this name, and puts policies above it where nothing was.
-/

namespace Store

variable {s s' : Store} {p r : Policy} {name full key : String} {front path : List String}
  {vs : Values Policy} {v : Value Policy} {e : PolicyError} {n : Nat} {spot : Place}

/-- A name above the given one is the first that holds something else than policies. -/
structure Blocked (s : Store) (p : Policy) (name front : String) (kind : Kind) : Prop where
  above : Name.Above front name
  holds : ∃ vs, s.lookup p front = .ok (some vs) ∧ vs.kind = kind
  kind_ne : kind ≠ .policy
  first : ∀ other, Name.Above other front →
    ∃ children, s.lookup p other = .ok (some (.policies children))

/-- The failure that tells what is in the way of a name. -/
def Refuses (s : Store) (p : Policy) (name : String) (e : PolicyError) : Prop :=
  ∃ front kind, e = .notAPolicy name front kind ∧ s.Blocked p name front kind

/-- A name holds an array, the names above it hold policies, and every name that is neither above nor
below it reads as before. -/
structure PointUpdate (s s' : Store) (p : Policy) (name : String) (vs : Values Policy) : Prop where
  held : s'.lookup p name = .ok (some vs)
  above : ∀ front, Name.Above front name →
    (∃ children, s.lookup p front = .ok (some (.policies children)) ∧
      s'.lookup p front = .ok (some (.policies children))) ∨
    s.lookup p front = .ok none ∧ ∃ c, s'.lookup p front = .ok (some (.policies [c]))
  kept : ∀ other, other ≠ name → ¬Name.Above name other → ¬Name.Above other name →
    s'.lookup p other = s.lookup p other

theorem lookup_eq (hname : Name.segments name = .ok path) :
    s.lookup p name = Entries.descend s.entries name [] (s.entries p) path := by
  simp only [lookup, Entries.lookup, hname, bind, Except.bind]

/-! ## What is in the way -/

theorem descend_error_iff : ∀ {path done : List String} {p : Policy},
    Entries.descend s.entries full done (s.entries p) path = .error e ↔
      ∃ front key back r vs, path = front ++ key :: back ∧ back ≠ [] ∧ s.Way p front r ∧
        Table.get? key (s.entries r) = some vs ∧ vs.kind ≠ .policy ∧
        e = .notAPolicy full (Name.join (done ++ front ++ [key])) vs.kind := by
  intro path done p
  constructor
  · induction path generalizing done p with
    | nil =>
      intro h
      cases h
    | cons key rest ih =>
      intro h
      cases rest with
      | nil => cases h
      | cons next rest =>
        simp only [Entries.descend] at h
        split at h
        · cases h
        · rename_i children hget
          split at h
          · cases h
          · rename_i c hlast
            obtain ⟨front, last, back, r, vs, hpath, hback, hway, hr, hkind, he⟩ := ih h
            refine ⟨key :: front, last, back, r, vs, by rw [hpath, List.cons_append], hback,
              .step hget hlast hway, hr, hkind, ?_⟩
            rw [he, List.append_assoc done [key] front]
            rfl
        · rename_i values hnot hget
          cases h
          refine ⟨[], key, next :: rest, p, values, rfl, List.cons_ne_nil _ _, .here p, hget, ?_, by
            rw [List.append_nil]⟩
          cases values with
          | policies children => exact (hnot children rfl).elim
          | _ => exact Kind.noConfusion
  · rintro ⟨front, key, back, r, vs, rfl, hback, hway, hget, hkind, rfl⟩
    obtain ⟨next, rest, rfl⟩ := List.exists_cons_of_ne_nil hback
    rw [hway.descend_append (List.cons_ne_nil _ _)]
    cases vs with
    | policies children => exact (hkind rfl).elim
    | _ => simp only [Entries.descend, hget]

/-- A name cannot be read where, and only where, something is in its way. -/
theorem lookup_error_iff (hname : Name.segments name = .ok path) :
    s.lookup p name = .error e ↔ s.Refuses p name e := by
  rw [lookup_eq hname, descend_error_iff]
  constructor
  · rintro ⟨front, key, back, r, vs, rfl, hback, hway, hget, hkind, rfl⟩
    have hfront : Name.segments (Name.join (front ++ [key])) = .ok (front ++ [key]) := by
      refine Name.segments_join (List.append_ne_nil_of_right_ne_nil _ (List.cons_ne_nil _ _))
        fun segment hsegment => Name.segments_of_mem hname ?_
      rw [List.append_cons]
      exact List.mem_append_left _ hsegment
    refine ⟨_, _, rfl, (Name.above_iff hname).mpr ⟨_, back, hback, hfront, List.append_cons ..⟩,
      ⟨vs, ?_, rfl⟩, hkind, fun other hother => ?_⟩
    · rw [List.nil_append, lookup_eq hfront, hway.descend, hget]
    · obtain ⟨before, after, hafter, hbefore, hsplit⟩ := (Name.above_iff hfront).mp hother
      have hpre : before <+: front ++ [key] := ⟨after, hsplit.symm⟩
      obtain ⟨mid, rfl⟩ : before <+: front := by
        refine (List.prefix_concat_iff.mp hpre).resolve_left ?_
        rintro rfl
        exact hafter (List.append_right_eq_self.mp hsplit.symm)
      rw [lookup_eq hbefore]
      exact hway.descend_policies (Name.segments_ne_nil hbefore) _ _
  · rintro ⟨front, kind, rfl, habove, ⟨vs, hvs, rfl⟩, hkind, -⟩
    obtain ⟨before, back, hback, hbefore, rfl⟩ := (Name.above_iff hname).mp habove
    rw [lookup_eq hbefore] at hvs
    obtain ⟨init, key, r, rfl, hway, hget⟩ := way_of_descend hvs
    refine ⟨init, key, back, r, vs, (List.append_cons ..).symm, hback, hway, hget, hkind, ?_⟩
    rw [List.nil_append, Name.join_of_segments hbefore]

/-- Where no array is empty, a place is missing only where something is in the way. -/
theorem placeFrom_error_iff (hne : path ≠ []) : ∀ {done : List String} {p : Policy},
    (∀ q, s.Reaches p q → ∀ row ∈ s.entries q, row.2.isEmpty = false) →
      (s.placeFrom full done p path = .error e ↔
        Entries.descend s.entries full done (s.entries p) path = .error e) := by
  induction path with
  | nil => exact (hne rfl).elim
  | cons key rest ih =>
    intro done p hfull
    cases rest with
    | nil => simp only [placeFrom, Entries.descend, reduceCtorEq]
    | cons next rest =>
      cases hget : Table.get? key (s.entries p) with
      | none => simp only [placeFrom, Entries.descend, hget, reduceCtorEq]
      | some vs =>
        cases vs with
        | policies children =>
          cases hlast : children.getLast? with
          | none =>
            have hempty := hfull p .refl _ (Table.mem_of_get? hget)
            rw [List.getLast?_eq_none_iff.mp hlast] at hempty
            cases hempty
          | some c =>
            have hmem := mem_below_of_get? hget (List.mem_of_getLast? hlast)
            simp only [placeFrom, Entries.descend, hget, hlast]
            exact ih (List.cons_ne_nil _ _) fun q hq => hfull q (hq.head hmem)
        | _ => simp only [placeFrom, Entries.descend, hget, Except.error.injEq]

theorem place_error_iff (hfull : ∀ q, s.Reaches p q → ∀ row ∈ s.entries q, row.2.isEmpty = false)
    (hname : Name.segments name = .ok path) :
    s.place p name = .error e ↔ s.Refuses p name e := by
  rw [← lookup_error_iff hname, lookup_eq hname, ← placeFrom_error_iff (Name.segments_ne_nil hname) hfull]
  simp only [place, hname, bind, Except.bind]

theorem finds_of_place (hname : Name.segments name = .ok path) (h : s.place p name = .ok spot) :
    s.Finds p path spot := by
  simp only [place, hname, bind, Except.bind] at h
  exact finds_of_placeFrom h

/-- A name holds what stands in the row that it leads to, and nothing if there are policies missing. -/
theorem Finds.lookup_eq (h : s.Finds p path spot) (hname : Name.segments name = .ok path) :
    spot.below = [] ∧ s.lookup p name = .ok (Table.get? spot.key (s.entries spot.owner)) ∨
      spot.below ≠ [] ∧ s.lookup p name = .ok none := by
  obtain ⟨front, rfl, hway, hfree⟩ := h.way
  rw [Store.lookup_eq hname, hway.descend_append (List.cons_ne_nil _ _)]
  by_cases hbelow : spot.below = []
  · rw [hbelow]
    exact Or.inl ⟨rfl, rfl⟩
  · exact Or.inr ⟨hbelow, descend_free (hfree hbelow) _ _ _⟩

theorem Finds.valuesAt_eq (h : s.Finds p path spot) (hname : Name.segments name = .ok path) :
    ∃ found, s.lookup p name = .ok found ∧ ∀ kind, s.valuesAt spot kind = found.getD (.empty kind) := by
  rcases h.lookup_eq hname with ⟨hbelow, hlookup⟩ | ⟨hbelow, hlookup⟩
  · exact ⟨_, hlookup, fun kind => by simp only [valuesAt, hbelow]⟩
  · obtain ⟨next, rest, hnext⟩ := List.exists_cons_of_ne_nil hbelow
    exact ⟨none, hlookup, fun kind => by simp only [valuesAt, hnext, Option.getD_none]⟩

/-! ## Reading and writing -/

theorem value_error_iff {front : String} {kind : Kind} :
    s.value p name = .error (.notAPolicy full front kind) ↔
      s.lookup p name = .error (.notAPolicy full front kind) := by
  unfold value Entries.value Entries.values lookup
  cases Entries.lookup s.entries (s.entries p) name with
  | error e => simp [bind, Except.bind]
  | ok found =>
    cases found with
    | none => simp [bind, Except.bind]
    | some vs => cases hlast : vs.last? <;> simp [bind, Except.bind, Entries.lastOf, hlast]

theorem array_error_iff {front : String} {kind k : Kind} :
    s.array p k name = .error (.notAPolicy full front kind) ↔
      s.lookup p name = .error (.notAPolicy full front kind) := by
  unfold array Entries.array Entries.values lookup
  cases Entries.lookup s.entries (s.entries p) name with
  | error e => simp [bind, Except.bind]
  | ok found =>
    cases found with
    | none => simp [bind, Except.bind]
    | some vs => by_cases hkind : vs.kind = k <;> simp [bind, Except.bind, hkind]

theorem get_error_iff {front : String} {kind k : Kind} :
    s.get p k name = .error (.notAPolicy full front kind) ↔
      s.lookup p name = .error (.notAPolicy full front kind) := by
  rw [← array_error_iff (k := k)]
  unfold get Entries.get array
  cases Entries.array s.entries (s.entries p) k name with
  | error e => simp [bind, Except.bind]
  | ok vs => cases hlast : vs.last? <;> simp [bind, Except.bind, Entries.lastOf, hlast]

theorem set_of_plain (hplain : s.dictionary? p = none) :
    s.set p name v = (s.place p name).map (s.write · (.singleton v)) := by
  simp only [set, approve_of_plain hplain, put, bind, Except.bind]
  cases s.place p name <;> rfl

theorem add_of_plain (hplain : s.dictionary? p = none) :
    s.add p name v = (s.place p name).bind fun spot =>
      match (s.valuesAt spot v.kind).push? v with
      | some vs => .ok (s.write spot vs)
      | none => .error (.wrongType name (s.valuesAt spot v.kind).kind v.kind) := by
  simp only [add, approve_of_plain hplain, bind, Except.bind]
  cases s.place p name <;> rfl

section Failures

variable (hfull : ∀ q, s.Reaches p q → ∀ row ∈ s.entries q, row.2.isEmpty = false)
  (hplain : s.dictionary? p = none) (hname : Name.segments name = .ok path)

include hfull hname

theorem remove_error_iff : s.remove p name = .error e ↔ s.Refuses p name e := by
  rw [← place_error_iff hfull hname]
  simp only [remove, bind, Except.bind]
  cases s.place p name with
  | error e' => exact ⟨fun h => congrArg Except.error (Except.error.inj h),
      fun h => congrArg Except.error (Except.error.inj h)⟩
  | ok spot =>
    simp only [reduceCtorEq, iff_false]
    split <;> simp [pure, Except.pure]

include hplain

theorem set_error_iff : s.set p name v = .error e ↔ s.Refuses p name e := by
  rw [← place_error_iff hfull hname, set_of_plain hplain]
  cases s.place p name <;> simp [Except.map]

/-- A value can be added unless something is in the way or the name holds values of another kind. -/
theorem add_error_iff : s.add p name v = .error e ↔ s.Refuses p name e ∨
    ∃ vs, s.lookup p name = .ok (some vs) ∧ vs.kind ≠ v.kind ∧
      e = .wrongType name vs.kind v.kind := by
  rw [← place_error_iff hfull hname, add_of_plain hplain]
  cases hplace : s.place p name with
  | error e' =>
    have hlookup : s.lookup p name = .error e' :=
      (lookup_error_iff hname).mpr ((place_error_iff hfull hname).mp hplace)
    simp [hlookup, Except.bind]
  | ok spot =>
    obtain ⟨found, hlookup, hvalues⟩ := (finds_of_place hname hplace).valuesAt_eq hname
    simp only [Except.bind, hvalues, hlookup, reduceCtorEq, false_or, Except.ok.injEq]
    constructor
    · intro h
      cases hpush : (found.getD (.empty v.kind)).push? v with
      | some vs =>
        rw [hpush] at h
        cases h
      | none =>
        rw [hpush] at h
        have hkind := Values.push?_eq_none_iff.mp hpush
        cases found with
        | none => exact (hkind (Values.kind_empty v.kind)).elim
        | some vs => exact ⟨vs, rfl, hkind, (Except.error.inj h).symm⟩
    · rintro ⟨vs, rfl, hkind, rfl⟩
      simp only [Option.getD_some, Values.push?_eq_none_iff.mpr hkind]

end Failures

section Tree

variable (hs : s.WellFormed) (hp : p.id < s.size) (htree : s.Forest [p])
  (hname : Name.segments name = .ok path) (hplace : s.place p name = .ok spot)

include hs hp htree hname hplace

/-- In a tree a write changes what its name holds, and makes policies above it where they are
missing. -/
theorem pointUpdate_write (hne : vs.isEmpty = false) : s.PointUpdate (s.write spot vs) p name vs where
  held := by
    rw [lookup_eq hname]
    exact descend_write_self hs hp htree (finds_of_place hname hplace) hne _ _
  above front hfront := by
    obtain ⟨before, back, hback, hbefore, hpath⟩ := (Name.above_iff hname).mp hfront
    rw [lookup_eq hbefore, lookup_eq hbefore]
    exact descend_write_prefix hs hp htree (finds_of_place hname hplace) hne
      (Name.segments_ne_nil hbefore) hback hpath _ _
  kept other hother habove hbelow := by
    cases hsegments : Name.segments other with
    | error e => simp only [lookup, Entries.lookup, hsegments, bind, Except.bind]
    | ok parts =>
      have hparts : parts ≠ path := by
        rintro rfl
        exact hother (by rw [← Name.join_of_segments hsegments, Name.join_of_segments hname])
      rw [lookup_eq hsegments, lookup_eq hsegments]
      refine descend_write_other hs hp htree (finds_of_place hname hplace) hne ?_ ?_ _ _
      · rintro ⟨back, rfl⟩
        refine habove ((Name.above_iff hsegments).mpr ⟨path, back, ?_, hname, rfl⟩)
        rintro rfl
        exact hparts (List.append_nil _)
      · rintro ⟨back, rfl⟩
        refine hbelow ((Name.above_iff hname).mpr ⟨parts, back, ?_, hsegments, rfl⟩)
        rintro rfl
        exact hparts (List.append_nil _).symm

/-- In a tree, erasing the row of a name takes away the name and those below it. -/
theorem lookup_erase (hbelow : spot.below = []) :
    (s.setEntries spot.owner (Table.erase spot.key (s.entries spot.owner))).lookup p name = .ok none ∧
      ∀ other, other ≠ name → ¬Name.Above name other →
        (s.setEntries spot.owner (Table.erase spot.key (s.entries spot.owner))).lookup p other =
          s.lookup p other := by
  obtain ⟨n, hn⟩ := htree.founded _ List.mem_cons_self
  have hfinds := finds_of_place hname hplace
  have howner := hs.lt_of_reaches hp hfinds.reaches
  obtain ⟨front, hpath, hway, -⟩ := hfinds.way
  rw [hbelow] at hpath
  have honly : s.OnlyRow (s.setEntries spot.owner (Table.erase spot.key (s.entries spot.owner)))
      spot.owner spot.key :=
    onlyRow_setEntries fun other hkey => Table.get?_erase_of_ne hkey _
  constructor
  · rw [lookup_eq hname, hpath, (honly.way hs hway hp hn).descend, entries_setEntries_self howner,
      Table.get?_erase_self]
  · intro other hother habove
    cases hsegments : Name.segments other with
    | error e => simp only [lookup, Entries.lookup, hsegments, bind, Except.bind]
    | ok parts =>
      rw [lookup_eq hsegments, lookup_eq hsegments]
      refine honly.descend_eq hs hway _ hp htree ?_ _
      rw [← hpath]
      rintro ⟨back, rfl⟩
      refine habove ((Name.above_iff hsegments).mpr ⟨path, back, ?_, hname, rfl⟩)
      rintro rfl
      rw [List.append_nil] at hsegments
      exact hother (by rw [← Name.join_of_segments hsegments, Name.join_of_segments hname])

omit hplace

theorem pointUpdate_of_set (hplain : s.dictionary? p = none) (h : s.set p name v = .ok s') :
    s.PointUpdate s' p name (.singleton v) := by
  rw [set_of_plain hplain] at h
  cases hplace : s.place p name with
  | error e =>
    rw [hplace] at h
    cases h
  | ok spot =>
    rw [hplace] at h
    cases h
    exact pointUpdate_write hs hp htree hname hplace (by cases v <;> rfl)

theorem pointUpdate_of_add (hplain : s.dictionary? p = none) (h : s.add p name v = .ok s') :
    ∃ found vs, s.lookup p name = .ok found ∧ vs.kind = v.kind ∧
      vs.toList = (found.elim [] Values.toList) ++ [v] ∧ s.PointUpdate s' p name vs := by
  rw [add_of_plain hplain] at h
  cases hplace : s.place p name with
  | error e =>
    rw [hplace] at h
    cases h
  | ok spot =>
    obtain ⟨found, hlookup, hvalues⟩ := (finds_of_place hname hplace).valuesAt_eq hname
    simp only [hplace, Except.bind, hvalues] at h
    cases hpush : (found.getD (.empty v.kind)).push? v with
    | none =>
      rw [hpush] at h
      cases h
    | some vs =>
      rw [hpush] at h
      cases h
      have hkind : (found.getD (.empty v.kind)).kind = v.kind := by
        by_contra hkind
        rw [Values.push?_eq_none_iff.mpr hkind] at hpush
        cases hpush
      have hlist := Values.toList_push? hpush
      refine ⟨found, vs, hlookup, (Values.kind_push? hpush).trans hkind, ?_,
        pointUpdate_write hs hp htree hname hplace (by simp [Values.isEmpty, hlist])⟩
      rw [hlist]
      cases found with
      | none => cases v <;> rfl
      | some old => rfl

theorem lookup_of_remove {found : Bool} (h : s.remove p name = .ok (found, s')) :
    (found = true ↔ ∃ vs, s.lookup p name = .ok (some vs)) ∧ s'.lookup p name = .ok none ∧
      ∀ other, other ≠ name → ¬Name.Above name other → s'.lookup p other = s.lookup p other := by
  unfold remove at h
  cases hplace : s.place p name with
  | error e =>
    simp only [hplace, bind, Except.bind] at h
    cases h
  | ok spot =>
    simp only [hplace, bind, Except.bind] at h
    have hlookup := (finds_of_place hname hplace).lookup_eq hname
    split at h
    · rename_i vs hbelow hget
      cases h
      rcases hlookup with ⟨-, hlookup⟩ | ⟨hne, -⟩
      · exact ⟨⟨fun _ => ⟨vs, hlookup.trans (congrArg Except.ok hget)⟩, fun _ => rfl⟩,
          lookup_erase hs hp htree hname hplace hbelow⟩
      · exact (hne hbelow).elim
    · rename_i hnot
      cases h
      have hnone : s.lookup p name = .ok none := by
        rcases hlookup with ⟨hbelow, hlookup⟩ | ⟨-, hlookup⟩
        · cases hget : Table.get? spot.key (s.entries spot.owner) with
          | none => rw [hlookup, hget]
          | some vs => exact (hnot vs hbelow hget).elim
        · exact hlookup
      refine ⟨?_, hnone, fun _ _ _ => rfl⟩
      simp [hnone]

end Tree

/-- Writes to a tree are updates of the map from names to arrays. They fail where the name cannot be
read, for the same reason; a value of another kind than those under the name is not added. -/
theorem writes_update_points (hs : s.WellFormed) (htree : s.Forest [p]) (hp : p.id < s.size)
    (hfull : ∀ q, s.Reaches p q → ∀ row ∈ s.entries q, row.2.isEmpty = false)
    (hplain : s.dictionary? p = none) (hname : Name.segments name = .ok path) (v : Value Policy) :
    (∀ full front kind, let e := PolicyError.notAPolicy full front kind
      (s.value p name = .error e ↔ s.Refuses p name e) ∧
        (∀ k, s.get p k name = .error e ↔ s.Refuses p name e) ∧
        ∀ k, s.array p k name = .error e ↔ s.Refuses p name e) ∧
    (∀ e, s.set p name v = .error e ↔ s.Refuses p name e) ∧
    (∀ s', s.set p name v = .ok s' → s.PointUpdate s' p name (.singleton v)) ∧
    (∀ e, s.add p name v = .error e ↔ s.Refuses p name e ∨
      ∃ vs, s.lookup p name = .ok (some vs) ∧ vs.kind ≠ v.kind ∧
        e = .wrongType name vs.kind v.kind) ∧
    (∀ s', s.add p name v = .ok s' → ∃ found vs, s.lookup p name = .ok found ∧
      vs.kind = v.kind ∧ vs.toList = (found.elim [] Values.toList) ++ [v] ∧
      s.PointUpdate s' p name vs) ∧
    (∀ e, s.remove p name = .error e ↔ s.Refuses p name e) ∧
    ∀ found s', s.remove p name = .ok (found, s') →
      (found = true ↔ ∃ vs, s.lookup p name = .ok (some vs)) ∧ s'.lookup p name = .ok none ∧
      ∀ other, other ≠ name → ¬Name.Above name other → s'.lookup p other = s.lookup p other := by
  have hrefuses (e : PolicyError) : s.lookup p name = .error e ↔ s.Refuses p name e :=
    lookup_error_iff hname
  refine ⟨fun full front kind => ⟨?_, fun k => ?_, fun k => ?_⟩, fun e => ?_, fun s' h => ?_,
    fun e => ?_, fun s' h => ?_, fun e => ?_, fun found s' h => ?_⟩
  · exact value_error_iff.trans (hrefuses _)
  · exact get_error_iff.trans (hrefuses _)
  · exact array_error_iff.trans (hrefuses _)
  · exact set_error_iff hfull hplain hname
  · exact pointUpdate_of_set hs hp htree hname hplain h
  · exact add_error_iff hfull hplain hname
  · exact pointUpdate_of_add hs hp htree hname hplain h
  · exact remove_error_iff hfull hname
  · exact lookup_of_remove hs hp htree hname h

/-- A value below a policy that is there and one that is made. -/
theorem writes_update_points_of_pair :
    let s : Store := ⟨#[{ entries := [("a", .policies [⟨1⟩])] }, { entries := [("b", .ints [1])] }]⟩
    ∃ s', s.set ⟨0⟩ "a.c.d" (.bool true) = .ok s' ∧
      s.PointUpdate s' ⟨0⟩ "a.c.d" (.bools [true]) := by
  intro s
  have hs : s.WellFormed := .of_lt (by decide) (by decide)
  have hfull : s.Full := .of_lt (by decide)
  have hforest : s.Forest [⟨0⟩] := by
    refine .of_held_once (fun p hp => ⟨2, ?_⟩) (by decide) (by decide) (by decide) (by decide)
    rw [List.mem_singleton.mp hp]
    decide
  have hset : s.set ⟨0⟩ "a.c.d" (.bool true) = .ok ⟨#[{ entries := [("a", .policies [⟨1⟩])] },
      { entries := [("b", .ints [1]), ("c", .policies [⟨2⟩])] },
      { entries := [("d", .bools [true])] }]⟩ := by
    cbv
  have hname : Name.segments "a.c.d" = .ok ["a", "c", "d"] := by decide
  exact ⟨_, hset, (writes_update_points hs hforest (by decide) (fun q _ => hfull q) (by decide) hname
    (.bool true)).2.2.1 _ hset⟩

end Store

end PolicyStore
