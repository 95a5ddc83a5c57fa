import PolicyStore.Name
import PolicyStore.Proofs.Text.Cutting

set_option autoImplicit false

namespace PolicyStore.Name

/-!
# Segments of names

The segments of a name are names themselves, and a segment and a dot before a name are cut off it.
-/

theorem isNameChar_dot : Text.isNameChar '.' = false := rfl

theorem dot_not_mem_of_isSegment {cs : List Char} (h : isSegment cs = true) : '.' ∉ cs := by
  intro hdot
  have hall := (Bool.and_eq_true_iff.mp h).2
  have hchar := List.all_eq_true.mp hall '.' hdot
  rw [isNameChar_dot] at hchar
  cases hchar

theorem segments_of_isSegment {name : String} (h : isSegment name.toList = true) :
    segments name = .ok [name] := by
  simp [segments, segments?, Text.splitOn_of_not_mem (dot_not_mem_of_isSegment h), h]

theorem isSegment_of_segments {name : String} {segs : List String} (h : segments name = .ok segs) :
    ∀ seg ∈ segs, isSegment seg.toList = true := by
  intro seg hseg
  unfold segments at h
  split at h
  · rename_i parts hparts
    cases h
    simp only [segments?] at hparts
    split at hparts
    · rename_i hall
      cases hparts
      obtain ⟨piece, hpiece, rfl⟩ := List.mem_map.mp hseg
      rw [String.toList_ofList]
      exact List.all_eq_true.mp hall piece hpiece
    · cases hparts
  · cases h

theorem segments_ne_nil {name : String} {segs : List String} (h : segments name = .ok segs) :
    segs ≠ [] := by
  unfold segments at h
  split at h
  · rename_i parts hparts
    cases h
    simp only [segments?] at hparts
    split at hparts
    · cases hparts
      exact fun hnil => Text.splitWhere_ne_nil _ _ (List.map_eq_nil_iff.mp hnil)
    · cases hparts
  · cases h

theorem segments_of_mem {name seg : String} {segs : List String} (h : segments name = .ok segs)
    (hseg : seg ∈ segs) : segments seg = .ok [seg] :=
  segments_of_isSegment (isSegment_of_segments h seg hseg)

theorem isSegment_of_segments_self {name : String} (h : segments name = .ok [name]) :
    isSegment name.toList = true :=
  isSegment_of_segments h name List.mem_cons_self

theorem segments_of_dot_not_mem {name : String} (h : '.' ∉ name.toList) :
    segments name = .ok [name] ∨ segments name = .error (.badName name) := by
  by_cases hsegment : isSegment name.toList = true
  · exact Or.inl (segments_of_isSegment hsegment)
  · right
    simp [segments, segments?, Text.splitOn_of_not_mem h, hsegment]

theorem splitOn_concat (name other : String) : Text.splitOn '.' (name ++ "." ++ other).toList =
    Text.splitOn '.' name.toList ++ Text.splitOn '.' other.toList := by
  rw [String.toList_append, String.toList_append, List.append_assoc]
  exact Text.splitWhere_append_cons rfl _ _

/-- The segments of two names with a dot between them are those of both. -/
theorem segments?_concat (name other : String) : segments? (name ++ "." ++ other) =
    (segments? name).bind fun front => (segments? other).map (front ++ ·) := by
  unfold segments?
  simp only [splitOn_concat, List.all_append, List.map_append]
  cases (Text.splitOn '.' name.toList).all isSegment <;>
    cases (Text.splitOn '.' other.toList).all isSegment <;> rfl

theorem segments_concat_iff {name other : String} {path : List String} :
    segments (name ++ "." ++ other) = .ok path ↔
      ∃ front back, segments name = .ok front ∧ segments other = .ok back ∧
        path = front ++ back := by
  unfold segments
  rw [segments?_concat]
  cases segments? name <;> cases segments? other <;> simp [eq_comm]

/-- A name with a dot has more than one segment. -/
theorem dot_not_mem_of_segments {name key : String} (h : segments name = .ok [key]) :
    '.' ∉ name.toList := by
  intro hdot
  obtain ⟨left, right, hsplit⟩ := List.append_of_mem hdot
  have hname : name = String.ofList left ++ "." ++ String.ofList right := by
    rw [← String.toList_inj, hsplit]
    simp
  rw [hname] at h
  obtain ⟨front, back, hleft, hright, hparts⟩ := segments_concat_iff.mp h
  have hlength := congrArg List.length hparts
  have hfront := List.length_pos_iff.mpr (segments_ne_nil hleft)
  have hback := List.length_pos_iff.mpr (segments_ne_nil hright)
  rw [List.length_singleton, List.length_append] at hlength
  omega

theorem eq_of_segments {name key : String} (h : segments name = .ok [key]) : name = key := by
  rcases segments_of_dot_not_mem (dot_not_mem_of_segments h) with hname | hbad
  · cases h.symm.trans hname
    rfl
  · cases h.symm.trans hbad

/-- Segments that are legal are those of a name. -/
theorem exists_of_segments {path : List String} (hne : path ≠ [])
    (h : ∀ segment ∈ path, segments segment = .ok [segment]) :
    ∃ name, segments name = .ok path := by
  induction path with
  | nil => exact (hne rfl).elim
  | cons key rest ih =>
    have hkey := h key List.mem_cons_self
    by_cases hrest : rest = []
    · exact ⟨key, hrest ▸ hkey⟩
    · obtain ⟨name, hname⟩ := ih hrest fun segment hsegment =>
        h segment (List.mem_cons_of_mem _ hsegment)
      exact ⟨key ++ "." ++ name, segments_concat_iff.mpr ⟨_, _, hkey, hname, rfl⟩⟩

/-- The first segment of a dotted name is cut off it. -/
theorem exists_of_segments_eq_cons {name key next : String} {rest : List String}
    (h : segments name = .ok (key :: next :: rest)) :
    ∃ other, name = key ++ "." ++ other ∧ segments other = .ok (next :: rest) := by
  unfold segments at h
  split at h
  · rename_i parts hparts
    cases h
    simp only [segments?] at hparts
    split at hparts
    · rename_i hall
      rw [Option.some.injEq] at hparts
      obtain ⟨piece, pieces, hpieces, rfl, hrest⟩ := List.map_eq_cons_iff.mp hparts
      obtain ⟨piece', pieces', rfl, rfl, rfl⟩ := List.map_eq_cons_iff.mp hrest
      obtain ⟨sep, others, hsep, hname, hothers⟩ := Text.exists_of_splitWhere_eq_cons hpieces
      have hdot : sep = '.' := of_decide_eq_true hsep
      refine ⟨String.ofList others, ?_, ?_⟩
      · rw [← String.toList_inj, hname, hdot]
        simp
      · rw [hpieces, List.all_cons, Bool.and_eq_true] at hall
        have hcut : Text.splitOn '.' (String.ofList others).toList = piece' :: pieces' := by
          rw [String.toList_ofList]
          exact hothers
        simp only [segments, segments?, hcut, hall.2, if_true, List.map_cons]
    · cases hparts
  · cases h

/-- A name is cut where its segments are. -/
theorem exists_of_segments_eq_append {front back : List String} (hfront : front ≠ [])
    (hback : back ≠ []) : ∀ {name : String}, segments name = .ok (front ++ back) →
      ∃ left right, name = left ++ "." ++ right ∧ segments left = .ok front ∧
        segments right = .ok back := by
  induction front with
  | nil => exact (hfront rfl).elim
  | cons key front ih =>
    intro name h
    have hkey : segments key = .ok [key] := segments_of_mem h List.mem_cons_self
    obtain ⟨next, rest, hnext⟩ : ∃ next rest, front ++ back = next :: rest :=
      List.exists_cons_of_ne_nil (List.append_ne_nil_of_right_ne_nil _ hback)
    rw [List.cons_append, hnext] at h
    obtain ⟨other, rfl, hother⟩ := exists_of_segments_eq_cons h
    rw [← hnext] at hother
    cases front with
    | nil => exact ⟨key, other, rfl, hkey, hother⟩
    | cons first front =>
      obtain ⟨left, right, rfl, hleft, hright⟩ := ih (List.cons_ne_nil _ _) hother
      refine ⟨key ++ "." ++ left, right, ?_, ?_, hright⟩
      · simp only [String.append_assoc]
      · exact segments_concat_iff.mpr ⟨[key], _, hkey, hleft, rfl⟩

/-- A name is its segments with dots between them. -/
theorem join_of_segments {path : List String} :
    ∀ {name : String}, segments name = .ok path → join path = name := by
  induction path with
  | nil => exact fun h => (segments_ne_nil h rfl).elim
  | cons key rest ih =>
    intro name h
    cases rest with
    | nil =>
      rw [join, String.intercalate_singleton]
      exact (eq_of_segments h).symm
    | cons next rest =>
      obtain ⟨other, rfl, hother⟩ := exists_of_segments_eq_cons h
      rw [join, String.intercalate_cons_cons]
      exact congrArg (key ++ "." ++ ·) (ih hother)

theorem segments_join {path : List String} (hne : path ≠ [])
    (h : ∀ segment ∈ path, segments segment = .ok [segment]) : segments (join path) = .ok path := by
  obtain ⟨name, hname⟩ := exists_of_segments hne h
  rw [join_of_segments hname]
  exact hname

/-- Where a name ends, the other one goes on with a dot. -/
def Above (name other : String) : Prop := ∃ rest, other = name ++ "." ++ rest

/-- A name is above another if its segments are the first ones of the other. -/
theorem above_iff {name other : String} {path : List String} (h : segments other = .ok path) :
    Above name other ↔
      ∃ front back, back ≠ [] ∧ segments name = .ok front ∧ path = front ++ back := by
  constructor
  · rintro ⟨rest, rfl⟩
    obtain ⟨front, back, hname, hrest, rfl⟩ := segments_concat_iff.mp h
    exact ⟨front, back, segments_ne_nil hrest, hname, rfl⟩
  · rintro ⟨front, back, hback, hname, rfl⟩
    obtain ⟨left, right, rfl, hleft, -⟩ :=
      exists_of_segments_eq_append (segments_ne_nil hname) hback h
    have heq : left = name := by rw [← join_of_segments hleft, join_of_segments hname]
    exact ⟨right, by rw [heq]⟩

end PolicyStore.Name
