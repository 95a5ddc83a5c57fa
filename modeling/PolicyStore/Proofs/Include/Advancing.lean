import PolicyStore.Proofs.Include.Resolution
import PolicyStore.Proofs.Include.Tracing
import PolicyStore.Proofs.Store.Linking
import PolicyStore.Proofs.Store.Ways

set_option autoImplicit false

namespace PolicyStore

/-!
# What later steps leave as it is

While files are included, arrays of references become arrays of policies, one after the other. All
other arrays stay, and so do policies without references.
-/

namespace Include

open StoreM (bind_of_ok)

variable {depth : Nat} {p : Policy} {s s' s'' s₁ : Store}
  {replace : FileRef → StoreM (Policy × Nat)}

/-- From one store to another arrays of references may become others. Policies that have none stay
as they are. -/
structure Advances (s s' : Store) : Prop where
  wellFormed : s'.WellFormed
  size_le : s.size ≤ s'.size
  rows : ∀ q key vs, Table.get? key (s.entries q) = some vs → vs.kind ≠ .file →
    Table.get? key (s'.entries q) = some vs
  same : ∀ q : Policy, q.id < s.size → references (s.entries q) = [] → s'.node q = s.node q

namespace Advances

theorem refl (hs : s.WellFormed) : Advances s s where
  wellFormed := hs
  size_le := Nat.le_refl _
  rows _ _ _ hget _ := hget
  same _ _ _ := rfl

theorem trans (h : Advances s s') (h' : Advances s' s'') : Advances s s'' where
  wellFormed := h'.wellFormed
  size_le := h.size_le.trans h'.size_le
  rows q key vs hget hkind := h'.rows q key vs (h.rows q key vs hget hkind) hkind
  same q hq hclean := by
    have hnode := h.same q hq hclean
    rw [h'.same q (hq.trans_le h.size_le) (by rw [Store.entries, hnode]; exact hclean), hnode]

theorem of_extends (h : Extends s s' fun _ => False) : Advances s s' where
  wellFormed := h.wellFormed
  size_le := h.size_le
  rows q key vs hget _ := by
    rw [h.entries_eq (Store.lt_size_of_get? hget) id]
    exact hget
  same q hq _ := h.frame q hq id

/-- What holds a policy goes on to hold it. -/
theorem below (h : Advances s s') {q c : Policy} (hs : s.WellFormed) (hc : c ∈ s.below q) :
    c ∈ s'.below q := by
  obtain ⟨key, children, hrow, hc⟩ := Store.mem_below_iff.mp hc
  have hget := h.rows q key _ (Table.get?_of_mem (hs.sorted q) hrow) nofun
  exact Store.mem_below_iff.mpr ⟨key, children, Table.mem_of_get? hget, hc⟩

theorem reaches (h : Advances s s') (hs : s.WellFormed) {q r : Policy} (hreach : s.Reaches q r) :
    s'.Reaches q r := by
  induction hreach with
  | refl => exact .refl
  | tail _ hstep ih => exact ih.tail (h.below hs hstep)

end Advances

/-- Arrays of references that a policy still holds, under keys of their own. -/
def Awaits (s : Store) (p : Policy) (arrays : List (String × List FileRef)) : Prop :=
  (∀ row ∈ arrays, Table.get? row.1 (s.entries p) = some (.files row.2)) ∧
    (arrays.map Prod.fst).Nodup

theorem keys_references_sublist (rows : Entries Policy) :
    ((references rows).map Prod.fst).Sublist (Table.keys rows) := by
  induction rows with
  | nil => exact .slnil
  | cons row rows ih =>
    by_cases hkind : row.2.kind = .file
    · obtain ⟨key, values⟩ := row
      cases values with
      | files fs => exact ih.cons_cons key
      | _ => cases hkind
    · rw [references_cons_of_ne hkind]
      exact ih.cons row.1

theorem awaits_references (hs : s.WellFormed) (p : Policy) : Awaits s p (references (s.entries p)) := by
  refine ⟨fun _ hrow => Table.get?_of_mem (hs.sorted p) (mem_references_iff.mp hrow), ?_⟩
  refine List.Pairwise.sublist (keys_references_sublist _) ((hs.sorted p).imp ?_)
  rintro key other hlt rfl
  exact String.lt_irrefl _ hlt

/-! ## Runs -/

variable {mayFail : Prop} {content : FileRef → Content} {count : FileRef → Nat}
  {good : FileRef → Prop} {key : String} {fs : List FileRef} {rest : List (String × List FileRef)}
  {found : List Policy × Nat}

section Replaces

variable (hreplace : Replaces mayFail content count good replace)

include hreplace

theorem replacements_extends (hs : s.WellFormed) (fs : List FileRef) :
    (replacements replace fs).Meets s mayFail fun found s' =>
      Extends s s' (fun _ => False) ∧ found.1.length = fs.length :=
  (replacements_meets hreplace fs hs (Nat.le_refl _) (Extends.refl hs fun _ => False).apart).imp
    fun _ _ hfound => ⟨hfound.2.1, hfound.2.2.length_eq.symm⟩

/-- An array is written that has been loaded, and the arrays that are still to come stay. -/
theorem Awaits.fill (h : Awaits s p ((key, fs) :: rest)) (hs : s.WellFormed)
    (hfound : replacements replace fs s = .ok found s₁) :
    Advances s₁ (s₁.link p key (.policies found.1)) ∧
      Awaits (s₁.link p key (.policies found.1)) p rest ∧
      Table.get? key ((s₁.link p key (.policies found.1)).entries p) = some (.policies found.1) := by
  obtain ⟨hext, -⟩ := (replacements_extends hreplace hs fs).of_ok hfound
  have hget := h.1 _ List.mem_cons_self
  have hrows := hext.entries_eq (Store.lt_size_of_get? hget) id
  have hp := (Store.lt_size_of_get? hget).trans_le hext.size_le
  have hnodup := List.nodup_cons.mp h.2
  rw [← hrows] at hget
  refine ⟨⟨wellFormed_fill hreplace key hs hfound, (Store.size_link ..).ge,
    fun q other vs hother hkind => ?_, fun q _ hclean => ?_⟩, ⟨fun row hrow => ?_, hnodup.2⟩,
    Store.get?_link hp⟩
  · rw [Store.get?_link_of_ne hp]
    · exact hother
    · rintro ⟨rfl, rfl⟩
      cases hget.symm.trans hother
      exact hkind rfl
  · apply Store.node_setEntries_of_ne
    rintro rfl
    have hmem := mem_references_iff.mpr (Table.mem_of_get? hget)
    rw [hclean] at hmem
    cases hmem
  · rw [Store.get?_link_of_ne hp, hrows]
    · exact h.1 row (List.mem_cons_of_mem _ hrow)
    · rintro ⟨-, hkey⟩
      exact hnodup.1 (List.mem_map.mpr ⟨row, hrow, hkey⟩)

theorem replaceArrays_advances (p : Policy) (arrays : List (String × List FileRef)) :
    ∀ {s : Store}, s.WellFormed → Awaits s p (arrays ++ rest) →
      (replaceArrays replace p arrays).Meets s mayFail fun _ s' => Advances s s' ∧ Awaits s' p rest := by
  induction arrays with
  | nil => exact fun hs h => .pure ⟨.refl hs, h⟩
  | cons array arrays ih =>
    intro s hs h
    obtain ⟨key, fs⟩ := array
    have hloaded := replacements_extends hreplace hs fs
    unfold StoreM.Meets at hloaded
    cases hfound : replacements replace fs s with
    | error e s₁ =>
      rw [hfound] at hloaded
      have hrun : replaceArrays replace p ((key, fs) :: arrays) s = .error e s₁ := by
        simp only [replaceArrays, bind, EStateM.bind, hfound]
      rw [StoreM.Meets, hrun]
      exact hloaded
    | ok found s₁ =>
      rw [hfound] at hloaded
      obtain ⟨hfill, hrest, -⟩ := h.fill hreplace hs hfound
      have hnext := ih hfill.wellFormed hrest
      have hrun : replaceArrays replace p ((key, fs) :: arrays) s =
          (replaceArrays replace p arrays >>= fun others => pure (found.2 + others))
            (s₁.link p key (.policies found.1)) := by
        rw [replaceArrays, bind_of_ok hfound]
        rfl
      have hall := hnext.bind (f := fun others => pure (found.2 + others))
        (R := fun _ s' => Advances s s' ∧ Awaits s' p rest) fun _ s₂ h₂ =>
          .pure ⟨(Advances.of_extends hloaded.1).trans (hfill.trans h₂.1), h₂.2⟩
      rw [StoreM.Meets] at hall ⊢
      rw [hrun]
      exact hall

omit hreplace in
theorem sumOver_advances {action : Policy → StoreM Nat} (ps : List Policy)
    (haction : ∀ q ∈ ps, ∀ s, s.WellFormed →
      (action q).Meets s mayFail fun _ s' => Advances s s') :
    ∀ {s : Store}, s.WellFormed → (sumOver action ps).Meets s mayFail fun _ s' => Advances s s' := by
  induction ps with
  | nil => exact fun hs => .pure (.refl hs)
  | cons q ps ih =>
    intro s hs
    refine (haction q List.mem_cons_self s hs).bind fun _ s₁ h₁ => ?_
    refine (ih (fun r hr => haction r (List.mem_cons_of_mem _ hr)) h₁.wellFormed).bind
      fun _ s₂ h₂ => .pure (h₁.trans h₂)

theorem resolveBelow_advances (depth : Nat) : ∀ (p : Policy) (s : Store), s.WellFormed →
    (resolveBelow replace depth p).Meets s mayFail fun _ s' => Advances s s' := by
  induction depth with
  | zero => exact fun _ _ hs => .pure (.refl hs)
  | succ depth ih =>
    intro p s hs
    have hawaits := awaits_references hs p
    rw [← List.append_nil (references (s.entries p))] at hawaits
    refine .get_bind ?_
    refine (replaceArrays_advances hreplace p _ hs hawaits).bind fun _ s₁ h₁ => .get_bind ?_
    refine (sumOver_advances _ (fun q _ => ih q) h₁.1.wellFormed).bind fun _ s₂ h₂ =>
      .pure (h₁.1.trans h₂)

end Replaces

/-- Opening a file makes new policies alone, whether it succeeds or fails. -/
theorem open?_extends (cfg : Settings) (resolver : Option Resolver) (chain : List String)
    (path key : String) (hs : s.WellFormed) :
    Extends s (StoreM.after (open? cfg resolver chain path key) s) fun _ => False := by
  unfold open?
  split
  · exact .refl hs _
  · obtain ⟨htidy, hfile⟩ := ofFile_above s cfg.files true ⟨path, none⟩
    unfold StoreM.after at htidy ⊢
    cases hown : Policy.ofFile cfg.files true ⟨path, none⟩ .empty with
    | ok q own =>
      rw [hown] at htidy hfile
      rw [hfile.2.2]
      exact .above hs htidy
    | error e own =>
      rw [hown] at htidy hfile
      rw [hfile]
      exact .above hs htidy

/-! ## Runs one after the other -/

section Joining

variable {s₂ : Store}

theorem replacements_append {xs ys : List FileRef} {others : List Policy × Nat} :
    ∀ {s : Store} {found : List Policy × Nat}, replacements replace xs s = .ok found s₁ →
      replacements replace ys s₁ = .ok others s₂ →
      replacements replace (xs ++ ys) s = .ok (found.1 ++ others.1, found.2 + others.2) s₂ := by
  induction xs with
  | nil =>
    intro s found hxs hys
    cases hxs
    simpa using hys
  | cons f xs ih =>
    intro s found hxs hys
    obtain ⟨first, s₃, hfirst, hxs⟩ := StoreM.bind_eq_ok hxs
    obtain ⟨rest, s₄, hrest, hxs⟩ := StoreM.bind_eq_ok hxs
    cases hxs
    have hall := ih hrest hys
    rw [Nat.add_assoc]
    exact (bind_of_ok hfirst).trans (bind_of_ok hall)

theorem replaceArrays_append {xs ys : List (String × List FileRef)} {k : Nat} :
    ∀ {s : Store} {n : Nat}, replaceArrays replace p xs s = .ok n s₁ →
      replaceArrays replace p ys s₁ = .ok k s₂ →
      replaceArrays replace p (xs ++ ys) s = .ok (n + k) s₂ := by
  induction xs with
  | nil =>
    intro s n hxs hys
    cases hxs
    rw [Nat.zero_add]
    exact hys
  | cons array xs ih =>
    intro s n hxs hys
    obtain ⟨found, s₃, hfound, hxs⟩ := StoreM.bind_eq_ok hxs
    obtain ⟨_, s₄, hwrite, hxs⟩ := StoreM.bind_eq_ok hxs
    obtain ⟨others, s₅, hothers, hxs⟩ := StoreM.bind_eq_ok hxs
    cases hxs
    have hall := ih hothers hys
    rw [Nat.add_assoc]
    exact (bind_of_ok hfound).trans ((bind_of_ok hwrite).trans (bind_of_ok hall))

theorem sumOver_append {action : Policy → StoreM Nat} {xs ys : List Policy} {k : Nat} :
    ∀ {s : Store} {n : Nat}, sumOver action xs s = .ok n s₁ → sumOver action ys s₁ = .ok k s₂ →
      sumOver action (xs ++ ys) s = .ok (n + k) s₂ := by
  induction xs with
  | nil =>
    intro s n hxs hys
    cases hxs
    rw [Nat.zero_add]
    exact hys
  | cons q xs ih =>
    intro s n hxs hys
    obtain ⟨first, s₃, hfirst, hxs⟩ := StoreM.bind_eq_ok hxs
    obtain ⟨others, s₄, hothers, hxs⟩ := StoreM.bind_eq_ok hxs
    cases hxs
    have hall := ih hothers hys
    rw [Nat.add_assoc]
    exact (bind_of_ok hfirst).trans (bind_of_ok hall)

theorem replaceArrays_cons {key : String} {fs : List FileRef} {rest : List (String × List FileRef)}
    {found : List Policy × Nat} {k : Nat} (hfound : replacements replace fs s = .ok found s₁)
    (hrest : replaceArrays replace p rest (s₁.link p key (.policies found.1)) = .ok k s₂) :
    replaceArrays replace p ((key, fs) :: rest) s = .ok (found.2 + k) s₂ := by
  have hwrite : (modify fun s => s.setEntries p (Table.insert key (.policies found.1) (s.entries p)) :
    StoreM PUnit) s₁ = .ok ⟨⟩ (s₁.link p key (.policies found.1)) := rfl
  exact (bind_of_ok hfound).trans ((bind_of_ok hwrite).trans (bind_of_ok hrest))

theorem resolveBelow_of_parts {n k : Nat}
    (harrays : replaceArrays replace p (references (s.entries p)) s = .ok n s₁)
    (hbelow : sumOver (resolveBelow replace depth)
      (others ((references (s.entries p)).map Prod.fst) (s₁.entries p)) s₁ = .ok k s₂) :
    resolveBelow replace (depth + 1) p s = .ok (n + k) s₂ := by
  have hget : (get : StoreM Store) s = .ok s s := rfl
  have hget₁ : (get : StoreM Store) s₁ = .ok s₁ s₁ := rfl
  exact (bind_of_ok hget).trans ((bind_of_ok harrays).trans ((bind_of_ok hget₁).trans
    (bind_of_ok hbelow)))

end Joining

end Include

end PolicyStore
