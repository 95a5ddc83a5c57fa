import PolicyStore.Proofs.Merge.Required
import PolicyStore.Proofs.Paf.Editing

set_option autoImplicit false

namespace PolicyStore

/-!
# Copies and defaults in a zone

Copies are new policies with rows like those they are copied from, as are the defaults of a
dictionary. Both may come from anywhere: what is read outside of a zone is not changed.
-/

variable {zone : Policy → Prop} {s : Store} {p : Policy}

/-! ## Trees of a store -/

/-- Rows as they have to be, at every level. -/
def Content.Sound (c : Content) : Prop := c.Regular ∧ c.Named

theorem Content.hereditary_sound : Content.Hereditary Content.Sound :=
  fun t h key vs hrow c hc => ⟨hereditary_regular t h.1 key vs hrow c hc,
    hereditary_named t h.2 key vs hrow c hc⟩

namespace Store

/-- Whatever the policies are that hold each other, trees are read with rows as they have to be. -/
theorem Proper.tree (h : s.Proper) (p : Policy) : (s.tree p).content.Sound :=
  ⟨h.wellFormed.regular_content h.full p, h.legal.named_tree p⟩

theorem Proper.schema (h : s.Proper) (d : Dictionary) : (s.schema d).Over Content.Sound :=
  schema_over h.tree d

end Store

/-! ## Copies -/

namespace Tree

open Store (Edits Zoned Inner)

theorem plantEntries_of_ne (s : Store) (key : String) {vs : Values Tree} (h : vs.kind ≠ .policy)
    (rows : List (String × Values Tree)) : plantEntries s ((key, vs) :: rows) =
      ((key, vs.map handle) :: (plantEntries s rows).1, (plantEntries s rows).2) := by
  cases vs with
  | policies children => exact (h rfl).elim
  | _ => rfl

/-- Rows of copies are as they have to be if those of the trees are. -/
theorem proper_of_rows {rows : List (String × Values Tree)} {copies : Entries Policy}
    (hrows : (Content.node (contentOfRows rows)).Sound)
    (hsame : (copies.map fun row => (row.1, row.2.isEmpty)) =
      rows.map fun row => (row.1, row.2.isEmpty)) : Entries.Proper copies := by
  obtain ⟨hregular, hnamed⟩ := hrows
  rw [contentOfRows_eq_map] at hregular hnamed
  cases hregular with
  | node hsorted hfull _ =>
    cases hnamed with
    | node hlegal _ =>
      have hmem {row : String × Values Policy} (hrow : row ∈ copies) :
          ∃ old ∈ rows, old.1 = row.1 ∧ old.2.isEmpty = row.2.isEmpty := by
        have hrow := List.mem_map_of_mem (f := fun row => (row.1, row.2.isEmpty)) hrow
        rw [hsame] at hrow
        obtain ⟨old, hold, heq⟩ := List.mem_map.mp hrow
        exact ⟨old, hold, congrArg Prod.fst heq, congrArg Prod.snd heq⟩
      have hcontent {old : String × Values Tree} (hold : old ∈ rows) :=
        List.mem_map_of_mem (f := fun row => (row.1, row.2.map content)) hold
      refine ⟨?_, fun row hrow => ?_, fun row hrow => ?_⟩
      · have hkeys : Table.keys copies = Table.keys (rows.map fun row => (row.1, row.2.map content)) := by
          simpa [Table.keys, Function.comp_def] using congrArg (List.map Prod.fst) hsame
        rw [Table.Sorted, hkeys]
        exact hsorted
      · obtain ⟨old, hold, hkey, -⟩ := hmem hrow
        rw [← hkey]
        exact hlegal _ (hcontent hold)
      · obtain ⟨old, hold, -, hempty⟩ := hmem hrow
        rw [← hempty, ← Values.isEmpty_map content]
        exact hfull _ (hcontent hold)

mutual

/-- A copy of a tree is new, and its rows are those of the tree. -/
theorem edits_plant : ∀ (t : Tree) {s : Store}, s.Zoned zone → t.content.Sound →
    Edits zone s (plant s t).2 ∧ (plant s t).2.Inner zone (plant s t).1
  | .node p d rows, s, h, ht => by
    rw [content] at ht
    obtain ⟨hedits, hbelow, hsame⟩ := edits_plantEntries rows h
      fun row hrow => Content.hereditary_sound _ ht row.1 row.2 hrow
    rw [plant_node]
    have hproper := proper_of_rows ht hsame
    exact ⟨hedits.trans (hedits.toZoned.alloc hproper hbelow), hedits.toZoned.inner_alloc _⟩

theorem edits_plantEntries : ∀ (rows : List (String × Values Tree)) {s : Store}, s.Zoned zone →
    (∀ row ∈ contentOfRows rows, ∀ c ∈ row.2.children, c.Sound) →
    Edits zone s (plantEntries s rows).2 ∧
      (∀ c ∈ (plantEntries s rows).1.flatMap fun row => row.2.children,
        (plantEntries s rows).2.Inner zone c) ∧
      ((plantEntries s rows).1.map fun row => (row.1, row.2.isEmpty)) =
        rows.map fun row => (row.1, row.2.isEmpty)
  | [], s, h, _ => ⟨.refl h, nofun, rfl⟩
  | (key, vs) :: rows, s, h, hsound => by
    rw [contentOfRows_eq_map, List.map_cons, ← contentOfRows_eq_map] at hsound
    have hothers := fun row hrow => hsound row (List.mem_cons_of_mem _ hrow)
    by_cases hkind : vs.kind = .policy
    · cases vs with
      | policies children =>
        have hfirst := hsound _ List.mem_cons_self
        rw [Values.children_map, Values.children, ← contentOfAll_eq_map] at hfirst
        obtain ⟨hedits, hcopies, hlength⟩ := edits_plantAll children h hfirst
        obtain ⟨hrest, hbelow, hsame⟩ := edits_plantEntries rows hedits.toZoned hothers
        rw [plantEntries_policies]
        refine ⟨hedits.trans hrest, fun c hc => ?_, ?_⟩
        · rcases List.mem_append.mp (List.flatMap_cons ▸ hc) with hc | hc
          · exact (hcopies c hc).mono hrest.size_le
          · exact hbelow c hc
        · have hempty : (Values.policies (plantAll s children).1).isEmpty =
              (Values.policies children).isEmpty := by
            generalize (plantAll s children).1 = copies at hlength
            cases copies <;> cases children <;> first | rfl | cases hlength
          rw [List.map_cons, List.map_cons, hsame, hempty]
      | _ => cases hkind
    · obtain ⟨hrest, hbelow, hsame⟩ := edits_plantEntries rows h hothers
      rw [plantEntries_of_ne s key hkind]
      refine ⟨hrest, fun c hc => ?_, ?_⟩
      · rcases List.mem_append.mp (List.flatMap_cons ▸ hc) with hc | hc
        · cases vs with
          | policies children => exact (hkind rfl).elim
          | _ => cases hc
        · exact hbelow c hc
      · rw [List.map_cons, List.map_cons, hsame, Values.isEmpty_map]

theorem edits_plantAll : ∀ (ts : List Tree) {s : Store}, s.Zoned zone →
    (∀ c ∈ contentOfAll ts, c.Sound) →
    Edits zone s (plantAll s ts).2 ∧ (∀ c ∈ (plantAll s ts).1, (plantAll s ts).2.Inner zone c) ∧
      (plantAll s ts).1.length = ts.length
  | [], s, h, _ => ⟨.refl h, nofun, rfl⟩
  | t :: ts, s, h, hsound => by
    rw [contentOfAll] at hsound
    obtain ⟨hfirst, hcopy⟩ := edits_plant t h (hsound _ List.mem_cons_self)
    obtain ⟨hrest, hcopies, hlength⟩ := edits_plantAll ts hfirst.toZoned
      fun c hc => hsound c (List.mem_cons_of_mem _ hc)
    rw [plantAll_cons]
    refine ⟨hfirst.trans hrest, fun c hc => ?_, congrArg (· + 1) hlength⟩
    rcases List.mem_cons.mp hc with rfl | hc
    · exact hcopy.mono hrest.size_le
    · exact hcopies c hc

end

end Tree

namespace Policy

theorem edits_deepCopy (h : s.Zoned zone) (p : Policy) :
    p.deepCopy.Edits zone s fun q s' => s'.Inner zone q := by
  obtain ⟨hedits, hinner⟩ := (s.tree p).edits_plant h (h.toProper.tree p)
  exact Confined.ok rfl hedits hinner

theorem edits_shallowCopy (h : s.Zoned zone) (hp : zone p) :
    p.shallowCopy.Edits zone s fun q s' => s'.Inner zone q :=
  Confined.ok rfl (h.alloc (h.rows p) fun _ hc => h.inner hp hc) (h.inner_alloc _)

theorem edits_mapM_deepCopy (ps : List Policy) : ∀ {s : Store}, s.Zoned zone →
    StoreM.Edits (ps.mapM Policy.deepCopy) zone s fun qs s' => ∀ q ∈ qs, s'.Inner zone q := by
  induction ps with
  | nil => exact fun h => Confined.pure h nofun
  | cons p ps ih =>
    intro s h
    rw [List.mapM_cons]
    refine (edits_deepCopy h p).bind fun q s₁ h₁ hq => ?_
    refine (ih h₁.toZoned).bind fun qs s₂ h₂ hqs => Confined.pure h₂.toZoned fun r hr => ?_
    rcases List.mem_cons.mp hr with rfl | hr
    · exact hq.mono h₂.size_le
    · exact hqs r hr

end Policy

theorem Values.edits_deepCopy (h : s.Zoned zone) (vs : Values Policy) :
    vs.deepCopy.Edits zone s fun ws s' => ∀ c ∈ ws.children, s'.Inner zone c := by
  cases vs with
  | policies ps =>
    refine (Policy.edits_mapM_deepCopy ps h).bind fun qs s₁ h₁ hqs => ?_
    exact Confined.pure h₁.toZoned hqs
  | _ => exact Confined.pure h nofun

theorem Values.edits_plant (h : s.Zoned zone) {vs : Values Tree}
    (hvs : ∀ t ∈ vs.children, t.content.Sound) :
    vs.plant.Edits zone s fun ws s' => ∀ c ∈ ws.children, s'.Inner zone c := by
  cases vs with
  | policies ts =>
    have hsound : ∀ c ∈ Tree.contentOfAll ts, c.Sound := by
      intro c hc
      rw [Tree.contentOfAll_eq_map] at hc
      obtain ⟨t, ht, rfl⟩ := List.mem_map.mp hc
      exact hvs t ht
    obtain ⟨hedits, hinner, -⟩ := Tree.edits_plantAll ts h hsound
    exact Confined.ok rfl hedits hinner
  | _ => exact Confined.pure h nofun

/-! ## Defaults -/

namespace Policy

theorem edits_ofDefaults (h : s.Zoned zone) (d : Dictionary) (attached : Bool) (acc : Option Report) :
    (ofDefaults d attached acc).Edits zone s fun found s' => s'.Inner zone found.1 := by
  have hover := h.toProper.schema d
  have hregular : (s.schema d).Over Content.Regular := fun key values hrow t ht =>
    (hover key values hrow t ht).1
  have hnamed : (s.schema d).Over Content.Named := fun key values hrow t ht =>
    (hover key values hrow t ht).2
  obtain ⟨hedits, hinner⟩ := (Tree.fresh (s.schema d).defaults.entries).edits_plant h
    ⟨Schema.regular_defaults hregular hnamed, Schema.named_defaults hnamed⟩
  cases hsettle : settle (s.schema d).defaults.findings acc with
  | error e =>
    have hrun : ofDefaults d attached acc s = .error e s := by
      show EStateM.bind (StoreM.lift _) _ s = _
      rw [EStateM.bind, StoreM.lift, StoreM.ask, hsettle]
    exact Confined.error hrun (.refl h)
  | ok settled =>
    refine Confined.ok (ofDefaults_eq hsettle attached) ?_ ?_
    · cases attached with
      | true => exact hedits.trans (hedits.toZoned.setDictionary hinner.1 d)
      | false => exact hedits
    · cases attached with
      | true => exact hinner.mono (Store.size_setDictionary _ _ d).ge
      | false => exact hinner

theorem edits_mergeName (h : s.Zoned zone) (hp : zone p) (source : Policy) (name : String) :
    (p.mergeName source name).Edits zone s fun _ _ => True := by
  refine Confined.get_bind ?_
  split
  · exact Confined.pure h trivial
  · refine (StoreM.Edits.ask (P := fun _ _ => True) h fun _ _ => trivial).bind
      fun values s₁ h₁ _ => ?_
    refine (values.edits_deepCopy h₁.toZoned).bind fun copy s₂ h₂ hcopy => ?_
    refine Confined.get_bind ?_
    cases hput : s₂.put p name copy with
    | ok s' =>
      refine StoreM.Edits.modify_bind (h₂.toZoned.put hp hcopy hput) ?_
      exact Confined.pure (h₂.toZoned.put hp hcopy hput).toZoned trivial
    | error e =>
      simp only
      split
      · exact Confined.pure h₂.toZoned trivial
      · exact Confined.throw h₂.toZoned e

theorem edits_mergeNames (hp : zone p) (source : Policy) (names : List String) : ∀ {s : Store},
    s.Zoned zone → (p.mergeNames source names).Edits zone s fun _ _ => True := by
  induction names with
  | nil => exact fun h => Confined.pure h trivial
  | cons name names ih =>
    intro s h
    refine (edits_mergeName h hp source name).bind fun _ s₁ h₁ _ => ?_
    refine (ih h₁.toZoned).bind fun _ s₂ h₂ _ => ?_
    exact Confined.pure h₂.toZoned trivial

/-- Merging once the policy with the defaults is there, and the dictionary that may be kept. -/
def mergeFrom (p defaults : Policy) (schema : Option Dictionary) (keep : Bool) (acc : Option Report) :
    StoreM (Nat × Option Report) := do
  let copied ← p.mergeNames defaults ((← get).names defaults .all false)
  match schema with
  | some d => if keep then p.attach d
  | none => pure ()
  match (← get).dictionary? p with
  | some _ => return (copied, ← StoreM.ask (·.validate p acc))
  | none => return (copied, acc)

theorem mergeDefaults_eq (p : Policy) (source : DefaultSource) (keep : Bool) (acc : Option Report) :
    p.mergeDefaults source keep acc = match source with
      | .policy q => get >>= fun s => p.mergeFrom q (s.dictionary? q) keep acc
      | .dictionary d => ofDefaults d false acc >>= fun found =>
        p.mergeFrom found.1 (some d) keep found.2 := by
  cases source <;> rfl

theorem edits_mergeFrom (h : s.Zoned zone) (hp : zone p) (defaults : Policy)
    (schema : Option Dictionary) (keep : Bool) (acc : Option Report) :
    (p.mergeFrom defaults schema keep acc).Edits zone s fun _ _ => True := by
  have hvalidate {n : Nat} {t : Store} (ht : t.Zoned zone) : StoreM.Edits (do
      match (← get).dictionary? p with
      | some _ => return (n, ← StoreM.ask (·.validate p acc))
      | none => return (n, acc)) zone t fun _ _ => True := by
    refine Confined.get_bind ?_
    split
    · refine (StoreM.Edits.ask (P := fun _ _ => True) ht fun _ _ => trivial).bind
        fun _ t' ht' _ => ?_
      exact Confined.pure ht'.toZoned trivial
    · exact Confined.pure ht trivial
  refine Confined.get_bind ?_
  refine (edits_mergeNames hp defaults _ h).bind fun copied s₁ h₁ _ => ?_
  cases schema with
  | none => exact hvalidate h₁.toZoned
  | some d =>
    cases keep with
    | false => exact hvalidate h₁.toZoned
    | true => exact (edits_attach h₁.toZoned hp d).bind fun _ s₂ h₂ _ => hvalidate h₂.toZoned

theorem edits_mergeDefaults (h : s.Zoned zone) (hp : zone p) (source : DefaultSource) (keep : Bool)
    (acc : Option Report) : (p.mergeDefaults source keep acc).Edits zone s fun _ _ => True := by
  rw [mergeDefaults_eq]
  cases source with
  | policy q => exact Confined.get_bind (edits_mergeFrom h hp q _ keep acc)
  | dictionary d => exact (edits_ofDefaults h d false acc).bind fun found s₁ h₁ _ =>
      edits_mergeFrom h₁.toZoned hp found.1 (some d) keep found.2

end Policy

namespace Definition

theorem edits_forM_add (hp : zone p) (name : String) (vs : List (Value Policy)) : ∀ {s : Store},
    s.Zoned zone → (∀ v ∈ vs, ∀ c, v = .policy c → s.Inner zone c) →
      StoreM.Edits (vs.forM (p.add name)) zone s fun _ _ => True := by
  induction vs with
  | nil => exact fun h _ => Confined.pure h trivial
  | cons v vs ih =>
    intro s h hvs
    show StoreM.Edits (p.add name v >>= fun _ => vs.forM (p.add name)) zone s _
    refine (Policy.edits_add h hp (hvs v List.mem_cons_self) name).bind fun _ s₁ h₁ _ => ?_
    exact ih h₁.toZoned fun w hw c hc => (hvs w (List.mem_cons_of_mem _ hw) c hc).mono h₁.size_le

theorem edits_writeAll (hp : zone p) (name : String) {vs : List (Value Policy)} (h : s.Zoned zone)
    (hvs : ∀ v ∈ vs, ∀ c, v = .policy c → s.Inner zone c) :
    (writeAll p name vs).Edits zone s fun _ _ => True := by
  cases vs with
  | nil => exact Confined.pure h trivial
  | cons v vs =>
    refine (Policy.edits_set h hp (hvs v List.mem_cons_self) name).bind fun _ s₁ h₁ _ => ?_
    exact edits_forM_add hp name vs h₁.toZoned fun w hw c hc =>
      (hvs w (List.mem_cons_of_mem _ hw) c hc).mono h₁.size_le

/-- The policies of the default have rows as they have to be, at every level. -/
def Sound (d : Definition) : Prop :=
  ∀ values, d.default = some values → ∀ t ∈ values.children, t.content.Sound

/-- The default holds a value at least. -/
def Filled (d : Definition) : Prop := ∀ values, d.default = some values → values.isEmpty = false

theorem edits_applyDefault {d : Definition} (hd : d.Sound) (h : s.Zoned zone) (hp : zone p)
    (name : String) (acc : Option Report) :
    (d.applyDefault p name acc).Edits zone s fun _ _ => True := by
  unfold applyDefault
  cases hdefault : d.default with
  | none => exact Confined.pure h trivial
  | some values =>
    simp only
    split
    · refine (values.edits_plant h (hd values hdefault)).bind fun copies s₁ h₁ hcopies => ?_
      have hvalues : ∀ v ∈ copies.toList, ∀ c, v = .policy c → s₁.Inner zone c := by
        rintro v hv c rfl
        refine hcopies c ?_
        cases copies <;> simp_all [Values.toList, Values.children]
      refine (edits_writeAll hp name h₁.toZoned hvalues).bind fun _ s₂ h₂ _ => ?_
      exact Confined.pure h₂.toZoned trivial
    · refine (StoreM.Edits.lift h).bind fun _ s₁ h₁ _ => ?_
      exact Confined.pure h₁.toZoned trivial

end Definition

end PolicyStore
