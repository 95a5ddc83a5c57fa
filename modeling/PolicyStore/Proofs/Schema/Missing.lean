import PolicyStore.Proofs.Schema.Inside
import PolicyStore.Proofs.Store.Above

set_option autoImplicit false

namespace PolicyStore

/-!
# What is missing

A schema requires names of a policy and of those in it. The defaults of a schema without child
definitions never miss what has a default itself.
-/

theorem Values.isEmpty_promote {π : Type} (declared : Option Kind) (vs : Values π) :
    (vs.promote declared).isEmpty = vs.isEmpty := by
  cases vs <;> simp only [promote]
  split
  · simp [isEmpty, toList]
  · rfl

/-- No row is empty. -/
theorem Content.Regular.isEmpty_row {t : Tree} (h : t.content.Regular) {key : String}
    {values : Values Tree} (hrow : (key, values) ∈ t.entries) :
    values.isEmpty = false := by
  have hmapped := Tree.mem_rows_content hrow
  generalize t.content = content at h hmapped
  cases h with
  | node _ hfull _ => exact (Values.isEmpty_map _ _).symm.trans (hfull _ hmapped)

namespace Schema

/-- The content, or one in it, lacks what the schema requires at a path. -/
inductive Misses : Schema → Content → List String → Prop
  | absent {s : Schema} {c : Content} {name : String} {d : Definition} : s.Defines name d →
      0 < d.minOccurs → Table.get? name c.rows = none → Misses s c [name]
  | inside {s inner : Schema} {c child : Content} {name : String} {children : List Content}
      {d : Definition} {rest : List String} : s.Defines name d → d.Accepts .policy →
      d.sub = .inline inner → (name, .policies children) ∈ c.rows → child ∈ children →
      Misses inner child rest → Misses s c (name :: rest)

theorem Misses.ne_nil {s : Schema} {c : Content} {path : List String} (h : s.Misses c path) :
    path ≠ [] := by
  cases h <;> exact List.cons_ne_nil _ _

/-- No schema in the schema has a child definition. -/
def Explicit (s : Schema) : Prop := ∀ t, s.Inside t → t.childBlock? = none

variable {s inner : Schema} {name : String} {d : Definition} {path : List String}

theorem Explicit.sub (h : s.Explicit) (hname : Name.segments name = .ok [name])
    (hd : s.Defines name d) (hsub : d.sub = .inline inner) : inner.Explicit :=
  fun t ht => h t (.inner hname hd hsub ht)

/-- Without a child definition all names that have a definition are defined by name. -/
theorem mem_definedNames_of_defines (hchild : s.childBlock? = none)
    (hname : Name.segments name = .ok [name]) (hd : s.Defines name d) : name ∈ s.definedNames := by
  obtain ⟨block, hblock, _⟩ := hd
  refine mem_definedNames_of_own? hname ?_
  cases hblock with
  | own hown _ => simp [hown]
  | child _ hblock => cases hchild.symm.trans hblock

theorem Explicit.mem_definedNames (h : s.Explicit) (hname : Name.segments name = .ok [name])
    (hd : s.Defines name d) : name ∈ s.definedNames :=
  mem_definedNames_of_defines (h s (.here s)) hname hd

/-- Only the schemas inside the definitions of defined names have to be looked at. -/
theorem Explicit.of_definedNames (hchild : s.childBlock? = none)
    (h : ∀ name ∈ s.definedNames, ∀ d inner, s.Defines name d → d.sub = .inline inner →
      inner.Explicit) : s.Explicit := by
  intro t ht
  cases ht with
  | here => exact hchild
  | inner hname hd hsub ht =>
    exact h _ (mem_definedNames_of_defines hchild hname hd) _ _ hd hsub t ht

theorem Explicit.of_single (hchild : s.childBlock? = none) (hnames : s.definedNames = [name])
    (hd : s.definition? name = some (.ok d)) (h : ∀ inner, d.sub = .inline inner → inner.Explicit) :
    s.Explicit := by
  refine .of_definedNames hchild fun other hother e inner he hsub => ?_
  rw [hnames] at hother
  cases List.mem_singleton.mp hother
  cases hd.symm.trans (definition?_eq_ok_iff.mpr he)
  exact h inner hsub

/-! ## Missing and blame -/

theorem Blames.eq_or_le {t : Tree} {code : Code} (h : s.Blames t name code) :
    code = .missingRequired ∨ code ≤ .allBut .missingRequired := by
  induction h with
  | unknown => exact Or.inr (by decide)
  | malformed => exact Or.inr (by decide)
  | malformedAbsent => exact Or.inr (by decide)
  | absent => exact Or.inl rfl
  | array _ _ hblame => cases hblame <;> first | exact Or.inl rfl | exact Or.inr (by decide)
  | inside _ _ _ _ _ _ ih => exact ih

theorem misses_of_blames {t : Tree} {code : Code} (h : s.Blames t name code)
    (hs : s.Over Content.Named) (hnamed : t.content.Named) (hregular : t.content.Regular)
    (hcode : code = .missingRequired) :
    ∃ path, Name.segments name = .ok path ∧ s.Misses t.content path := by
  induction h with
  | unknown => cases hcode
  | malformed => cases hcode
  | malformedAbsent => cases hcode
  | @array s t name values d code hrow hd hblame =>
    -- No row is empty, so no array can be missing where there is a row.
    subst hcode
    cases hblame with
    | missing hlength _ =>
      have hne := hregular.isEmpty_row hrow
      rw [Values.isEmpty, List.eq_nil_of_length_eq_zero hlength] at hne
      cases hne
  | @absent s t name d hdefined habsent hd hmin =>
    refine ⟨[name], (hs.definedNames hdefined).1, .absent hd hmin ?_⟩
    rw [Tree.rows_content, Table.get?_map, habsent]
    rfl
  | @inside s inner t child name rest children d code hrow hd haccept hsub hchild _ ih =>
    have hname := hnamed.key hrow
    obtain ⟨path, hpath, hmisses⟩ := ih (hs.sub Content.hereditary_named hname hd hsub)
      (Content.hereditary_named.child hnamed hrow hchild)
      (Content.hereditary_regular.child hregular hrow hchild) hcode
    exact ⟨name :: path, Name.segments_append hname hpath,
      .inside hd haccept hsub (Tree.mem_rows_content hrow) (List.mem_map_of_mem hchild) hmisses⟩

theorem exists_blames_of_misses {c : Content} (h : s.Misses c path) (hs : s.Explicit)
    (hpath : ∀ segment ∈ path, Name.segments segment = .ok [segment]) {t : Tree}
    (ht : t.content = c) : ∃ name, s.Blames t name .missingRequired := by
  induction h generalizing t with
  | @absent s c name d hd hmin habsent =>
    subst ht
    refine ⟨name, .absent (hs.mem_definedNames (hpath name List.mem_cons_self) hd) ?_ hd hmin⟩
    rw [Tree.rows_content, Table.get?_map] at habsent
    exact Option.map_eq_none_iff.mp habsent
  | @inside s inner c child name children d rest hd haccept hsub hrow hchild _ ih =>
    subst ht
    have hname := hpath name List.mem_cons_self
    rw [Tree.rows_content] at hrow
    obtain ⟨⟨key, values⟩, hmem, heq⟩ := List.mem_map.mp hrow
    obtain ⟨rfl, hvalues⟩ := Prod.mk.inj heq
    cases values with
    | policies ts =>
      cases hvalues
      obtain ⟨t', ht', heq⟩ := List.mem_map.mp hchild
      obtain ⟨rest', hblames⟩ := ih (hs.sub hname hd hsub)
        (fun segment hsegment => hpath segment (List.mem_cons_of_mem _ hsegment)) heq
      exact ⟨key ++ "." ++ rest', .inside hmem hd haccept hsub ht' hblames⟩
    | _ => cases hvalues

/-- A path goes through definitions that accept policies into a schema. -/
inductive Passage : Schema → List String → Schema → Prop
  | here (s : Schema) : Passage s [] s
  | into {s inner t : Schema} {name : String} {d : Definition} {path : List String} :
      s.Defines name d → d.Accepts .policy → d.sub = .inline inner → Passage inner path t →
      Passage s (name :: path) t

theorem Passage.snoc {t t' : Schema} (h : s.Passage path t) (hd : t.Defines name d)
    (haccept : d.Accepts .policy) (hsub : d.sub = .inline t') : s.Passage (path ++ [name]) t' := by
  induction h with
  | here => exact .into hd haccept hsub (.here t')
  | into hd' haccept' hsub' _ ih => exact .into hd' haccept' hsub' (ih hd)

/-- What a policy at the end of a path misses is missing at the longer path. -/
theorem Passage.misses {t : Schema} {c child : Content} {children : List Content}
    {rest : List String} (h : s.Passage path t)
    (hfind : Content.find? path c = some (.policies children)) (hchild : child ∈ children)
    (hmisses : t.Misses child rest) : s.Misses c (path ++ rest) := by
  induction h generalizing c with
  | here => cases hfind
  | @into s inner t name d path hd haccept hsub hpassage ih =>
    cases path with
    | nil =>
      cases hpassage
      exact .inside hd haccept hsub (Table.mem_of_get? hfind) hchild hmisses
    | cons next path =>
      obtain ⟨vs, hget, hbelow⟩ := Option.bind_eq_some_iff.mp hfind
      obtain ⟨last, hlast, hrest⟩ := Option.bind_eq_some_iff.mp hbelow
      obtain ⟨front, rfl⟩ := Content.exists_eq_policies hlast
      exact .inside hd haccept hsub (Table.mem_of_get? hget)
        (List.mem_append_right front List.mem_cons_self) (ih hrest hmisses)

/-! ## Defaults -/

/-- A default is never empty. -/
theorem Over.isEmpty_default (h : s.Over Content.Regular) (hname : Name.segments name = .ok [name])
    (hd : s.Defines name d) {values : Values Tree} (hdefault : d.default = some values) :
    values.isEmpty = false := by
  obtain ⟨block, hblock, hread⟩ := hd
  obtain ⟨_, _, _, _, _, _, hwritten⟩ := Definition.fields_of_ofBlock? hread
  rw [hdefault] at hwritten
  obtain ⟨written, hget, rfl⟩ := Option.map_eq_some_iff.mp hwritten.symm
  have hregular := h.describes Content.hereditary_regular hname hblock
  rw [Values.isEmpty_promote]
  exact hregular.isEmpty_row (Table.mem_of_get? hget)

/-- The default under a key is that of its name, or made up of those inside its definition. -/
theorem exists_of_mem_defaultOf {key : String} {values : Values Tree}
    (h : (key, values) ∈ (s.defaultOf name).entries) : key = name ∧ ∃ d, s.Defines name d ∧
      (d.default = some values ∧ d.problems name values = [] ∨
        d.default = none ∧ ∃ inner, d.sub = .inline inner ∧
          values = .policies [.fresh inner.defaults.entries]) := by
  unfold defaultOf at h
  split at h
  · cases h
  · cases h
  · rename_i d hd
    have hdefines := definition?_eq_ok_iff.mp hd
    split at h
    · rename_i written hdefault
      unfold Definition.ownDefault at h
      split at h
      · rename_i hproblems
        cases List.mem_singleton.mp h
        exact ⟨rfl, d, hdefines, Or.inl ⟨hdefault, hproblems⟩⟩
      · cases h
    · rename_i hdefault
      split at h
      · rename_i inner hsub
        unfold Defaults.under at h
        split at h
        · cases h
        · cases List.mem_singleton.mp h
          exact ⟨rfl, d, hdefines, Or.inr ⟨hdefault, inner, hsub, rfl⟩⟩
      · cases h
      · cases h

theorem exists_of_mem_defaults {values : Values Tree} (h : (name, values) ∈ s.defaults.entries) :
    name ∈ s.definedNames ∧ ∃ d, s.Defines name d ∧
      (d.default = some values ∧ d.problems name values = [] ∨
        d.default = none ∧ ∃ inner, d.sub = .inline inner ∧
          values = .policies [.fresh inner.defaults.entries]) := by
  rw [entries_defaults] at h
  obtain ⟨other, hdefined, h⟩ := List.mem_flatMap.mp h
  obtain ⟨rfl, hd⟩ := exists_of_mem_defaultOf h
  exact ⟨hdefined, hd⟩

/-! ## What kind of policy the defaults make up -/

/-- What a policy has if all those in it have it, the defaults have if the schema has it. -/
theorem property_defaults {P : Content → Prop} (hP : Content.Hereditary P)
    (hnode : ∀ {s : Schema}, s.Over P → s.Over Content.Named →
      (∀ name values, (name, values) ∈ s.defaults.entries → ∀ t ∈ values.children, P t.content) →
      P (Tree.fresh s.defaults.entries).content) :
    ∀ {s : Schema}, s.Over P → s.Over Content.Named → P (Tree.fresh s.defaults.entries).content := by
  intro s
  induction hsize : sizeOf s using Nat.strongRecOn generalizing s with
  | ind size ih =>
    intro h hs
    refine hnode h hs fun name values hrow t ht => ?_
    obtain ⟨hdefined, d, hd, hcases⟩ := exists_of_mem_defaults hrow
    have hname := (hs.definedNames hdefined).1
    rcases hcases with ⟨hdefault, _⟩ | ⟨_, inner, hsub, rfl⟩
    · exact h.default hP hname hd hdefault t ht
    · cases List.mem_singleton.mp ht
      exact ih _ (hsize ▸ sizeOf_sub_lt (definition?_eq_ok_iff.mpr hd) hsub) rfl
        (h.sub hP hname hd hsub) (hs.sub Content.hereditary_named hname hd hsub)

theorem named_defaults (hs : s.Over Content.Named) :
    (Tree.fresh s.defaults.entries).content.Named := by
  refine property_defaults Content.hereditary_named (fun {s} _ hs hchildren => ?_) hs hs
  rw [Tree.fresh, Tree.content, Tree.contentOfRows_eq_map]
  refine .node (fun row hrow => ?_) fun row hrow c hc => ?_
  · obtain ⟨⟨name, values⟩, hmem, rfl⟩ := List.mem_map.mp hrow
    exact (hs.definedNames (exists_of_mem_defaults hmem).1).1
  · obtain ⟨⟨name, values⟩, hmem, rfl⟩ := List.mem_map.mp hrow
    rw [Values.children_map] at hc
    obtain ⟨t, ht, rfl⟩ := List.mem_map.mp hc
    exact hchildren name values hmem t ht

/-- One name has one default at most. -/
theorem keys_defaultOf (s : Schema) (name : String) :
    (Table.keys (s.defaultOf name).entries).Sublist [name] := by
  unfold defaultOf
  split
  · exact List.nil_sublist _
  · exact List.nil_sublist _
  · split
    · unfold Definition.ownDefault
      split
      · exact List.Sublist.refl _
      · exact List.nil_sublist _
    · split
      · unfold Defaults.under
        split
        · exact List.nil_sublist _
        · exact List.Sublist.refl _
      · exact List.nil_sublist _
      · exact List.nil_sublist _

/-- The defaults stand in the order of the names. -/
theorem sorted_defaults (hs : s.Over Content.Regular) : Table.Sorted s.defaults.entries := by
  have hsublist (names : List String) :
      (Table.keys (names.flatMap fun name => (s.defaultOf name).entries)).Sublist names := by
    induction names with
    | nil => exact List.nil_sublist _
    | cons name names ih =>
      rw [List.flatMap_cons, Table.keys, List.map_append]
      exact (keys_defaultOf s name).append ih
  have hnames : s.definedNames.Pairwise (· < ·) := by
    unfold definedNames
    split
    · rename_i block hblock
      have hsorted := (hs.of_child? hblock).sorted
      rw [Tree.rows_content] at hsorted
      simpa [Table.Sorted, Table.keys, Function.comp_def] using hsorted
    · exact List.Pairwise.nil
  rw [Table.Sorted, entries_defaults]
  exact hnames.sublist (hsublist _)

theorem regular_defaults (h : s.Over Content.Regular) (hs : s.Over Content.Named) :
    (Tree.fresh s.defaults.entries).content.Regular := by
  refine property_defaults Content.hereditary_regular (fun {s} h hs hchildren => ?_) h hs
  rw [Tree.fresh, Tree.content, Tree.contentOfRows_eq_map]
  refine .node (Table.sorted_map (sorted_defaults h) _) (fun row hrow => ?_) fun row hrow c hc => ?_
  · obtain ⟨⟨name, values⟩, hmem, rfl⟩ := List.mem_map.mp hrow
    rw [Values.isEmpty_map]
    obtain ⟨hdefined, d, hd, ⟨hdefault, _⟩ | ⟨_, inner, _, rfl⟩⟩ := exists_of_mem_defaults hmem
    · exact h.isEmpty_default (hs.definedNames hdefined).1 hd hdefault
    · rfl
  · obtain ⟨⟨name, values⟩, hmem, rfl⟩ := List.mem_map.mp hrow
    rw [Values.children_map] at hc
    obtain ⟨t, ht, rfl⟩ := List.mem_map.mp hc
    exact hchildren name values hmem t ht

/-! ## Defaults that are accepted -/

/-- Nothing stood in the way of a default. -/
def Clean (s : Schema) : Prop := ∀ f ∈ s.defaults.findings, f.2 = .none

theorem Clean.of_defaultOf (h : s.Clean) (hname : name ∈ s.definedNames) :
    ∀ f ∈ (s.defaultOf name).findings, f.2 = .none := by
  intro f hf
  refine h f ?_
  rw [findings_defaults]
  exact List.mem_flatMap.mpr ⟨name, hname, hf⟩

theorem Clean.sub (h : s.Clean) (hname : name ∈ s.definedNames) (hd : s.Defines name d)
    (hdefault : d.default = none) (hsub : d.sub = .inline inner) : inner.Clean := by
  intro f hf
  refine h.of_defaultOf hname (name ++ "." ++ f.1, f.2) ?_
  unfold defaultOf
  simp only [definition?_eq_ok_iff.mpr hd, hdefault, hsub]
  exact List.mem_map_of_mem (f := fun f : Finding => (name ++ "." ++ f.1, f.2)) hf

/-- Where nothing stood in the way, a name with a default has it. -/
theorem Clean.mem_defaults (h : s.Clean) (hname : name ∈ s.definedNames) (hd : s.Defines name d)
    {values : Values Tree} (hdefault : d.default = some values) :
    (name, values) ∈ s.defaults.entries := by
  have hclean := h.of_defaultOf hname
  rw [entries_defaults]
  refine List.mem_flatMap.mpr ⟨name, hname, ?_⟩
  unfold defaultOf Definition.ownDefault at hclean ⊢
  simp only [definition?_eq_ok_iff.mpr hd, hdefault] at hclean ⊢
  cases hproblems : d.problems name values with
  | nil => exact List.mem_singleton_self _
  | cons f found =>
    -- A problem is a finding that is not without fault.
    have hf : f ∈ d.problems name values := hproblems ▸ List.mem_cons_self
    have hfault := (List.mem_filter.mp hf).2
    rw [hproblems] at hclean
    rw [hclean f List.mem_cons_self] at hfault
    cases hfault

/-- A schema has nothing against the policies of a default that has been accepted. -/
theorem blames_le_of_problems_eq_nil {values : Values Tree} (hproblems : d.problems name values = [])
    (haccept : d.Accepts .policy) (hsub : d.sub = .inline inner) {t : Tree} (ht : t ∈ values.children)
    {rest : String} {code : Code} (hblames : inner.Blames t rest code) : code ≤ .none :=
  blames_le_of_findings_le hblames fun other hother => by
    have hfound : (name ++ "." ++ rest, other) ∈ d.findings name values := by
      refine List.mem_cons_of_mem _ (mem_findingsBelow_iff.mpr ⟨inner, t, rest, ?_, ht, hother, rfl⟩)
      exact Definition.below?_eq_some_iff.mpr ⟨haccept, hsub⟩
    have hnone : other.isNone = true := by
      simpa using List.filter_eq_nil_iff.mp hproblems _ hfound
    rw [Code.isNone_iff.mp hnone]

/-- What an accepted default holds misses nothing. -/
theorem not_misses_of_problems_eq_nil {values : Values Tree} (hproblems : d.problems name values = [])
    (haccept : d.Accepts .policy) (hsub : d.sub = .inline inner) (hinner : inner.Explicit)
    (hpath : ∀ segment ∈ path, Name.segments segment = .ok [segment]) {t : Tree}
    (ht : t ∈ values.children) : ¬inner.Misses t.content path := by
  intro hmisses
  obtain ⟨rest, hblames⟩ := exists_blames_of_misses hmisses hinner hpath rfl
  exact absurd (blames_le_of_problems_eq_nil hproblems haccept hsub ht hblames) (by decide)

/-- The defaults of a schema do not miss anything that has a default. -/
theorem Clean.not_misses {e : Definition} (hleads : s.Leads path e) (hdefault : e.default ≠ none)
    (hclean : s.Clean) (hs : s.Explicit)
    (hpath : ∀ segment ∈ path, Name.segments segment = .ok [segment]) :
    ¬s.Misses (Tree.fresh s.defaults.entries).content path := by
  induction hleads with
  | @last s name e he =>
    intro hmisses
    cases hmisses with
    | absent _ _ habsent =>
      obtain ⟨values, hvalues⟩ := Option.ne_none_iff_exists'.mp hdefault
      have hdefined := hs.mem_definedNames (hpath name List.mem_cons_self) he
      have hmem := Tree.mem_rows_content (t := .fresh s.defaults.entries)
        (hclean.mem_defaults hdefined he hvalues)
      exact Table.get?_eq_none_iff.mp habsent (List.mem_map_of_mem hmem)
    | inside _ _ _ _ _ hrest => cases hrest
  | @step s inner name next rest d e hd hsub _ ih =>
    intro hmisses
    have hname := hpath name List.mem_cons_self
    have hrest : ∀ segment ∈ next :: rest, Name.segments segment = .ok [segment] :=
      fun segment hsegment => hpath segment (List.mem_cons_of_mem _ hsegment)
    cases hmisses with
    | inside hd' haccept hsub' hrow hchild hmisses =>
      obtain rfl := hd.unique hd'
      cases hsub.symm.trans hsub'
      rw [Tree.rows_content] at hrow
      obtain ⟨⟨key, values⟩, hmem, heq⟩ := List.mem_map.mp hrow
      obtain ⟨rfl, hvalues⟩ := Prod.mk.inj heq
      obtain ⟨hdefined, other, hother, hcases⟩ := exists_of_mem_defaults hmem
      obtain rfl := hd.unique hother
      have hchildren : values.children.map Tree.content = _ :=
        (Values.children_map _ _).symm.trans (congrArg Values.children hvalues)
      rw [Values.children] at hchildren
      rw [← hchildren] at hchild
      obtain ⟨t, ht, rfl⟩ := List.mem_map.mp hchild
      rcases hcases with ⟨_, hproblems⟩ | ⟨hnone, other, hother', rfl⟩
      · exact not_misses_of_problems_eq_nil hproblems haccept hsub (hs.sub hname hd hsub) hrest ht
          hmisses
      · cases hsub.symm.trans hother'
        cases List.mem_singleton.mp ht
        exact ih hdefault (hclean.sub hdefined hd hnone hsub) (hs.sub hname hd hsub) hrest hmisses

end Schema

end PolicyStore
