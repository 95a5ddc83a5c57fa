import PolicyStore.Proofs.Schema.Admission
import PolicyStore.Proofs.Schema.Missing

set_option autoImplicit false

namespace PolicyStore

/-!
# Defaults against their own schema

Every default has been accepted by its own definition, but what is made of them is a copy. A schema
has the same against a copy of a policy as against the policy, unless it lists the policy itself
among the values allowed: a copy is another policy. What remains is that values are too few, where
definitions have no default of their own.
-/

/-! ## Copies of trees -/

namespace Tree

variable {t t' : Tree} {name : String} {values' : Values Tree}

theorem exists_row_of_content_eq (h : t'.content = t.content)
    (hrow : (name, values') ∈ t'.entries) :
    ∃ values, (name, values) ∈ t.entries ∧ values'.map content = values.map content := by
  have hmapped := mem_rows_content hrow
  rw [h, rows_content] at hmapped
  obtain ⟨⟨key, values⟩, hmem, heq⟩ := List.mem_map.mp hmapped
  obtain ⟨rfl, hvalues⟩ := Prod.mk.inj heq
  exact ⟨values, hmem, hvalues.symm⟩

theorem get?_eq_none_of_content_eq (h : t'.content = t.content)
    (habsent : Table.get? name t'.entries = none) : Table.get? name t.entries = none := by
  have hrows := congrArg (fun c => Table.get? name c.rows) h
  simp only [rows_content, Table.get?_map, habsent, Option.map_none] at hrows
  exact Option.map_eq_none_iff.mp hrows.symm

end Tree

theorem Value.eq_or_policies_of_map_eq {π ρ : Type} {f : π → ρ} {v v' : Value π}
    (h : v'.map f = v.map f) : v' = v ∨ ∃ c' c, v' = policy c' ∧ v = policy c := by
  cases v' <;> cases v <;> simp_all [map]

namespace Values

variable {values values' : Values Tree}

theorem exists_child_of_map_eq {children : List Tree} {child' : Tree}
    (h : (Values.policies children).map Tree.content = values.map Tree.content)
    (hchild : child' ∈ children) : ∃ others child, values = .policies others ∧ child ∈ others ∧
      child'.content = child.content := by
  cases values with
  | policies others =>
    have hchildren : children.map Tree.content = others.map Tree.content :=
      congrArg Values.children h
    have hmem : child'.content ∈ others.map Tree.content := hchildren ▸ List.mem_map_of_mem hchild
    obtain ⟨child, hmem, heq⟩ := List.mem_map.mp hmem
    exact ⟨others, child, rfl, hmem, heq.symm⟩
  | _ => cases h

theorem eq_singleton_of_map_eq {t : Tree}
    (h : values.map Tree.content = (Values.policies [t]).map Tree.content) :
    ∃ c, values = .policies [c] := by
  cases values with
  | policies children =>
    have hchildren : children.map Tree.content = [t.content] := congrArg Values.children h
    obtain ⟨c, rfl, -⟩ := List.map_eq_singleton_iff.mp hchildren
    exact ⟨c, rfl⟩
  | _ => cases h

/-- What is no policy is the same in a copy. -/
theorem exists_value_of_map_eq (h : values'.map Tree.content = values.map Tree.content)
    {v' : Value Tree} (hv : v' ∈ values'.toList) : v' ∈ values.toList ∨
      ∃ c' c, v' = .policy c' ∧ .policy c ∈ values.toList := by
  have hlist := congrArg toList h
  rw [toList_map, toList_map] at hlist
  have hmem : v'.map Tree.content ∈ values.toList.map (Value.map Tree.content) :=
    hlist ▸ List.mem_map_of_mem hv
  obtain ⟨v, hold, heq⟩ := List.mem_map.mp hmem
  rcases Value.eq_or_policies_of_map_eq heq.symm with rfl | ⟨c', c, rfl, rfl⟩
  · exact Or.inl hold
  · exact Or.inr ⟨c', c, rfl, hold⟩

end Values

namespace Value

variable {π : Type}

/-- Policies are not ordered. -/
theorem less_policy (p : π) (w : Value π) :
    (policy p).less w = false ∧ w.less (policy p) = false := by
  cases w <;> exact ⟨rfl, rfl⟩

theorem sameNumber_policy {c : Tree} {w : Value Tree} (h : (policy c).sameNumber w = true) :
    ∃ listed, w = policy listed ∧ c.handle = listed.handle := by
  cases w with
  | policy listed => exact ⟨listed, rfl, by simpa [sameNumber, number?, same] using h⟩
  | _ => simp [sameNumber, number?, same] at h

end Value

/-! ## The same blame for copies -/

/-- A definition does not list any of the policies of an array, if it accepts policies at all. -/
def Definition.Spares (d : Definition) (values : Values Tree) : Prop :=
  d.Accepts .policy → ∀ c ∈ values.children, ∀ listed, .policy listed ∈ d.allowed.values →
    c.handle ≠ listed.handle

/-- A definition has nothing against a copy that it does not have against the array. -/
theorem Definition.BlamesArray.of_copy {d : Definition} {values values' : Values Tree} {code : Code}
    (hblame : d.BlamesArray values' code)
    (hcopy : values'.map Tree.content = values.map Tree.content) (hspares : d.Spares values) : d.BlamesArray values code := by
  have hkind : values'.kind = values.kind := by
    simpa using congrArg Values.kind hcopy
  have hlength : values'.length = values.length := by
    simpa [Values.length, Values.toList_map] using congrArg Values.length hcopy
  cases hblame with
  | missing h0 hmin => exact .missing (hlength ▸ h0) hmin
  | notAnArray h1 hmin => exact .notAnArray (hlength ▸ h1) hmin
  | tooShort h1 hmin => exact .tooShort (hlength ▸ h1) (hlength ▸ hmin)
  | tooMany hmax hlt => exact .tooMany hmax (hlength ▸ hlt)
  | fileForPolicy hpolicy hfile => exact .fileForPolicy hpolicy (hkind ▸ hfile)
  | wrongType hdeclared hne hnot => exact .wrongType hdeclared (hkind ▸ hne) (hkind ▸ hnot)
  | @belowMin _ bound haccept hv hmin hless =>
    rcases Values.exists_value_of_map_eq hcopy hv with hold | ⟨c', c, rfl, -⟩
    · exact .belowMin (hkind ▸ haccept) hold hmin hless
    · cases (Value.less_policy c' bound).1.symm.trans hless
  | @aboveMax _ bound haccept hv hmax hless =>
    rcases Values.exists_value_of_map_eq hcopy hv with hold | ⟨c', c, rfl, -⟩
    · exact .aboveMax (hkind ▸ haccept) hold hmax hless
    · cases (Value.less_policy c' bound).2.symm.trans hless
  | disallowed haccept hv hne hall =>
    rcases Values.exists_value_of_map_eq hcopy hv with hold | ⟨c', c, rfl, hold⟩
    · exact .disallowed (hkind ▸ haccept) hold hne hall
    · have hpolicies : values.kind = .policy := (Values.kind_of_mem_toList hold).symm
      rw [hkind, hpolicies] at haccept
      refine .disallowed (hpolicies ▸ haccept) hold hne fun w hw => ?_
      refine Bool.eq_false_iff.mpr fun hsame => ?_
      obtain ⟨listed, rfl, heq⟩ := Value.sameNumber_policy hsame
      refine hspares haccept c ?_ listed hw heq
      cases values <;> simp_all [Values.toList, Values.children]
  | schemaNotLoaded haccept hv hsub =>
    rcases Values.exists_value_of_map_eq hcopy hv with hold | ⟨c', c, -, hold⟩
    · exact .schemaNotLoaded (hkind ▸ haccept) hold hsub
    · exact .schemaNotLoaded (hkind ▸ haccept) hold hsub

namespace Schema

/-- A policy in the tree is itself among the values that are allowed where it is held. -/
inductive Lists : Schema → Tree → Prop
  | here {s : Schema} {t c listed : Tree} {name : String} {children : List Tree} {d : Definition} :
      (name, .policies children) ∈ t.entries → s.Defines name d → d.Accepts .policy →
      c ∈ children → .policy listed ∈ d.allowed.values → c.handle = listed.handle → Lists s t
  | inside {s inner : Schema} {t c : Tree} {name : String} {children : List Tree} {d : Definition} :
      (name, .policies children) ∈ t.entries → s.Defines name d → d.Accepts .policy →
      d.sub = .inline inner → c ∈ children → Lists inner c → Lists s t

/-- A schema has nothing against a copy that it does not have against the policy. -/
theorem Blames.of_copy {s : Schema} {t t' : Tree} {name : String} {code : Code}
    (h : s.Blames t' name code) (hcopy : t'.content = t.content) (hlists : ¬s.Lists t) :
    s.Blames t name code := by
  induction h generalizing t with
  | unknown hrow hunknown =>
    obtain ⟨values, hrow, -⟩ := Tree.exists_row_of_content_eq hcopy hrow
    exact .unknown hrow hunknown
  | malformed hrow hknown hnone =>
    obtain ⟨values, hrow, -⟩ := Tree.exists_row_of_content_eq hcopy hrow
    exact .malformed hrow hknown hnone
  | array hrow hd hblame =>
    obtain ⟨values, hrow, hvalues⟩ := Tree.exists_row_of_content_eq hcopy hrow
    refine .array hrow hd (hblame.of_copy hvalues fun haccept c hc listed hlisted heq => hlists ?_)
    cases values with
    | policies children => exact .here hrow hd haccept hc hlisted heq
    | _ => cases hc
  | absent hdefined habsent hd hmin =>
    exact .absent hdefined (Tree.get?_eq_none_of_content_eq hcopy habsent) hd hmin
  | malformedAbsent hdefined habsent hnone =>
    exact .malformedAbsent hdefined (Tree.get?_eq_none_of_content_eq hcopy habsent) hnone
  | inside hrow hd haccept hsub hchild _ ih =>
    obtain ⟨values, hrow, hvalues⟩ := Tree.exists_row_of_content_eq hcopy hrow
    obtain ⟨others, child, rfl, hchild, hcontent⟩ := Values.exists_child_of_map_eq hvalues hchild
    exact .inside hrow hd haccept hsub hchild
      (ih hcontent fun hinside => hlists (.inside hrow hd haccept hsub hchild hinside))

/-! ## Definitions at every level -/

/-- All definitions in a schema and in the schemas inside it have a property. -/
def Everywhere (P : Definition → Prop) (s : Schema) : Prop :=
  ∀ level, s.Inside level → ∀ name d, Name.segments name = .ok [name] → level.Defines name d → P d

variable {P : Definition → Prop} {s inner : Schema} {name : String} {d : Definition}

theorem Everywhere.here (h : s.Everywhere P) (hname : Name.segments name = .ok [name])
    (hd : s.Defines name d) : P d :=
  h s (.here s) name d hname hd

theorem Everywhere.sub (h : s.Everywhere P) (hname : Name.segments name = .ok [name])
    (hd : s.Defines name d) (hsub : d.sub = .inline inner) : inner.Everywhere P :=
  fun level hlevel => h level (.inner hname hd hsub hlevel)

/-- Without a child definition there are the defined names alone. -/
theorem Everywhere.of_single (hchild : s.childBlock? = none) (hnames : s.definedNames = [name])
    (hd : s.definition? name = some (.ok d)) (h : P d)
    (hinner : ∀ inner, d.sub = .inline inner → inner.Everywhere P) : s.Everywhere P := by
  have hunique {other : String} {e : Definition} (hother : Name.segments other = .ok [other])
      (he : s.Defines other e) : e = d := by
    have hmem := mem_definedNames_of_defines hchild hother he
    rw [hnames] at hmem
    cases List.mem_singleton.mp hmem
    exact he.unique (definition?_eq_ok_iff.mp hd)
  intro level hlevel other e hother he
  cases hlevel with
  | here => exact hunique hother he ▸ h
  | inner hname hd' hsub hlevel =>
    cases hunique hname hd'
    exact hinner _ hsub level hlevel other e hother he

end Schema

/-! ## Schemas of defaults -/

/-- A definition with a schema inside takes policies, one at least and whichever they are, and no
default of policies goes together with values that are allowed. -/
structure Definition.Collectable (d : Definition) : Prop where
  accepts : ∀ inner, d.sub = .inline inner → d.Accepts .policy
  room : ∀ inner most, d.sub = .inline inner → d.maxOccurs = some most → 1 ≤ most
  unconstrained : ∀ inner, d.sub = .inline inner → d.allowed.isUnconstrained = true
  unlisted : ∀ ts, d.default = some (.policies ts) → d.allowed.values = []

/-- The schema inside a definition does not list any policy that the default holds. -/
def Definition.Apart (d : Definition) : Prop :=
  ∀ inner values, d.sub = .inline inner → d.default = some values →
    ∀ t ∈ values.children, ¬inner.Lists t

namespace Definition.Collectable

variable {d : Definition} (h : d.Collectable)

include h

/-- A definition admits the policy that the defaults of its schema make up. -/
theorem admits_policy {inner : Schema} (hsub : d.sub = .inline inner) (t : Tree) :
    d.Admits (.policies [t]) where
  kind := h.accepts inner hsub
  count := by
    refine le_bot_iff.mp (excess_le_iff.mpr fun most hmax hlt => ?_)
    exact absurd hlt (Nat.not_lt.mpr (h.room inner most hsub hmax))
  each v hv := by
    have hfree := h.unconstrained inner hsub
    simp only [Allowed.isUnconstrained, Bool.and_eq_true, List.isEmpty_iff,
      Option.isNone_iff_eq_none] at hfree
    refine le_bot_iff.mp (Allowed.judge_le_iff.mpr ⟨fun bound hmin => ?_, fun bound hmax => ?_, ?_⟩)
    · cases hfree.1.2.symm.trans hmin
    · cases hfree.2.symm.trans hmax
    · exact fun hne => absurd hfree.1.1 hne

theorem spares {values : Values Tree} (hdefault : d.default = some values) : d.Spares values := by
  intro _ c hc listed hlisted
  cases values with
  | policies ts =>
    rw [h.unlisted ts hdefault] at hlisted
    cases hlisted
  | _ => cases hc

end Definition.Collectable

namespace Schema

variable {s inner : Schema} {name : String} {d : Definition}

theorem Clean.exists_defines (h : s.Clean) (hs : s.Over Content.Named)
    (hname : name ∈ s.definedNames) : ∃ d, s.Defines name d := by
  cases hd : s.definition? name with
  | none => exact ((hs.definedNames hname).2 (definition?_eq_none_iff.mp hd).1).elim
  | some found =>
    cases found with
    | ok d => exact ⟨d, definition?_eq_ok_iff.mp hd⟩
    | error fault =>
      have hfault : (name, Code.badDefinition) ∈ (s.defaultOf name).findings := by
        rw [defaultOf, hd]
        exact List.mem_singleton_self _
      cases h.of_defaultOf hname _ hfault

/-- Nothing is wrong with the array of a default that has been accepted. -/
theorem judgeArray_of_problems_eq_nil {values : Values Tree}
    (hproblems : d.problems name values = []) : d.judgeArray values = .none := by
  have hfound : (name, d.judgeArray values) ∈ d.findings name values := List.mem_cons_self
  have hnone := List.filter_eq_nil_iff.mp hproblems _ hfound
  exact Code.isNone_iff.mp (by simpa using hnone)

/-- A schema has nothing against a copy of its defaults, but that values are too few. -/
theorem Blames.le_of_defaults {t : Tree} {code : Code} (h : s.Blames t name code)
    (hcopy : t.content = (Tree.fresh s.defaults.entries).content) (hclean : s.Clean)
    (hs : s.Over Content.Named) (hcollectable : s.Everywhere fun d => d.Collectable ∧ d.Apart) :
    code ≤ .tooFewValues := by
  have haccepted {code : Code} (hcode : code ≤ .none) : code ≤ .tooFewValues :=
    hcode.trans bot_le
  induction h with
  | unknown hrow hunknown =>
    obtain ⟨values, hrow, -⟩ := Tree.exists_row_of_content_eq hcopy hrow
    exact ((hs.definedNames (exists_of_mem_defaults hrow).1).2 hunknown.1).elim
  | malformed hrow _ hnone =>
    obtain ⟨values, hrow, -⟩ := Tree.exists_row_of_content_eq hcopy hrow
    obtain ⟨d, hd⟩ := hclean.exists_defines hs (exists_of_mem_defaults hrow).1
    exact (hnone d hd).elim
  | malformedAbsent hdefined _ hnone =>
    obtain ⟨d, hd⟩ := hclean.exists_defines hs hdefined
    exact (hnone d hd).elim
  | absent => decide
  | @array s t name values' d code hrow hd hblame =>
    obtain ⟨values, hrow, hvalues⟩ := Tree.exists_row_of_content_eq hcopy hrow
    obtain ⟨hdefined, e, he, hcases⟩ := exists_of_mem_defaults hrow
    obtain rfl := hd.unique he
    obtain ⟨hcollect, -⟩ := hcollectable.here (hs.definedNames hdefined).1 hd
    rcases hcases with ⟨hdefault, hproblems⟩ | ⟨-, inner, hsub, rfl⟩
    · have hblame := hblame.of_copy hvalues (hcollect.spares hdefault)
      exact haccepted (Definition.judgeArray_le_iff.mp
        (judgeArray_of_problems_eq_nil hproblems).le _ hblame)
    · obtain ⟨c, rfl⟩ := Values.eq_singleton_of_map_eq hvalues
      have hloaded (path : String) : d.sub ≠ .unloaded path := by simp [hsub]
      exact Definition.judgeArray_le_iff.mp
        ((hcollect.admits_policy hsub c).judgeArray_le hloaded) _ hblame
  | @inside s inner t child' name rest children d code hrow hd haccept hsub hchild hblames ih =>
    obtain ⟨values, hrow, hvalues⟩ := Tree.exists_row_of_content_eq hcopy hrow
    obtain ⟨others, child, rfl, hchild, hcontent⟩ := Values.exists_child_of_map_eq hvalues hchild
    obtain ⟨hdefined, e, he, hcases⟩ := exists_of_mem_defaults hrow
    obtain rfl := hd.unique he
    have hname := (hs.definedNames hdefined).1
    obtain ⟨-, hapart⟩ := hcollectable.here hname hd
    rcases hcases with ⟨hdefault, hproblems⟩ | ⟨hnone, other, hother, heq⟩
    · have hblames := hblames.of_copy hcontent (hapart inner _ hsub hdefault child hchild)
      exact haccepted (blames_le_of_problems_eq_nil hproblems haccept hsub hchild hblames)
    · -- The policy is made up of the defaults inside, which are collected in the same way.
      cases hsub.symm.trans hother
      cases heq
      cases List.mem_singleton.mp hchild
      exact ih hcontent (hclean.sub hdefined hd hnone hsub)
        (hs.sub Content.hereditary_named hname hd hsub) (hcollectable.sub hname hd hsub)

/-! ## Where defaults are found -/

/-- The schema declares a default at a path: the definition at its end has it, and none of those on
the way has a default of its own. -/
inductive Declares : Schema → List String → Values Tree → Prop
  | here {s : Schema} {name : String} {d : Definition} {values : Values Tree} :
      name ∈ s.definedNames → s.Defines name d → d.default = some values → Declares s [name] values
  | inside {s inner : Schema} {name : String} {d : Definition} {path : List String}
      {values : Values Tree} : name ∈ s.definedNames → s.Defines name d → d.default = none →
      d.sub = .inline inner → Declares inner path values → Declares s (name :: path) values

theorem Declares.ne_nil {path : List String} {values : Values Tree} (h : s.Declares path values) :
    path ≠ [] := by
  cases h <;> exact List.cons_ne_nil _ _

theorem get?_defaults (hs : s.Over Content.Regular) {values : Values Tree}
    (h : (name, values) ∈ s.defaults.entries) :
    Table.get? name (Tree.fresh s.defaults.entries).content.rows =
      some (values.map Tree.content) := by
  rw [Tree.rows_content, Table.get?_map]
  exact congrArg (Option.map (Values.map Tree.content))
    (Table.get?_of_mem (sorted_defaults hs) h)

theorem mem_defaults_of_inner (hname : name ∈ s.definedNames) (hd : s.Defines name d)
    (hdefault : d.default = none) (hsub : d.sub = .inline inner)
    (hne : inner.defaults.entries ≠ []) :
    (name, .policies [.fresh inner.defaults.entries]) ∈ s.defaults.entries := by
  rw [entries_defaults]
  refine List.mem_flatMap.mpr ⟨name, hname, ?_⟩
  unfold defaultOf Defaults.under
  simp only [definition?_eq_ok_iff.mpr hd, hdefault, hsub, List.isEmpty_iff, if_neg hne]
  exact List.mem_singleton_self _

/-- Where nothing stood in the way, what is declared at a path is there. -/
theorem Declares.find?_eq {path : List String} {values : Values Tree} (h : s.Declares path values)
    (hclean : s.Clean) (hregular : s.Over Content.Regular) (hs : s.Over Content.Named) :
    Content.find? path (Tree.fresh s.defaults.entries).content =
      some (values.map Tree.content) := by
  induction h with
  | here hname hd hdefault => exact get?_defaults hregular (hclean.mem_defaults hname hd hdefault)
  | @inside s inner name d path values hname hd hdefault hsub hinner ih =>
    have hsegments := (hs.definedNames hname).1
    have hfind := ih (hclean.sub hname hd hdefault hsub)
      (hregular.sub Content.hereditary_regular hsegments hd hsub)
      (hs.sub Content.hereditary_named hsegments hd hsub)
    have hne : inner.defaults.entries ≠ [] := by
      intro hnil
      rw [hnil] at hfind
      cases path with
      | nil => cases hfind
      | cons key path => cases path <;> cases hfind
    rw [Content.find?_cons hinner.ne_nil,
      get?_defaults hregular (mem_defaults_of_inner hname hd hdefault hsub hne)]
    exact hfind

end Schema

end PolicyStore
