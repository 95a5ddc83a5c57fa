import PolicyStore.Schema.Lookup
import Mathlib.Data.List.Forall2
import Mathlib.Data.Option.Basic

set_option autoImplicit false

namespace PolicyStore

/-!
# Definitions with files included

Inclusion puts policies in the place of references to files. A definition that is read from a block
after an inclusion is the one that was read before, with policies in the place of references.
-/

namespace Except

variable {ε δ α β : Type}

theorem bind_eq_ok {x : Except ε α} {f : α → Except ε β} {b : β} (h : (x >>= f) = .ok b) :
    ∃ a, x = .ok a ∧ f a = .ok b := by
  cases x with
  | error e => cases h
  | ok a => exact ⟨a, rfl, h⟩

theorem of_mapError {x : Except ε α} {f : ε → δ} {a : α} (h : x.mapError f = .ok a) :
    x = .ok a := by
  cases x with
  | error e => cases h
  | ok b =>
    cases h
    rfl

end Except

/-! ## Arrays -/

section Values

variable {π ρ : Type}

/-- A reference becomes a policy, and all other values but policies stay as they are. -/
inductive Value.Included (R : π → ρ → Prop) : Value π → Value ρ → Prop
  | bool (b : Bool) : Included R (.bool b) (.bool b)
  | int (i : Int32) : Included R (.int i) (.int i)
  | double (d : Float) : Included R (.double d) (.double d)
  | string (s : String) : Included R (.string s) (.string s)
  | policy {p : π} {q : ρ} : R p q → Included R (.policy p) (.policy q)
  | file (f : FileRef) (q : ρ) : Included R (.file f) (.policy q)

/-- An array of references becomes one of as many policies. -/
inductive Values.Included (R : π → ρ → Prop) : Values π → Values ρ → Prop
  | bools (xs : List Bool) : Included R (.bools xs) (.bools xs)
  | ints (xs : List Int32) : Included R (.ints xs) (.ints xs)
  | doubles (xs : List Float) : Included R (.doubles xs) (.doubles xs)
  | strings (xs : List String) : Included R (.strings xs) (.strings xs)
  | policies {ps : List π} {qs : List ρ} : List.Forall₂ R ps qs →
      Included R (.policies ps) (.policies qs)
  | files {fs : List FileRef} {qs : List ρ} : fs.length = qs.length →
      Included R (.files fs) (.policies qs)

variable {R : π → ρ → Prop} {vs : Values π} {vs' : Values ρ}

theorem Values.Included.promote (h : Values.Included R vs vs') (declared : Option Kind) :
    Values.Included R (vs.promote declared) (vs'.promote declared) := by
  cases h with
  | ints xs =>
    simp only [Values.promote]
    split
    · exact .doubles _
    · exact .ints _
  | policies hall => exact .policies hall
  | files hlength => exact .files hlength
  | bools => exact .bools _
  | doubles => exact .doubles _
  | strings => exact .strings _

theorem forall₂_map_self {α β γ : Type} {Q : β → γ → Prop} {f : α → β} {g : α → γ} {xs : List α}
    (h : ∀ a ∈ xs, Q (f a) (g a)) : List.Forall₂ Q (xs.map f) (xs.map g) := by
  induction xs with
  | nil => exact .nil
  | cons x xs ih =>
    exact .cons (h x List.mem_cons_self) (ih fun a ha => h a (List.mem_cons_of_mem _ ha))

theorem Values.Included.toList (h : Values.Included R vs vs') :
    List.Forall₂ (Value.Included R) vs.toList vs'.toList := by
  cases h with
  | bools xs => exact forall₂_map_self fun x _ => .bool x
  | ints xs => exact forall₂_map_self fun x _ => .int x
  | doubles xs => exact forall₂_map_self fun x _ => .double x
  | strings xs => exact forall₂_map_self fun x _ => .string x
  | policies hall =>
    induction hall with
    | nil => exact .nil
    | cons hp _ ih => exact .cons (.policy hp) ih
  | @files fs qs hlength =>
    induction fs generalizing qs with
    | nil =>
      cases qs with
      | nil => exact .nil
      | cons q qs => cases hlength
    | cons f fs ih =>
      cases qs with
      | nil => cases hlength
      | cons q qs => exact .cons (.file f q) (ih (Nat.succ.inj hlength))

theorem Value.Included.promote {v : Value π} {v' : Value ρ} (h : Value.Included R v v')
    (declared : Option Kind) : Value.Included R (v.promote declared) (v'.promote declared) := by
  cases h with
  | int i =>
    simp only [Value.promote]
    split
    · exact .double _
    · exact .int i
  | policy hp => exact .policy hp
  | file f q => exact .file f q
  | bool => exact .bool _
  | double => exact .double _
  | string => exact .string _

theorem forall₂_getLast? {α β : Type} {Q : α → β → Prop} {xs : List α} {ys : List β}
    (h : List.Forall₂ Q xs ys) : Option.Rel Q xs.getLast? ys.getLast? := by
  induction h with
  | nil => exact .none
  | cons hfirst hrest ih =>
    cases hrest with
    | nil => exact .some hfirst
    | cons _ _ =>
      rw [List.getLast?_cons_cons, List.getLast?_cons_cons]
      exact ih

theorem Values.Included.last? (h : Values.Included R vs vs') :
    Option.Rel (Value.Included R) vs.last? vs'.last? :=
  forall₂_getLast? h.toList

end Values

/-! ## Trees -/

mutual

/-- The same policy, with policies in the place of all references at and below it. -/
inductive Tree.Included : Tree → Tree → Prop
  | node {p : Policy} {d : Option Dictionary} {rows rows' : List (String × Values Tree)} :
      RowsIncluded rows rows' → Tree.Included (.node p d rows) (.node p d rows')

inductive RowsIncluded : List (String × Values Tree) → List (String × Values Tree) → Prop
  | nil : RowsIncluded [] []
  | cons {key : String} {vs vs' : Values Tree} {rows rows' : List (String × Values Tree)} :
      Values.Included Tree.Included vs vs' → RowsIncluded rows rows' →
      RowsIncluded ((key, vs) :: rows) ((key, vs') :: rows')

end

theorem RowsIncluded.get?_rel {rows rows' : Entries Tree} (h : RowsIncluded rows rows')
    (key : String) : Option.Rel (Values.Included Tree.Included) (Table.get? key rows)
      (Table.get? key rows') := by
  induction rows generalizing rows' with
  | nil =>
    cases h
    exact .none
  | cons row rows ih =>
    cases h with
    | cons hvs hrest =>
      simp only [Table.get?]
      split
      · exact .some hvs
      · exact ih hrest

theorem Tree.Included.get?_rel {t t' : Tree} (h : Tree.Included t t') (key : String) :
    Option.Rel (Values.Included Tree.Included) (Table.get? key t.entries)
      (Table.get? key t'.entries) := by
  cases h with
  | node hrows => exact hrows.get?_rel key

/-! ## Definitions -/

/-- The same constraints, with policies in the place of references. -/
structure Allowed.Included (a a' : Allowed) : Prop where
  values : List.Forall₂ (Value.Included Tree.Included) a.values a'.values
  min : Option.Rel (Value.Included Tree.Included) a.min a'.min
  max : Option.Rel (Value.Included Tree.Included) a.max a'.max

/-- The same definition, with policies in the place of references and its dictionary loaded. -/
structure Definition.Included (d d' : Definition) : Prop where
  name : d'.name = d.name
  kind : d'.kind = d.kind
  description : d'.description = d.description
  minOccurs : d'.minOccurs = d.minOccurs
  maxOccurs : d'.maxOccurs = d.maxOccurs
  default : Option.Rel (Values.Included Tree.Included) d.default d'.default
  allowed : d.allowed.Included d'.allowed
  sub : d'.sub = .none ↔ d.sub = .none
  loaded : ∀ path, d'.sub ≠ .unloaded path

namespace Definition

variable {rows rows' : Entries Tree} {key : String}

theorem text?_of_included {x : Option String}
    (h : Option.Rel (Values.Included fun _ _ => True) (Table.get? key rows) (Table.get? key rows'))
    (hx : text? rows key = .ok x) : text? rows' key = .ok x := by
  unfold text? at hx ⊢
  generalize Table.get? key rows = found, Table.get? key rows' = found' at h hx
  cases h with
  | none => exact hx
  | some hvs =>
    cases hvs with
    | strings xs => exact hx
    | _ => cases hx

theorem int?_of_included {x : Option Int32}
    (h : Option.Rel (Values.Included fun _ _ => True) (Table.get? key rows) (Table.get? key rows'))
    (hx : int? rows key = .ok x) : int? rows' key = .ok x := by
  unfold int? at hx ⊢
  generalize Table.get? key rows = found, Table.get? key rows' = found' at h hx
  cases h with
  | none => exact hx
  | some hvs =>
    cases hvs with
    | ints xs => exact hx
    | _ => cases hx

theorem bound_included {declared : Option Kind}
    (h : Option.Rel (Values.Included Tree.Included) (Table.get? key rows) (Table.get? key rows'))
    {earlier earlier' : Option (Value Tree)}
    (hearlier : Option.Rel (Value.Included Tree.Included) earlier earlier') :
    Option.Rel (Value.Included Tree.Included) (bound declared rows key earlier)
      (bound declared rows' key earlier') := by
  unfold bound
  generalize Table.get? key rows = found, Table.get? key rows' = found' at h
  cases h with
  | none => exact hearlier
  | @some vs vs' hvs =>
    have hlast := hvs.last?
    simp only [Option.bind_some]
    generalize vs.last? = v, vs'.last? = v' at hlast
    cases hlast with
    | none => exact hearlier
    | some hv => exact .some (hv.promote declared)

theorem readAllowed_included {declared : Option Kind} {a a' : Allowed} {t t' : Tree}
    (ha : a.Included a') (ht : Tree.Included t t') :
    (readAllowed declared a t).Included (readAllowed declared a' t') where
  values := by
    refine List.rel_append ha.values ?_
    have hget := ht.get?_rel valueKey
    generalize Table.get? valueKey t.entries = found,
      Table.get? valueKey t'.entries = found' at hget
    cases hget with
    | none => exact .nil
    | some hvs =>
      exact List.rel_map (fun _ _ hv => hv.promote declared) hvs.toList
  min := bound_included (ht.get?_rel minKey) ha.min
  max := bound_included (ht.get?_rel maxKey) ha.max

theorem foldl_readAllowed_included {declared : Option Kind} {ts ts' : List Tree}
    (h : List.Forall₂ Tree.Included ts ts') : ∀ {a a' : Allowed}, a.Included a' →
      (ts.foldl (readAllowed declared) a).Included (ts'.foldl (readAllowed declared) a') := by
  induction h with
  | nil => exact fun ha => ha
  | cons ht _ ih => exact fun ha => ih (readAllowed_included ha ht)

theorem allowed?_of_included {declared : Option Kind} {a : Allowed}
    (h : Option.Rel (Values.Included Tree.Included) (Table.get? allowedKey rows)
      (Table.get? allowedKey rows')) (ha : allowed? declared rows = .ok a) :
    ∃ a', allowed? declared rows' = .ok a' ∧ a.Included a' := by
  have hempty : Allowed.Included {} {} := ⟨.nil, .none, .none⟩
  unfold allowed? at ha ⊢
  generalize Table.get? allowedKey rows = found, Table.get? allowedKey rows' = found' at h ha
  cases h with
  | none =>
    cases ha
    exact ⟨_, rfl, hempty⟩
  | some hvs =>
    cases hvs with
    | policies hall =>
      cases ha
      exact ⟨_, rfl, foldl_readAllowed_included hall hempty⟩
    | _ => cases ha

theorem name_of_ofBlock? {name : String} {d : Definition} (h : ofBlock? name rows = .ok d) :
    d.name = name := by
  obtain ⟨_, _, h⟩ := Except.bind_eq_ok h
  obtain ⟨_, _, h⟩ := Except.bind_eq_ok h
  obtain ⟨_, _, h⟩ := Except.bind_eq_ok h
  obtain ⟨_, _, h⟩ := Except.bind_eq_ok h
  obtain ⟨_, _, h⟩ := Except.bind_eq_ok h
  obtain ⟨_, _, h⟩ := Except.bind_eq_ok h
  cases h
  rfl

theorem ofBlock?_eq {name : String} {kind : Option Kind} {description : Option String}
    {minOccurs : Nat} {maxOccurs : Option Nat} {allowed : Allowed} (hkind : kind? rows = .ok kind)
    (hdescription : text? rows descriptionKey = .ok description)
    (hmin : minimum? rows = .ok minOccurs) (hmax : maximum? rows = .ok maxOccurs)
    (hallowed : allowed? kind rows = .ok allowed) :
    ofBlock? name rows = (sub? name rows).map fun sub =>
      { name, kind, description, minOccurs, maxOccurs,
        default := (Table.get? defaultKey rows).map (Values.promote kind), allowed, sub } := by
  unfold ofBlock?
  simp only [hkind, hdescription, hmin, hmax, hallowed, Except.mapError, bind, Except.bind, pure,
    Except.pure]
  cases sub? name rows <;> rfl

theorem fields_of_ofBlock? {name : String} {d : Definition} (h : ofBlock? name rows = .ok d) :
    kind? rows = .ok d.kind ∧ text? rows descriptionKey = .ok d.description ∧
      minimum? rows = .ok d.minOccurs ∧ maximum? rows = .ok d.maxOccurs ∧
      allowed? d.kind rows = .ok d.allowed ∧ d.name = name ∧
      d.default = (Table.get? defaultKey rows).map (Values.promote d.kind) := by
  obtain ⟨kind, hkind, h⟩ := Except.bind_eq_ok h
  obtain ⟨description, hdescription, h⟩ := Except.bind_eq_ok h
  obtain ⟨minOccurs, hmin, h⟩ := Except.bind_eq_ok h
  obtain ⟨maxOccurs, hmax, h⟩ := Except.bind_eq_ok h
  obtain ⟨allowed, hallowed, h⟩ := Except.bind_eq_ok h
  obtain ⟨sub, _, h⟩ := Except.bind_eq_ok h
  cases h
  exact ⟨Except.of_mapError hkind, Except.of_mapError hdescription, Except.of_mapError hmin,
    Except.of_mapError hmax, Except.of_mapError hallowed, rfl, rfl⟩

/-- The keywords that are neither a default nor allowed values nor a dictionary. -/
def plainKeys : List String := [typeKey, descriptionKey, minOccursKey, maxOccursKey]

/-- What is read from a block after an inclusion, up to its dictionary. -/
theorem ofBlock?_of_included {name : String} {d : Definition}
    (hplain : ∀ key ∈ plainKeys, Option.Rel (Values.Included fun _ _ => True)
      (Table.get? key rows) (Table.get? key rows'))
    (hdefault : Option.Rel (Values.Included Tree.Included) (Table.get? defaultKey rows)
      (Table.get? defaultKey rows'))
    (hallowed : Option.Rel (Values.Included Tree.Included) (Table.get? allowedKey rows)
      (Table.get? allowedKey rows'))
    (h : ofBlock? name rows = .ok d) :
    ∃ default allowed, Option.Rel (Values.Included Tree.Included) d.default default ∧
      d.allowed.Included allowed ∧
      ofBlock? name rows' = (sub? name rows').map fun sub => { d with default, allowed, sub } := by
  obtain ⟨hk, hdescription, hmin, hmax, ha, rfl, hd⟩ := fields_of_ofBlock? h
  obtain ⟨allowed, ha', hincluded⟩ := allowed?_of_included hallowed ha
  have hk' : kind? rows' = .ok d.kind := by
    obtain ⟨text, htext, hk⟩ := Except.bind_eq_ok hk
    rw [kind?, text?_of_included (hplain typeKey (by decide)) htext]
    exact hk
  have hmin' : minimum? rows' = .ok d.minOccurs := by
    obtain ⟨n, hn, hmin⟩ := Except.bind_eq_ok hmin
    rw [minimum?, int?_of_included (hplain minOccursKey (by decide)) hn]
    exact hmin
  have hmax' : maximum? rows' = .ok d.maxOccurs := by
    obtain ⟨n, hn, hmax⟩ := Except.bind_eq_ok hmax
    rw [maximum?, int?_of_included (hplain maxOccursKey (by decide)) hn]
    exact hmax
  have hdescription' := text?_of_included (hplain descriptionKey (by decide)) hdescription
  refine ⟨(Table.get? defaultKey rows').map (Values.promote d.kind), allowed, ?_, hincluded,
    ofBlock?_eq hk' hdescription' hmin' hmax' ha'⟩
  rw [hd]
  generalize Table.get? defaultKey rows = found, Table.get? defaultKey rows' = found' at hdefault
  cases hdefault with
  | none => exact .none
  | some hvs => exact .some (hvs.promote _)

end Definition

end PolicyStore
