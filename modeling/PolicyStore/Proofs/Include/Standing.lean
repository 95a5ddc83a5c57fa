import PolicyStore.Include
import PolicyStore.Proofs.Store.Above
import Mathlib.Algebra.BigOperators.Group.Finset.Basic
import Mathlib.Algebra.GroupWithZero.Nat

set_option autoImplicit false

namespace PolicyStore

/-!
# What stands for a reference

A file stands for a reference with its own references replaced in the same way, and the empty policy
stands for one that cannot be included. This is told here without any order of steps and without
the store that the policies end up in.
-/

namespace Store

/-- The references in the arrays of a policy, in order. -/
def fileRefs (s : Store) (p : Policy) : List FileRef :=
  (Include.references (s.entries p)).flatMap Prod.snd

open Classical in
/-- The policies that some policies reach, each once. -/
noncomputable def reachedFrom (s : Store) (ps : List Policy) : Finset Policy :=
  s.handles.filter fun q => ∃ p ∈ ps, s.Reaches p q

/-- The sum of the weights of all references at and below some policies. -/
noncomputable def weigh (s : Store) (weight : FileRef → Nat) (policies : Finset Policy) : Nat :=
  ∑ q ∈ policies, ((s.fileRefs q).map weight).sum

end Store

namespace Values

variable {π ρ : Type}

/-- An array of references becomes one of what stands for them. -/
def fill (stand : FileRef → ρ) (f : π → ρ) : Values π → Values ρ
  | files fs => policies (fs.map stand)
  | vs => vs.map f

theorem fill_map {σ : Type} (stand : FileRef → σ) (f : ρ → σ) (g : π → ρ) (vs : Values π) :
    (vs.map g).fill stand f = vs.fill stand (f ∘ g) := by
  cases vs <;> simp [fill, map]

theorem fill_of_ne {vs : Values π} (h : vs.kind ≠ .file) (stand : FileRef → ρ) (f : π → ρ) :
    vs.fill stand f = vs.map f := by
  cases vs with
  | files fs => exact (h rfl).elim
  | _ => rfl

theorem isEmpty_policies_eq {fs : List FileRef} {ps : List π} (h : fs.length = ps.length) :
    (policies ps).isEmpty = (files fs : Values π).isEmpty := by
  cases fs <;> cases ps <;> first | rfl | cases h

end Values

/-- What a policy holds with something in the place of each reference, down to a number of levels. -/
def Store.filledTo (s : Store) (stand : FileRef → Content) : Nat → Policy → Content
  | 0, _ => .node []
  | depth + 1, p =>
    .node ((s.entries p).map fun row => (row.1, row.2.fill stand (s.filledTo stand depth)))

namespace Include

/-- The path by which a file is known on the chain. -/
def keyOf (cfg : Settings) (f : FileRef) : String :=
  cfg.files.canonical (f.resolve cfg.repository)

/-- The policies of a file by itself, its own the first of them, unless it cannot be included. -/
def opened? (cfg : Settings) (chain : List String) (f : FileRef) : Option Store :=
  if chain.any (Path.same (keyOf cfg f)) then none
  else
    match Policy.ofFile cfg.files true ⟨f.resolve cfg.repository, none⟩ .empty with
    | .ok _ s => some s
    | .error _ _ => none

/-- The content that stands for a reference when the chain may still grow by a number of files. -/
def stand (cfg : Settings) : Nat → List String → FileRef → Content
  | 0, _, _ => .node []
  | room + 1, chain, f =>
    match opened? cfg chain f with
    | none => .node []
    | some s => s.filledTo (stand cfg room (keyOf cfg f :: chain)) s.size ⟨0⟩

/-- How many references are replaced for one: itself, and those in its file. -/
noncomputable def tried (cfg : Settings) : Nat → List String → FileRef → Nat
  | 0, _, _ => 1
  | room + 1, chain, f =>
    match opened? cfg chain f with
    | none => 1
    | some s => 1 + s.weigh (tried cfg room (keyOf cfg f :: chain)) (s.reachedFrom [⟨0⟩])

/-- The file of a reference can be included, and so can all that it refers to. -/
def Loads (cfg : Settings) : Nat → List String → FileRef → Prop
  | 0, _, _ => False
  | room + 1, chain, f =>
    ∃ s, opened? cfg chain f = some s ∧
      ∀ q, s.Reaches ⟨0⟩ q → ∀ g ∈ s.fileRefs q, Loads cfg room (keyOf cfg f :: chain) g

end Include

/-! ## Rows that are filled in -/

section Pairs

variable {α β : Type} {R : α → β → Prop} {xs : List α} {ys : List β}

theorem exists_of_mem_right (h : List.Forall₂ R xs ys) {y : β} (hy : y ∈ ys) :
    ∃ x ∈ xs, R x y := by
  induction h with
  | nil => cases hy
  | cons hfirst _ ih =>
    rcases List.mem_cons.mp hy with rfl | hy
    · exact ⟨_, List.mem_cons_self, hfirst⟩
    · obtain ⟨x, hx, hxy⟩ := ih hy
      exact ⟨x, List.mem_cons_of_mem _ hx, hxy⟩

theorem exists_of_mem_left (h : List.Forall₂ R xs ys) {x : α} (hx : x ∈ xs) :
    ∃ y ∈ ys, R x y :=
  exists_of_mem_right h.flip hx

/-- Rows in pairs with the same key: what is found under a key is a pair as well. -/
theorem Table.get?_pairs {rows : List (String × α)} {rows' : List (String × β)}
    (h : List.Forall₂ (fun row row' => row'.1 = row.1 ∧ R row.2 row'.2) rows rows') (key : String) :
    Option.Rel R (Table.get? key rows) (Table.get? key rows') := by
  induction h with
  | nil => exact .none
  | @cons row row' _ _ hrow _ ih =>
    obtain ⟨k, a⟩ := row
    obtain ⟨k', b⟩ := row'
    obtain ⟨rfl, hab⟩ := hrow
    simp only [Table.get?]
    split
    · exact .some hab
    · exact ih

end Pairs

/-- An array of references is replaced by as many policies, and any other array stays as it is. -/
inductive Filled (P : FileRef → Policy → Prop) : Values Policy → Values Policy → Prop
  | files {fs : List FileRef} {ps : List Policy} : List.Forall₂ P fs ps →
      Filled P (.files fs) (.policies ps)
  | other {vs : Values Policy} : vs.kind ≠ .file → Filled P vs vs

namespace Filled

variable {P Q : FileRef → Policy → Prop} {vs vs' : Values Policy}

theorem mono (h : Filled P vs vs') (hPQ : ∀ f p, P f p → Q f p) : Filled Q vs vs' := by
  cases h with
  | files hall => exact .files (hall.imp hPQ)
  | other hkind => exact .other hkind

theorem kind_ne (h : Filled P vs vs') : vs'.kind ≠ .file := by
  cases h with
  | files _ => exact fun heq => by cases heq
  | other hkind => exact hkind

theorem child_cases (h : Filled P vs vs') {c : Policy} (hc : c ∈ vs'.children) :
    c ∈ vs.children ∨ ∃ f, P f c := by
  cases h with
  | files hall =>
    obtain ⟨f, _, hf⟩ := exists_of_mem_right hall hc
    exact Or.inr ⟨f, hf⟩
  | other _ => exact Or.inl hc

theorem map_eq {stand : FileRef → Content} {f g : Policy → Content} (h : Filled P vs vs')
    (hstood : ∀ r c, P r c → f c = stand r) (hold : ∀ c ∈ vs.children, f c = g c) :
    vs'.map f = vs.fill stand g := by
  cases h with
  | files hall =>
    apply congrArg Values.policies
    induction hall with
    | nil => rfl
    | cons hp _ ih => rw [List.map_cons, List.map_cons, hstood _ _ hp, ih hold]
  | other hkind =>
    rw [Values.fill_of_ne hkind]
    exact Values.map_congr hold

end Filled

def FilledRow (P : FileRef → Policy → Prop) (row row' : String × Values Policy) : Prop :=
  row'.1 = row.1 ∧ Filled P row.2 row'.2

/-- The arrays of references among the rows are replaced, in the order of the references. -/
def FilledRows (P : FileRef → Policy → Prop) : Entries Policy → Entries Policy → Prop :=
  List.Forall₂ (FilledRow P)

namespace FilledRows

variable {P Q : FileRef → Policy → Prop} {rows rows' : Entries Policy}

theorem mono (h : FilledRows P rows rows') (hPQ : ∀ f p, P f p → Q f p) :
    FilledRows Q rows rows' :=
  List.Forall₂.imp (fun _ _ hrow => ⟨hrow.1, hrow.2.mono hPQ⟩) h

/-- No reference is left. -/
theorem references_eq_nil (h : FilledRows P rows rows') : Include.references rows' = [] := by
  induction h with
  | nil => rfl
  | @cons row row' _ _ hrow _ ih =>
    obtain ⟨key, values⟩ := row'
    have hkind := hrow.2.kind_ne
    rw [Include.references] at ih ⊢
    rw [List.filterMap_cons]
    cases values with
    | files fs => exact (hkind rfl).elim
    | _ => exact ih

/-- A policy among the rows was there before, or stands for a reference. -/
theorem child_cases (h : FilledRows P rows rows') {c : Policy}
    (hc : c ∈ rows'.flatMap fun row => row.2.children) :
    c ∈ (rows.flatMap fun row => row.2.children) ∨ ∃ f, P f c := by
  obtain ⟨row', hrow', hc⟩ := List.mem_flatMap.mp hc
  obtain ⟨row, hrow, _, hfilled⟩ := exists_of_mem_right h hrow'
  exact (hfilled.child_cases hc).imp_left fun hold => List.mem_flatMap.mpr ⟨row, hrow, hold⟩

/-- The policies that were there before are there still. -/
theorem child_of_mem (h : FilledRows P rows rows') {key : String} {children : List Policy}
    (hrow : (key, Values.policies children) ∈ rows) : (key, Values.policies children) ∈ rows' := by
  obtain ⟨⟨key', values'⟩, hrow', hkey, hfilled⟩ := exists_of_mem_left h hrow
  cases hfilled with
  | other _ =>
    obtain rfl : key' = key := hkey
    exact hrow'

/-- The content of rows that are filled in. -/
theorem map_eq {stand : FileRef → Content} {f g : Policy → Content} (h : FilledRows P rows rows')
    (hstood : ∀ r c, P r c → f c = stand r)
    (hold : ∀ c ∈ rows.flatMap fun row => row.2.children, f c = g c) :
    (rows'.map fun row => (row.1, row.2.map f)) = rows.map fun row => (row.1, row.2.fill stand g) := by
  induction h with
  | nil => rfl
  | cons hrow _ ih =>
    rw [List.flatMap_cons] at hold
    rw [List.map_cons, List.map_cons, hrow.1, ih fun c hc => hold c (List.mem_append_right _ hc),
      hrow.2.map_eq hstood fun c hc => hold c (List.mem_append_left _ hc)]

end FilledRows

end PolicyStore
