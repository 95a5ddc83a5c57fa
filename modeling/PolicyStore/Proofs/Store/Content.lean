import PolicyStore.Tree
import Mathlib.Tactic.Basic

set_option autoImplicit false

namespace PolicyStore

/-!
# The content of a policy

What a policy holds, without the handles and dictionaries of the policies below it. Two policies of
the same content cannot be told apart by reading names.
-/

inductive Content where
  | node (rows : List (String × Values Content))

namespace Content

def rows : Content → List (String × Values Content)
  | .node rows => rows

@[simp] theorem rows_node (rows : List (String × Values Content)) : (node rows).rows = rows := rfl

@[simp] theorem node_rows (t : Content) : .node t.rows = t := by
  cases t
  rfl

/-- Rows are sorted and hold something, at every level. -/
inductive Regular : Content → Prop
  | node {rows : List (String × Values Content)} : Table.Sorted rows →
      (∀ row ∈ rows, row.2.isEmpty = false) →
      (∀ row ∈ rows, ∀ c ∈ row.2.children, Regular c) → Regular (.node rows)

theorem Regular.sorted {t : Content} (h : t.Regular) : Table.Sorted t.rows := by
  cases h with
  | node hsorted _ _ => exact hsorted

theorem Regular.child {t : Content} (h : t.Regular) {key : String} {vs : Values Content}
    (hget : Table.get? key t.rows = some vs) : ∀ c ∈ vs.children, c.Regular := by
  cases h with
  | node _ _ hchildren => exact hchildren _ (Table.mem_of_get? hget)

end Content

namespace Tree

mutual

def content : Tree → Content
  | node _ _ rows => .node (contentOfRows rows)

def contentOfRows : List (String × Values Tree) → List (String × Values Content)
  | [] => []
  | (key, .policies children) :: rows => (key, .policies (contentOfAll children)) :: contentOfRows rows
  | (key, .bools xs) :: rows => (key, .bools xs) :: contentOfRows rows
  | (key, .ints xs) :: rows => (key, .ints xs) :: contentOfRows rows
  | (key, .doubles xs) :: rows => (key, .doubles xs) :: contentOfRows rows
  | (key, .strings xs) :: rows => (key, .strings xs) :: contentOfRows rows
  | (key, .files xs) :: rows => (key, .files xs) :: contentOfRows rows

def contentOfAll : List Tree → List Content
  | [] => []
  | t :: ts => content t :: contentOfAll ts

end

theorem contentOfAll_eq_map (ts : List Tree) : contentOfAll ts = ts.map content := by
  induction ts with
  | nil => rfl
  | cons t ts ih => rw [contentOfAll, ih, List.map_cons]

theorem contentOfRows_eq_map (rows : List (String × Values Tree)) :
    contentOfRows rows = rows.map fun row => (row.1, row.2.map content) := by
  induction rows with
  | nil => rfl
  | cons row rows ih =>
    obtain ⟨key, values⟩ := row
    cases values <;> simp [contentOfRows, contentOfAll_eq_map, Values.map, ih]

end Tree

namespace Values

variable {π ρ σ : Type}

theorem map_map (f : π → ρ) (g : ρ → σ) (vs : Values π) : (vs.map f).map g = vs.map (g ∘ f) := by
  cases vs <;> simp [map]

theorem children_map (f : π → ρ) (vs : Values π) : (vs.map f).children = vs.children.map f := by
  cases vs <;> rfl

theorem children_of_kind_ne {vs : Values π} (h : vs.kind ≠ .policy) : vs.children = [] := by
  cases vs with
  | policies ps => exact (h rfl).elim
  | _ => rfl

theorem map_congr {f g : π → ρ} {vs : Values π} (h : ∀ p ∈ vs.children, f p = g p) :
    vs.map f = vs.map g := by
  cases vs with
  | policies ps => simpa [map, children] using h
  | _ => rfl

end Values

namespace Store

/-- The policies that a policy holds, once for each time it holds them. -/
def below (s : Store) (p : Policy) : List Policy :=
  (s.entries p).flatMap fun row => row.2.children

/-- What a policy holds, down to a number of levels. -/
def contentTo (s : Store) : Nat → Policy → Content
  | 0, _ => .node []
  | depth + 1, p => .node ((s.entries p).map fun row => (row.1, row.2.map (s.contentTo depth)))

theorem mem_below_iff {s : Store} {p q : Policy} :
    q ∈ s.below p ↔ ∃ key children, (key, Values.policies children) ∈ s.entries p ∧ q ∈ children := by
  simp only [below, List.mem_flatMap, Prod.exists]
  constructor
  · rintro ⟨key, values, hrow, hq⟩
    cases values with
    | policies children => exact ⟨key, children, hrow, hq⟩
    | _ => cases hq
  · rintro ⟨key, children, hrow, hq⟩
    exact ⟨key, _, hrow, hq⟩

theorem contentTo_succ_congr {s s' : Store} {p p' : Policy} {m n : Nat}
    (hrows : s'.entries p' = s.entries p)
    (hbelow : ∀ q ∈ s.below p, s'.contentTo m q = s.contentTo n q) :
    s'.contentTo (m + 1) p' = s.contentTo (n + 1) p := by
  rw [contentTo, contentTo, hrows]
  refine congrArg Content.node (List.map_congr_left fun row hrow => ?_)
  refine congrArg (Prod.mk row.1) (Values.map_congr fun q hq => ?_)
  exact hbelow q (List.mem_flatMap.mpr ⟨row, hrow, hq⟩)

/-- Policies whose rows are the same in two stores, and those below them, have the same content. -/
theorem contentTo_congr {s s' : Store} {P : Policy → Prop} (hclosed : ∀ q, P q → ∀ c ∈ s.below q, P c)
    (hrows : ∀ q, P q → s'.entries q = s.entries q) {depth : Nat} :
    ∀ {q : Policy}, P q → s'.contentTo depth q = s.contentTo depth q := by
  induction depth with
  | zero => exact fun _ => rfl
  | succ depth ih =>
    exact fun hq => contentTo_succ_congr (hrows _ hq) fun c hc => ih (hclosed _ hq c hc)

theorem content_unfold (s : Store) (depth : Nat) (p : Policy) :
    (s.unfold depth p).content = s.contentTo depth p := by
  induction depth generalizing p with
  | zero => rfl
  | succ depth ih =>
    rw [unfold, Tree.content, Tree.contentOfRows_eq_map, List.map_map, contentTo]
    refine congrArg Content.node (List.map_congr_left fun row _ => ?_)
    simp only [Function.comp_apply, Values.map_map]
    exact congrArg (Prod.mk row.1) (Values.map_congr fun q _ => ih q)

/-- What a policy holds, as deep as a store without cycles can be. -/
def content (s : Store) (p : Policy) : Content := (s.tree p).content

theorem content_eq (s : Store) (p : Policy) : s.content p = s.contentTo s.size p :=
  content_unfold s s.size p

end Store

end PolicyStore
