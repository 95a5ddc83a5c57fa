import PolicyStore.Schema.Definition
import PolicyStore.Update
import PolicyStore.Proofs.Store.Reachable

set_option autoImplicit false

namespace PolicyStore

/-!
# Trees out of a store

The tree below a policy that does not hold itself has the rows of the policy, with a tree for each
policy in them. What is read out of such a tree is read out of the store.
-/

namespace Store

variable {s : Store} {p : Policy} {m n : Nat}

theorem handle_unfold (s : Store) (depth : Nat) (p : Policy) : (s.unfold depth p).handle = p := by
  cases depth <;> rfl

theorem handle_tree (s : Store) (p : Policy) : (s.tree p).handle = p :=
  s.handle_unfold s.size p

theorem unfold_succ_congr (h : ∀ q ∈ s.below p, s.unfold m q = s.unfold n q) :
    s.unfold (m + 1) p = s.unfold (n + 1) p := by
  rw [unfold, unfold]
  refine congrArg (Tree.node p (s.dictionary? p)) (List.map_congr_left fun row hrow => ?_)
  refine congrArg (Prod.mk row.1) (Values.map_congr fun q hq => ?_)
  exact h q (List.mem_flatMap.mpr ⟨row, hrow, hq⟩)

/-- Stores that agree on some policies have the same trees below them. -/
theorem unfold_congr {s' : Store} {P : Policy → Prop} (hclosed : ∀ q, P q → ∀ c ∈ s.below q, P c)
    (hrows : ∀ q, P q → s'.entries q = s.entries q)
    (hdictionary : ∀ q, P q → s'.dictionary? q = s.dictionary? q) (hp : P p) :
    s'.unfold n p = s.unfold n p := by
  induction n generalizing p with
  | zero => rfl
  | succ n ih =>
    rw [unfold, unfold, hdictionary p hp, hrows p hp]
    refine congrArg (Tree.node p (s.dictionary? p)) (List.map_congr_left fun row hrow => ?_)
    refine congrArg (Prod.mk row.1) (Values.map_congr fun q hq => ?_)
    exact ih (hclosed p hp q (List.mem_flatMap.mpr ⟨row, hrow, hq⟩))

theorem Within.unfold_eq (h : s.Within m p) (hle : m ≤ n) : s.unfold n p = s.unfold m p := by
  induction m generalizing n p with
  | zero => exact h.elim
  | succ m ih =>
    obtain ⟨n, rfl⟩ : ∃ k, n = k + 1 := ⟨n - 1, by omega⟩
    exact unfold_succ_congr fun q hq => ih (h q hq) (by omega)

theorem WellFormed.tree_eq (hs : s.WellFormed) (hp : p.id < s.size) (h : s.Within n p) :
    s.tree p = s.unfold n p := by
  have hlevels := h.acyclic.within hs hp
  rcases Nat.le_total n s.size with hle | hle
  · exact h.unfold_eq hle
  · exact (hlevels.unfold_eq hle).symm

theorem WellFormed.tree_eq_node (hs : s.WellFormed) (hp : p.id < s.size) (h : s.Within n p) :
    s.tree p = .node p (s.dictionary? p) (s.treesOf (s.entries p)) := by
  rw [hs.tree_eq hp (h.mono (Nat.le_succ n)), unfold, treesOf]
  refine congrArg (Tree.node p (s.dictionary? p)) (List.map_congr_left fun row hrow => ?_)
  refine congrArg (Prod.mk row.1) (Values.map_congr fun q hq => ?_)
  have hq : q ∈ s.below p := List.mem_flatMap.mpr ⟨row, hrow, hq⟩
  exact (hs.tree_eq (hs.closed p q hq) (h.of_mem_below hq)).symm

theorem WellFormed.entries_tree (hs : s.WellFormed) (hp : p.id < s.size) (h : s.Within n p) :
    (s.tree p).entries = s.treesOf (s.entries p) := by
  rw [hs.tree_eq_node hp h, Tree.entries]

theorem get?_treesOf (s : Store) (key : String) (rows : Entries Policy) :
    Table.get? key (s.treesOf rows) = (Table.get? key rows).map (Values.map s.tree) :=
  Table.get?_map _ _ _

theorem child?_treesOf (s : Store) (key : String) (rows : Entries Policy) :
    Entries.child? key (s.treesOf rows) = (Entries.child? key rows).map s.tree := by
  unfold Entries.child?
  rw [get?_treesOf]
  cases Table.get? key rows with
  | none => rfl
  | some values =>
    cases values with
    | policies ps => exact List.getLast?_map
    | _ => rfl

end Store

namespace Entries

variable {π : Type} {rows : Entries π}

theorem child?_eq_some_iff {key : String} {c : π} :
    child? key rows = some c ↔
      ∃ children, Table.get? key rows = some (.policies children) ∧ children.getLast? = some c := by
  unfold child?
  split
  · rename_i children hget
    simp [hget]
  · rename_i hnot
    simp only [reduceCtorEq, false_iff]
    rintro ⟨children, hget, _⟩
    exact hnot children hget

theorem mem_of_child? {rows : Entries Policy} {key : String} {c : Policy}
    (h : child? key rows = some c) : c ∈ rows.flatMap fun row => row.2.children := by
  obtain ⟨children, hget, hlast⟩ := child?_eq_some_iff.mp h
  exact List.mem_flatMap.mpr ⟨_, Table.mem_of_get? hget, List.mem_of_getLast? hlast⟩

end Entries

/-- A name without dots is looked up among the policy's own rows. -/
theorem Tree.find?_of_segment {t : Tree} {name : String} (h : Name.segments name = .ok [name]) :
    t.find? name = Table.get? name t.entries := by
  simp [Tree.find?, Entries.find?, Entries.lookup, h, bind, Except.bind, Entries.descend]

end PolicyStore
