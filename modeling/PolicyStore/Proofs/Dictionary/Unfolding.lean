import PolicyStore.Proofs.Dictionary.Keeping
import Mathlib.Algebra.BigOperators.Group.Finset.Basic
import Mathlib.Data.Multiset.Bind

set_option autoImplicit false

namespace PolicyStore

/-!
# The unfolding of dictionary files

The blocks of a dictionary name files, whose blocks name files in turn. The names unfold level by
level, a name as often as it is met. A level is empty exactly when no chain of names is that long.
-/

namespace Dictionary

open Include (Settings)

variable {cfg : Settings} {s : Store} {rows : Entries Policy} {b : Policy}

/-! ## The names in a store -/

/-- The file that the rows of a block name for a dictionary that is not there. -/
def named (cfg : Settings) (rows : Entries Policy) : Multiset String :=
  match Table.get? Definition.dictionaryFileKey rows, Table.get? Definition.dictionaryKey rows with
  | some (.strings paths), none =>
    ↑(paths.getLast?.toList.map fun path => FileRef.resolve ⟨path, none⟩ cfg.repository)
  | _, _ => 0

/-- The files of the references in some rows. -/
def awaited (cfg : Settings) (rows : Entries Policy) : Multiset String :=
  ↑(((Include.references rows).flatMap Prod.snd).map fun f => f.resolve cfg.repository)

open Classical in
/-- The blocks of a dictionary and of those inside its blocks, each once. -/
noncomputable def blocksBelow (s : Store) (rows : Entries Policy) : Finset Policy :=
  s.handles.filter (IsBlock s rows)

/-- What the blocks of a dictionary add up to. -/
noncomputable def gather (mark : Entries Policy → Multiset String) (s : Store)
    (rows : Entries Policy) : Multiset String :=
  ∑ b ∈ blocksBelow s rows, mark (s.entries b)

/-- The files that the blocks of a dictionary name, each as often as it is named. -/
noncomputable def names (cfg : Settings) (s : Store) (rows : Entries Policy) : Multiset String :=
  gather (named cfg) s rows

/-- The files that the dictionary in a file names. -/
noncomputable def namesIn (cfg : Settings) (path : String) : Multiset String :=
  match Policy.ofFile cfg.files true ⟨path, none⟩ .empty with
  | .ok r s => names cfg s (s.entries r)
  | .error _ _ => 0

/-- Nothing refers to a file but the blocks, which name files by texts. -/
structure OnlyNames (s : Store) (rows : Entries Policy) : Prop where
  references : Include.references rows = []
  clean : ∀ c ∈ rows.flatMap fun row => row.2.children, s.Clean c
  texts : ∀ b, IsBlock s rows b → ∀ names,
    Table.get? Definition.dictionaryFileKey (s.entries b) = some names → names.kind = .string
  /-- A policy that holds definitions by name is not a block, and names no file. -/
  definitions : ∀ inner definitions, Inner s rows inner →
    Entries.child? Schema.definitionsKey inner = some definitions → ∀ names,
      Table.get? Definition.dictionaryFileKey (s.entries definitions) = some names →
        names.kind ≠ .string

/-- The file can be read strictly, and names files for dictionaries only. -/
def NamesOnly (cfg : Settings) (path : String) : Prop :=
  ∃ r s, Policy.ofFile cfg.files true ⟨path, none⟩ .empty = .ok r s ∧ OnlyNames s (s.entries r)

/-! ## Levels -/

/-- The names that are met at a depth below some names. -/
noncomputable def level (cfg : Settings) (paths : Multiset String) : Nat → Multiset String
  | 0 => paths
  | n + 1 => level cfg (paths.bind (namesIn cfg)) n

/-- Names that follow each other, each one in the file that the one before it names. -/
inductive Chain (cfg : Settings) : Multiset String → List String → Prop
  | nil {paths : Multiset String} : Chain cfg paths []
  | cons {paths : Multiset String} {path : String} {rest : List String} : path ∈ paths →
      Chain cfg (namesIn cfg path) rest → Chain cfg paths (path :: rest)

/-- The names unfold to a number of names in all, with those that are met in their files. -/
inductive Unfolds (cfg : Settings) : Multiset String → Nat → Prop
  | none : Unfolds cfg 0 0
  | cons {path : String} {paths : Multiset String} {inside others : Nat} :
      Unfolds cfg (namesIn cfg path) inside → Unfolds cfg paths others →
      Unfolds cfg (path ::ₘ paths) (1 + inside + others)

variable {paths : Multiset String} {path : String} {trail : List String} {m n : Nat}

theorem level_zero (cfg : Settings) (n : Nat) : level cfg 0 n = 0 := by
  induction n with
  | zero => rfl
  | succ n ih => rw [level, Multiset.zero_bind, ih]

theorem level_add (cfg : Settings) (paths others : Multiset String) (n : Nat) :
    level cfg (paths + others) n = level cfg paths n + level cfg others n := by
  induction n generalizing paths others with
  | zero => rfl
  | succ n ih => rw [level, Multiset.add_bind, ih, level, level]

theorem level_cons_succ (cfg : Settings) (path : String) (paths : Multiset String) (n : Nat) :
    level cfg (path ::ₘ paths) (n + 1) =
      level cfg (namesIn cfg path) n + level cfg paths (n + 1) := by
  rw [level, Multiset.cons_bind, level_add, level]

theorem mem_level_iff : path ∈ level cfg paths n ↔
    ∃ trail, Chain cfg paths (trail ++ [path]) ∧ trail.length = n := by
  induction n generalizing paths with
  | zero =>
    constructor
    · exact fun h => ⟨[], .cons h .nil, rfl⟩
    · rintro ⟨trail, hchain, hlength⟩
      cases List.eq_nil_of_length_eq_zero hlength
      cases hchain with
      | cons hmem _ => exact hmem
  | succ n ih =>
    rw [level, ih]
    constructor
    · rintro ⟨trail, hchain, rfl⟩
      cases trail with
      | nil =>
        cases hchain with
        | cons hmem _ =>
          obtain ⟨first, hfirst, hmem⟩ := Multiset.mem_bind.mp hmem
          exact ⟨[first], .cons hfirst (.cons hmem .nil), rfl⟩
      | cons second rest =>
        cases hchain with
        | cons hmem hrest =>
          obtain ⟨first, hfirst, hmem⟩ := Multiset.mem_bind.mp hmem
          exact ⟨first :: second :: rest, .cons hfirst (.cons hmem hrest), rfl⟩
    · rintro ⟨trail, hchain, hlength⟩
      obtain ⟨first, rest, rfl⟩ := List.exists_cons_of_length_eq_add_one hlength
      cases hchain with
      | cons hfirst hrest =>
        refine ⟨rest, ?_, Nat.succ.inj hlength⟩
        cases rest with
        | nil =>
          cases hrest with
          | cons hmem hnil => exact .cons (Multiset.mem_bind.mpr ⟨first, hfirst, hmem⟩) hnil
        | cons second rest =>
          cases hrest with
          | cons hmem hrest => exact .cons (Multiset.mem_bind.mpr ⟨first, hfirst, hmem⟩) hrest

theorem Chain.of_append {front back : List String} (h : Chain cfg paths (front ++ back)) :
    Chain cfg paths front := by
  induction front generalizing paths with
  | nil => exact .nil
  | cons path front ih =>
    cases h with
    | cons hmem hrest => exact .cons hmem (ih hrest)

/-- A level is empty exactly if all chains end above it. -/
theorem level_eq_zero_iff : level cfg paths n = 0 ↔
    ∀ trail, Chain cfg paths trail → trail.length ≤ n := by
  rw [Multiset.eq_zero_iff_forall_notMem]
  constructor
  · intro h trail hchain
    by_contra hlength
    have hlt : n < trail.length := Nat.lt_of_not_le hlength
    refine h trail[n] (mem_level_iff.mpr ⟨trail.take n, ?_, List.length_take_of_le hlt.le⟩)
    rw [List.take_append_getElem hlt]
    rw [← List.take_append_drop (n + 1) trail] at hchain
    exact hchain.of_append
  · intro h path hmem
    obtain ⟨trail, hchain, rfl⟩ := mem_level_iff.mp hmem
    have := h _ hchain
    rw [List.length_append] at this
    exact Nat.lt_irrefl _ this

theorem level_eq_zero_of_le (h : level cfg paths m = 0) (hle : m ≤ n) : level cfg paths n = 0 :=
  level_eq_zero_iff.mpr fun trail hchain => (level_eq_zero_iff.mp h trail hchain).trans hle

/-- The names on all levels up to one, apart from a name at the top and those in its file. -/
theorem sum_level_cons (cfg : Settings) (path : String) (paths : Multiset String) (n : Nat) :
    ∑ i ∈ Finset.range (n + 1), (level cfg (path ::ₘ paths) i).card =
      1 + ∑ i ∈ Finset.range n, (level cfg (namesIn cfg path) i).card +
        ∑ i ∈ Finset.range (n + 1), (level cfg paths i).card := by
  have hfirst (paths : Multiset String) : level cfg paths 0 = paths := rfl
  rw [Finset.sum_range_succ', Finset.sum_range_succ']
  simp only [level_cons_succ, Multiset.card_add, Finset.sum_add_distrib, hfirst,
    Multiset.card_cons]
  omega

/-- The names unfold to those on all levels up to an empty one. -/
theorem unfolds_of_level (h : level cfg paths n = 0) :
    Unfolds cfg paths (∑ i ∈ Finset.range n, (level cfg paths i).card) := by
  induction n generalizing paths with
  | zero =>
    cases h
    exact .none
  | succ n ih =>
    induction paths using Multiset.induction_on with
    | empty =>
      simp only [level_zero, Multiset.card_zero, Finset.sum_const_zero]
      exact .none
    | cons path paths ihpaths =>
      rw [level_cons_succ, add_eq_zero] at h
      rw [sum_level_cons]
      exact .cons (ih h.1) (ihpaths h.2)

theorem Unfolds.exists_level (h : Unfolds cfg paths n) : ∃ k, ∀ m, k ≤ m →
    level cfg paths m = 0 ∧ n = ∑ i ∈ Finset.range m, (level cfg paths i).card := by
  induction h with
  | none =>
    refine ⟨0, fun m _ => ⟨level_zero cfg m, ?_⟩⟩
    simp only [level_zero, Multiset.card_zero, Finset.sum_const_zero]
  | @cons path paths inside others _ _ hinside hothers =>
    obtain ⟨k, hk⟩ := hinside
    obtain ⟨l, hl⟩ := hothers
    refine ⟨max (k + 1) l, fun m hm => ?_⟩
    obtain ⟨m, rfl⟩ : ∃ i, m = i + 1 := ⟨m - 1, by omega⟩
    obtain ⟨hinside, rfl⟩ := hk m (by omega)
    obtain ⟨hothers, rfl⟩ := hl (m + 1) (by omega)
    rw [level_cons_succ, hinside, hothers, sum_level_cons]
    exact ⟨rfl, rfl⟩

/-- The number of names in an unfolding is determined by the names at the top. -/
theorem Unfolds.unique (h : Unfolds cfg paths m) (h' : Unfolds cfg paths n) : m = n := by
  obtain ⟨k, hk⟩ := h.exists_level
  obtain ⟨l, hl⟩ := h'.exists_level
  rw [(hk (max k l) (Nat.le_max_left k l)).2, (hl (max k l) (Nat.le_max_right k l)).2]

end Dictionary

end PolicyStore
