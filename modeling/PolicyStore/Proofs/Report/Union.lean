import PolicyStore.Schema.Validation
import Mathlib.Order.Bounds.Basic
import Mathlib.Order.Bounds.Lattice

set_option autoImplicit false

namespace PolicyStore

/-!
# Codes as unions

Codes are ordered by the faults they contain, and the union of two codes is their least upper bound.
What a report says of a name is the least upper bound of everything recorded for it.
-/

namespace Code

/-- A code is below another when all its faults are among those of the other. -/
instance : LE Code := ⟨fun a b => b.union a = b⟩

theorem le_def {a b : Code} : a ≤ b ↔ b.union a = b := Iff.rfl

instance : SemilatticeSup Code where
  le := (· ≤ ·)
  le_refl a := union_self a
  le_trans a b c hab hbc := by
    rw [le_def] at *
    rw [← hbc, union_assoc, hab]
  le_antisymm a b hab hba := by
    rw [le_def] at *
    rw [← hba, union_comm, hab]
  sup := union
  le_sup_left a b := by
    rw [le_def, union_comm, ← union_assoc, union_self]
  le_sup_right a b := by
    rw [le_def, union_assoc, union_self]
  sup_le a b c hac hbc := by
    rw [le_def] at *
    rw [← union_assoc, hac, hbc]

theorem sup_eq_union (a b : Code) : a ⊔ b = a.union b := rfl

instance : OrderBot Code where
  bot := none
  bot_le := union_none

/-- A code given under a condition is no bound before the condition holds. -/
theorem ite_none_le_iff {p : Prop} [Decidable p] {a u : Code} :
    (if p then a else none) ≤ u ↔ (p → a ≤ u) := by
  by_cases h : p
  · simp [h]
  · have hbot : none ≤ u := bot_le
    simp [h, hbot]

instance (a b : Code) : Decidable (a ≤ b) := inferInstanceAs (Decidable (b.union a = b))

/-- Every fault but those of a code. -/
def allBut (a : Code) : Code := ⟨~~~a.bits⟩

theorem contains_eq_false_of_le_allBut {a b : Code} (hb : b.isNone = false) (h : a ≤ allBut b) :
    a.contains b = false := by
  have hbits : ~~~b.bits ||| a.bits = ~~~b.bits := congrArg Code.bits h
  have hnone : a.bits &&& b.bits = 0 := by
    apply UInt32.eq_of_toBitVec_eq
    have hbits := congrArg UInt32.toBitVec hbits
    simp only [UInt32.toBitVec_or, UInt32.toBitVec_not] at hbits
    ext i hi
    have hbit := congrArg (BitVec.getLsbD · i) hbits
    simp only [BitVec.getLsbD_or, BitVec.getLsbD_not, hi] at hbit
    simp only [UInt32.toBitVec_and, BitVec.getElem_and, UInt32.toBitVec_zero, BitVec.getElem_zero]
    grind
  have hne : b.bits ≠ 0 := by
    simpa [isNone] using hb
  simpa [contains, hnone] using hne.symm

/-- The union of the codes of some values, one after the other. -/
theorem foldl_union_le_iff {α : Type} (f : α → Code) (xs : List α) {a u : Code} :
    xs.foldl (fun acc x => acc.union (f x)) a ≤ u ↔ a ≤ u ∧ ∀ x ∈ xs, f x ≤ u := by
  induction xs generalizing a with
  | nil => simp
  | cons x xs ih =>
    rw [List.foldl_cons, ih, ← sup_eq_union, sup_le_iff, List.forall_mem_cons, and_assoc]

end Code

namespace Report

theorem codeAt_empty (name : String) : empty.codeAt name = ⊥ := rfl

theorem codeAt_add_le_iff {r : Report} {name other : String} {code u : Code} :
    (r.add name code).codeAt other ≤ u ↔ r.codeAt other ≤ u ∧ (other = name → code ≤ u) := by
  by_cases h : other = name
  · subst h
    rw [codeAt_add_self, ← Code.sup_eq_union, sup_le_iff]
    simp
  · rw [codeAt_add_of_ne h]
    simp [h]

/-- A report that findings are recorded in says of a name what it said before and what is found. -/
theorem codeAt_record_le_iff {found : List Finding} {r : Report} {name : String} {u : Code} :
    (r.record found).codeAt name ≤ u ↔
      r.codeAt name ≤ u ∧ ∀ code, (name, code) ∈ found → code ≤ u := by
  induction found generalizing r with
  | nil => simp [record]
  | cons f found ih =>
    have hstep : r.record (f :: found) = (r.add f.1 f.2).record found := rfl
    rw [hstep, ih, codeAt_add_le_iff, and_assoc]
    refine and_congr_right fun _ => ?_
    constructor
    · rintro ⟨hf, hrest⟩ code hmem
      rcases List.mem_cons.mp hmem with rfl | hmem
      · exact hf rfl
      · exact hrest code hmem
    · intro h
      refine ⟨?_, fun code hmem => h code (List.mem_cons_of_mem _ hmem)⟩
      rintro rfl
      exact h f.2 List.mem_cons_self

theorem isLUB_codeAt_record (found : List Finding) (name : String) :
    IsLUB {code | (name, code) ∈ found} ((empty.record found).codeAt name) := by
  refine isLUB_iff_le_iff.mpr fun u => ?_
  rw [codeAt_record_le_iff, codeAt_empty]
  simp [mem_upperBounds]

theorem absorb_eq_record (r : Report) (lead : String) (other : Report) :
    r.absorb lead other = r.record (other.rows.map fun row => (lead ++ row.1, row.2)) := by
  rw [absorb, record, List.foldl_map]

theorem codeAt_le_iff {r : Report} {name : String} {u : Code} :
    r.codeAt name ≤ u ↔ ∀ code, (name, code) ∈ r.rows → code ≤ u := by
  unfold codeAt
  cases hget : Table.get? name r.rows with
  | none =>
    refine ⟨fun _ code hmem => ?_, fun _ => bot_le⟩
    simp [Table.get?_of_mem r.sorted hmem] at hget
  | some code =>
    refine ⟨fun h other hmem => ?_, fun h => h code (Table.mem_of_get? hget)⟩
    have hother := (Table.get?_of_mem r.sorted hmem).symm.trans hget
    cases hother
    exact h

/-- Findings without faults leave no trace. -/
theorem record_of_none {found : List Finding} (h : ∀ f ∈ found, f.2 = .none) (r : Report) :
    r.record found = r := by
  induction found generalizing r with
  | nil => rfl
  | cons f found ih =>
    have hstep : r.record (f :: found) = (r.add f.1 f.2).record found := rfl
    rw [hstep, h f List.mem_cons_self, add_none]
    exact ih (fun g hg => h g (List.mem_cons_of_mem _ hg)) r

theorem isEmpty_record_iff {found : List Finding} :
    (empty.record found).isEmpty = true ↔ ∀ f ∈ found, f.2 = .none := by
  refine ⟨fun h f hf => ?_, fun h => by rw [record_of_none h]; rfl⟩
  have hcode := (codeAt_record_le_iff (u := (empty.record found).codeAt f.1)).mp le_rfl |>.2 f.2 hf
  rw [codeAt, List.isEmpty_iff.mp h] at hcode
  exact le_bot_iff.mp hcode

/-- An empty report that absorbs another under no prefix becomes that report. -/
theorem empty_absorb (r : Report) : empty.absorb "" r = r := by
  refine ext_codeAt fun name => eq_of_forall_ge_iff fun u => ?_
  rw [absorb_eq_record, codeAt_record_le_iff, codeAt_empty, codeAt_le_iff]
  simp

end Report

end PolicyStore
