import PolicyStore.Update
import PolicyStore.Proofs.Store.Content

set_option autoImplicit false

namespace PolicyStore

/-!
# Writing under an undotted name

Whatever is written or removed under a name without dots changes one row of one policy.
-/

namespace Values

variable {π : Type}

theorem ext_toList {vs ws : Values π} (hkind : vs.kind = ws.kind) (h : vs.toList = ws.toList) :
    vs = ws := by
  have hinj {α : Type} {f : α → Value π} (hf : ∀ a b, f a = f b → a = b) {xs ys : List α}
      (h : xs.map f = ys.map f) : xs = ys :=
    (List.map_inj_right hf).mp h
  cases vs <;> cases ws <;> simp only [kind, reduceCtorEq] at hkind <;>
    exact congrArg _ (hinj (by simp) h)

theorem kind_push? {vs ws : Values π} {v : Value π} (h : vs.push? v = some ws) :
    ws.kind = vs.kind := by
  cases vs <;> cases v <;> simp [push?] at h <;> simp [← h, kind]

/-- Appends values of the array's kind one after the other. -/
def pushAll? (vs : Values π) : List (Value π) → Option (Values π)
  | [] => some vs
  | v :: rest => (vs.push? v).bind fun ws => ws.pushAll? rest

theorem pushAll?_of_kind {added : List (Value π)} (vs : Values π)
    (h : ∀ v ∈ added, v.kind = vs.kind) : ∃ ws, vs.pushAll? added = some ws ∧ ws.kind = vs.kind ∧
      ws.toList = vs.toList ++ added := by
  induction added generalizing vs with
  | nil => exact ⟨vs, rfl, rfl, (List.append_nil _).symm⟩
  | cons v rest ih =>
    cases hpush : vs.push? v with
    | none =>
      have hkind := push?_eq_none_iff.mp hpush
      exact (hkind (h v List.mem_cons_self).symm).elim
    | some ws =>
      have hkind := kind_push? hpush
      obtain ⟨us, hrest, hkind', hlist⟩ := ih ws fun w hw => by
        rw [hkind]
        exact h w (List.mem_cons_of_mem _ hw)
      refine ⟨us, ?_, hkind'.trans hkind, ?_⟩
      · simp [pushAll?, hpush, hrest]
      · rw [hlist, toList_push? hpush, List.append_assoc]
        rfl

theorem kind_of_mem_toList {vs : Values π} {v : Value π} (h : v ∈ vs.toList) : v.kind = vs.kind := by
  cases vs <;> obtain ⟨_, _, rfl⟩ := List.mem_map.mp h <;> rfl

/-- An array is what comes of appending its values to the empty one. -/
theorem pushAll?_toList (vs : Values π) : (empty vs.kind).pushAll? vs.toList = some vs := by
  have hkinds (v : Value π) (hv : v ∈ vs.toList) : v.kind = (empty vs.kind : Values π).kind := by
    rw [kind_of_mem_toList hv, kind_empty]
  obtain ⟨ws, hall, hkind, hlist⟩ := pushAll?_of_kind (empty vs.kind) hkinds
  rw [hall, ext_toList (hkind.trans (kind_empty _)) (hlist.trans ?_)]
  cases vs <;> rfl

end Values

namespace Store

theorem setEntries_setEntries (s : Store) (p : Policy) (rows others : Entries Policy) :
    (s.setEntries p rows).setEntries p others = s.setEntries p others := by
  simp only [setEntries, modify, mk.injEq]
  refine Array.ext_getElem? fun i => ?_
  simp only [Array.getElem?_modify]
  split
  · cases s.nodes[i]? <;> rfl
  · rfl

@[simp] theorem size_setEntries (s : Store) (p : Policy) (rows : Entries Policy) :
    (s.setEntries p rows).size = s.size :=
  size_modify _ _ _

theorem node_setEntries_of_ne {p q : Policy} (h : q ≠ p) (s : Store) (rows : Entries Policy) :
    (s.setEntries p rows).node q = s.node q :=
  node_modify_of_ne h _ _

theorem entries_setEntries_self {s : Store} {p : Policy} (h : p.id < s.size)
    (rows : Entries Policy) : (s.setEntries p rows).entries p = rows := by
  rw [entries, setEntries, node_modify_self h]

theorem entries_setEntries_of_ne {p q : Policy} (h : q ≠ p) (s : Store) (rows : Entries Policy) :
    (s.setEntries p rows).entries q = s.entries q := by
  rw [entries, node_setEntries_of_ne h, entries]

theorem dictionary?_setEntries (s : Store) (p q : Policy) (rows : Entries Policy) :
    (s.setEntries p rows).dictionary? q = s.dictionary? q := by
  by_cases h : q = p
  · by_cases hp : p.id < s.size
    · rw [h, dictionary?, setEntries, node_modify_self hp]
      rfl
    · simp only [dictionary?, node, setEntries, modify, Array.getElem?_modify]
      simp only [size] at hp
      simp [h, hp]
  · rw [dictionary?, node_setEntries_of_ne h, dictionary?]

theorem dictionary?_setEntries_self {s : Store} {p : Policy} (h : p.id < s.size)
    (rows : Entries Policy) : (s.setEntries p rows).dictionary? p = s.dictionary? p := by
  rw [dictionary?, setEntries, node_modify_self h]
  rfl

theorem approve_of_plain {s : Store} {p : Policy} (h : s.dictionary? p = none) (name : String)
    (v : Value Policy) (count : Nat) : s.approve p name v count = .ok () := by
  simp [approve, objection, h, bind, Except.bind, Code.isNone, Code.none, pure, Except.pure]

theorem place_of_segment {s : Store} {p : Policy} {name : String}
    (hname : Name.segments name = .ok [name]) : s.place p name = .ok ⟨p, name, []⟩ := by
  simp [place, hname, placeFrom, bind, Except.bind]

/-- Adding a value under a name without dots appends it to the array under this name. -/
theorem add_eq_setEntries {s : Store} {p : Policy} {name : String} {v : Value Policy}
    (ws : Values Policy) (hname : Name.segments name = .ok [name]) (hdict : s.dictionary? p = none)
    (hpush : ((Table.get? name (s.entries p)).getD (.empty v.kind)).push? v = some ws) :
    s.add p name v = .ok (s.setEntries p (Table.insert name ws (s.entries p))) := by
  have hplace : s.place p name = .ok ⟨p, name, []⟩ := place_of_segment hname
  have hne : ws.isEmpty = false := by
    simp [Values.isEmpty, Values.toList_push? hpush]
  simp [add, approve_of_plain hdict, hplace, bind, Except.bind, valuesAt, hpush, write, nest, hne, pure,
    Except.pure]

theorem put_eq_setEntries {s : Store} {p : Policy} {name : String} {values : Values Policy}
    (hname : Name.segments name = .ok [name]) (hne : values.isEmpty = false) :
    s.put p name values = .ok (s.setEntries p (Table.insert name values (s.entries p))) := by
  simp [put, place_of_segment hname, write, nest, hne, bind, Except.bind, pure, Except.pure]

theorem set_eq_setEntries {s s' : Store} {p : Policy} {name : String} {v : Value Policy}
    (hname : Name.segments name = .ok [name]) (h : s.set p name v = .ok s') :
    s' = s.setEntries p (Table.insert name (.singleton v) (s.entries p)) := by
  have hne : (Values.singleton v).isEmpty = false := by
    rw [Values.isEmpty, Values.toList_singleton]
    rfl
  unfold set at h
  rw [put_eq_setEntries hname hne] at h
  cases happrove : s.approve p name v 0 with
  | ok _ =>
    rw [happrove] at h
    cases h
    rfl
  | error e =>
    rw [happrove] at h
    cases h

theorem remove_eq_setEntries {s : Store} {p : Policy} {name : String} {values : Values Policy}
    (hname : Name.segments name = .ok [name]) (hget : Table.get? name (s.entries p) = some values) :
    s.remove p name = .ok (true, s.setEntries p (Table.erase name (s.entries p))) := by
  simp [remove, place_of_segment hname, hget, bind, Except.bind, pure, Except.pure]

end Store

end PolicyStore
