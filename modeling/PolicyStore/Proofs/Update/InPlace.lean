import PolicyStore.Proofs.Store.Paving
import PolicyStore.Proofs.Store.Worlds
import PolicyStore.Proofs.Update.Rewriting

set_option autoImplicit false

namespace PolicyStore

/-!
# Writes made in place

A write may also be carried out in one go: it follows its name through the policies, makes those
that are missing when it comes to them, and decides at the last segment whether the value fits. The
store then changes before it is known whether the write succeeds. Once a policy has been made
nothing can fail any more, so a write that fails has changed nothing, and one that succeeds does what
is done by looking for the place first.
-/

namespace Policy

/-- Follows the segments of a name to the policy that the last one is a key of, and acts there. The
policies that are missing are made on the way, or are a failure. -/
def along {α : Type} (make : Bool) (full : String) (act : Policy → String → StoreM α) :
    List String → Policy → List String → StoreM α
  | _, _, [] => throw (.badName full)
  | _, p, [key] => act p key
  | done, p, key :: next :: rest => do
    match Table.get? key ((← get).entries p) with
    | none =>
      if make then
        let child ← Policy.create []
        modify (·.link p key (.policies [child]))
        along make full act (done ++ [key]) child (next :: rest)
      else throw (.nameNotFound full)
    | some (.policies children) =>
      match children.getLast? with
      | some child => along make full act (done ++ [key]) child (next :: rest)
      | none => throw (.notAPolicy full (Name.join (done ++ [key])) .policy)
    | some values => throw (.notAPolicy full (Name.join (done ++ [key])) values.kind)

def resolve {α : Type} (p : Policy) (make : Bool) (name : String)
    (act : Policy → String → StoreM α) : StoreM α := do
  along make name act [] p (← StoreM.lift (Name.segments name))

/-! ## What is done at the last segment -/

def fill (values : Values Policy) (p : Policy) (key : String) : StoreM Unit :=
  modify fun s => s.setEntries p ((s.entries p).put key values)

/-- Appends a value to the array under a key, or begins one with it. -/
def append (name : String) (v : Value Policy) (p : Policy) (key : String) : StoreM Unit := do
  match Table.get? key ((← get).entries p) with
  | none => modify (·.link p key (.singleton v))
  | some old =>
    match old.push? v with
    | some values => modify (·.link p key values)
    | none => throw (.wrongType name old.kind v.kind)

/-- Takes the row of a key away and tells whether there was one. -/
def drop (p : Policy) (key : String) : StoreM Bool := do
  let rows := (← get).entries p
  modify (·.setEntries p (Table.erase key rows))
  return (Table.get? key rows).isSome

end Policy

/-- A write that changes the store while it follows the name. -/
def Write.inPlace (w : Write) (p : Policy) (name : String) : StoreM Unit :=
  match w with
  | set v => do
    StoreM.ask (·.approve p name v 0)
    p.resolve true name (Policy.fill (.singleton v))
  | add v => do
    StoreM.ask fun s => s.approve p name v (s.count p name)
    p.resolve true name (Policy.append name v)
  | setValues values => do
    StoreM.ask (·.approveAll p name 0 values.toList)
    p.resolve true name (Policy.fill values)
  | remove => do
    let _ ← tryCatch (p.resolve false name Policy.drop) fun
      | .nameNotFound _ => return false
      | e => throw e

/-! ## Following a name -/

namespace Policy

open Store

variable {α : Type} {make : Bool} {full key : String} {act : Policy → String → StoreM α}
  {front path below : List String} {s : Store} {p r : Policy} {e : PolicyError}

theorem along_cons (make : Bool) (full : String) (act : Policy → String → StoreM α)
    (done : List String) (p : Policy) (key next : String) (rest : List String) (s : Store) :
    along make full act done p (key :: next :: rest) s =
      match Table.get? key (s.entries p) with
      | none =>
        if make then
          along make full act (done ++ [key]) ⟨s.size⟩ (next :: rest)
            ((s.alloc {}).2.link p key (.policies [⟨s.size⟩]))
        else .error (.nameNotFound full) s
      | some (.policies children) =>
        match children.getLast? with
        | some child => along make full act (done ++ [key]) child (next :: rest) s
        | none => .error (.notAPolicy full (Name.join (done ++ [key])) .policy) s
      | some values => .error (.notAPolicy full (Name.join (done ++ [key])) values.kind) s := by
  have hget : (get : StoreM Store) s = .ok s s := rfl
  rw [along]
  simp only [bind, EStateM.bind, hget]
  cases Table.get? key (s.entries p) with
  | none => cases make <;> rfl
  | some values =>
    cases values with
    | policies children =>
      simp only
      cases children.getLast? with
      | none => rfl
      | some child => rfl
    | _ => rfl

/-- On its way down to a policy that is there nothing is done. -/
theorem along_way (h : s.Way p front r) (hne : path ≠ []) : ∀ done : List String,
    along make full act done p (front ++ path) s =
      along make full act (done ++ front) r path s := by
  induction h with
  | here =>
    intro done
    rw [List.append_nil, List.nil_append]
  | @step p c r first front children hget hlast _ ih =>
    intro done
    obtain ⟨next, rest, hnext⟩ : ∃ next rest, front ++ path = next :: rest :=
      List.exists_cons_of_ne_nil (List.append_ne_nil_of_right_ne_nil _ hne)
    rw [List.cons_append, hnext, along_cons, hget]
    simp only [hlast]
    rw [← hnext, ih, List.append_assoc]
    rfl

/-- Where there is no place to write to, the way down ends before anything is made. -/
theorem along_error : ∀ {done : List String} {p : Policy},
    s.placeFrom full done p path = .error e →
      along make full act done p path s = .error e s := by
  induction path with
  | nil =>
    intro done p h
    cases h
    rfl
  | cons key rest ih =>
    intro done p h
    cases rest with
    | nil => cases h
    | cons next rest =>
      rw [along_cons]
      simp only [Store.placeFrom] at h
      cases hget : Table.get? key (s.entries p) with
      | none =>
        rw [hget] at h
        cases h
      | some values =>
        rw [hget] at h
        cases values with
        | policies children =>
          cases hlast : children.getLast? with
          | none =>
            simp only [hlast] at h ⊢
            cases h
            rfl
          | some child =>
            simp only [hlast] at h ⊢
            exact ih h
        | _ =>
          simp only at h ⊢
          cases h
          rfl

/-- Below a free row everything is made, and nothing is in the way of what is done in the end. -/
theorem along_free : ∀ {s : Store} {p : Policy} {key : String} (done : List String), p.id < s.size →
    (below ≠ [] → Table.get? key (s.entries p) = none) →
    along true full act done p (key :: below) s =
      act (s.pave p key below).2.1 (s.pave p key below).2.2 (s.pave p key below).1 := by
  induction below with
  | nil => exact fun _ _ _ => rfl
  | cons next rest ih =>
    intro s p key done hp hfree
    rw [along_cons, hfree (List.cons_ne_nil _ _)]
    refine ih _ ?_ fun _ => ?_
    · rw [size_alloc_link]
      exact Nat.lt_succ_self _
    · rw [entries_link_new hp]
      rfl

theorem along_finds {spot : Place} (h : s.Finds p path spot) (hs : s.WellFormed)
    (hp : p.id < s.size) (done : List String) :
    along true full act done p path s =
      let made := s.pave spot.owner spot.key spot.below
      act made.2.1 made.2.2 made.1 := by
  obtain ⟨front, rfl, hway, hfree⟩ := h.way
  rw [along_way hway (List.cons_ne_nil _ _), along_free _ (hs.lt_of_reaches hp hway.reaches) hfree]

/-- If nothing is to be made, a missing policy ends the way. -/
theorem along_finds_false {spot : Place} (h : s.Finds p path spot) (done : List String) :
    along false full act done p path s =
      if spot.below = [] then act spot.owner spot.key s else .error (.nameNotFound full) s := by
  obtain ⟨front, rfl, hway, hfree⟩ := h.way
  rw [along_way hway (List.cons_ne_nil _ _)]
  cases hbelow : spot.below with
  | nil => rfl
  | cons next rest =>
    rw [hbelow] at hfree
    rw [along_cons, hfree (List.cons_ne_nil _ _), if_neg (List.cons_ne_nil _ _)]
    rfl

theorem append_eq (name : String) (v : Value Policy) (p : Policy) (key : String) (s : Store) :
    append name v p key s =
      let old := (Table.get? key (s.entries p)).getD (.empty v.kind)
      match old.push? v with
      | some values => .ok () (s.setEntries p ((s.entries p).put key values))
      | none => .error (.wrongType name old.kind v.kind) s := by
  have hget : (get : StoreM Store) s = .ok s s := rfl
  have hput {values : Values Policy} {old : Values Policy} (h : old.push? v = some values) :
      (s.entries p).put key values = Table.insert key values (s.entries p) := by
    apply if_neg
    simp [Values.isEmpty, Values.toList_push? h]
  simp only [append, bind, EStateM.bind, hget]
  cases Table.get? key (s.entries p) with
  | none =>
    have hpush : (Values.empty v.kind).push? v = some (.singleton v) := by
      cases v <;> rfl
    simp only [Option.getD_none, hpush, hput hpush]
    rfl
  | some old =>
    simp only [Option.getD_some]
    cases hpush : old.push? v with
    | none => rfl
    | some values =>
      simp only [hput hpush]
      rfl

theorem resolve_eq (make : Bool) (name : String) (act : Policy → String → StoreM α) :
    p.resolve make name act s =
      match Name.segments name with
      | .ok path => along make name act [] p path s
      | .error e => .error e s := by
  simp only [resolve, bind, EStateM.bind, StoreM.lift, StoreM.ask]
  cases Name.segments name <;> rfl

/-- Where there is no place to write to, nothing is made. -/
theorem resolve_error {name : String} (h : s.place p name = .error e) :
    p.resolve make name act s = .error e s := by
  rw [resolve_eq]
  simp only [place, bind, Except.bind] at h
  cases hname : Name.segments name with
  | error e' =>
    rw [hname] at h
    cases h
    rfl
  | ok path =>
    rw [hname] at h
    exact along_error h

theorem resolve_true {name : String} {spot : Place} (h : s.place p name = .ok spot)
    (hs : s.WellFormed) (hp : p.id < s.size) :
    p.resolve true name act s =
      let made := s.pave spot.owner spot.key spot.below
      act made.2.1 made.2.2 made.1 := by
  obtain ⟨path, hname, hfinds⟩ := exists_finds_of_place h
  rw [resolve_eq, hname]
  exact along_finds hfinds hs hp []

theorem resolve_false {name : String} {spot : Place} (h : s.place p name = .ok spot) :
    p.resolve false name act s =
      if spot.below = [] then act spot.owner spot.key s else .error (.nameNotFound name) s := by
  obtain ⟨path, hname, hfinds⟩ := exists_finds_of_place h
  rw [resolve_eq, hname]
  exact along_finds_false hfinds []

theorem place_ne_nameNotFound (s : Store) (p : Policy) (name full : String) :
    s.place p name ≠ .error (.nameNotFound full) := by
  have hfrom : ∀ (path done : List String) (p : Policy),
      s.placeFrom name done p path ≠ .error (.nameNotFound full) := by
    intro path
    induction path with
    | nil => exact fun _ _ => by simp [Store.placeFrom]
    | cons key rest ih =>
      intro done p
      cases rest with
      | nil => simp [Store.placeFrom]
      | cons next rest =>
        simp only [Store.placeFrom]
        split
        · simp
        · split
          · exact ih _ _
          · simp
        · simp
  unfold place Name.segments
  split
  · exact hfrom _ _ _
  · simp [bind, Except.bind]

/-- A name that ends above a missing policy holds nothing that could be removed. -/
theorem remove_eq (p : Policy) (name : String) (s : Store) :
    (tryCatch (p.resolve false name drop) fun
      | .nameNotFound _ => return false
      | e => throw e : StoreM Bool) s = p.remove name s := by
  have hcatch : ∀ (m : StoreM Bool) (handle : PolicyError → StoreM Bool),
      tryCatch m handle s = match m s with
        | .ok found s => .ok found s
        | .error e s => handle e s := by
    intro m handle
    show EStateM.tryCatch m handle s = _
    unfold EStateM.tryCatch
    cases m s <;> rfl
  rw [hcatch]
  unfold Policy.remove Store.remove
  cases hplace : s.place p name with
  | error e =>
    rw [resolve_error hplace]
    cases e with
    | nameNotFound full => exact (place_ne_nameNotFound s p name full hplace).elim
    | _ => rfl
  | ok spot =>
    obtain ⟨owner, key, below⟩ := spot
    rw [resolve_false hplace]
    cases below with
    | nil =>
      have hdrop : drop owner key s = .ok (Table.get? key (s.entries owner)).isSome
        (s.setEntries owner (Table.erase key (s.entries owner))) := rfl
      simp only [if_pos, hdrop, bind, Except.bind]
      cases hget : Table.get? key (s.entries owner) with
      | none =>
        rw [Table.erase_of_get?_eq_none hget, setEntries_entries]
        rfl
      | some values => rfl
    | cons next rest => rfl

end Policy

/-! ## Both ways to write -/

theorem Store.Rehandled.refl (low : Nat) (s : Store) : s.Rehandled low id s where
  size_eq := rfl
  injective := Function.injective_id
  fixed _ _ := rfl
  node q := congrArg (Node.mk · (s.node q).dictionary)
    (Entries.rename_eq_self fun _ _ _ _ => rfl).symm

/-- Where the second computation fails, the first one fails likewise and the store is as it was.
Where it succeeds, so does the first one, and the stores hold the same. -/
def StoreM.Refined {α : Type} (m m' : StoreM α) (s : Store) : Prop :=
  match m' s with
  | .ok a s' => ∃ s'' f, m s = .ok a s'' ∧ s''.Rehandled s.size f s'
  | .error e s' => s' = s ∧ m s = .error e s

namespace StoreM.Refined

variable {s : Store} {p : Policy} {name : String}

theorem ask {question : Store → Except PolicyError Unit}
    {f : Store → Except PolicyError Store} {m : StoreM Unit} (h : (update f).Refined m s) :
    (update fun s => do question s; f s).Refined (do StoreM.ask question; m) s := by
  unfold Refined at h ⊢
  simp only [bind, EStateM.bind, StoreM.ask, update]
  cases hq : question s with
  | error e => exact ⟨rfl, rfl⟩
  | ok _ => exact h

theorem put (hs : s.WellFormed) (hp : p.id < s.size) {values : Values Policy}
    (hvalues : ∀ c ∈ values.children, c.id < s.size) :
    (update (·.put p name values)).Refined (p.resolve true name (Policy.fill values)) s := by
  unfold Refined
  cases hplace : s.place p name with
  | error e =>
    rw [Policy.resolve_error hplace]
    refine ⟨rfl, ?_⟩
    simp only [update, Store.put, hplace, bind, Except.bind]
  | ok spot =>
    obtain ⟨path, -, hfinds⟩ := Store.exists_finds_of_place hplace
    rw [Policy.resolve_true hplace hs hp]
    refine ⟨s.write spot values, _, ?_,
      Store.rehandled_write hs (hs.lt_of_reaches hp hfinds.reaches) hvalues⟩
    simp only [update, Store.put, hplace, bind, Except.bind]
    rfl

theorem add (hs : s.WellFormed) (hp : p.id < s.size) {v : Value Policy}
    (hv : ∀ c, v = .policy c → c.id < s.size) :
    (update fun s => do
      let spot ← s.place p name
      match (s.valuesAt spot v.kind).push? v with
      | some values => return s.write spot values
      | none => .error (.wrongType name (s.valuesAt spot v.kind).kind v.kind)).Refined
        (p.resolve true name (Policy.append name v)) s := by
  unfold Refined
  cases hplace : s.place p name with
  | error e =>
    rw [Policy.resolve_error hplace]
    refine ⟨rfl, ?_⟩
    simp only [update, hplace, bind, Except.bind]
  | ok spot =>
    obtain ⟨path, -, hfinds⟩ := Store.exists_finds_of_place hplace
    have howner := hs.lt_of_reaches hp hfinds.reaches
    rw [Policy.resolve_true hplace hs hp]
    simp only [Policy.append_eq, Store.valuesAt_pave howner, update, hplace, bind, Except.bind]
    cases hpush : (s.valuesAt spot v.kind).push? v with
    | none =>
      refine ⟨?_, rfl⟩
      -- The value cannot be refused by an array that is begun with it.
      have hbelow : spot.below = [] := by
        by_contra hne
        obtain ⟨next, rest, hnext⟩ := List.exists_cons_of_ne_nil hne
        simp only [Store.valuesAt, hnext] at hpush
        exact Values.push?_eq_none_iff.mp hpush (Values.kind_empty v.kind)
      rw [hbelow]
      rfl
    | some values =>
      refine ⟨s.write spot values, _, rfl, Store.rehandled_write hs howner fun c hc => ?_⟩
      rcases Store.children_push? hpush hc with hold | hnew
      · exact hs.closed spot.owner c (Store.mem_below_of_valuesAt hold)
      · exact hv c hnew

end StoreM.Refined

theorem Write.inPlace_refines (w : Write) {p : Policy} {s : Store} (hs : s.WellFormed)
    (hp : p.id < s.size) (hw : ∀ c ∈ w.inserted, c.id < s.size) (name : String) :
    (w.run p name).Refined (w.inPlace p name) s := by
  cases w with
  | set v =>
    refine StoreM.Refined.ask (StoreM.Refined.put hs hp fun c hc => ?_)
    cases v with
    | policy q => exact hw c hc
    | _ => cases hc
  | add v =>
    refine StoreM.Refined.ask (StoreM.Refined.add hs hp ?_)
    rintro c rfl
    exact hw c List.mem_cons_self
  | setValues values => exact StoreM.Refined.ask (StoreM.Refined.put hs hp hw)
  | remove =>
    have heq : Write.remove.inPlace p name s = Write.remove.run p name s := by
      simp only [Write.inPlace, Write.run, bind, EStateM.bind, Policy.remove_eq]
    unfold StoreM.Refined
    rw [heq]
    simp only [Write.run, Policy.remove, bind, EStateM.bind]
    cases s.remove p name with
    | ok removed => exact ⟨removed.2, id, rfl, .refl _ _⟩
    | error e => exact ⟨rfl, rfl⟩

/-- A write that is made in place and fails has changed nothing, and looking for the place first
fails likewise. If it succeeds, so does looking for the place first, and the stores hold the same. -/
theorem Write.inPlace_all_or_nothing (w : Write) {p : Policy} {s : Store} (hs : s.WellFormed)
    (hp : p.id < s.size) (hw : ∀ c ∈ w.inserted, c.id < s.size) (name : String) :
    (∀ e s', w.inPlace p name s = .error e s' → s' = s ∧ w.run p name s = .error e s) ∧
      ∀ s', w.inPlace p name s = .ok () s' →
        ∃ s'' f, w.run p name s = .ok () s'' ∧ s''.Rehandled s.size f s' := by
  have h := w.inPlace_refines hs hp hw name
  unfold StoreM.Refined at h
  constructor
  · intro e s' hrun
    rw [hrun] at h
    exact h
  · intro s' hrun
    rw [hrun] at h
    exact h

/-- Something else than policies is in the way of one name, two policies are made for the other. -/
theorem Write.inPlace_all_or_nothing_pair :
    let s : Store := ⟨#[{ entries := [("a", .policies [⟨1⟩])] }, { entries := [("b", .ints [1])] }]⟩
    let w : Write := .set (.int 2)
    (∃ e, w.inPlace ⟨0⟩ "a.b.c" s = .error e s ∧ w.run ⟨0⟩ "a.b.c" s = .error e s) ∧
      ∃ s' s'' f, w.inPlace ⟨0⟩ "a.c.d.e" s = .ok () s' ∧ w.run ⟨0⟩ "a.c.d.e" s = .ok () s'' ∧
        s''.Rehandled 2 f s' := by
  intro s w
  have hs : s.WellFormed := .of_lt (by decide) (by decide)
  have hw : ∀ c ∈ w.inserted, c.id < s.size := fun _ hc => by cases hc
  have h := w.inPlace_all_or_nothing hs (p := ⟨0⟩) (by decide) hw
  have hfails : w.inPlace ⟨0⟩ "a.b.c" s = .error (.notAPolicy "a.b.c" "a.b" .int) s := by
    cbv
  have hwrites : w.inPlace ⟨0⟩ "a.c.d.e" s = .ok () ⟨#[{ entries := [("a", .policies [⟨1⟩])] },
      { entries := [("b", .ints [1]), ("c", .policies [⟨2⟩])] },
      { entries := [("d", .policies [⟨3⟩])] }, { entries := [("e", .ints [2])] }]⟩ := by
    cbv
  obtain ⟨-, hrun⟩ := (h "a.b.c").1 _ _ hfails
  obtain ⟨s'', f, hrun', hsame⟩ := (h "a.c.d.e").2 _ hwrites
  exact ⟨⟨_, hfails, hrun⟩, _, s'', f, hwrites, hrun', hsame⟩

end PolicyStore
