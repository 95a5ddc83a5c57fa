import PolicyStore.Proofs.Store.Worlds
import PolicyStore.Proofs.Update.Branches

set_option autoImplicit false

namespace PolicyStore

/-!
# What copies share

A deep copy shares no policy with what it was copied from. A shallow copy has rows of its own, and in
them the same policies.
-/

variable {s s' : Store} {p q r side other : Policy} {name key : String}

/-! ## What operations leave alone -/

namespace Store

variable {spot : Place} {vs : Values Policy}

/-- From one store to another nothing happens to a policy. -/
def Spares (s s' : Store) (r : Policy) : Prop :=
  s.size ≤ s'.size ∧ (r.id < s.size → s'.node r = s.node r)

theorem Spares.refl (s : Store) (r : Policy) : s.Spares s r := ⟨Nat.le_refl _, fun _ => rfl⟩

theorem Spares.trans {s'' : Store} (h : s.Spares s' r) (h' : s'.Spares s'' r) : s.Spares s'' r :=
  ⟨h.1.trans h'.1, fun hr => (h'.2 (hr.trans_le h.1)).trans (h.2 hr)⟩

theorem Edits.spares {zone : Policy → Prop} (h : Edits zone s s') (hr : ¬zone r) : s.Spares s' r :=
  ⟨h.size_le, fun hlt => h.node_eq r hlt hr⟩

theorem spares_setEntries (hne : r ≠ p) (rows : Entries Policy) : s.Spares (s.setEntries p rows) r :=
  ⟨(size_setEntries s p rows).ge, fun _ => node_setEntries_of_ne hne s rows⟩

theorem spares_write (hne : r ≠ spot.owner) (vs : Values Policy) : s.Spares (s.write spot vs) r := by
  obtain ⟨hsize, hframe⟩ := nest_frame s vs spot.below
  exact Spares.trans ⟨hsize, hframe r⟩ (spares_setEntries hne _)

section Writes

variable (hout : ∀ spot, s.place p name = .ok spot → r ≠ spot.owner)

include hout

theorem spares_put (hput : s.put p name vs = .ok s') : s.Spares s' r := by
  obtain ⟨spot, hplace, hput⟩ := Except.bind_eq_ok hput
  cases hput
  exact spares_write (hout spot hplace) vs

theorem spares_set {v : Value Policy} (hset : s.set p name v = .ok s') : s.Spares s' r := by
  obtain ⟨_, _, hput⟩ := Except.bind_eq_ok hset
  exact spares_put hout hput

theorem spares_setValues (hset : s.setValues p name vs = .ok s') : s.Spares s' r := by
  obtain ⟨_, _, hput⟩ := Except.bind_eq_ok hset
  exact spares_put hout hput

theorem spares_add {v : Value Policy} (hadd : s.add p name v = .ok s') : s.Spares s' r := by
  obtain ⟨_, _, hadd⟩ := Except.bind_eq_ok hadd
  obtain ⟨spot, hplace, hadd⟩ := Except.bind_eq_ok hadd
  dsimp only at hadd
  split at hadd
  · cases hadd
    exact spares_write (hout spot hplace) _
  · cases hadd

theorem spares_remove {found : Bool} (hremove : s.remove p name = .ok (found, s')) :
    s.Spares s' r := by
  obtain ⟨spot, hplace, hremove⟩ := Except.bind_eq_ok hremove
  split at hremove
  · cases hremove
    exact spares_setEntries (hout spot hplace) _
  · cases hremove
    exact .refl s r

end Writes

theorem reaches_of_place (hplace : s.place p name = .ok spot) : s.Reaches p spot.owner := by
  obtain ⟨path, -, hplace⟩ := Except.bind_eq_ok hplace
  exact (finds_of_placeFrom hplace).reaches

/-- A name without a dot has its place in the policy itself. -/
theorem owner_of_place (hdot : '.' ∉ name.toList) (hplace : s.place p name = .ok spot) :
    spot.owner = p := by
  obtain ⟨path, hname, hplace⟩ := Except.bind_eq_ok hplace
  rcases Name.segments_of_dot_not_mem hdot with hsingle | hbad
  · cases hsingle.symm.trans hname
    cases hplace
    rfl
  · cases hbad.symm.trans hname

theorem content_of_spares (hs : s.WellFormed) (hp : p.id < s.size) (hacyclic : s.Acyclic p)
    (h : ∀ q, s.Reaches p q → s.Spares s' q) : s'.content p = s.content p := by
  have hrows (q : Policy) (hq : s.Reaches p q) : s'.entries q = s.entries q := by
    rw [entries, (h q hq).2 (hs.lt_of_reaches hp hq), entries]
  calc s'.content p
      _ = s'.contentTo s'.size p := content_eq s' p
      _ = s.contentTo s'.size p :=
        contentTo_congr (P := s.Reaches p) (fun _ hq _ hc => hq.tail hc) hrows .refl
      _ = s.contentTo s.size p := (hacyclic.within hs hp).contentTo_eq (h p .refl).1
      _ = s.content p := (content_eq s p).symm

end Store

theorem Write.after_eq (p : Policy) (s : Store) (write : String × Write) :
    Write.after p s write = (write.2.run p write.1).after s := by
  unfold Write.after StoreM.after
  cases write.2.run p write.1 s <;> rfl

/-- A write changes no policy but the one that its name leads to. -/
theorem Write.spares (w : Write) (hout : ∀ spot, s.place p name = .ok spot → r ≠ spot.owner) :
    s.Spares ((w.run p name).after s) r := by
  have hupdate {f : Store → Except PolicyError Store} (hf : ∀ s', f s = .ok s' → s.Spares s' r) :
      s.Spares ((StoreM.update f).after s) r := by
    unfold StoreM.after StoreM.update
    cases hfs : f s with
    | ok s' => exact hf s' hfs
    | error e => exact .refl s r
  cases w with
  | set v => exact hupdate fun _ => Store.spares_set hout
  | add v => exact hupdate fun _ => Store.spares_add hout
  | setValues vs => exact hupdate fun _ => Store.spares_setValues hout
  | remove =>
    cases hremove : s.remove p name with
    | error e =>
      have hrun : Write.remove.run p name s = .error e s := by
        simp only [run, bind, EStateM.bind, Policy.remove, hremove]
      rw [StoreM.after, hrun]
      exact .refl s r
    | ok found =>
      have hrun : Write.remove.run p name s = .ok () found.2 := by
        simp only [run, bind, EStateM.bind, Policy.remove, hremove]
        rfl
      rw [StoreM.after, hrun]
      exact Store.spares_remove hout hremove

/-- A policy and what it reaches are a zone, with the policies that are still to be made. -/
theorem Store.Proper.zoned_from (h : s.Proper) (p : Policy) :
    s.Zoned fun q => s.Reaches p q ∨ s.size ≤ q.id where
  toProper := h
  inside q hq c hc := by
    rcases hq with hreach | hnew
    · exact Or.inl (hreach.tail hc)
    · exact (Nat.lt_irrefl _ ((Store.lt_size_of_mem_below hc).trans_le hnew)).elim
  fresh _ hq := Or.inr hq

/-- An action changes nothing that its policy does not reach. -/
theorem Action.node_after (a : Action) (h : s.Proper) (hsound : a.Sound) (hr : r.id < s.size)
    (hnot : ¬s.Reaches p r) : (a.after p s).node r = s.node r := by
  have hedits (hnone : ∀ c, c ∉ a.inserted) : (a.after p s).node r = s.node r :=
    (a.edits (h.zoned_from p) (Or.inl .refl) (fun c hc => (hnone c hc).elim) hsound).node_eq r hr
      (not_or.mpr ⟨hnot, Nat.not_le_of_lt hr⟩)
  cases a with
  | write name w =>
    -- What is inserted may lead to the policy, but a write does not go on from there.
    refine (w.spares fun spot hplace => ?_).2 hr
    rintro rfl
    exact hnot (Store.reaches_of_place hplace)
  | _ => exact hedits fun _ => List.not_mem_nil

/-! ## Making policies -/

/-- An operation that makes new policies. -/
inductive Making where
  | create
  | shallowCopy (p : Policy)
  | deepCopy (p : Policy)

namespace Making

def after (s : Store) : Making → Store
  | create => (Policy.create []).after s
  | shallowCopy p => p.shallowCopy.after s
  | deepCopy p => p.deepCopy.after s

/-- The policies whose rows are put into new policies as they are. -/
def shared : Making → List Policy
  | shallowCopy p => [p]
  | _ => []

theorem edits {zone : Policy → Prop} (m : Making) (h : s.Zoned zone) (hm : ∀ q ∈ m.shared, zone q) :
    Store.Edits zone s (m.after s) := by
  cases m with
  | create => exact (Policy.edits_create_nil h).after
  | shallowCopy p => exact (Policy.edits_shallowCopy h (hm p List.mem_cons_self)).after
  | deepCopy p => exact (Policy.edits_deepCopy h p).after

theorem node_after (m : Making) (h : s.Proper) (hr : r.id < s.size) :
    (m.after s).node r = s.node r := by
  have hnew : s.Zoned fun q => s.size ≤ q.id := ⟨h, fun q hq c hc =>
    (Nat.lt_irrefl _ ((Store.lt_size_of_mem_below hc).trans_le hq)).elim, fun _ hq => hq⟩
  cases m with
  | shallowCopy p => exact Store.node_alloc_of_lt hr (s.node p)
  | create => exact (edits create hnew nofun).node_eq r hr (Nat.not_le_of_lt hr)
  | deepCopy p => exact (edits (deepCopy p) hnew nofun).node_eq r hr (Nat.not_le_of_lt hr)

end Making

/-! ## Policies that share nothing -/

/-- Something is done to what a policy reaches, or to policies that share nothing with another one.
The values that are given share nothing with it either. -/
inductive ActsApart (side other : Policy) (s : Store) : Store → Prop
  | act {q : Policy} {a : Action} : s.Reaches side q ∨ s.Disjoint q other → a.Sound →
      (∀ v ∈ a.inserted, v.id < s.size ∧ s.Disjoint v other) → ActsApart side other s (a.after q s)
  | make {m : Making} : (∀ q ∈ m.shared, s.Reaches side q ∨ s.Disjoint q other) →
      ActsApart side other s (m.after s)

namespace Store

theorem Proper.zoned_apart (h : s.Proper) (hother : other.id < s.size) :
    s.Zoned fun q => s.Disjoint q other where
  toProper := h
  inside _ hq _ hc := hq.of_reaches (.single hc) .refl
  fresh q hq q' hqr hreach := by
    have hlt := h.wellFormed.lt_of_reaches hother hreach
    rcases Relation.ReflTransGen.cases_head hqr with rfl | ⟨c, hc, _⟩
    · exact Nat.lt_irrefl _ (hlt.trans_le hq)
    · exact Nat.lt_irrefl _ ((lt_size_of_mem_below hc).trans_le hq)

/-- The ways to what a policy reaches stay, wherever they start. -/
theorem Edits.reaches (h : Edits (fun q => s.Disjoint q other) s s') (hother : s.Reaches other r)
    (hreach : s.Reaches p r) : s'.Reaches p r := by
  induction hreach using Relation.ReflTransGen.head_induction_on with
  | refl => exact .refl
  | @head q c hc hreach ih =>
    have hshared : ¬s.Disjoint q other := fun hdisjoint => hdisjoint r (hreach.head hc) hother
    refine ih.head ?_
    show c ∈ s'.below q
    rw [below, h.entries_eq (lt_size_of_mem_below hc) hshared]
    exact hc

/-- Policies that share nothing with it have shared nothing with it before. -/
theorem Edits.disjoint_of_disjoint (h : Edits (fun q => s.Disjoint q other) s s')
    (hdisjoint : s'.Disjoint q other) : s.Disjoint q other :=
  fun _ hqr hr => hdisjoint _ (h.reaches hr hqr) (h.reaches hr hr)

/-- Whatever is done apart from a policy changes nothing that the policy reaches. -/
theorem edits_of_actsApart (h : s.Proper) (hother : other.id < s.size)
    (hdisjoint : s.Disjoint side other) (hrun : Relation.ReflTransGen (ActsApart side other) s s') :
    Edits (fun q => s.Disjoint q other) s s' := by
  induction hrun with
  | refl => exact .refl (h.zoned_apart hother)
  | @tail s₁ s₂ _ hact ih =>
    have hapart (q : Policy) (hq : s₁.Reaches side q ∨ s₁.Disjoint q other) : s.Disjoint q other := by
      rcases hq with hreach | hq
      · induction hreach with
        | refl => exact hdisjoint
        | tail _ hc hq => exact ih.inside _ hq _ hc
      · exact ih.disjoint_of_disjoint hq
    cases hact with
    | @act q a hq hsound hinserted =>
      refine ih.trans (a.edits ih.toZoned (hapart q hq) (fun v hv => ?_) hsound)
      obtain ⟨hlt, hv⟩ := hinserted v hv
      exact ⟨ih.disjoint_of_disjoint hv, hlt⟩
    | @make m hshared => exact ih.trans (m.edits ih.toZoned fun q hq => hapart q (hshared q hq))

/-- What one policy holds is not changed by anything that is done apart from it. -/
theorem content_of_actsApart (h : s.Proper) (hother : other.id < s.size)
    (hdisjoint : s.Disjoint side other) (hacyclic : s.Acyclic other)
    (hrun : Relation.ReflTransGen (ActsApart side other) s s') : s'.content other = s.content other :=
  content_of_spares h.wellFormed hother hacyclic fun q hq =>
    (edits_of_actsApart h hother hdisjoint hrun).spares fun hapart => hapart q .refl hq

end Store

/-! ## Policies that share what they hold -/

/-- Something is done to any policy. A policy that leads to one of the roots leaves its row as it
is. -/
inductive ActsKeeping (roots : List Policy) (key : String) (s : Store) : Store → Prop
  | act {q : Policy} {a : Action} : a.Sound → (∀ v ∈ a.inserted, v.id < s.size) →
      (∀ root ∈ roots, s.Reaches q root →
        Table.get? key ((a.after q s).entries root) = Table.get? key (s.entries root)) →
      ActsKeeping roots key s (a.after q s)
  | make (m : Making) : ActsKeeping roots key s (m.after s)

/-- Whatever is read under a name, it is the same for two policies. -/
structure Store.ReadsAlike (s : Store) (p q : Policy) (name : String) : Prop where
  lookup : s.lookup p name = s.lookup q name
  values : s.values p name = s.values q name
  array : ∀ kind, s.array p kind name = s.array q kind name
  value : s.value p name = s.value q name
  get : ∀ kind, s.get p kind name = s.get q kind name

namespace Store

variable {roots : List Policy} {rest : List String}

theorem ReadsAlike.of_lookup (h : s.lookup p name = s.lookup q name) : s.ReadsAlike p q name := by
  have hvalues : s.values p name = s.values q name := congrArg (fun found => found >>= _) h
  have harray (kind : Kind) : s.array p kind name = s.array q kind name :=
    congrArg (fun found => found >>= _) hvalues
  exact ⟨h, hvalues, harray, congrArg (fun found => found >>= _) hvalues,
    fun kind => congrArg (fun found => found >>= _) (harray kind)⟩

/-- Policies of the same row read alike under every name that starts with it. -/
theorem readsAlike_of_row (hrow : Table.get? key (s.entries p) = Table.get? key (s.entries q))
    (hname : Name.segments name = .ok (key :: rest)) : s.ReadsAlike p q name := by
  refine .of_lookup ?_
  unfold lookup Entries.lookup
  rw [hname]
  exact descend_cons_congr hrow (fun _ _ _ _ _ => rfl) []

/-- Roots keep their row through all that leaves it as it is where it leads to them. -/
theorem row_of_actsKeeping (h : s.Proper) (hroots : ∀ root ∈ roots, root.id < s.size)
    (hrun : Relation.ReflTransGen (ActsKeeping roots key) s s') :
    Edits (fun _ => True) s s' ∧
      ∀ root ∈ roots, Table.get? key (s'.entries root) = Table.get? key (s.entries root) := by
  induction hrun with
  | refl => exact ⟨.refl h.zoned, fun _ _ => rfl⟩
  | @tail s₁ s₂ _ hact ih =>
    obtain ⟨hedits, hrows⟩ := ih
    have hlt (root : Policy) (hroot : root ∈ roots) : root.id < s₁.size :=
      (hroots root hroot).trans_le hedits.size_le
    cases hact with
    | @act q a hsound hinserted hkept =>
      refine ⟨hedits.trans (a.edits hedits.toZoned trivial
        (fun v hv => ⟨trivial, hinserted v hv⟩) hsound), fun root hroot => ?_⟩
      rw [← hrows root hroot]
      by_cases hreach : s₁.Reaches q root
      · exact hkept root hroot hreach
      · rw [entries, a.node_after hedits.toProper hsound (hlt root hroot) hreach, entries]
    | make m =>
      refine ⟨hedits.trans (m.edits hedits.toZoned fun _ _ => trivial), fun root hroot => ?_⟩
      rw [← hrows root hroot, entries, m.node_after hedits.toProper (hlt root hroot), entries]

/-- Writes under names without a dot change no policy but their own. -/
theorem spares_writes {writes : List (String × Write)} (hne : r ≠ p) :
    ∀ {s : Store}, (∀ w ∈ writes, '.' ∉ w.1.toList) →
      s.Spares (writes.foldl (Write.after p) s) r := by
  induction writes with
  | nil => exact fun _ => .refl _ r
  | cons w writes ih =>
    intro s hdots
    obtain ⟨hdot, hdots⟩ := List.forall_mem_cons.mp hdots
    have hout (spot : Place) (hplace : s.place p w.1 = .ok spot) : r ≠ spot.owner := by
      rw [owner_of_place hdot hplace]
      exact hne
    have hfirst : s.Spares (Write.after p s w) r := by
      rw [Write.after_eq]
      exact w.2.spares hout
    exact hfirst.trans (ih hdots)

end Store

/-! ## The two copies -/

namespace Policy

theorem deepCopy_apart (h : s.Proper) (hp : p.id < s.size) (hacyclic : s.Acyclic p) :
    ∃ c s₁, p.deepCopy s = .ok c s₁ ∧ s₁.content c = s.content p ∧ s₁.content p = s.content p ∧
      s₁.Disjoint c p ∧
      (∀ s', Relation.ReflTransGen (ActsApart c p) s₁ s' → s'.content p = s.content p) ∧
      ∀ s', Relation.ReflTransGen (ActsApart p c) s₁ s' → s'.content c = s.content p := by
  have hs := h.wellFormed
  have hn := hacyclic.within hs hp
  obtain ⟨hplanted, hcopy⟩ := Tree.planted_plant (s.tree p) hs (hs.regular_content h.full p)
  have hproper : (Tree.plant s (s.tree p)).2.Proper :=
    (Making.edits (.deepCopy p) h.zoned nofun).toProper
  have hlow := hplanted.low_le _ List.mem_cons_self
  have hlt := hplanted.lt_size _ List.mem_cons_self
  obtain ⟨m, hm⟩ := hplanted.forest.founded _ List.mem_cons_self
  have hsame := hplanted.adds.content_eq hs hp hn
  have hp' := hp.trans_le hplanted.adds.size_le
  have hn' := hplanted.adds.within hs hp hn
  have hdisjoint := hplanted.adds.disjoint hs hp hlow
  refine ⟨_, _, rfl, hcopy, hsame, hdisjoint.symm, fun s' hrun => ?_, fun s' hrun => ?_⟩
  · exact (Store.content_of_actsApart hproper hp' hdisjoint.symm hn'.acyclic hrun).trans hsame
  · exact (Store.content_of_actsApart hproper hlt hdisjoint hm.acyclic hrun).trans hcopy

theorem shallowCopy_shares (h : s.Proper) (hp : p.id < s.size) :
    ∃ c s₁, p.shallowCopy s = .ok c s₁ ∧
      (s.Acyclic p → ∀ writes : List (String × Write), (∀ w ∈ writes, '.' ∉ w.1.toList) →
        (writes.foldl (Write.after c) s₁).content p = s.content p) ∧
      ∀ key s', Relation.ReflTransGen (ActsKeeping [p, c] key) s₁ s' →
        ∀ name rest, Name.segments name = .ok (key :: rest) → s'.ReadsAlike p c name := by
  have hs := h.wellFormed
  have hproper : (s.alloc (s.node p)).2.Proper :=
    (Making.edits (.shallowCopy p) h.zoned fun _ _ => trivial).toProper
  have hsize := Store.size_alloc s (s.node p)
  have hrows : (s.alloc (s.node p)).2.entries p = (s.alloc (s.node p)).2.entries ⟨s.size⟩ := by
    rw [Store.entries, Store.node_alloc_of_lt hp, Store.entries, Store.node_alloc, if_pos rfl]
  refine ⟨⟨s.size⟩, (s.alloc (s.node p)).2, rfl, fun hacyclic writes hdots => ?_,
    fun key s' hrun name rest hname => ?_⟩
  · refine Store.content_of_spares hs hp hacyclic fun q hq => ?_
    have hlt := hs.lt_of_reaches hp hq
    have hnew : s.Spares (s.alloc (s.node p)).2 q :=
      ⟨by omega, fun _ => Store.node_alloc_of_lt hlt (s.node p)⟩
    refine hnew.trans (Store.spares_writes ?_ hdots)
    rintro rfl
    exact Nat.lt_irrefl _ hlt
  · have hroots : ∀ root ∈ [p, ⟨s.size⟩], root.id < (s.alloc (s.node p)).2.size := by
      simp only [List.forall_mem_cons, hsize]
      exact ⟨by omega, by simp, by simp⟩
    obtain ⟨-, hkept⟩ := Store.row_of_actsKeeping hproper hroots hrun
    refine Store.readsAlike_of_row ?_ hname
    rw [hkept p List.mem_cons_self, hkept ⟨s.size⟩ (by simp), hrows]

/-- A deep copy holds the same and shares nothing: what is done on one side is not seen on the other.
A shallow copy has rows of its own, so writes to them are not seen; and as long as the row under a key
is changed in neither of the two policies, both read alike under every name that starts with it. -/
theorem copies_share (h : s.Proper) (hp : p.id < s.size) :
    (s.Acyclic p → ∃ c s₁, p.deepCopy s = .ok c s₁ ∧ s₁.content c = s.content p ∧
      s₁.content p = s.content p ∧ s₁.Disjoint c p ∧
      (∀ s', Relation.ReflTransGen (ActsApart c p) s₁ s' → s'.content p = s.content p) ∧
      ∀ s', Relation.ReflTransGen (ActsApart p c) s₁ s' → s'.content c = s.content p) ∧
    ∃ c s₁, p.shallowCopy s = .ok c s₁ ∧
      (s.Acyclic p → ∀ writes : List (String × Write), (∀ w ∈ writes, '.' ∉ w.1.toList) →
        (writes.foldl (Write.after c) s₁).content p = s.content p) ∧
      ∀ key s', Relation.ReflTransGen (ActsKeeping [p, c] key) s₁ s' →
        ∀ name rest, Name.segments name = .ok (key :: rest) → s'.ReadsAlike p c name :=
  ⟨deepCopy_apart h hp, shallowCopy_shares h hp⟩

/-- What is written below a deep copy is not seen below the policy, and what is written below a
shallow copy is. -/
theorem copies_share_of_pair :
    let s : Store := ⟨#[{ entries := [("a", .policies [⟨1⟩])] }, { entries := [("b", .ints [1])] }]⟩
    let write : Action := .write "a.b" (.set (.int 2))
    (∃ c s₁, (⟨0⟩ : Policy).deepCopy s = .ok c s₁ ∧ (write.after c s₁).content ⟨0⟩ = s.content ⟨0⟩) ∧
      ∃ c s₁, (⟨0⟩ : Policy).shallowCopy s = .ok c s₁ ∧
        (write.after c s₁).ReadsAlike ⟨0⟩ c "a.b" ∧
        (write.after c s₁).value c "a.b" = .ok (.int 2) := by
  intro s write
  have h : s.Proper :=
    .of_parts (.of_lt (by decide) (by decide)) (.of_lt (by decide)) (.of_lt (by decide))
  have hwithin : s.Within 2 ⟨0⟩ := by decide
  obtain ⟨hdeep, c, s₁, hshallow, -, hreads⟩ := copies_share h (p := ⟨0⟩) (by decide)
  refine ⟨?_, c, s₁, hshallow, ?_⟩
  · obtain ⟨c, s₁, hcopy, -, -, -, hkept, -⟩ := hdeep hwithin.acyclic
    exact ⟨c, s₁, hcopy, hkept _ (.single (.act (Or.inl .refl) trivial nofun))⟩
  · cases hshallow
    refine ⟨hreads "a" _ (.single (.act (a := write) trivial nofun fun root hroot _ => ?_)) "a.b"
      ["b"] (by decide), by cbv⟩
    rcases List.mem_cons.mp hroot with rfl | hroot
    · cbv
    · cases List.mem_singleton.mp hroot
      cbv

end Policy

end PolicyStore
