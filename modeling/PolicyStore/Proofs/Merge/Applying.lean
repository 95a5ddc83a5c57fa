import PolicyStore.Proofs.Store.Worlds
import PolicyStore.Proofs.Update.Overwriting
import PolicyStore.Proofs.Update.Points

set_option autoImplicit false

namespace PolicyStore

/-!
# What applying a default leaves

A default is written value by value, each of them with the consent of the dictionary of the target.
If the dictionary objects to one of the values, those before it stay where they are.
-/

/-- The policies of an array are the first of those of an array that begins with it. -/
theorem Values.IsPrefix.children {π : Type} {vs ws : Values π} (h : IsPrefix vs ws) :
    vs.children <+: ws.children := by
  cases vs with
  | policies children =>
    obtain ⟨others, rfl, hprefix⟩ := h.policies
    exact hprefix
  | _ => exact List.nil_prefix

theorem Store.Planted.of_append {s s' : Store} {ps qs : List Policy} (h : Planted s s' (ps ++ qs)) :
    Planted s s' ps where
  adds := h.adds
  low_le p hp := h.low_le p (List.mem_append_left _ hp)
  lt_size p hp := h.lt_size p (List.mem_append_left _ hp)
  forest := (forest_append_iff.mp h.forest).1

theorem StoreM.seq_eq (m m' : StoreM Unit) (s : Store) :
    (do m; m') s =
      match m s with
      | .ok _ s' => m' s'
      | .error e s' => .error e s' := by
  show EStateM.bind m (fun _ => m') s = _
  unfold EStateM.bind
  cases m s <;> rfl

namespace Store

/-- An array stands where a place is, behind new policies if there were none. Nothing else that was
there has changed, and what is new holds nothing that was there. -/
structure PutAt (s s' : Store) (spot : Place) (vs : Values Policy) : Prop
    extends PolicyStore.Extends s s' (· = spot.owner) where
  onlyRow : s.OnlyRow s' spot.owner spot.key
  free : spot.below ≠ [] → Table.get? spot.key (s.entries spot.owner) = none
  row : ∃ outer, Table.get? spot.key (s'.entries spot.owner) = some outer ∧
    s'.Chained vs spot.below outer ∧ ∀ c ∈ outer.children, s.size ≤ c.id

/-- A name holds an array of new trees, which has been put where the name led to. -/
structure Receives (s s' : Store) (p : Policy) (name : String) (vs : Values Policy) : Prop where
  held : s'.lookup p name = .ok (some vs)
  fresh : ∀ c ∈ vs.children, s.size ≤ c.id
  forest : s'.Forest vs.children
  put : ∃ spot, s.place p name = .ok spot ∧ s.PutAt s' spot vs

variable {s t : Store} {p : Policy} {name : String} {path : List String} {spot : Place}
  {vs ws copies : Values Policy} {v : Value Policy}

/-! ## An array of copies is put -/

theorem putAt_write (hplanted : Planted s t vs.children)
    (hne : vs.isEmpty = false) (howner : spot.owner.id < s.size)
    (hfree : spot.below ≠ [] → Table.get? spot.key (s.entries spot.owner) = none) :
    s.PutAt (t.write spot vs) spot vs := by
  obtain ⟨hmade, -⟩ := planted_nest hplanted hne spot.below
  have hinner := isEmpty_nest (s := t) hne spot.below
  have hrows : (t.nest vs spot.below).2.entries spot.owner = s.entries spot.owner :=
    hmade.adds.entries_eq howner
  have howner' := howner.trans_le hmade.adds.size_le
  obtain ⟨outer, hget, hchained⟩ := chained_write (howner.trans_le hplanted.adds.size_le) hne
  have houter : outer = (t.nest vs spot.below).1 := by
    rw [write_eq hne, entries_setEntries_self howner', Table.get?_insert_self] at hget
    exact (Option.some.inj hget).symm
  have hextends : PolicyStore.Extends s (t.write spot vs) (· = spot.owner) := by
    rw [write_eq hne]
    have hset := PolicyStore.Extends.setEntries hmade.adds.wellFormed howner'
      (Table.sorted_insert (hmade.adds.wellFormed.sorted spot.owner) spot.key
        (t.nest vs spot.below).1) (fun c hc => ?_) fun hfull row hrow => ?_
    · exact (PolicyStore.Extends.trans hmade.adds hset fun q hq => hq ▸ howner).weaken
        fun _ _ hq => hq.elim False.elim id
    · rcases mem_flatMap_insert hc with hc | hc
      · exact hmade.lt_size c hc
      · exact hmade.adds.wellFormed.closed spot.owner c hc
    · rcases Table.mem_of_mem_insert hrow with rfl | hrow
      · exact hinner
      · exact hfull spot.owner row hrow
  exact {
    hextends with
    onlyRow := fun q hq other hother => by
      rw [onlyRow_write hne q (hq.trans_le hplanted.adds.size_le) other hother,
        hplanted.adds.entries_eq hq]
    free := hfree
    row := ⟨outer, hget, hchained, houter ▸ hmade.low_le⟩ }

/-- Nothing is done to the copies when they are put. -/
theorem copies_write (hplanted : Planted s t copies.children) (hne : vs.isEmpty = false)
    (howner : spot.owner.id < s.size) (hwell : (t.write spot vs).WellFormed) :
    (t.write spot vs).Forest copies.children ∧
      copies.map (t.write spot vs).content = copies.map t.content := by
  have hadds := hplanted.adds
  have hclosed (q : Policy) (hq : s.size ≤ q.id ∧ q.id < t.size) :
      ∀ c ∈ t.below q, s.size ≤ c.id ∧ c.id < t.size :=
    fun c hc => ⟨hadds.apart q hq.1 c hc, hadds.wellFormed.closed q c hc⟩
  have hrows (q : Policy) (hq : s.size ≤ q.id ∧ q.id < t.size) :
      (t.write spot vs).entries q = t.entries q := by
    have hother : q ≠ spot.owner := by
      rintro rfl
      omega
    rw [write_eq hne, entries_setEntries_of_ne hother, entries, (nest_frame t vs _).2 q hq.2,
      entries]
  have hcopies (c : Policy) (hc : c ∈ copies.children) : s.size ≤ c.id ∧ c.id < t.size :=
    ⟨hplanted.low_le c hc, hplanted.lt_size c hc⟩
  refine ⟨hplanted.forest.congr hclosed hrows hcopies, Values.map_congr fun c hc => ?_⟩
  obtain ⟨n, hn⟩ := hplanted.forest.founded c hc
  have hlt : c.id < (t.write spot vs).size := by
    rw [write, size_setEntries]
    exact (hcopies c hc).2.trans_le (nest_frame t vs spot.below).1
  exact hadds.wellFormed.content_congr hwell hclosed hrows (hcopies c hc) (hcopies c hc).2 hlt hn

section Put

variable (hs : s.WellFormed) (hp : p.id < s.size) (hadds : s.Adds t)
  (hname : Name.segments name = .ok path) (hdirect : s.Direct p path) (hfinds : s.Finds p path spot)
  (hne : vs.isEmpty = false)

include hs hp hadds hname hdirect hfinds hne

/-- A name that has been written leads to the row of its array, which can be written again. -/
theorem exists_place_write : ∃ spot', (t.write spot vs).place p name = .ok spot' ∧
    (t.write spot vs).lookup p name = .ok (some vs) ∧
    (∀ kind, (t.write spot vs).valuesAt spot' kind = vs) ∧
    ∀ ws : Values Policy, ws.isEmpty = false →
      (t.write spot vs).write spot' ws = t.write spot ws := by
  obtain ⟨front, hpath, hway, hfree⟩ := hfinds.way
  have howner := hs.lt_of_reaches hp hfinds.reaches
  have honly : s.OnlyRow (t.write spot vs) spot.owner spot.key := by
    intro q hq other hother
    rw [onlyRow_write hne q (hq.trans_le hadds.size_le) other hother, hadds.entries_eq hq]
  have hfree' : spot.below ≠ [] → Table.get? spot.key (t.entries spot.owner) = none := by
    rw [hadds.entries_eq howner]
    exact hfree
  obtain ⟨mid, last, r, hsplit, hrow⟩ := exists_row_write (howner.trans_le hadds.size_le) hfree'
  obtain ⟨hmid, hget, hagain⟩ := hrow vs hne
  have hfront := honly.way_of_direct hs hway hp (hpath ▸ hdirect)
  have hall : path = (front ++ mid) ++ [last] := by
    rw [hpath, hsplit, List.append_assoc]
  have hthrough := hfront.append hmid
  refine ⟨⟨r, last, []⟩, ?_, ?_, fun kind => ?_, hagain⟩
  · simp only [place, hname, bind, Except.bind, hall]
    exact hthrough.placeFrom name []
  · rw [lookup_eq hname, hall, hthrough.descend, hget]
  · simp only [valuesAt, hget, Option.getD_some]

/-- Adding a value to an array that has been written comes to writing the longer array. -/
theorem add_write (hpush : vs.push? v = some ws) :
    (t.write spot vs).add p name v =
      ((t.write spot vs).approve p name v ((t.write spot vs).count p name)).map
        fun _ => t.write spot ws := by
  obtain ⟨spot', hplace, -, hvalues, hagain⟩ :=
    exists_place_write hs hp hadds hname hdirect hfinds hne
  have hne' : ws.isEmpty = false := by
    simp [Values.isEmpty, Values.toList_push? hpush]
  unfold Store.add
  simp only [hplace, hvalues, hpush, hagain ws hne', bind, Except.bind]
  cases (t.write spot vs).approve p name v ((t.write spot vs).count p name) <;> rfl

omit hadds in
/-- The first of some copies are put, and none of the copies changes by that. -/
theorem receives_write (hplanted : Planted s t copies.children)
    (hfirst : Values.IsPrefix vs copies) :
    s.Receives (t.write spot vs) p name vs ∧
      copies.map (t.write spot vs).content = copies.map t.content := by
  obtain ⟨-, -, hheld, -⟩ := exists_place_write hs hp hplanted.adds hname hdirect hfinds hne
  obtain ⟨-, -, -, hfree⟩ := hfinds.way
  have howner := hs.lt_of_reaches hp hfinds.reaches
  obtain ⟨others, hothers⟩ := hfirst.children
  have hvs : Planted s t vs.children := .of_append (hothers ▸ hplanted)
  have hput := putAt_write hvs hne howner hfree
  have hplace : s.place p name = .ok spot := by
    simp only [place, hname, bind, Except.bind]
    exact hfinds.placeFrom name []
  exact ⟨⟨hheld, hvs.low_le, (copies_write hvs hne howner hput.wellFormed).1, spot, hplace, hput⟩,
    (copies_write hplanted hne howner hput.wellFormed).2⟩

end Put

/-! ## A value at a time -/

section Run

variable (hs : s.WellFormed) (hp : p.id < s.size) (hadds : s.Adds t)
  (hname : Name.segments name = .ok path) (hdirect : s.Direct p path) (hfinds : s.Finds p path spot)

include hs hp hadds hname hdirect hfinds

/-- Adding values ends with all of them written, or before one that the dictionary objects to. -/
theorem forM_add_write (added : List (Value Policy)) : ∀ {vs : Values Policy}, vs.isEmpty = false →
    (∀ v ∈ added, v.kind = vs.kind) →
    match added.forM (p.add name) (t.write spot vs) with
    | .ok _ s' => ∃ ws, ws.kind = vs.kind ∧ ws.toList = vs.toList ++ added ∧ s' = t.write spot ws
    | .error e s' => ∃ ws done v rest, added = done ++ v :: rest ∧ ws.kind = vs.kind ∧
        ws.toList = vs.toList ++ done ∧ s' = t.write spot ws ∧
        s'.approve p name v (s'.count p name) = .error e := by
  induction added with
  | nil => exact fun _ _ => ⟨_, rfl, (List.append_nil _).symm, rfl⟩
  | cons v added ih =>
    intro vs hne hkinds
    obtain ⟨ws, hpush⟩ : ∃ ws, vs.push? v = some ws := by
      refine Option.ne_none_iff_exists'.mp fun hnone => ?_
      exact Values.push?_eq_none_iff.mp hnone (hkinds v List.mem_cons_self).symm
    have hadd := add_write hs hp hadds hname hdirect hfinds hne hpush
    have hrun : (v :: added).forM (p.add name) (t.write spot vs) =
        match p.add name v (t.write spot vs) with
        | .ok _ s' => added.forM (p.add name) s'
        | .error e s' => .error e s' :=
      StoreM.seq_eq (p.add name v) (added.forM (p.add name)) _
    rw [hrun]
    simp only [Policy.add, StoreM.update, hadd]
    cases happrove : (t.write spot vs).approve p name v ((t.write spot vs).count p name) with
    | error e =>
      exact ⟨vs, [], v, added, rfl, rfl, (List.append_nil _).symm, rfl, happrove⟩
    | ok _ =>
      have hkind := Values.kind_push? hpush
      have hlist := Values.toList_push? hpush
      have hne' : ws.isEmpty = false := by
        simp [Values.isEmpty, hlist]
      have hrest := ih hne' fun w hw => (hkinds w (List.mem_cons_of_mem _ hw)).trans hkind.symm
      simp only [Except.map]
      cases hforM : added.forM (p.add name) (t.write spot ws) with
      | ok _ s' =>
        rw [hforM] at hrest
        obtain ⟨us, huskind, hus, hs'⟩ := hrest
        exact ⟨us, huskind.trans hkind, by rw [hus, hlist, List.append_assoc]; rfl, hs'⟩
      | error e s' =>
        rw [hforM] at hrest
        obtain ⟨us, done, w, rest, hadded, huskind, hus, hs', hobjects⟩ := hrest
        refine ⟨us, v :: done, w, rest, ?_, huskind.trans hkind, ?_, hs', hobjects⟩
        · rw [hadded, List.cons_append]
        · rw [hus, hlist, List.append_assoc]
          rfl

end Run

end Store

theorem Values.planted_plant {s : Store} (hs : s.WellFormed) {values : Values Tree}
    (h : ∀ t ∈ values.children, t.content.Regular) :
    ∃ copies t, values.plant s = .ok copies t ∧ Store.Planted s t copies.children ∧
      copies.map t.content = values.map Tree.content := by
  cases values with
  | policies trees =>
    have hregular : ∀ c ∈ Tree.contentOfAll trees, c.Regular := by
      intro c hc
      rw [Tree.contentOfAll_eq_map] at hc
      obtain ⟨t, ht, rfl⟩ := List.mem_map.mp hc
      exact h t ht
    obtain ⟨hplanted, hcontent⟩ := Tree.planted_plantAll trees hs hregular
    refine ⟨_, _, rfl, hplanted, ?_⟩
    show Values.policies _ = .policies _
    rw [hcontent, Tree.contentOfAll_eq_map]
  | _ => exact ⟨_, s, rfl, .nil hs, rfl⟩

namespace Definition

open Store

variable {s t : Store} {p : Policy} {name : String} {copies : Values Policy}

/-- Writing copies value by value leaves nothing, or all of them, or those before one that the
dictionary objects to. -/
theorem writeAll_leaves (hs : s.WellFormed) (hp : p.id < s.size) (hadds : s.Adds t)
    (hdirect : ∀ path, Name.segments name = .ok path → s.Direct p path)
    (hne : copies.isEmpty = false) :
    match writeAll p name copies.toList t with
    | .ok _ s' => ∃ path spot, Name.segments name = .ok path ∧ s.Finds p path spot ∧
        s' = t.write spot copies
    | .error e s' => s' = t ∨ ∃ path spot vs v rest, Name.segments name = .ok path ∧
        s.Finds p path spot ∧ vs.isEmpty = false ∧ vs.kind = copies.kind ∧
        copies.toList = vs.toList ++ v :: rest ∧ s' = t.write spot vs ∧
        s'.approve p name v (s'.count p name) = .error e := by
  obtain ⟨v, rest, hlist⟩ : ∃ v rest, copies.toList = v :: rest := by
    refine List.exists_cons_of_ne_nil ?_
    simpa [Values.isEmpty] using hne
  have hrun : writeAll p name (v :: rest) t =
      match p.set name v t with
      | .ok _ s' => rest.forM (p.add name) s'
      | .error e s' => .error e s' :=
    StoreM.seq_eq (p.set name v) (rest.forM (p.add name)) t
  have hkinds : ∀ w ∈ v :: rest, w.kind = copies.kind := by
    rw [← hlist]
    exact fun w => Values.kind_of_mem_toList
  rw [hlist, hrun]
  simp only [Policy.set, StoreM.update, Store.set, Store.put, bind, Except.bind]
  cases t.approve p name v 0 with
  | error e => exact Or.inl rfl
  | ok _ =>
    simp only
    cases hplace : t.place p name with
    | error e => exact Or.inl rfl
    | ok spot =>
      obtain ⟨path, hname, hfinds⟩ := exists_finds_of_place hplace
      have hfinds : s.Finds p path spot := by
        refine hfinds.congr (P := fun q => q.id < s.size) (fun q hq c hc => ?_)
          (fun q hq => (hadds.entries_eq hq).symm) hp
        rw [below_congr (hadds.entries_eq hq)] at hc
        exact hs.closed q c hc
      have hne' : (Values.singleton v).isEmpty = false := by
        simp [Values.isEmpty]
      have hkind : (Values.singleton v).kind = copies.kind :=
        (Values.kind_singleton v).trans (hkinds v List.mem_cons_self)
      have hloop := forM_add_write hs hp hadds hname (hdirect path hname) hfinds rest hne'
        fun w hw => (hkinds w (List.mem_cons_of_mem _ hw)).trans hkind.symm
      rw [Values.toList_singleton] at hloop
      simp only [pure, Except.pure]
      cases hforM : rest.forM (p.add name) (t.write spot (.singleton v)) with
      | ok _ s' =>
        rw [hforM] at hloop
        obtain ⟨ws, hwskind, hws, hs'⟩ := hloop
        obtain rfl : ws = copies := Values.ext_toList (hwskind.trans hkind) (hws.trans hlist.symm)
        exact ⟨path, spot, hname, hfinds, hs'⟩
      | error e s' =>
        rw [hforM] at hloop
        obtain ⟨ws, done, w, later, hrest, hwskind, hws, hs', hobjects⟩ := hloop
        refine Or.inr ⟨path, spot, ws, w, later, hname, hfinds, ?_, hwskind.trans hkind, ?_, hs',
          hobjects⟩
        · simp [Values.isEmpty, hws]
        · rw [hws, hrest]
          rfl

/-- The dictionary of the policy objects to a value of the default besides the first. The name holds
copies of the values before it. -/
def Stalls (d : Definition) (s : Store) (p : Policy) (name : String) (e : PolicyError)
    (s' : Store) : Prop :=
  ∃ values vs v rest, d.default = some values ∧ vs.isEmpty = false ∧ vs.kind = values.kind ∧
    values.toList.map (Value.map Tree.content) =
      vs.toList.map (Value.map s'.content) ++ v.map s'.content :: rest ∧
    s.Receives s' p name vs ∧ s.dictionary? p ≠ none ∧
    s'.approve p name v (s'.count p name) = .error e

/-- What becomes of a store when a default is applied. -/
def Leaves (d : Definition) (s : Store) (p : Policy) (name : String) :
    EStateM.Result PolicyError Store (Bool × Option Report) → Prop
  | .ok (true, _) s' => ∃ values vs, d.default = some values ∧ s.Receives s' p name vs ∧
      vs.map s'.content = values.map Tree.content
  | .ok (false, _) s' => s' = s
  | .error e s' => (∀ q : Policy, q.id < s.size → s'.node q = s.node q) ∨ d.Stalls s p name e s'

theorem leaves_applyDefault {d : Definition} (hs : s.WellFormed) (hd : d.Sound) (hfilled : d.Filled)
    (hp : p.id < s.size) (hdirect : ∀ path, Name.segments name = .ok path → s.Direct p path)
    (acc : Option Report) : d.Leaves s p name (d.applyDefault p name acc s) := by
  unfold applyDefault
  cases hdefault : d.default with
  | none => exact rfl
  | some values =>
    simp only
    split
    · obtain ⟨copies, t, hplant, hplanted, hcontent⟩ :=
        Values.planted_plant hs fun c hc => (hd values hdefault c hc).1
      have hne : copies.isEmpty = false := by
        rw [← Values.isEmpty_map t.content, hcontent, Values.isEmpty_map]
        exact hfilled values hdefault
      have hwrites := writeAll_leaves hs hp hplanted.adds hdirect hne
      simp only [bind, EStateM.bind, hplant]
      cases hrun : writeAll p name copies.toList t with
      | ok _ s' =>
        rw [hrun] at hwrites
        obtain ⟨path, spot, hname, hfinds, rfl⟩ := hwrites
        obtain ⟨hreceives, hcopies⟩ :=
          receives_write hs hp hname (hdirect path hname) hfinds hne hplanted (.refl copies)
        exact ⟨values, copies, hdefault, hreceives, hcopies.trans hcontent⟩
      | error e s' =>
        rw [hrun] at hwrites
        rcases hwrites with rfl |
          ⟨path, spot, vs, v, rest, hname, hfinds, hne', hkind, hlist, rfl, herror⟩
        · exact Or.inl fun q hq => hplanted.adds.frame q hq id
        · obtain ⟨hreceives, hcopies⟩ := receives_write hs hp hname (hdirect path hname) hfinds hne'
            hplanted ⟨hkind, hlist ▸ List.prefix_append _ _⟩
          have hall := congrArg Values.toList (hcopies.trans hcontent)
          rw [Values.toList_map, Values.toList_map, hlist, List.map_append, List.map_cons] at hall
          have hvalues : copies.kind = values.kind := by
            have hkinds := congrArg Values.kind hcontent
            rwa [Values.kind_map, Values.kind_map] at hkinds
          obtain ⟨_, -, hput⟩ := hreceives.put
          refine Or.inr ⟨values, vs, v, _, hdefault, hne', hkind.trans hvalues, hall.symm,
            hreceives, fun hplain => ?_, herror⟩
          have hplain' : (t.write spot vs).dictionary? p = none :=
            (hput.dictionary p hp).trans hplain
          cases (approve_of_plain hplain' name v _).symm.trans herror
    · simp only [bind, EStateM.bind, StoreM.lift, StoreM.ask]
      cases settle (d.problems name values) acc with
      | ok found => rfl
      | error e => exact Or.inl fun _ _ => rfl

end Definition

end PolicyStore
