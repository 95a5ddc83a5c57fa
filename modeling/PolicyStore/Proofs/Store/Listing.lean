import PolicyStore.Proofs.Store.Trees
import PolicyStore.Proofs.Store.Worlds
import PolicyStore.Proofs.Text.Ordering
import Mathlib.Data.List.Sort

set_option autoImplicit false

namespace PolicyStore

/-!
# Lists of names

The names of a policy are listed row by row, each key before the names below it, and they are the
names that lead to an array. Such a list is in the order of the names, so that it is determined by
its members: every other list of names is a part of the list of all.
-/

namespace Tree

theorem namesOfLast_eq (filter : NameFilter) (ts : List Tree) :
    namesOfLast filter ts = (ts.getLast?.map (names filter)).getD [] := by
  induction ts with
  | nil => rw [namesOfLast, List.getLast?_nil, Option.map_none, Option.getD_none]
  | cons t ts ih =>
    cases ts with
    | nil => rw [namesOfLast, List.getLast?_singleton, Option.map_some, Option.getD_some]
    | cons u ts => rw [namesOfLast, ih, List.getLast?_cons_cons]

theorem namesOfEntries_eq_flatMap (filter : NameFilter) (rows : List (String × Values Tree)) :
    namesOfEntries filter rows =
      rows.flatMap fun row =>
        namesOfRow filter row.1 row.2.kind (namesOfLast filter row.2.children) := by
  induction rows with
  | nil => rw [namesOfEntries, List.flatMap_nil]
  | cons row rows ih =>
    obtain ⟨key, vs⟩ := row
    rw [List.flatMap_cons, ← ih]
    cases vs with
    | policies children => rw [namesOfEntries, Values.kind, Values.children]
    | _ => simp only [namesOfEntries, Values.children, namesOfLast]

variable {filter : NameFilter} {key name : String} {kind : Kind} {names : List String}

theorem mem_namesOfRow : name ∈ namesOfRow filter key kind names ↔
    (name = key ∧ filter.accepts kind = true) ∨ ∃ other ∈ names, name = key ++ "." ++ other := by
  unfold namesOfRow
  rw [List.mem_append, List.mem_map]
  refine or_congr ?_ (by simp only [eq_comm])
  split <;> simp_all

theorem above_of_mem_namesOfRow (h : name ∈ namesOfRow filter key kind names) :
    name = key ∨ Name.Above key name :=
  (mem_namesOfRow.mp h).imp And.left fun ⟨other, _, hname⟩ => ⟨other, hname⟩

theorem pairwise_namesOfRow (h : names.Pairwise (· < ·)) :
    (namesOfRow filter key kind names).Pairwise (· < ·) := by
  refine List.pairwise_append.mpr ⟨?_, ?_, ?_⟩
  · split
    · exact List.pairwise_singleton _ _
    · exact List.Pairwise.nil
  · exact List.pairwise_map.mpr (h.imp (Name.concat_lt_concat key))
  · intro first hfirst second hsecond
    obtain ⟨other, -, rfl⟩ := List.mem_map.mp hsecond
    split at hfirst
    · rw [List.mem_singleton.mp hfirst]
      exact Name.lt_concat key other
    · cases hfirst

/-! ## Collecting -/

theorem fullName_ne_empty {above : String} (h : above = "" → key ≠ "") :
    fullName above key ≠ "" := by
  unfold fullName
  split
  · rename_i habove
    exact h habove
  · intro hempty
    have hlength := congrArg (fun text : String => text.toList.length) hempty
    rw [Name.toList_concat] at hlength
    simp at hlength

theorem fullName_concat {above : String} (key name : String) (h : fullName above key ≠ "") :
    fullName (fullName above key) name = fullName above (key ++ "." ++ name) := by
  rw [fullName, if_neg h]
  unfold fullName
  split
  · rfl
  · simp only [String.append_assoc]

theorem collectRow_eq (filter : NameFilter) (name : String) (kind : Kind) (out : List String) :
    collectRow filter name kind out =
      out ++ if filter.accepts kind then [name] else [] := by
  unfold collectRow
  split
  · rfl
  · rw [List.append_nil]

mutual

/-- What is collected in a tree are its names, behind the name that leads to it. -/
theorem collect_eq (filter : NameFilter) : ∀ (t : Tree) (above : String) (out : List String),
    (above = "" → ∀ row ∈ t.entries, row.1 ≠ "") →
      t.collect filter false above out = out ++ (t.names filter).map (fullName above)
  | .node _ _ rows, above, out, h => by
    rw [collect, Tree.names]
    exact collectRows_eq filter rows above out h

theorem collectRows_eq (filter : NameFilter) :
    ∀ (rows : List (String × Values Tree)) (above : String) (out : List String),
      (above = "" → ∀ row ∈ rows, row.1 ≠ "") →
        collectRows filter false above rows out =
          out ++ (namesOfEntries filter rows).map (fullName above)
  | [], above, out, _ => by rw [collectRows, namesOfEntries, List.map_nil, List.append_nil]
  | (key, vs) :: rows, above, out, h => by
    have hrest : above = "" → ∀ row ∈ rows, row.1 ≠ "" := fun habove row hrow =>
      h habove row (List.mem_cons_of_mem _ hrow)
    cases vs with
    | policies children =>
      have hfull : fullName above key ≠ "" :=
        fullName_ne_empty fun habove => h habove _ List.mem_cons_self
      have hbelow : (fun name => fullName above (key ++ "." ++ name)) =
          fullName (fullName above key) := funext fun name => (fullName_concat key name hfull).symm
      rw [collectRows]
      simp only [Bool.false_eq_true, if_false]
      rw [collectRows_eq filter rows above _ hrest, collectLast_eq filter children _ hfull,
        collectRow_eq, namesOfEntries, namesOfRow, List.map_append, List.map_append, List.map_map,
        ← List.append_assoc, ← List.append_assoc]
      congr 3
      · split <;> rfl
      · exact hbelow.symm
    | _ =>
      simp only [collectRows, namesOfEntries]
      rw [collectRows_eq filter rows above _ hrest, collectRow_eq, namesOfRow, List.map_append,
        List.map_nil, List.append_nil, ← List.append_assoc]
      congr 2
      split <;> rfl

theorem collectLast_eq (filter : NameFilter) :
    ∀ (ts : List Tree) (above : String), above ≠ "" → ∀ out : List String,
      collectLast filter above ts out = out ++ (namesOfLast filter ts).map (fullName above)
  | [], above, _, out => by rw [collectLast, namesOfLast, List.map_nil, List.append_nil]
  | [t], above, h, out => by
    rw [collectLast, namesOfLast]
    exact collect_eq filter t above out fun habove => (h habove).elim
  | _ :: t :: ts, above, h, out => by
    rw [collectLast, namesOfLast]
    exact collectLast_eq filter (t :: ts) above h out

end

theorem collectRows_top (filter : NameFilter) (rows : List (String × Values Tree))
    (out : List String) : collectRows filter true "" rows out = out ++ topNames filter rows := by
  induction rows generalizing out with
  | nil => rw [collectRows, topNames, List.filter_nil, List.map_nil, List.append_nil]
  | cons row rows ih =>
    obtain ⟨key, vs⟩ := row
    have hrow : collectRows filter true "" ((key, vs) :: rows) out =
        collectRows filter true "" rows (collectRow filter key vs.kind out) := by
      cases vs <;> simp only [collectRows, fullName, if_true, Values.kind]
    rw [hrow, ih, collectRow_eq, List.append_assoc, topNames, topNames, List.filter_cons]
    split <;> rfl

end Tree

/-! ## Listing -/

namespace Store

variable {s : Store} {p q : Policy} {filter : NameFilter} {name : String} {m n : Nat}

/-- No policy that names lead to is one that they lead back to. -/
def Straight (s : Store) (p : Policy) : Prop :=
  ∀ front q, s.Way p front q → ∀ loop, s.Way q loop q → loop = []

/-- Names lead down a number of levels at most. -/
def Shallow (s : Store) : Nat → Policy → Prop
  | 0, _ => False
  | depth + 1, p => ∀ key children c, Table.get? key (s.entries p) = some (.policies children) →
      children.getLast? = some c → Shallow s depth c

theorem Within.straight (h : s.Within n p) : s.Straight p :=
  fun _ _ hway _ hloop => hloop.eq_nil (h.of_reaches hway.reaches)

theorem Shallow.mono (h : s.Shallow m p) (hle : m ≤ n) : s.Shallow n p := by
  induction m generalizing n p with
  | zero => exact h.elim
  | succ m ih =>
    obtain ⟨n, rfl⟩ : ∃ k, n = k + 1 := ⟨n - 1, by omega⟩
    exact fun key children c hget hlast => ih (h key children c hget hlast) (by omega)

theorem Straight.shallow_card {A : Finset Policy} (hA : ∀ front q, s.Way p front q → q ∈ A)
    (hp : s.Straight p) : s.Shallow A.card p := by
  -- No name leads back to `p`, so those below it lead to one policy less.
  induction hcard : A.card generalizing A p with
  | zero =>
    have hmem := hA [] p (.here p)
    rw [Finset.card_eq_zero.mp hcard] at hmem
    cases hmem
  | succ n ih =>
    intro key children c hget hlast
    have hstep {front : List String} {q : Policy} (hway : s.Way c front q) :
        s.Way p (key :: front) q := .step hget hlast hway
    refine ih (A := A.erase p) (fun front q hway => ?_) (fun front q hway => ?_) ?_
    · refine Finset.mem_erase.mpr ⟨?_, hA _ q (hstep hway)⟩
      rintro rfl
      exact List.cons_ne_nil _ _ (hp [] q (.here q) _ (hstep hway))
    · exact hp _ q (hstep hway)
    · rw [Finset.card_erase_of_mem (hA [] p (.here p)), hcard, Nat.add_sub_cancel]

theorem Straight.shallow (h : s.Straight p) (hs : s.WellFormed) (hp : p.id < s.size) :
    s.Shallow s.size p :=
  (h.shallow_card fun _ _ hway => mem_handles_iff.mpr (hs.lt_of_reaches hp hway.reaches)).mono
    (card_handles_le s)

/-- A name of one segment is looked up among the policy's own rows. -/
theorem find?_of_segment {key : String} (h : Name.segments key = .ok [key]) :
    s.find? p key = Table.get? key (s.entries p) :=
  Way.find?_eq (.here p) (h.trans (congrArg Except.ok (List.nil_append [key]).symm))

/-- The names below an array, which lead through the last policy of it. -/
def namesBelow (s : Store) (filter : NameFilter) (depth : Nat) (vs : Values Policy) : List String :=
  (vs.children.getLast?.map fun c => (s.unfold depth c).names filter).getD []

theorem mem_namesBelow {vs : Values Policy} : name ∈ s.namesBelow filter n vs ↔
    ∃ children c, vs = .policies children ∧ children.getLast? = some c ∧
      name ∈ (s.unfold n c).names filter := by
  cases vs with
  | policies children =>
    simp only [namesBelow, Values.children, Values.policies.injEq, exists_and_left, exists_eq_left']
    cases children.getLast? <;> simp
  | _ => simp [namesBelow, Values.children]

/-- Names are listed row by row. -/
theorem names_unfold (s : Store) (filter : NameFilter) (n : Nat) (p : Policy) :
    (s.unfold (n + 1) p).names filter = (s.entries p).flatMap fun row =>
      Tree.namesOfRow filter row.1 row.2.kind (s.namesBelow filter n row.2) := by
  rw [unfold, Tree.names, Tree.namesOfEntries_eq_flatMap, List.flatMap_map]
  refine List.flatMap_congr fun row _ => ?_
  rw [Values.kind_map, Values.children_map, Tree.namesOfLast_eq, List.getLast?_map, Option.map_map]
  rfl

namespace Proper

variable (hs : s.Proper)

include hs

/-- The names that are listed are those that lead to an array of a kind that is asked for. -/
theorem mem_names_unfold_iff (hn : s.Shallow n p) (name : String) :
    name ∈ (s.unfold n p).names filter ↔
      ∃ vs, s.find? p name = some vs ∧ filter.accepts vs.kind = true := by
  induction n generalizing p name with
  | zero => exact hn.elim
  | succ n ih =>
    rw [names_unfold, List.mem_flatMap]
    constructor
    · rintro ⟨⟨key, vs⟩, hrow, hname⟩
      have hkey := (hs.rows p).legal _ hrow
      have hget := Table.get?_of_mem (hs.rows p).sorted hrow
      rcases Tree.mem_namesOfRow.mp hname with ⟨rfl, haccepts⟩ | ⟨other, hother, rfl⟩
      · exact ⟨vs, (find?_of_segment hkey).trans hget, haccepts⟩
      · obtain ⟨children, c, rfl, hlast, hmem⟩ := mem_namesBelow.mp hother
        obtain ⟨ws, hfind, haccepts⟩ := (ih (hn _ _ _ hget hlast) other).mp hmem
        obtain ⟨front, last, r, hsegments, hway, hr⟩ := way_of_find? hfind
        have hlonger := (Way.step hget hlast hway).find?_eq (Name.segments_append hkey hsegments)
        exact ⟨ws, hlonger.trans hr, haccepts⟩
    · rintro ⟨vs, hfind, haccepts⟩
      obtain ⟨front, key, r, hsegments, hway, hr⟩ := way_of_find? hfind
      cases hway with
      | here =>
        refine ⟨(key, vs), Table.mem_of_get? hr, Tree.mem_namesOfRow.mpr (Or.inl ⟨?_, haccepts⟩)⟩
        exact Name.eq_of_segments hsegments
      | @step _ c _ first path children hget hlast hway =>
        obtain ⟨next, rest, hnext⟩ := List.exists_cons_of_ne_nil
          (List.append_ne_nil_of_right_ne_nil path (List.cons_ne_nil key []))
        rw [List.cons_append, hnext] at hsegments
        obtain ⟨other, rfl, hother⟩ := Name.exists_of_segments_eq_cons hsegments
        have hbelow : s.find? c other = some vs :=
          (hway.find?_eq (hother.trans (congrArg Except.ok hnext.symm))).trans hr
        have hmem := (ih (hn _ _ _ hget hlast) other).mpr ⟨vs, hbelow, haccepts⟩
        refine ⟨(first, .policies children), Table.mem_of_get? hget, Tree.mem_namesOfRow.mpr ?_⟩
        exact Or.inr ⟨other, mem_namesBelow.mpr ⟨children, c, rfl, hlast, hmem⟩, rfl⟩

/-- Names are listed in their order: what is below a key comes before the next key. -/
theorem pairwise_names_unfold (filter : NameFilter) (n : Nat) (p : Policy) :
    ((s.unfold n p).names filter).Pairwise (· < ·) := by
  induction n generalizing p with
  | zero => exact List.Pairwise.nil
  | succ n ih =>
    rw [names_unfold]
    refine List.pairwise_flatMap.mpr ⟨fun row hrow => Tree.pairwise_namesOfRow ?_, ?_⟩
    · unfold namesBelow
      cases row.2.children.getLast? with
      | none => exact List.Pairwise.nil
      | some c => exact ih c
    · have hkeys : (s.entries p).Pairwise fun row other => row.1 < other.1 :=
        List.pairwise_map.mp (hs.rows p).sorted
      refine hkeys.imp_of_mem fun hrow hother hlt first hfirst second hsecond => ?_
      exact Name.lt_of_key_lt ((hs.rows p).legal _ hother) hlt
        (Tree.above_of_mem_namesOfRow hfirst) (Tree.above_of_mem_namesOfRow hsecond)

theorem pairwise_names (filter : NameFilter) (p : Policy) :
    (s.names p filter false).Pairwise (· < ·) :=
  hs.pairwise_names_unfold filter s.size p

variable (hp : p.id < s.size) (hstraight : s.Straight p)

include hp

/-- What is collected is appended, and counted. -/
theorem collectNames_eq (filter : NameFilter) (topOnly : Bool) (out : List String) :
    s.collectNames p filter topOnly out =
      (out ++ s.names p filter topOnly, (s.names p filter topOnly).length) := by
  obtain ⟨depth, hdepth⟩ : ∃ depth, s.size = depth + 1 := ⟨s.size - 1, by omega⟩
  have hall : (s.tree p).collect filter topOnly "" out = out ++ s.names p filter topOnly := by
    cases topOnly with
    | false =>
      have hkeys : ∀ row ∈ (s.tree p).entries, row.1 ≠ "" := by
        rw [Store.tree, hdepth, unfold]
        intro row hrow
        obtain ⟨old, hold, rfl⟩ := List.mem_map.mp hrow
        exact ((hs.rows p).isRow hold).nonempty
      rw [Tree.collect_eq filter _ _ _ fun _ => hkeys]
      exact congrArg (out ++ ·) (List.map_id'' (fun _ => if_pos rfl) _)
    | true =>
      rw [names, if_pos rfl, Store.tree, hdepth, unfold, Tree.collect, Tree.collectRows_top,
        Tree.topNames, Tree.topNames, List.filter_map, List.map_map]
      simp only [Function.comp_def, Values.kind_map]
  rw [collectNames, hall, List.length_append, Nat.add_sub_cancel_left]

include hstraight

theorem mem_names_iff : name ∈ s.names p filter false ↔
    ∃ vs, s.find? p name = some vs ∧ filter.accepts vs.kind = true :=
  hs.mem_names_unfold_iff (hstraight.shallow hs.wellFormed hp) name

theorem mem_names_all_iff : name ∈ s.names p .all false ↔ s.exists? p name = true := by
  rw [hs.mem_names_iff hp hstraight, exists?, Option.isSome_iff_exists]
  exact exists_congr fun vs => and_iff_left rfl

/-- The names that a filter accepts are those among all names. -/
theorem names_eq_filter (filter : NameFilter) {a : Option Kind → Bool}
    (haccepts : ∀ kind, a (some kind) = filter.accepts kind) :
    s.names p filter false =
      (s.names p .all false).filter fun name => a (s.kind? p name) := by
  refine (hs.pairwise_names filter p).eq_of_mem_iff ((hs.pairwise_names .all p).filter _)
    fun name => ?_
  rw [List.mem_filter, hs.mem_names_iff hp hstraight, hs.mem_names_all_iff hp hstraight, exists?,
    kind?]
  cases s.find? p name with
  | none => simp
  | some vs => simp [haccepts]

theorem topNames_eq_filter (filter : NameFilter) :
    Tree.topNames filter (s.entries p) =
      (s.names p filter false).filter fun name => '.' ∉ name.toList := by
  have hkeys : (Table.keys (s.entries p)).Pairwise (· < ·) := (hs.rows p).sorted
  have hsublist := (List.filter_sublist (p := fun row => filter.accepts row.2.kind)
    (l := s.entries p)).map Prod.fst
  refine (hkeys.sublist hsublist).eq_of_mem_iff ((hs.pairwise_names filter p).filter _)
    fun name => ?_
  rw [List.mem_filter, hs.mem_names_iff hp hstraight, List.mem_map, decide_eq_true_eq]
  constructor
  · rintro ⟨⟨key, vs⟩, hrow, rfl⟩
    obtain ⟨hrow, haccepts⟩ := List.mem_filter.mp hrow
    have hkey := (hs.rows p).legal _ hrow
    have hget := Table.get?_of_mem (hs.rows p).sorted hrow
    exact ⟨⟨vs, (find?_of_segment hkey).trans hget, haccepts⟩, Name.dot_not_mem_of_segments hkey⟩
  · rintro ⟨⟨vs, hfind, haccepts⟩, hdot⟩
    obtain ⟨front, key, r, hsegments, hway, hr⟩ := way_of_find? hfind
    rcases Name.segments_of_dot_not_mem hdot with hname | hbad
    · have hpath : front ++ [key] = [] ++ [name] := Except.ok.inj (hsegments.symm.trans hname)
      obtain ⟨rfl, hlast⟩ := List.append_inj' hpath rfl
      cases List.singleton_inj.mp hlast
      cases hway
      exact ⟨(_, vs), List.mem_filter.mpr ⟨Table.mem_of_get? hr, haccepts⟩, rfl⟩
    · cases hsegments.symm.trans hbad

end Proper

end Store

namespace World

variable {w : World} {p : Policy}

/-- The lists of names of a policy, unless they have no end because names lead back to a policy.
All names stand in the order of their bytes, and they are those that hold an array; every other list
is a part of that list. -/
theorem reached_names_listed (h : w.Reached) (hp : p.id < w.store.size)
    (hstraight : w.store.Straight p) :
    let s := w.store
    let all := s.names p .all false
    let params := s.names p .params false
    let policies := s.names p .policies false
    (all.map Text.bytes).Pairwise (· < ·) ∧
      (∀ name, name ∈ all ↔ s.exists? p name = true) ∧
      params = all.filter (fun name => s.kind? p name ≠ some .policy) ∧
      policies = all.filter (fun name => s.kind? p name = some .policy) ∧
      (params ++ policies).Perm all ∧ params.Disjoint policies ∧
      s.names p .files false = all.filter (fun name => s.kind? p name = some .file) ∧
      (∀ filter, s.names p filter true =
        (s.names p filter false).filter fun name => '.' ∉ name.toList) ∧
      ∀ filter topOnly out, s.collectNames p filter topOnly out =
        (out ++ s.names p filter topOnly, (s.names p filter topOnly).length) := by
  intro s all params policies
  have hs : s.Proper := h.proper.store
  have hparams : params = all.filter fun name => s.kind? p name ≠ some .policy :=
    hs.names_eq_filter hp hstraight .params (a := fun kind => kind ≠ some .policy)
      fun kind => by cases kind <;> rfl
  have hpolicies : policies = all.filter fun name => s.kind? p name = some .policy :=
    hs.names_eq_filter hp hstraight .policies (a := fun kind => kind = some .policy)
      fun kind => by cases kind <;> rfl
  have hfiles : s.names p .files false = all.filter fun name => s.kind? p name = some .file :=
    hs.names_eq_filter hp hstraight .files (a := fun kind => kind = some .file)
      fun kind => by cases kind <;> rfl
  refine ⟨?_, fun name => hs.mem_names_all_iff hp hstraight, hparams, hpolicies, ?_, ?_, hfiles, ?_,
    hs.collectNames_eq hp⟩
  · exact List.pairwise_map.mpr ((hs.pairwise_names .all p).imp Text.bytes_lt_of_lt)
  · have hparts := List.filter_append_perm (fun name => s.kind? p name ≠ some .policy) all
    simpa only [hparams, hpolicies, decide_not, Bool.not_not] using hparts
  · intro name hparam hpolicy
    rw [hparams, List.mem_filter, decide_eq_true_eq] at hparam
    rw [hpolicies, List.mem_filter, decide_eq_true_eq] at hpolicy
    exact hparam.2 hpolicy.2
  · intro filter
    exact (if_pos rfl).trans (hs.topNames_eq_filter hp hstraight filter)

/-- A policy with a value, a reference to a file and a policy whose name goes on like the value's. -/
theorem reached_names_listed_of_nested : ∃ w : World, w.Reached ∧
    w.store.names ⟨0⟩ .all false = ["a", "a.b", "a0", "f"] ∧
    ("a.b" ∈ w.store.names ⟨0⟩ .all false ↔ w.store.exists? ⟨0⟩ "a.b" = true) := by
  let created := empty.setStore ((Policy.create []).after empty.store)
  let valued := created.setStore
    ((Action.write "a0" (.set (.int 1))).after ⟨0⟩ created.store)
  let nested := valued.setStore
    ((Action.write "a.b" (.set (.bool true))).after ⟨0⟩ valued.store)
  let written := nested.setStore
    ((Action.write "f" (.set (.file ⟨"x", none⟩))).after ⟨0⟩ nested.store)
  have hreached : written.Reached :=
    (((Relation.ReflTransGen.single .create).tail
      (.act (p := ⟨0⟩) (a := .write "a0" (.set (.int 1))) (by cbv) ⟨nofun, trivial⟩)).tail
      (.act (p := ⟨0⟩) (a := .write "a.b" (.set (.bool true))) (by cbv) ⟨nofun, trivial⟩)).tail
      (.act (p := ⟨0⟩) (a := .write "f" (.set (.file ⟨"x", none⟩))) (by cbv) ⟨nofun, trivial⟩)
  have hwithin : written.store.Within 2 ⟨0⟩ := by decide
  exact ⟨written, hreached, by cbv,
    (reached_names_listed hreached (by cbv) hwithin.straight).2.1 "a.b"⟩

end World

end PolicyStore
