import PolicyStore.Source
import PolicyStore.Proofs.Paf.Runs
import PolicyStore.Proofs.Store.Above
import PolicyStore.Proofs.Store.Tidy

set_option autoImplicit false

namespace PolicyStore

/-!
# Parsing on top of a store

What a parser makes of a text in a tidy store does not depend on other policies that are there. On
top of another store it makes the same policies with higher handles, and leaves a tidy store.
-/

/-- The outcome of an operation on a store, put on top of another. -/
def raised {σ α : Type} (f : σ → σ) : EStateM.Result PolicyError σ α → EStateM.Result PolicyError σ α
  | .ok a s => .ok a (f s)
  | .error e s => .error e (f s)

namespace Paf

def Session.above (base : Store) (t : Session) : Session := { t with store := base.above t.store }

def Block.raise (k : Nat) (b : Block) : Block := { b with policy := b.policy.raise k }

/-- The second computation does on top of `base` what the first does, from a session on; that one
leaves a tidy store. -/
structure Raises {α : Type} (base : Store) (m m' : ParseM α) (t : Session) : Prop where
  run : m' (t.above base) = raised (Session.above base) (m t)
  tidy : (after m t).store.Tidy
  size_le : t.store.size ≤ (after m t).store.size

section Raises

variable {α β : Type} {base : Store} {t : Session}

theorem Raises.bind {m n : ParseM α} {f g : α → ParseM β} (hm : Raises base m n t)
    (hf : ∀ a, answer m t = .ok a → Raises base (f a) (g a) (after m t)) :
    Raises base (m >>= f) (n >>= g) t := by
  cases hanswer : answer m t with
  | error e =>
    have hrun := hm.run
    rw [error_of_answer hanswer] at hrun
    have hbind := bind_of_error hanswer f
    refine ⟨?_, ?_, ?_⟩
    · rw [hbind]
      show EStateM.bind n g _ = _
      rw [EStateM.bind, hrun]
      rfl
    · rw [after_bind_of_error hanswer]
      exact hm.tidy
    · rw [after_bind_of_error hanswer]
      exact hm.size_le
  | ok a =>
    have hrun := hm.run
    rw [ok_of_answer hanswer] at hrun
    have hnext := hf a hanswer
    refine ⟨?_, ?_, ?_⟩
    · rw [bind_of_ok hanswer, bind_of_run hrun]
      exact hnext.run
    · rw [after_bind_of_ok hanswer]
      exact hnext.tidy
    · rw [after_bind_of_ok hanswer]
      exact hm.size_le.trans hnext.size_le

theorem Raises.pure (ht : t.store.Tidy) (a : α) :
    Raises base (Pure.pure a : ParseM α) (Pure.pure a) t :=
  ⟨rfl, ht, Nat.le_refl _⟩

theorem Raises.throw (ht : t.store.Tidy) (e : PolicyError) :
    Raises base (MonadExcept.throw e : ParseM α) (MonadExcept.throw e) t :=
  ⟨rfl, ht, Nat.le_refl _⟩

/-- Only the runs count, and the session that they start from may be reached on the way. -/
theorem Raises.of_run {m m' n n' : ParseM α} {u : Session} (h : Raises base n n' u)
    (hm : m t = n u) (hm' : m' (t.above base) = n' (u.above base))
    (hsize : t.store.size ≤ u.store.size) : Raises base m m' t := by
  have hafter : after m t = after n u := by
    rw [after, hm, after]
  exact ⟨by rw [hm', hm, h.run], hafter ▸ h.tidy, hafter ▸ hsize.trans h.size_le⟩

end Raises

/-! ## Statements -/

variable (base : Store) {t : Session}

theorem Raises.report (ht : t.store.Tidy) (e : ParseError) :
    Raises base (ParseM.report e) (ParseM.report e) t := by
  have hstrict : (t.above base).parser = t.parser := rfl
  refine ⟨?_, ?_, ?_⟩
  · rw [report_run, report_run, hstrict]
    split <;> rfl
  · rw [after, report_run]
    split <;> rename_i heq <;> split at heq <;> cases heq <;> exact ht
  · rw [after, report_run]
    split <;> rename_i heq <;> split at heq <;> cases heq <;> exact Nat.le_refl _

theorem raises_refuse (ht : t.store.Tidy) (line : Nat) (e : PolicyError) :
    Raises base (refuse line e) (refuse line e) t := by
  unfold refuse
  split
  · refine (Raises.report base ht _).bind fun _ _ => ?_
    exact .pure (Raises.report base ht _).tidy _
  · exact .throw ht e

theorem raises_addValue (ht : t.store.Tidy) {p : Policy} {low : Nat} (hapart : t.store.Apart low)
    (hp : p.id < low) (name : String) (line : Nat) {v : Value Policy}
    (hv : ∀ c, v = .policy c → low ≤ c.id ∧ c.id < t.store.size) :
    Raises base (addValue p name line v)
      (addValue (p.raise base.size) name line (v.map (Policy.raise base.size))) t := by
  have habove := Store.add_above base (ht.plain p) name v
  cases hadd : t.store.add p name v with
  | ok s =>
    rw [hadd] at habove
    have hrun := addValue_of_add line hadd
    have hrun' := addValue_of_add line (t := t.above base) habove
    obtain ⟨htidy, hsize⟩ := ht.add hapart hp hv hadd
    refine ⟨?_, ?_, ?_⟩
    · rw [hrun, hrun']
      rfl
    · rw [after, hrun]
      exact htidy
    · rw [after, hrun]
      exact hsize
  | error e =>
    rw [hadd] at habove
    exact (raises_refuse base ht line e).of_run (addValue_of_error hadd) (addValue_of_error habove)
      (Nat.le_refl _)

theorem apart_size (ht : t.store.Tidy) : t.store.Apart t.store.size where
  le := Nat.le_refl _
  below q _ := ht.closed q
  above _ hq _ hc := (Nat.lt_irrefl _ (Nat.lt_of_lt_of_le (Store.lt_size_of_mem_below hc) hq)).elim

theorem raises_addItem (ht : t.store.Tidy) {p : Policy} (hp : p.id < t.store.size) (name : String)
    (item : Item) : Raises base (addItem p name item) (addItem (p.raise base.size) name item) t := by
  cases item with
  | value line v =>
    have hmap : (Value.ofLiteral v : Value Policy).map (Policy.raise base.size) = .ofLiteral v := by
      cases v with
      | policy e => exact e.elim
      | _ => rfl
    have hnone : ∀ c : Policy, (Value.ofLiteral v : Value Policy) ≠ .policy c := by
      intro c h
      cases v with
      | policy e => exact e.elim
      | _ => cases h
    have hadd := raises_addValue base ht (apart_size ht) hp name line
      (v := .ofLiteral v) fun c hc => (hnone c hc).elim
    rw [hmap] at hadd
    exact hadd
  | fault e =>
    exact (Raises.report base ht e).bind fun _ _ => .pure (Raises.report base ht e).tidy _

theorem raises_addItems {p : Policy} (name : String) (items : List Item) :
    ∀ {t : Session}, t.store.Tidy → p.id < t.store.size →
      Raises base (addItems p name items) (addItems (p.raise base.size) name items) t := by
  induction items with
  | nil => exact fun ht _ => .pure ht _
  | cons item items ih =>
    intro t ht hp
    have hfirst := raises_addItem base ht hp name item
    refine hfirst.bind fun _ _ => ?_
    have hothers := ih hfirst.tidy (Nat.lt_of_lt_of_le hp hfirst.size_le)
    exact hothers.bind fun _ _ => .pure hothers.tidy _

/-- A new block is a policy that is apart from all others. -/
theorem tidy_opening (ht : t.store.Tidy) : (t.store.alloc {}).2.Tidy ∧
    (t.store.alloc {}).2.Apart t.store.size := by
  refine ⟨ht.alloc List.Pairwise.nil (fun c hc => by cases hc) rfl (fun row hrow => by cases hrow),
    ?_, ?_, ?_⟩
  · rw [Store.size_alloc]
    exact Nat.le_succ _
  · intro q hq c hc
    rw [Store.below, Store.entries, Store.node_alloc_of_lt hq] at hc
    exact ht.closed q c hc
  · intro q hq c hc
    rw [Store.below, Store.entries, Store.node_alloc] at hc
    split at hc
    · cases hc
    · exact (Nat.lt_irrefl _ (Nat.lt_of_lt_of_le (Store.lt_size_of_mem_below hc) hq)).elim

/-- The session in which one block less is open. -/
def Session.closed (t : Session) : Session :=
  { t with parser := { t.parser with depth := t.parser.depth - 1 } }

section Closing

variable {inner enclosing : Block} {outer : List Block} {line : Nat} {followed : Bool}
  {rest : List Statement}

theorem run_closing_of_unmatched (h : t.parser.depth = 0) :
    run inner outer (.closing line followed :: rest) t = (do
      ParseM.report (syntaxFault line "unmatched '\x7d'")
      run inner outer rest : ParseM Outcome) t := by
  have hrun : run inner outer (.closing line followed :: rest) t =
      (if t.parser.depth = 0 then do
        ParseM.report (syntaxFault line "unmatched '\x7d'")
        run inner outer rest
      else _ : ParseM Outcome) t := rfl
  rw [hrun, if_pos h]

theorem run_closing_of_last (h : t.parser.depth ≠ 0) :
    run inner [] (.closing line followed :: rest) t =
      (pure ⟨inner.count, some (if followed then line - 1 else line)⟩ : ParseM Outcome) t.closed := by
  have hrun : run inner [] (.closing line followed :: rest) t =
      (if t.parser.depth = 0 then _ else do
        ParseM.modifyParser fun parser => { parser with depth := parser.depth - 1 }
        return ⟨inner.count, some (if followed then line - 1 else line)⟩ : ParseM Outcome) t := rfl
  rw [hrun, if_neg h]
  rfl

theorem run_closing_of_enclosing (h : t.parser.depth ≠ 0) :
    run inner (enclosing :: outer) (.closing line followed :: rest) t =
      run (inner.close enclosing) outer rest t.closed := by
  have hrun : run inner (enclosing :: outer) (.closing line followed :: rest) t =
      (if t.parser.depth = 0 then _ else do
        ParseM.modifyParser fun parser => { parser with depth := parser.depth - 1 }
        run (inner.close enclosing) outer rest : ParseM Outcome) t := rfl
  rw [hrun, if_neg h]
  rfl

end Closing

theorem total_raise (k : Nat) (outer : List Block) :
    ∀ inner : Block, (inner.raise k).total (outer.map (Block.raise k)) = inner.total outer := by
  induction outer with
  | nil => exact fun _ => rfl
  | cons b outer ih => exact fun inner => ih (inner.close b)

theorem raises_run (statements : List Statement) :
    ∀ (inner : Block) (outer : List Block) {t : Session}, t.store.Tidy →
      inner.policy.id < t.store.size → (∀ b ∈ outer, b.policy.id < t.store.size) →
      Raises base (run inner outer statements)
        (run (inner.raise base.size) (outer.map (Block.raise base.size)) statements) t := by
  induction statements with
  | nil =>
    intro inner outer t ht _ _
    refine (Raises.pure ht (Outcome.mk (inner.total outer) none)).of_run rfl ?_ (Nat.le_refl _)
    rw [run, total_raise]
  | cons statement rest ih =>
    intro inner outer t ht hinner houter
    cases statement with
    | fault e =>
      have hreport := Raises.report base ht e
      exact hreport.bind fun _ _ => ih _ _ hreport.tidy (hinner.trans_le hreport.size_le) fun b hb =>
        (houter b hb).trans_le hreport.size_le
    | values name items =>
      have hitems := raises_addItems base name items ht hinner
      exact hitems.bind fun added _ =>
        ih { inner with count := inner.count + if added then 1 else 0 } outer hitems.tidy
          (hinner.trans_le hitems.size_le) fun b hb => (houter b hb).trans_le hitems.size_le
    | opening line name =>
      obtain ⟨htidy, hapart⟩ := tidy_opening ht
      have hsize := Store.size_alloc t.store {}
      have hadd := raises_addValue base
        (t := ⟨(t.store.alloc {}).2, { t.parser with depth := t.parser.depth + 1 }⟩) htidy hapart
        hinner name line (v := .policy ⟨t.store.size⟩) fun c hc => by
          cases hc
          rw [hsize]
          exact ⟨Nat.le_refl _, Nat.lt_succ_self _⟩
      have hrun := hadd.bind (f := fun attached =>
          run { policy := ⟨t.store.size⟩, attached := attached } (inner :: outer) rest)
        (g := fun attached =>
          run (Block.raise base.size { policy := ⟨t.store.size⟩, attached := attached })
          ((inner :: outer).map (Block.raise base.size)) rest) fun attached _ => by
          have hle := hadd.size_le
          rw [hsize] at hle
          refine ih _ _ hadd.tidy hle fun b hb => ?_
          rcases List.mem_cons.mp hb with rfl | hb
          · exact Nat.lt_of_lt_of_le (Nat.lt_succ_of_lt hinner) hle
          · exact Nat.lt_of_lt_of_le (Nat.lt_succ_of_lt (houter b hb)) hle
      refine hrun.of_run rfl ?_ (hsize ▸ Nat.le_succ _)
      have halloc : (base.above t.store).alloc {} =
          ((t.store.alloc {}).1.raise base.size, base.above (t.store.alloc {}).2) :=
        Store.alloc_above base t.store {}
      change (addValue (inner.policy.raise base.size) name line
          (.policy ((base.above t.store).alloc {}).1) >>= fun attached =>
            run { policy := ((base.above t.store).alloc {}).1, attached := attached }
              ((inner :: outer).map (Block.raise base.size)) rest)
          ⟨((base.above t.store).alloc {}).2, { t.parser with depth := t.parser.depth + 1 }⟩ = _
      rw [halloc]
      rfl
    | closing line followed =>
      by_cases hdepth : t.parser.depth = 0
      · have hreport := Raises.report base ht (syntaxFault line "unmatched '\x7d'")
        have hrun := hreport.bind (f := fun _ => run inner outer rest)
          (g := fun _ => run (inner.raise base.size) (outer.map (Block.raise base.size)) rest)
          fun _ _ => ih _ _ hreport.tidy (hinner.trans_le hreport.size_le) fun b hb =>
            (houter b hb).trans_le hreport.size_le
        refine hrun.of_run ?_ ?_ (Nat.le_refl _)
        · exact run_closing_of_unmatched hdepth
        · exact run_closing_of_unmatched (t := t.above base) hdepth
      · cases outer with
        | nil =>
          refine (Raises.pure (t := t.closed) ht
            (Outcome.mk inner.count (some (if followed then line - 1 else line)))).of_run ?_ ?_
            (Nat.le_refl _)
          · exact run_closing_of_last hdepth
          · exact run_closing_of_last (t := t.above base) hdepth
        | cons enclosing others =>
          refine (ih (inner.close enclosing) others (t := t.closed) ht
            (houter enclosing List.mem_cons_self) fun b hb =>
              houter b (List.mem_cons_of_mem _ hb)).of_run ?_ ?_ (Nat.le_refl _)
          · exact run_closing_of_enclosing hdepth
          · exact run_closing_of_enclosing (t := t.above base) hdepth
    | unreadable => exact .throw ht _

theorem raises_parse (ht : t.store.Tidy) {target : Policy} (htarget : target.id < t.store.size)
    (lines : List Line) :
    Raises base (parse target lines) (parse (target.raise base.size) lines) t := by
  have hrun := raises_run base (statements lines) { policy := target } [] ht htarget
    fun b hb => by cases hb
  refine hrun.bind fun outcome _ => ?_
  have htidy := hrun.tidy
  generalize after (run { policy := target } [] (statements lines)) t = u at htidy ⊢
  by_cases hdepth : 0 < u.parser.depth
  · have hreport := Raises.report base
      (t := { u with parser := { u.parser with depth := 0 } }) htidy
      ⟨.eof, "end of input with " ++ toString u.parser.depth ++ " unclosed block(s)",
        some (outcome.stopped.getD lines.length), none⟩
    have hends := hreport.bind (f := fun _ => (pure outcome.count : ParseM Nat))
      (g := fun _ => pure outcome.count) fun _ _ => .pure hreport.tidy _
    refine hends.of_run ?_ ?_ (Nat.le_refl _)
    · change (if 0 < u.parser.depth then _ else _ : ParseM Nat) u = _
      rw [if_pos hdepth]
      rfl
    · change (if 0 < u.parser.depth then _ else _ : ParseM Nat) (u.above base) = _
      rw [if_pos hdepth]
      rfl
  · refine (Raises.pure htidy outcome.count).of_run ?_ ?_ (Nat.le_refl _)
    · change (if 0 < u.parser.depth then _ else _ : ParseM Nat) u = _
      rw [if_neg hdepth]
    · change (if 0 < u.parser.depth then _ else _ : ParseM Nat) (u.above base) = _
      rw [if_neg hdepth]

end Paf

/-! ## Files -/

/-- The store that an operation leaves, whether it fails or not. -/
def StoreM.after {α : Type} (m : StoreM α) (s : Store) : Store :=
  match m s with
  | .ok _ s => s
  | .error _ s => s

variable (base : Store) {s : Store} {p : Policy}

theorem parseFresh_above (hs : s.Tidy) (hp : p.id < s.size) (strict : Bool) (lines : List Paf.Line) :
    Paf.parseFresh strict (p.raise base.size) lines (base.above s) =
        raised base.above (Paf.parseFresh strict p lines s) ∧
      (StoreM.after (Paf.parseFresh strict p lines) s).Tidy ∧
      s.size ≤ (StoreM.after (Paf.parseFresh strict p lines) s).size := by
  obtain ⟨hrun, htidy, hsize⟩ := Paf.raises_parse base (t := ⟨s, { strict := strict }⟩) hs
    hp lines
  have hrun : Paf.parse (p.raise base.size) lines ⟨base.above s, { strict := strict }⟩ =
      raised (Paf.Session.above base) (Paf.parse p lines ⟨s, { strict := strict }⟩) := hrun
  unfold Paf.after at htidy hsize
  unfold StoreM.after Paf.parseFresh
  rw [hrun]
  cases hparse : Paf.parse p lines ⟨s, { strict := strict }⟩ with
  | ok n u =>
    rw [hparse] at htidy hsize
    exact ⟨rfl, htidy, hsize⟩
  | error e u =>
    rw [hparse] at htidy hsize
    exact ⟨rfl, htidy, hsize⟩

theorem loadFile_eq (p : Policy) (fs : FileSystem) (strict : Bool) (f : FileRef) (s : Store) :
    p.loadFile fs strict f s =
      match f.readAlone fs with
      | .error e => .error e s
      | .ok (path, text) =>
        match formatOf text with
        | .error e => .error (e.withOrigin path) s
        | .ok .paf =>
          match Paf.parseFresh strict p (Paf.linesOfText text) s with
          | .ok n s => .ok n s
          | .error e s => .error (e.withOrigin path) s := by
  unfold Policy.loadFile StoreM.lift StoreM.ask
  simp only [bind, EStateM.bind]
  cases f.readAlone fs with
  | error e => rfl
  | ok found =>
    obtain ⟨path, text⟩ := found
    unfold StoreM.mapError Policy.loadText StoreM.lift StoreM.ask
    simp only [bind, EStateM.bind]
    cases formatOf text with
    | error e => rfl
    | ok format =>
      cases format
      simp only [Format.parse]
      cases Paf.parseFresh strict p (Paf.linesOfText text) s <;> rfl

theorem loadFile_above (hs : s.Tidy) (hp : p.id < s.size) (fs : FileSystem) (strict : Bool)
    (f : FileRef) :
    (p.raise base.size).loadFile fs strict f (base.above s) =
        raised base.above (p.loadFile fs strict f s) ∧
      (StoreM.after (p.loadFile fs strict f) s).Tidy ∧
      s.size ≤ (StoreM.after (p.loadFile fs strict f) s).size := by
  unfold StoreM.after
  rw [loadFile_eq, loadFile_eq]
  cases f.readAlone fs with
  | error e => exact ⟨rfl, hs, Nat.le_refl _⟩
  | ok found =>
    obtain ⟨path, text⟩ := found
    simp only
    cases formatOf text with
    | error e => exact ⟨rfl, hs, Nat.le_refl _⟩
    | ok format =>
      obtain ⟨hparse, htidy, hsize⟩ := parseFresh_above base hs hp strict
        (Paf.linesOfText text)
      unfold StoreM.after at htidy hsize
      simp only [hparse]
      cases hsmall : Paf.parseFresh strict p (Paf.linesOfText text) s with
      | ok n s' =>
        rw [hsmall] at htidy hsize
        exact ⟨rfl, htidy, hsize⟩
      | error e s' =>
        rw [hsmall] at htidy hsize
        exact ⟨rfl, htidy, hsize⟩

theorem above_empty (base : Store) : base.above .empty = base := by
  simp [Store.above, Store.empty]

theorem root_eq_raise (k : Nat) : (⟨k⟩ : Policy) = (⟨0⟩ : Policy).raise k := by
  rw [Policy.raise, Nat.zero_add]

/-- A store with one policy that nothing has been read into. -/
theorem tidy_first : (Store.empty.alloc {}).2.Tidy :=
  Store.tidy_empty.alloc List.Pairwise.nil (fun c hc => by cases hc) rfl fun row hrow => by
    cases hrow

theorem first_above (base : Store) :
    base.alloc {} = ((⟨0⟩ : Policy).raise base.size, base.above (Store.empty.alloc {}).2) := by
  have halloc := Store.alloc_above base .empty {}
  rw [above_empty] at halloc
  exact halloc

/-- A file that is read on top of a store gives the policies that it gives by itself, raised. -/
theorem ofFile_above (base : Store) (fs : FileSystem) (strict : Bool) (f : FileRef) :
    (StoreM.after (Policy.ofFile fs strict f) .empty).Tidy ∧
      match Policy.ofFile fs strict f .empty with
      | .ok p s => p = ⟨0⟩ ∧ 0 < s.size ∧
          Policy.ofFile fs strict f base = .ok ⟨base.size⟩ (base.above s)
      | .error e s => Policy.ofFile fs strict f base = .error e (base.above s) := by
  have hof (s : Store) : Policy.ofFile fs strict f s =
      match Policy.loadFile ⟨s.size⟩ fs strict f (s.alloc {}).2 with
      | .ok _ s' => .ok ⟨s.size⟩ s'
      | .error e s' => .error e s' := by
    have hcreate : Policy.create [] s = .ok ⟨s.size⟩ (s.alloc {}).2 := rfl
    unfold Policy.ofFile
    simp only [bind, EStateM.bind, hcreate]
    cases Policy.loadFile ⟨s.size⟩ fs strict f (s.alloc {}).2 <;> rfl
  have halloc : (base.alloc {}).2 = base.above (Store.empty.alloc {}).2 :=
    congrArg Prod.snd (first_above base)
  obtain ⟨hload, htidy, hsize⟩ := loadFile_above base (p := ⟨0⟩) tidy_first
    (Nat.zero_lt_one) fs strict f
  unfold StoreM.after at htidy hsize
  unfold StoreM.after
  rw [hof .empty, hof base, halloc, root_eq_raise base.size, hload]
  have hzero : Store.empty.size = 0 := rfl
  rw [hzero]
  cases hsmall : Policy.loadFile ⟨0⟩ fs strict f (Store.empty.alloc {}).2 with
  | ok n s =>
    rw [hsmall] at htidy hsize
    exact ⟨htidy, rfl, hsize, rfl⟩
  | error e s =>
    rw [hsmall] at htidy
    exact ⟨htidy, rfl⟩

end PolicyStore
