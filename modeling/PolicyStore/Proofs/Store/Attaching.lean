import PolicyStore.Include
import PolicyStore.Merge
import PolicyStore.Proofs.Paf.Balance

set_option autoImplicit false

namespace PolicyStore

/-!
# Operations that attach no dictionary

Reading a policy, including its files and merging defaults into it leave every policy with the
dictionary that is attached to it, or without one.
-/

namespace Store

/-- Each policy that is there has the same dictionary attached, or none, as before. -/
structure KeepsAttached (s s' : Store) : Prop where
  size_le : s.size ≤ s'.size
  dictionary_eq : ∀ q : Policy, q.id < s.size → s'.dictionary? q = s.dictionary? q

namespace KeepsAttached

variable {s s' s'' : Store}

theorem refl (s : Store) : s.KeepsAttached s := ⟨Nat.le_refl _, fun _ _ => rfl⟩

theorem trans (h : s.KeepsAttached s') (h' : s'.KeepsAttached s'') : s.KeepsAttached s'' :=
  ⟨h.size_le.trans h'.size_le, fun q hq =>
    (h'.dictionary_eq q (hq.trans_le h.size_le)).trans (h.dictionary_eq q hq)⟩

theorem alloc (s : Store) (n : Node) : s.KeepsAttached (s.alloc n).2 where
  size_le := by
    rw [size_alloc]
    exact Nat.le_succ _
  dictionary_eq q hq := by rw [dictionary?, node_alloc_of_lt hq, dictionary?]

theorem setEntries (s : Store) (p : Policy) (rows : Entries Policy) :
    s.KeepsAttached (s.setEntries p rows) :=
  ⟨(size_setEntries s p rows).ge, fun q _ => dictionary?_setEntries s p q rows⟩

theorem nest (s : Store) (values : Values Policy) (segments : List String) :
    s.KeepsAttached (s.nest values segments).2 := by
  induction segments with
  | nil => exact .refl s
  | cons segment rest ih => exact ih.trans (.alloc _ _)

theorem write (s : Store) (spot : Place) (values : Values Policy) :
    s.KeepsAttached (s.write spot values) :=
  (nest s values spot.below).trans (.setEntries _ _ _)

theorem put {p : Policy} {name : String} {values : Values Policy}
    (h : s.put p name values = .ok s') : s.KeepsAttached s' := by
  obtain ⟨spot, _, h⟩ := Except.bind_eq_ok h
  cases h
  exact .write s spot values

theorem add {p : Policy} {name : String} {v : Value Policy} (h : s.add p name v = .ok s') :
    s.KeepsAttached s' := by
  obtain ⟨_, _, h⟩ := Except.bind_eq_ok h
  obtain ⟨spot, _, h⟩ := Except.bind_eq_ok h
  dsimp only at h
  split at h
  · cases h
    exact .write s spot _
  · cases h

end KeepsAttached

end Store

namespace Tree

open Store (KeepsAttached)

mutual

theorem keepsAttached_plant : ∀ (t : Tree) (s : Store), s.KeepsAttached (t.plant s).2
  | .node _ _ rows, s => (keepsAttached_plantEntries rows s).trans (.alloc _ _)

theorem keepsAttached_plantEntries : ∀ (rows : List (String × Values Tree)) (s : Store),
    s.KeepsAttached (plantEntries s rows).2
  | [], s => .refl s
  | (_, .policies children) :: rows, s =>
    (keepsAttached_plantAll children s).trans (keepsAttached_plantEntries rows _)
  | (_, .bools _) :: rows, s => keepsAttached_plantEntries rows s
  | (_, .ints _) :: rows, s => keepsAttached_plantEntries rows s
  | (_, .doubles _) :: rows, s => keepsAttached_plantEntries rows s
  | (_, .strings _) :: rows, s => keepsAttached_plantEntries rows s
  | (_, .files _) :: rows, s => keepsAttached_plantEntries rows s

theorem keepsAttached_plantAll : ∀ (ts : List Tree) (s : Store), s.KeepsAttached (plantAll s ts).2
  | [], s => .refl s
  | t :: ts, s => (keepsAttached_plant t s).trans (keepsAttached_plantAll ts _)

end

end Tree

/-! ## Operations -/

/-- Whether it succeeds or fails, an operation on a state with a store inside leaves the
dictionaries of all policies as they are. -/
def Attachless {σ α : Type} (view : σ → Store) (m : EStateM PolicyError σ α) : Prop :=
  ∀ t, match m t with
    | .ok _ t' => (view t).KeepsAttached (view t')
    | .error _ t' => (view t).KeepsAttached (view t')

namespace Attachless

variable {σ α β : Type} {view : σ → Store} {m : EStateM PolicyError σ α} {t t' : σ}

theorem of_ok (h : Attachless view m) {a : α} (hrun : m t = .ok a t') :
    (view t).KeepsAttached (view t') := by
  have ht := h t
  rwa [hrun] at ht

theorem of_error (h : Attachless view m) {e : PolicyError} (hrun : m t = .error e t') :
    (view t).KeepsAttached (view t') := by
  have ht := h t
  rwa [hrun] at ht

theorem pure (a : α) : Attachless view (Pure.pure a) := fun t => .refl (view t)

theorem throw (e : PolicyError) : Attachless view (MonadExcept.throw e : EStateM PolicyError σ α) :=
  fun t => .refl (view t)

theorem get : Attachless view (MonadState.get : EStateM PolicyError σ σ) := fun t => .refl (view t)

theorem bind {f : α → EStateM PolicyError σ β} (h : Attachless view m)
    (hf : ∀ a, Attachless view (f a)) : Attachless view (m >>= f) := by
  intro t
  cases hm : m t with
  | error e t' =>
    have hrun : (m >>= f) t = .error e t' := by simp only [Bind.bind, EStateM.bind, hm]
    rw [hrun]
    exact h.of_error hm
  | ok a t' =>
    have hrun : (m >>= f) t = f a t' := by simp only [Bind.bind, EStateM.bind, hm]
    rw [hrun]
    cases hfa : f a t' with
    | ok b t'' => exact (h.of_ok hm).trans ((hf a).of_ok hfa)
    | error e t'' => exact (h.of_ok hm).trans ((hf a).of_error hfa)

/-- What depends on the state is judged at that state alone. -/
theorem get_bind {f : σ → EStateM PolicyError σ α} (h : ∀ t, match f t t with
    | .ok _ t' => (view t).KeepsAttached (view t')
    | .error _ t' => (view t).KeepsAttached (view t')) :
    Attachless view (MonadState.get >>= f) :=
  h

end Attachless

abbrev StoreM.Attachless {α : Type} (m : StoreM α) : Prop := PolicyStore.Attachless id m

namespace StoreM

variable {α : Type}

theorem attachless_ask (question : Store → Except PolicyError α) : (StoreM.ask question).Attachless := by
  intro s
  rw [ask]
  cases question s <;> exact .refl s

theorem attachless_lift (result : Except PolicyError α) : (StoreM.lift result).Attachless :=
  attachless_ask _

theorem attachless_modify {f : Store → Store} (h : ∀ s : Store, s.KeepsAttached (f s)) :
    (modify f : StoreM PUnit).Attachless := fun s => h s

theorem attachless_mapError {m : StoreM α} (h : m.Attachless) (f : PolicyError → PolicyError) :
    (StoreM.mapError f m).Attachless := by
  intro s
  unfold StoreM.mapError
  cases hrun : m s with
  | ok a s' => exact h.of_ok hrun
  | error e s' => exact h.of_error hrun

theorem attachless_create (rows : Entries Policy) : (Policy.create rows).Attachless :=
  fun s => .alloc s _

end StoreM

/-! ## Reading texts -/

namespace Paf

abbrev ParseM.Attachless {α : Type} (m : ParseM α) : Prop := PolicyStore.Attachless Session.store m

theorem attachless_modifyParser (f : Parser → Parser) : (ParseM.modifyParser f).Attachless :=
  fun t => .refl t.store

theorem attachless_report (e : ParseError) : (ParseM.report e).Attachless := by
  intro t
  rw [report_run]
  cases t.parser.strict <;> exact .refl t.store

theorem attachless_onStore {α : Type} {action : StoreM α} (h : action.Attachless) :
    (ParseM.onStore action).Attachless := by
  intro t
  unfold ParseM.onStore
  cases hrun : action t.store with
  | ok a s => exact h.of_ok hrun
  | error e s => exact h.of_error hrun

theorem attachless_addValue (p : Policy) (name : String) (line : Nat) (v : Value Policy) :
    (addValue p name line v).Attachless := by
  intro t
  cases hadd : t.store.add p name v with
  | ok s =>
    rw [addValue_of_add line hadd]
    exact .add hadd
  | error e =>
    have hrefuse : (refuse line e).Attachless := by
      unfold refuse
      split
      · exact (attachless_report _).bind fun _ => .pure _
      · exact .throw e
    rw [addValue_of_error hadd]
    exact hrefuse t

theorem attachless_addItems (p : Policy) (name : String) (items : List Item) :
    (addItems p name items).Attachless := by
  induction items with
  | nil => exact .pure _
  | cons item items ih =>
    have hitem : (addItem p name item).Attachless := by
      cases item with
      | value line v => exact attachless_addValue _ _ _ _
      | fault e => exact (attachless_report e).bind fun _ => .pure _
    exact hitem.bind fun _ => ih.bind fun _ => .pure _

theorem attachless_run (statements : List Statement) : ∀ (inner : Block) (outer : List Block),
    (run inner outer statements).Attachless := by
  induction statements with
  | nil => exact fun _ _ => .pure _
  | cons statement rest ih =>
    intro inner outer
    cases statement with
    | fault e => exact (attachless_report e).bind fun _ => ih _ _
    | values name items => exact (attachless_addItems _ _ _).bind fun _ => ih _ _
    | opening line name =>
      exact (attachless_modifyParser _).bind fun _ =>
        (attachless_onStore (StoreM.attachless_create [])).bind fun _ =>
          (attachless_addValue _ _ _ _).bind fun _ => ih _ _
    | closing line followed =>
      refine Attachless.get.bind fun t => ?_
      split
      · exact (attachless_report _).bind fun _ => ih _ _
      · refine (attachless_modifyParser _).bind fun _ => ?_
        split
        · exact .pure _
        · exact ih _ _
    | unreadable => exact .throw _

theorem attachless_parse (target : Policy) (lines : List Line) : (parse target lines).Attachless := by
  refine (attachless_run _ _ _).bind fun outcome => Attachless.get.bind fun t => ?_
  dsimp only
  split
  · exact (attachless_modifyParser _).bind fun _ => (attachless_report _).bind fun _ => .pure _
  · exact .pure _

theorem attachless_parseFresh (strict : Bool) (target : Policy) (lines : List Line) :
    (parseFresh strict target lines).Attachless := by
  intro s
  unfold parseFresh
  cases hrun : parse target lines ⟨s, { strict := strict }⟩ with
  | ok n t => exact (attachless_parse target lines).of_ok hrun
  | error e t => exact (attachless_parse target lines).of_error hrun

end Paf

namespace Policy

theorem attachless_loadText (p : Policy) (strict : Bool) (text : String) :
    (p.loadText strict text).Attachless := by
  refine (StoreM.attachless_lift _).bind fun format => ?_
  cases format
  exact Paf.attachless_parseFresh strict p _

theorem attachless_loadFile (p : Policy) (fs : FileSystem) (strict : Bool) (f : FileRef) :
    (p.loadFile fs strict f).Attachless :=
  (StoreM.attachless_lift _).bind fun _ =>
    StoreM.attachless_mapError (p.attachless_loadText strict _) _

theorem attachless_ofFile (fs : FileSystem) (strict : Bool) (f : FileRef) :
    (ofFile fs strict f).Attachless :=
  (StoreM.attachless_create []).bind fun p =>
    (p.attachless_loadFile fs strict f).bind fun _ => .pure _

end Policy

/-! ## Including files -/

namespace Include

variable {replace : FileRef → StoreM (Policy × Nat)} (hreplace : ∀ f, (replace f).Attachless)

theorem attachless_sumOver {action : Policy → StoreM Nat} (h : ∀ q, (action q).Attachless)
    (ps : List Policy) : (sumOver action ps).Attachless := by
  induction ps with
  | nil => exact .pure _
  | cons q ps ih => exact (h q).bind fun _ => ih.bind fun _ => .pure _

include hreplace

theorem attachless_replacements (fs : List FileRef) : (replacements replace fs).Attachless := by
  induction fs with
  | nil => exact .pure _
  | cons f fs ih => exact (hreplace f).bind fun _ => ih.bind fun _ => .pure _

theorem attachless_replaceArrays (p : Policy) (arrays : List (String × List FileRef)) :
    (replaceArrays replace p arrays).Attachless := by
  induction arrays with
  | nil => exact .pure _
  | cons array arrays ih =>
    exact (attachless_replacements hreplace array.2).bind fun _ =>
      (StoreM.attachless_modify fun s => .setEntries s p _).bind fun _ => ih.bind fun _ => .pure _

theorem attachless_resolveBelow (depth : Nat) : ∀ p : Policy,
    (resolveBelow replace depth p).Attachless := by
  induction depth with
  | zero => exact fun _ => .pure _
  | succ depth ih =>
    exact fun p => Attachless.get.bind fun _ =>
      (attachless_replaceArrays hreplace p _).bind fun _ => Attachless.get.bind fun _ =>
        (attachless_sumOver ih _).bind fun _ => .pure _

omit hreplace

theorem attachless_open? (cfg : Settings) (inner : Option Resolver) (chain : List String)
    (path key : String) : (open? cfg inner chain path key).Attachless := by
  unfold open?
  split
  · exact .throw _
  · exact Policy.attachless_ofFile _ _ _

/-- A replacement opens a file and resolves what the file refers to. -/
theorem attachless_replacement (cfg : Settings) {inner : Option Resolver}
    (hinner : ∀ resolve ∈ inner, ∀ chain p, (resolve chain p).Attachless) (chain : List String)
    (f : FileRef) : (replacement cfg inner chain f).Attachless := by
  intro s
  have hopen := attachless_open? cfg inner chain (f.resolve cfg.repository)
    (cfg.files.canonical (f.resolve cfg.repository))
  unfold replacement
  dsimp only
  cases hrun : open? cfg inner chain (f.resolve cfg.repository)
      (cfg.files.canonical (f.resolve cfg.repository)) s with
  | error e s₁ =>
    have hkeeps := hopen.of_error hrun
    cases cfg.strict with
    | true => cases inner <;> exact hkeeps
    | false => cases inner <;> exact hkeeps.trans (.alloc s₁ _)
  | ok p s₁ =>
    have hkeeps := hopen.of_ok hrun
    cases inner with
    | none => exact hkeeps
    | some resolve =>
      have hresolve := hinner resolve rfl (cfg.files.canonical (f.resolve cfg.repository) :: chain) p
      dsimp only
      cases hnested : resolve (cfg.files.canonical (f.resolve cfg.repository) :: chain) p s₁ with
      | ok n s₂ => exact hkeeps.trans (hresolve.of_ok hnested)
      | error e s₂ => exact hkeeps.trans (hresolve.of_error hnested)

theorem attachless_resolve (cfg : Settings) (room : Nat) : ∀ (chain : List String) (p : Policy),
    (resolve cfg room chain p).Attachless := by
  induction room with
  | zero =>
    exact fun chain p => Attachless.get.bind fun s =>
      attachless_resolveBelow
        (attachless_replacement cfg (fun _ hresolve => by cases hresolve) chain) s.size p
  | succ room ih =>
    refine fun chain p => Attachless.get.bind fun s =>
      attachless_resolveBelow (attachless_replacement cfg (fun resolve hresolve => ?_) chain) s.size p
    obtain rfl := Option.some.inj hresolve
    exact ih

end Include

theorem Policy.attachless_includeFiles (p : Policy) (cfg : Include.Settings) :
    (p.includeFiles cfg).Attachless :=
  Include.attachless_resolve cfg Include.maxDepth [] p

/-! ## Merging defaults -/

theorem Policy.attachless_deepCopy (p : Policy) : p.deepCopy.Attachless :=
  fun s => (s.tree p).keepsAttached_plant s

theorem Values.attachless_deepCopy (vs : Values Policy) : vs.deepCopy.Attachless := by
  cases vs with
  | policies ps =>
    have hall : StoreM.Attachless (ps.mapM Policy.deepCopy) := by
      induction ps with
      | nil => exact .pure _
      | cons p ps ih =>
        rw [List.mapM_cons]
        exact p.attachless_deepCopy.bind fun _ => ih.bind fun _ => .pure _
    exact hall.bind fun _ => .pure _
  | _ => exact .pure _

namespace Policy

/-- An extraction that is not asked to attach the dictionary does not. -/
theorem attachless_ofDefaults (d : Dictionary) (acc : Option Report) :
    (ofDefaults d false acc).Attachless := by
  refine Attachless.get.bind fun s => (StoreM.attachless_lift _).bind fun acc => ?_
  refine Attachless.bind (fun t => ?_) fun p => Attachless.pure (p, acc)
  exact (Tree.fresh (s.schema d).defaults.entries).keepsAttached_plant t

theorem attachless_mergeName (p source : Policy) (name : String) :
    (p.mergeName source name).Attachless := by
  refine Attachless.get.bind fun s => ?_
  split
  · exact .pure _
  · refine (StoreM.attachless_ask _).bind fun values => values.attachless_deepCopy.bind fun copy => ?_
    refine Attachless.get_bind fun s₁ => ?_
    cases hput : s₁.put p name copy with
    | ok s' => exact .put hput
    | error e =>
      dsimp only
      cases e.isTypeError <;> exact .refl s₁

theorem attachless_mergeNames (p source : Policy) (names : List String) :
    (p.mergeNames source names).Attachless := by
  induction names with
  | nil => exact .pure _
  | cons name names ih =>
    exact (p.attachless_mergeName source name).bind fun _ => ih.bind fun _ => .pure _

end Policy

end PolicyStore
