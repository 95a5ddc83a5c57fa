import PolicyStore.Proofs.Paf.Raising
import PolicyStore.Proofs.Store.Zones

set_option autoImplicit false

namespace PolicyStore

/-!
# Operations that keep to a zone

What is read into a policy stays in every zone that the policy belongs to. This holds of failing
operations as well, for they leave the store as it was when the failure arose.
-/

variable {α β : Type} {zone : Policy → Prop} {s s' : Store} {p : Policy} {P : α → Store → Prop}
  {Q : β → Store → Prop}

/-- Whether it succeeds or fails, an operation on a state with a store inside changes the zone alone. -/
def Confined {σ : Type} (view : σ → Store) (m : EStateM PolicyError σ α) (zone : Policy → Prop) (t : σ)
    (P : α → σ → Prop) : Prop :=
  match m t with
  | .ok a t' => Store.Edits zone (view t) (view t') ∧ P a t'
  | .error _ t' => Store.Edits zone (view t) (view t')

namespace Confined

variable {σ : Type} {view : σ → Store} {t t' : σ} {m : EStateM PolicyError σ α} {P : α → σ → Prop}
  {Q : β → σ → Prop}

theorem of_ok {a : α} (h : Confined view m zone t P) (hrun : m t = .ok a t') :
    Store.Edits zone (view t) (view t') ∧ P a t' := by
  unfold Confined at h
  rw [hrun] at h
  exact h

theorem of_error {e : PolicyError} (h : Confined view m zone t P) (hrun : m t = .error e t') :
    Store.Edits zone (view t) (view t') := by
  unfold Confined at h
  rw [hrun] at h
  exact h

theorem ok {a : α} (hrun : m t = .ok a t') (h : Store.Edits zone (view t) (view t')) (hP : P a t') :
    Confined view m zone t P := by
  unfold Confined
  rw [hrun]
  exact ⟨h, hP⟩

theorem error {e : PolicyError} (hrun : m t = .error e t') (h : Store.Edits zone (view t) (view t')) :
    Confined view m zone t P := by
  unfold Confined
  rw [hrun]
  exact h

theorem pure {a : α} (h : (view t).Zoned zone) (hP : P a t) : Confined view (Pure.pure a) zone t P :=
  ok rfl (.refl h) hP

theorem throw (h : (view t).Zoned zone) (e : PolicyError) :
    Confined view (MonadExcept.throw e) zone t P :=
  error rfl (.refl h)

theorem bind {f : α → EStateM PolicyError σ β} (h : Confined view m zone t P)
    (hf : ∀ a t', Store.Edits zone (view t) (view t') → P a t' → Confined view (f a) zone t' Q) :
    Confined view (m >>= f) zone t Q := by
  cases hm : m t with
  | error e t' =>
    have hrun : (m >>= f) t = .error e t' := by simp only [Bind.bind, EStateM.bind, hm]
    exact error hrun (h.of_error hm)
  | ok a t' =>
    obtain ⟨hedits, ha⟩ := h.of_ok hm
    have hrest := hf a t' hedits ha
    have hrun : (m >>= f) t = f a t' := by simp only [Bind.bind, EStateM.bind, hm]
    cases hfa : f a t' with
    | ok b t'' =>
      obtain ⟨hedits', hb⟩ := hrest.of_ok hfa
      exact ok (hrun.trans hfa) (hedits.trans hedits') hb
    | error e t'' => exact error (hrun.trans hfa) (hedits.trans (hrest.of_error hfa))

theorem get_bind {f : σ → EStateM PolicyError σ β} (h : Confined view (f t) zone t Q) :
    Confined view (get >>= f) zone t Q := h

end Confined

abbrev StoreM.Edits (m : StoreM α) (zone : Policy → Prop) (s : Store) (P : α → Store → Prop) : Prop :=
  Confined id m zone s P

namespace StoreM.Edits

variable {m : StoreM α}

theorem after (h : m.Edits zone s P) : Store.Edits zone s (m.after s) := by
  unfold StoreM.after
  cases hm : m s with
  | ok a s' => exact (h.of_ok hm).1
  | error e s' => exact h.of_error hm

theorem modify_bind {g : Store → Store} {f : Unit → StoreM β} (h : Store.Edits zone s (g s))
    (hf : (f ()).Edits zone (g s) Q) : ((modify g : StoreM PUnit) >>= f).Edits zone s Q := by
  have hmodify : StoreM.Edits (modify g : StoreM PUnit) zone s fun _ t => t = g s :=
    Confined.ok rfl h rfl
  exact hmodify.bind fun _ t _ ht => ht ▸ hf

theorem ask {question : Store → Except PolicyError α} (h : s.Zoned zone)
    (hP : ∀ a, question s = .ok a → P a s) : (StoreM.ask question).Edits zone s P := by
  cases hq : question s with
  | ok a => exact Confined.ok (by rw [StoreM.ask, hq]) (.refl h) (hP a hq)
  | error e => exact Confined.error (by rw [StoreM.ask, hq]) (.refl h)

theorem lift {result : Except PolicyError α} (h : s.Zoned zone) :
    (StoreM.lift result).Edits zone s fun a _ => result = .ok a :=
  ask h fun _ ha => ha

theorem update {f : Store → Except PolicyError Store} (h : s.Zoned zone)
    (hf : ∀ s', f s = .ok s' → Store.Edits zone s s') :
    (StoreM.update f).Edits zone s fun _ _ => True := by
  cases hfs : f s with
  | ok s' => exact Confined.ok (by rw [StoreM.update, hfs]) (hf s' hfs) trivial
  | error e => exact Confined.error (by rw [StoreM.update, hfs]) (.refl h)

theorem mapError (h : m.Edits zone s P) (f : PolicyError → PolicyError) :
    (StoreM.mapError f m).Edits zone s P := by
  cases hm : m s with
  | ok a s' => exact Confined.ok (by rw [StoreM.mapError, hm]) (h.of_ok hm).1 (h.of_ok hm).2
  | error e s' => exact Confined.error (by rw [StoreM.mapError, hm]) (h.of_error hm)

end StoreM.Edits

/-! ## Operations on one policy -/

section Policies

variable (h : s.Zoned zone)

include h

theorem Policy.edits_create {rows : Entries Policy} (hrows : Entries.Proper rows)
    (hbelow : ∀ c ∈ rows.flatMap fun row => row.2.children, s.Inner zone c) :
    (Policy.create rows).Edits zone s fun q s' => s'.Inner zone q :=
  Confined.ok rfl (h.alloc hrows hbelow) (h.inner_alloc _)

/-- A new policy without rows is in the zone, like all new ones. -/
theorem Policy.edits_create_nil : (Policy.create []).Edits zone s fun q s' => s'.Inner zone q :=
  edits_create h .nil nofun

theorem Policy.edits_attach (hp : zone p) (d : Dictionary) :
    (p.attach d).Edits zone s fun _ _ => True :=
  Confined.ok rfl (h.setDictionary hp d) trivial

theorem Policy.edits_remove (hp : zone p) (name : String) :
    (p.remove name).Edits zone s fun _ _ => True := by
  cases hremove : s.remove p name with
  | ok result => exact Confined.ok (by rw [Policy.remove, hremove]) (h.remove hp hremove) trivial
  | error e => exact Confined.error (by rw [Policy.remove, hremove]) (.refl h)

theorem Policy.edits_set (hp : zone p) {v : Value Policy} (hv : ∀ c, v = .policy c → s.Inner zone c)
    (name : String) : (p.set name v).Edits zone s fun _ _ => True :=
  .update h fun _ hset => h.set hp hv hset

theorem Policy.edits_add (hp : zone p) {v : Value Policy} (hv : ∀ c, v = .policy c → s.Inner zone c)
    (name : String) : (p.add name v).Edits zone s fun _ _ => True :=
  .update h fun _ hadd => h.add hp hv hadd

end Policies

/-! ## Reading texts -/

namespace Paf

abbrev ParseM.Edits (m : ParseM α) (zone : Policy → Prop) (t : Session) (P : α → Session → Prop) :
    Prop :=
  Confined Session.store m zone t P

variable {t : Session}

theorem ParseM.Edits.after {m : ParseM α} {P : α → Session → Prop} (h : m.Edits zone t P) :
    Store.Edits zone t.store (Paf.after m t).store := by
  unfold Paf.after
  cases hm : m t with
  | ok a t' => exact (h.of_ok hm).1
  | error e t' => exact h.of_error hm

section Operations

variable (h : t.store.Zoned zone)

include h

theorem edits_modifyParser (f : Parser → Parser) :
    (ParseM.modifyParser f).Edits zone t fun _ _ => True :=
  Confined.ok rfl (.refl h) trivial

theorem edits_report (e : ParseError) : (ParseM.report e).Edits zone t fun _ _ => True := by
  unfold ParseM.report
  refine Confined.get_bind ?_
  split
  · exact Confined.throw h _
  · exact edits_modifyParser h _

omit h in
theorem edits_onStore {m : StoreM α} {P : α → Store → Prop} (h : m.Edits zone t.store P) :
    (ParseM.onStore m).Edits zone t fun a t' => P a t'.store := by
  cases hm : m t.store with
  | ok a s' =>
    have hrun : ParseM.onStore m t = .ok a { t with store := s' } := by rw [ParseM.onStore, hm]
    exact Confined.ok hrun (h.of_ok hm).1 (h.of_ok hm).2
  | error e s' =>
    have hrun : ParseM.onStore m t = .error e { t with store := s' } := by rw [ParseM.onStore, hm]
    exact Confined.error hrun (h.of_error hm)

theorem edits_addValue (hp : zone p) {v : Value Policy}
    (hv : ∀ c, v = .policy c → t.store.Inner zone c) (name : String) (line : Nat) :
    (addValue p name line v).Edits zone t fun _ _ => True := by
  unfold addValue
  refine Confined.get_bind ?_
  cases hadd : t.store.add p name v with
  | ok s' => exact Confined.ok rfl (h.add hp hv hadd) trivial
  | error e =>
    simp only
    split
    · refine (edits_report h _).bind fun _ t' hedits _ => ?_
      exact Confined.pure hedits.toZoned trivial
    · exact Confined.throw h e

theorem edits_addItem (hp : zone p) (name : String) (item : Item) :
    (addItem p name item).Edits zone t fun _ _ => True := by
  cases item with
  | value line v =>
    refine edits_addValue h hp (fun c hc => ?_) name line
    cases v with
    | policy q => exact q.elim
    | _ => cases hc
  | fault e =>
    refine (edits_report h e).bind fun _ t' hedits _ => ?_
    exact Confined.pure hedits.toZoned trivial

end Operations

theorem edits_addItems (hp : zone p) (name : String) (items : List Item) : ∀ {t : Session},
    t.store.Zoned zone → (addItems p name items).Edits zone t fun _ _ => True := by
  induction items with
  | nil => exact fun h => Confined.pure h trivial
  | cons item items ih =>
    intro t h
    refine (edits_addItem h hp name item).bind fun first t' hedits _ => ?_
    refine (ih hedits.toZoned).bind fun others t'' hedits' _ => ?_
    exact Confined.pure hedits'.toZoned trivial

/-- A run keeps to the zone of its open blocks. -/
theorem edits_run (statements : List Statement) : ∀ {inner : Block} {outer : List Block} {t : Session},
    t.store.Zoned zone → (∀ b ∈ inner :: outer, zone b.policy) →
      (run inner outer statements).Edits zone t fun _ _ => True := by
  induction statements with
  | nil => exact fun h _ => Confined.pure h trivial
  | cons statement rest ih =>
    intro inner outer t h hblocks
    have hinner := hblocks inner List.mem_cons_self
    cases statement with
    | fault e => exact (edits_report h e).bind fun _ t' hedits _ => ih hedits.toZoned hblocks
    | values name items =>
      refine (edits_addItems hinner name items h).bind fun added t' hedits _ => ?_
      refine ih hedits.toZoned fun b hb => ?_
      rcases List.mem_cons.mp hb with rfl | hb
      · exact hinner
      · exact hblocks b (List.mem_cons_of_mem _ hb)
    | opening line name =>
      refine (edits_modifyParser h _).bind fun _ t₁ h₁ _ => ?_
      refine (edits_onStore (Policy.edits_create_nil h₁.toZoned)).bind fun sub t₂ h₂ hsub => ?_
      have hv : ∀ c, Value.policy sub = .policy c → t₂.store.Inner zone c := by
        rintro c ⟨⟩
        exact hsub
      refine (edits_addValue h₂.toZoned hinner hv name line).bind fun attached t₃ h₃ _ => ?_
      refine ih h₃.toZoned fun b hb => ?_
      · rcases List.mem_cons.mp hb with rfl | hb
        · exact hsub.1
        · exact hblocks b hb
    | closing line followed =>
      refine Confined.get_bind ?_
      split
      · exact (edits_report h _).bind fun _ t' hedits _ => ih hedits.toZoned hblocks
      · refine (edits_modifyParser h _).bind fun _ t' hedits _ => ?_
        cases outer with
        | nil => exact Confined.pure hedits.toZoned trivial
        | cons enclosing others =>
          refine ih hedits.toZoned fun b hb => ?_
          rcases List.mem_cons.mp hb with rfl | hb
          · exact hblocks enclosing (List.mem_cons_of_mem _ List.mem_cons_self)
          · exact hblocks b (List.mem_cons_of_mem _ (List.mem_cons_of_mem _ hb))
    | unreadable => exact Confined.throw h _

theorem edits_parse (h : t.store.Zoned zone) (hp : zone p) (lines : List Line) :
    (parse p lines).Edits zone t fun _ _ => True := by
  unfold parse
  refine (edits_run _ h fun b hb => ?_).bind fun outcome t' hedits _ => Confined.get_bind ?_
  · rw [List.mem_singleton.mp hb]
    exact hp
  · simp only
    split
    · refine (edits_modifyParser hedits.toZoned _).bind fun _ t₁ h₁ _ => ?_
      refine (edits_report h₁.toZoned _).bind fun _ t₂ h₂ _ => ?_
      exact Confined.pure h₂.toZoned trivial
    · exact Confined.pure hedits.toZoned trivial

end Paf

/-! ## Reading files -/

theorem Paf.edits_parseFresh (h : s.Zoned zone) (hp : zone p) (strict : Bool) (lines : List Paf.Line) :
    (Paf.parseFresh strict p lines).Edits zone s fun _ _ => True := by
  have hparse := Paf.edits_parse (t := ⟨s, { strict := strict }⟩) h hp lines
  cases hrun : Paf.parse p lines ⟨s, { strict := strict }⟩ with
  | ok n t => exact Confined.ok (by rw [Paf.parseFresh, hrun]) (hparse.of_ok hrun).1 trivial
  | error e t => exact Confined.error (by rw [Paf.parseFresh, hrun]) (hparse.of_error hrun)

namespace Policy

theorem edits_loadText (h : s.Zoned zone) (hp : zone p) (strict : Bool) (text : String) :
    (p.loadText strict text).Edits zone s fun _ _ => True := by
  refine (StoreM.Edits.lift h).bind fun format s' hedits _ => ?_
  cases format
  exact Paf.edits_parseFresh hedits.toZoned hp strict _

theorem edits_loadFile (h : s.Zoned zone) (hp : zone p) (fs : FileSystem) (strict : Bool) (f : FileRef) :
    (p.loadFile fs strict f).Edits zone s fun _ _ => True :=
  (StoreM.Edits.lift h).bind fun _ _ hedits _ =>
    (edits_loadText hedits.toZoned hp strict _).mapError _

theorem edits_ofFile (h : s.Zoned zone) (fs : FileSystem) (strict : Bool) (f : FileRef) :
    (ofFile fs strict f).Edits zone s fun q s' => s'.Inner zone q := by
  refine (edits_create_nil h).bind fun q s₁ h₁ hq => ?_
  refine (edits_loadFile h₁.toZoned hq.1 fs strict f).bind fun _ s₂ h₂ _ => ?_
  exact Confined.pure h₂.toZoned (hq.mono h₂.size_le)

end Policy

end PolicyStore
