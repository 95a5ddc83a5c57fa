import PolicyStore.Proofs.Dictionary.Levels
import PolicyStore.Proofs.Store.Zones

set_option autoImplicit false

namespace PolicyStore

/-!
# How deeply dictionary files may nest

Loading succeeds exactly if no chain of names of files is longer than the greatest depth, whether
files go round in a circle or not. It then includes all files of the unfolding, and leaves nothing
to be loaded.
-/

/-! ## A text on top of a store -/

/-- A text that is read on top of a store adds policies of their own to it. -/
theorem ofText_above {base s : Store} {strict : Bool} {text : String} {p : Policy}
    (h : Policy.ofText strict text base = .ok p s) :
    ∃ own : Store, own.Tidy ∧ 0 < own.size ∧ p = (⟨0⟩ : Policy).raise base.size ∧
      s = base.above own := by
  obtain ⟨q, s₁, hcreate, h⟩ := StoreM.bind_eq_ok h
  obtain ⟨n, s₂, hload, h⟩ := StoreM.bind_eq_ok h
  cases h
  cases hcreate
  obtain ⟨format, s₃, hformat, hparse⟩ := StoreM.bind_eq_ok hload
  cases format
  have hformat : (base.alloc {}).2 = s₃ := by
    unfold StoreM.lift StoreM.ask at hformat
    cases hf : formatOf text with
    | error e =>
      rw [hf] at hformat
      cases hformat
    | ok found =>
      rw [hf] at hformat
      cases hformat
      rfl
  subst hformat
  obtain ⟨hraised, htidy, hsize⟩ := parseFresh_above base (p := ⟨0⟩) tidy_first Nat.zero_lt_one
    strict (Paf.linesOfText text)
  change Paf.parseFresh strict (base.alloc {}).1 (Paf.linesOfText text) (base.alloc {}).2 =
    .ok n s at hparse
  rw [first_above, hraised] at hparse
  unfold StoreM.after at htidy hsize
  cases hown : Paf.parseFresh strict ⟨0⟩ (Paf.linesOfText text) (Store.empty.alloc {}).2 with
  | error e own =>
    rw [hown] at hparse
    cases hparse
  | ok m own =>
    rw [hown] at hparse htidy hsize
    cases hparse
    exact ⟨own, htidy, hsize, congrArg Prod.fst (first_above base), rfl⟩

namespace Dictionary

open Include (Settings)

variable {cfg : Settings} {P : String → Prop} {s₀ s s' : Store} {rows : Entries Policy}
  {d d' : Dictionary} {p b c q : Policy} {text path : String} {n : Nat}

/-- No policy below a dictionary has a dictionary of its own. -/
def Plain (s : Store) (rows : Entries Policy) : Prop :=
  ∀ c ∈ rows.flatMap fun row => row.2.children, ∀ q, s.Reaches c q → s.dictionary? q = none

theorem sound_of_ofText (hs : s₀.Proper) (h : ofText text s₀ = .ok d s) :
    d.Sound s ∧ Plain s d.entries := by
  obtain ⟨r, s₁, hread, hlayout⟩ := StoreM.bind_eq_ok h
  obtain ⟨own, htidy, hsize, rfl, rfl⟩ := ofText_above hread
  have hrows : d.entries = (s₀.above own).entries ((⟨0⟩ : Policy).raise s₀.size) ∧
      s = s₀.above own := by
    unfold ofPolicy StoreM.ask ofEntries? at hlayout
    cases hfound : Schema.requireLayout ((s₀.above own).entries ((⟨0⟩ : Policy).raise s₀.size)) with
    | ok _ =>
      simp only [hfound] at hlayout
      cases hlayout
      exact ⟨rfl, rfl⟩
    | error fault =>
      simp only [hfound] at hlayout
      cases hlayout
  obtain ⟨hrows, rfl⟩ := hrows
  have hwell := hs.wellFormed.above htidy.toWellFormed
  have hfull := hs.full.above htidy.full
  have hbelow {c : Policy} (hc : c ∈ d.entries.flatMap fun row => row.2.children) :
      c ∈ (s₀.above own).below ((⟨0⟩ : Policy).raise s₀.size) := by
    rw [hrows] at hc
    exact hc
  refine ⟨⟨hwell, ⟨fun c hc => hwell.closed _ c (hbelow hc), fun c hc => ?_⟩, hfull, ?_, ?_⟩,
    fun c hc q hq => ?_⟩
  · obtain ⟨n, hn⟩ := htidy.founded ⟨0⟩
    exact ⟨n, (Store.within_above_raise hn).of_mem_below (hbelow hc)⟩
  · rw [hrows]
    exact hwell.sorted _
  · rw [hrows]
    exact hfull _
  · obtain ⟨r, rfl, _⟩ := Store.reaches_above_raise_iff.mp (hq.head (hbelow hc))
    rw [Store.dictionary?_above_raise, htidy.plain]

/-! ## The policy that is loaded -/

section Alloc

variable (h : d.Sound s)

include h

theorem Sound.reaches_alloc (hq : (s.alloc { entries := d.entries }).2.Reaches ⟨s.size⟩ q) :
    q = ⟨s.size⟩ ∨ q.id < s.size ∧ ∃ c ∈ d.entries.flatMap fun row => row.2.children,
      s.Reaches c q := by
  rcases Relation.ReflTransGen.cases_head hq with rfl | ⟨c, hc, hreach⟩
  · exact Or.inl rfl
  · rw [Store.below, entries_alloc_self] at hc
    obtain ⟨hreach, hlt⟩ := Store.reaches_congr (P := fun q => q.id < s.size)
      (fun q _ c hc => h.closed q c hc) (fun q hq => entries_alloc s _ hq) (h.lt_size c hc) hreach
    exact Or.inr ⟨hlt, c, hc, hreach⟩

theorem Sound.names_alloc (cfg : Settings) :
    names cfg (s.alloc { entries := d.entries }).2 d.entries = names cfg s d.entries := by
  have hblocks : blocksBelow (s.alloc { entries := d.entries }).2 d.entries =
      blocksBelow s d.entries := by
    ext b
    rw [mem_blocksBelow_iff, mem_blocksBelow_iff, h.isBlock_alloc_iff, Store.size_alloc]
    exact and_congr_left fun hb => ⟨fun _ => h.lt_of_isBlock hb, fun hlt => Nat.lt_succ_of_lt hlt⟩
  rw [names, names, gather, gather, hblocks]
  refine Finset.sum_congr rfl fun b hb => ?_
  rw [entries_alloc s _ (mem_blocksBelow_iff.mp hb).1]

theorem Sound.inner_alloc {inner : Entries Policy}
    (hinner : Inner (s.alloc { entries := d.entries }).2 d.entries inner) :
    Inner s d.entries inner ∧ ∀ c ∈ inner.flatMap fun row => row.2.children, c.id < s.size := by
  rcases hinner with rfl | ⟨a, sub, ha, hsub, rfl⟩
  · exact ⟨Or.inl rfl, h.lt_size⟩
  · rw [h.isBlock_alloc_iff] at ha
    have hlt := h.lt_of_isBlock ha
    rw [entries_alloc s _ hlt] at hsub
    have hsub_lt := h.closed a sub (Entries.mem_of_child? hsub)
    rw [entries_alloc s _ hsub_lt]
    exact ⟨Or.inr ⟨a, sub, ha, hsub, rfl⟩, h.closed sub⟩

/-- A dictionary that refers to files by names in its blocks only is ready for the first round. -/
theorem Sound.rested (hplain : Plain s d.entries) (honly : OnlyNames s d.entries)
    (hfiles : ∀ path ∈ names cfg s d.entries, P path) :
    Rested cfg P ⟨s.size⟩ (s.alloc { entries := d.entries }).2 := by
  have hground := h.grounded
  have hself := entries_alloc_self s d
  have hclean : (s.alloc { entries := d.entries }).2.Clean ⟨s.size⟩ := by
    intro q hq
    rcases h.reaches_alloc hq with rfl | ⟨hlt, c, hc, hreach⟩
    · rw [hself]
      exact honly.references
    · rw [entries_alloc s _ hlt]
      exact honly.clean c hc q hreach
  refine ⟨⟨hground.toWellFormed, hground.full, hground.lt_size, fun q hq => ?_,
    fun q hq key fs hrow => ?_, fun b hb names hnames => ?_, fun inner c hinner hc => ?_, ?_⟩,
    hground, hclean⟩
  · rcases h.reaches_alloc hq with rfl | ⟨hlt, c, hc, hreach⟩
    · rw [Store.dictionary?, Store.node_alloc, if_pos rfl]
    · rw [Store.dictionary?, Store.node_alloc_of_lt hlt]
      exact hplain c hc q hreach
  · have hmem := Include.mem_references_iff.mpr hrow
    rw [hclean q hq] at hmem
    cases hmem
  · rw [hself, h.isBlock_alloc_iff] at hb
    rw [entries_alloc s _ (h.lt_of_isBlock hb)] at hnames
    exact honly.texts b hb names hnames
  · rw [hself] at hinner
    obtain ⟨hold, hlt⟩ := h.inner_alloc hinner
    have hc_lt := hlt c (Entries.mem_of_child? hc)
    have hreach : (s.alloc { entries := d.entries }).2.Reaches ⟨s.size⟩ c := by
      refine Inner.reaches ?_ hground.toWellFormed (Entries.mem_of_child? hc)
      rw [hself]
      exact hinner
    refine ⟨hclean c hreach, fun names hnames => ?_⟩
    rw [entries_alloc s _ hc_lt] at hnames
    exact honly.definitions inner c hold hc names hnames
  · rw [hself, h.names_alloc]
    exact hfiles

end Alloc

/-! ## After the last round -/

namespace Rested

variable (h : Rested cfg P p s)

include h

theorem sound : Sound s ⟨s.entries p⟩ where
  toWellFormed := h.grounded.toWellFormed
  lt_size := h.grounded.closed p
  founded c hc := by
    obtain ⟨n, hn⟩ := h.grounded.founded
    exact ⟨n, hn.of_mem_below hc⟩
  full := h.grounded.full
  sorted_entries := h.grounded.sorted p
  full_entries := h.grounded.full p

theorem plain : Plain s (s.entries p) :=
  fun _ hc q hq => h.prepared.plain q (hq.head hc)

theorem onlyNames : OnlyNames s (s.entries p) where
  references := h.clean p .refl
  clean _ hc q hq := h.clean q (hq.head hc)
  texts := h.prepared.texts
  definitions inner _ hinner hc := (h.prepared.definitions inner _ hinner hc).2

theorem not_pending (hnone : names cfg s (s.entries p) = 0) (hb : IsBlock s (s.entries p) b) :
    ¬Pending (s.entries b) := by
  intro hpending
  obtain ⟨f, hnames⟩ := exists_namesFile (h.grounded.full b) hpending (h.prepared.texts b hb)
  have hzero := (gather_eq_zero_iff fun b hb => h.prepared.lt_of_isBlock hb).mp hnone b hb
  rw [h.prepared.named_eq hb hnames] at hzero
  exact Multiset.singleton_ne_zero _ hzero

/-- Loading once more does nothing. -/
theorem again (hnone : names cfg s (s.entries p) = 0) (cfg' : Settings) :
    (⟨s.entries p⟩ : Dictionary).loadFiles cfg' s =
      .ok (⟨s.entries p⟩, .ok 0) (s.alloc { entries := s.entries p }).2 := by
  have hnone' : names cfg' s (s.entries p) = 0 :=
    gather_eq_zero fun b hb => named_of_not_pending (h.not_pending hnone hb)
  have hrested : Rested cfg' (fun _ => True) ⟨s.size⟩ (s.alloc { entries := s.entries p }).2 :=
    h.sound.rested h.plain h.onlyNames fun _ _ => trivial
  obtain ⟨s₁, hturn, hturns, _⟩ := hrested.prepared.turnFiles hrested.grounded
  have hself : (s.alloc { entries := s.entries p }).2.entries ⟨s.size⟩ = s.entries p :=
    Sound.entries_alloc_self s ⟨s.entries p⟩
  have hcount : names cfg' (s.alloc { entries := s.entries p }).2
      ((s.alloc { entries := s.entries p }).2.entries ⟨s.size⟩) = 0 := by
    rw [hself]
    exact (h.sound.names_alloc cfg').trans hnone'
  rw [hcount] at hturn hturns
  cases hturns.eq_of_zero
  rw [loadFiles_eq, loadRounds_succ hturn (Include.includeFiles_of_clean hrested.clean)]
  simp only [Multiset.card_zero, if_pos, hself]

end Rested

/-! ## Chains of names -/

theorem mem_level_succ {next : String} : ∀ {paths : Multiset String}, path ∈ level cfg paths n →
    next ∈ namesIn cfg path → next ∈ level cfg paths (n + 1) := by
  induction n with
  | zero => exact fun h hnext => Multiset.mem_bind.mpr ⟨path, h, hnext⟩
  | succ n ih => exact fun h hnext => ih h hnext

/-- Loading a sound dictionary that refers to files by names in its blocks only. -/
theorem Sound.loadFiles (h : d.Sound s) (hplain : Plain s d.entries)
    (honly : OnlyNames s d.entries)
    (hfiles : ∀ n, ∀ path ∈ level cfg (names cfg s d.entries) n, NamesOnly cfg path) :
    (level cfg (names cfg s d.entries) maxDepth = 0 → ∃ d' tried s',
      d.loadFiles cfg s = .ok (d', .ok tried) s' ∧ Unfolds cfg (names cfg s d.entries) tried ∧
        ∀ cfg' : Settings, d'.loadFiles cfg' s' =
          .ok (d', .ok 0) (s'.alloc { entries := d'.entries }).2) ∧
    (level cfg (names cfg s d.entries) maxDepth ≠ 0 → ∃ d' s', d.loadFiles cfg s =
      .ok (d', .error (.dictionary (.tooDeep cfg.repository maxDepth))) s') := by
  have hrested : Rested cfg (fun path => ∃ n, path ∈ level cfg (names cfg s d.entries) n)
      ⟨s.size⟩ (s.alloc { entries := d.entries }).2 :=
    h.rested hplain honly fun path hpath => ⟨0, hpath⟩
  have hclosed : ∀ path, (∃ n, path ∈ level cfg (names cfg s d.entries) n) →
      NamesOnly cfg path ∧ ∀ next ∈ namesIn cfg path,
        ∃ n, next ∈ level cfg (names cfg s d.entries) n := by
    rintro path ⟨n, hpath⟩
    exact ⟨hfiles n path hpath, fun next hnext => ⟨n + 1, mem_level_succ hpath hnext⟩⟩
  have hnames : names cfg (s.alloc { entries := d.entries }).2
      ((s.alloc { entries := d.entries }).2.entries ⟨s.size⟩) = names cfg s d.entries := by
    rw [Sound.entries_alloc_self]
    exact h.names_alloc cfg
  constructor
  · intro hlevel
    obtain ⟨s', hrun, hrested', hnone⟩ := hrested.loadRounds_ok hclosed (maxDepth + 1)
      ⟨maxDepth, Nat.lt_succ_self _, hnames ▸ hlevel⟩
    rw [hnames] at hrun
    refine ⟨⟨s'.entries ⟨s.size⟩⟩, _, s', ?_, unfolds_of_level (level_eq_zero_of_le hlevel
      (Nat.le_succ maxDepth)), hrested'.again hnone⟩
    rw [loadFiles_eq, hrun]
  · intro hlevel
    obtain ⟨s', hrun⟩ := hrested.loadRounds_error hclosed (maxDepth + 1) fun i hi hzero =>
      hlevel (level_eq_zero_of_le (hnames ▸ hzero) (Nat.le_of_lt_succ hi))
    refine ⟨⟨s'.entries ⟨s.size⟩⟩, s', ?_⟩
    rw [loadFiles_eq, hrun]

/-- Where blocks name files and nothing else refers to one, loading succeeds in both modes if no
chain of names is longer than the greatest depth, and otherwise tells that files nest too deeply.
The files that it includes are those of the unfolding. Loading once more changes nothing. -/
theorem loadFiles_loads_up_to_depth (cfg : Settings) (hs : s₀.Proper)
    (hread : ofText text s₀ = .ok d s) (honly : OnlyNames s d.entries)
    (hfiles : ∀ trail path, Chain cfg (names cfg s d.entries) (trail ++ [path]) →
      NamesOnly cfg path) :
    ((∀ trail, Chain cfg (names cfg s d.entries) trail → trail.length ≤ maxDepth) →
      ∃ d' tried s', d.loadFiles cfg s = .ok (d', .ok tried) s' ∧
        Unfolds cfg (names cfg s d.entries) tried ∧
        ∀ cfg' : Settings, d'.loadFiles cfg' s' =
          .ok (d', .ok 0) (s'.alloc { entries := d'.entries }).2) ∧
    ∀ trail, Chain cfg (names cfg s d.entries) trail → maxDepth < trail.length →
      ∃ d' s', d.loadFiles cfg s =
        .ok (d', .error (.dictionary (.tooDeep cfg.repository maxDepth))) s' := by
  obtain ⟨hsound, hplain⟩ := sound_of_ofText hs hread
  obtain ⟨hshallow, hdeep⟩ := hsound.loadFiles hplain honly fun n path hpath => by
    obtain ⟨trail, hchain, _⟩ := mem_level_iff.mp hpath
    exact hfiles trail path hchain
  refine ⟨fun hchains => hshallow (level_eq_zero_iff.mpr hchains), fun trail hchain hlength => ?_⟩
  refine hdeep fun hzero => ?_
  exact Nat.not_lt_of_le (level_eq_zero_iff.mp hzero trail hchain) hlength

/-! ## A child definition alone -/

section Child

variable (hbelow : s.below c = [])

include hbelow

theorem isBlock_child_iff : IsBlock s [(Schema.childKey, .policies [c])] b ↔ b = c := by
  have hblocks : blocks s [(Schema.childKey, .policies [c])] = [c] := rfl
  constructor
  · intro hb
    cases hb with
    | own hb => exact List.mem_singleton.mp (hblocks ▸ hb)
    | inside hb hsub _ =>
      cases List.mem_singleton.mp (hblocks ▸ hb)
      have hmem : _ ∈ s.below c := Entries.mem_of_child? hsub
      rw [hbelow] at hmem
      cases hmem
  · rintro rfl
    exact .own (hblocks ▸ List.mem_singleton_self _)

theorem names_child (hc : c.id < s.size) (cfg : Settings) :
    names cfg s [(Schema.childKey, .policies [c])] = named cfg (s.entries c) := by
  have hblocks : blocksBelow s [(Schema.childKey, .policies [c])] = {c} := by
    ext b
    rw [mem_blocksBelow_iff, isBlock_child_iff hbelow, Finset.mem_singleton]
    exact ⟨fun hb => hb.2, fun hb => ⟨hb ▸ hc, hb⟩⟩
  rw [names, gather, hblocks, Finset.sum_singleton]

theorem onlyNames_child (hreferences : Include.references (s.entries c) = [])
    (htexts : ∀ names, Table.get? Definition.dictionaryFileKey (s.entries c) = some names →
      names.kind = .string) : OnlyNames s [(Schema.childKey, .policies [c])] where
  references := rfl
  clean d hd q hq := by
    cases List.mem_singleton.mp hd
    rw [hq.eq_of_below_eq_nil hbelow]
    exact hreferences
  texts b hb := by
    cases (isBlock_child_iff hbelow).mp hb
    exact htexts
  definitions inner d hinner hd := by
    rcases hinner with rfl | ⟨a, sub, ha, hsub, rfl⟩
    · cases hd
    · cases (isBlock_child_iff hbelow).mp ha
      have hmem : sub ∈ s.below c := Entries.mem_of_child? hsub
      rw [hbelow] at hmem
      cases hmem

end Child

set_option maxRecDepth 4000 in
/-- A child definition that names a file, which names no other. -/
theorem loadFiles_loads_named_file :
    let cfg : Settings := ⟨⟨fun _ => .ok "childDefinition: \x7b\n\x7d".toUTF8, id⟩, "", false⟩
    ∃ d s d' s', ofText "childDefinition: \x7b\n dictionaryFile: a.paf\n\x7d" .empty = .ok d s ∧
      d.loadFiles cfg s = .ok (d', .ok 1) s' ∧ ∀ cfg' : Settings, d'.loadFiles cfg' s' =
        .ok (d', .ok 0) (s'.alloc { entries := d'.entries }).2 := by
  intro cfg
  let d : Dictionary := ⟨[("childDefinition", .policies [⟨1⟩])]⟩
  let s : Store := ⟨#[{ entries := [("childDefinition", .policies [⟨1⟩])] },
    { entries := [("dictionaryFile", .strings ["a.paf"])] }]⟩
  let own : Store := ⟨#[{ entries := [("childDefinition", .policies [⟨1⟩])] }, {}]⟩
  have hempty : Store.empty.Proper := ⟨fun _ => .nil, Store.tidy_empty.closed⟩
  have hread : ofText "childDefinition: \x7b\n dictionaryFile: a.paf\n\x7d" .empty = .ok d s := by
    cbv
  have hfile : Policy.ofFile cfg.files true ⟨"a.paf", none⟩ .empty = .ok ⟨0⟩ own := by
    cbv
  have hinside : namesIn cfg "a.paf" = 0 := by
    rw [namesIn, hfile]
    exact names_child (s := own) rfl (by decide) cfg
  have hnames : names cfg s d.entries = {"a.paf"} := names_child (s := s) rfl (by decide) cfg
  have honly : OnlyNames s d.entries := onlyNames_child rfl rfl fun names hget => by
    cases hget
    rfl
  have hchain (trail : List String) (hchain : Chain cfg (names cfg s d.entries) trail) :
      trail = [] ∨ trail = ["a.paf"] := by
    rw [hnames] at hchain
    cases hchain with
    | nil => exact Or.inl rfl
    | cons hmem hrest =>
      cases Multiset.mem_singleton.mp hmem
      rw [hinside] at hrest
      cases hrest with
      | nil => exact Or.inr rfl
      | cons hmem _ => cases Multiset.notMem_zero _ hmem
  have hfiles (trail : List String) (path : String)
      (hpath : Chain cfg (names cfg s d.entries) (trail ++ [path])) : NamesOnly cfg path := by
    obtain ⟨-, rfl⟩ : trail = [] ∧ path = "a.paf" := by
      simpa [List.append_eq_cons_iff] using hchain _ hpath
    exact ⟨⟨0⟩, own, hfile, onlyNames_child (c := ⟨1⟩) rfl rfl fun names hget => by cases hget⟩
  obtain ⟨d', tried, s', hrun, hcount, hagain⟩ :=
    (loadFiles_loads_up_to_depth cfg hempty hread honly hfiles).1 fun trail h => by
      rcases hchain trail h with rfl | rfl
      · exact Nat.zero_le _
      · exact Nat.le_add_left 1 15
  have hunfolds : Unfolds cfg {"a.paf"} 1 := .cons (by rw [hinside]; exact .none) .none
  rw [hnames] at hcount
  cases hcount.unique hunfolds
  exact ⟨d, s, d', s', hread, hrun, hagain⟩

end Dictionary

end PolicyStore
