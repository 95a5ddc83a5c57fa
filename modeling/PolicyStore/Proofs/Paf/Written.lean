import PolicyStore.Paf.Statement
import PolicyStore.Proofs.Store.Content
import Mathlib.Data.List.Induction

set_option autoImplicit false

namespace PolicyStore.Paf

/-!
# Written documents

The texts that a document can be written as: the order of its entries, indentation, empty lines and
comments are free. The rows of a document are sorted by name, as a store keeps them.
-/

/-- A name of letters, digits and underscores. -/
structure IsName (name : String) : Prop where
  nonempty : name.toList ≠ []
  word : ∀ c ∈ name.toList, c.isAlphanum = true ∨ c = '_'

instance : DecidablePred IsName := fun name =>
  decidable_of_iff (name.toList ≠ [] ∧ (name.toList.all fun c => c.isAlphanum || c == '_') = true) <| by
    simp only [List.all_eq_true, Bool.or_eq_true, beq_iff_eq]
    exact ⟨fun h => ⟨h.1, h.2⟩, fun h => ⟨h.1, h.2⟩⟩

/-- A path that stands after an at sign as it is. A blank before a number sign or a closing brace
would end it. -/
structure IsPath (path : List Char) : Prop where
  nonempty : path ≠ []
  first : ∀ c ∈ path.head?, Text.isBlank c = false
  last : ∀ c ∈ path.getLast?, Text.isBlank c = false
  oneLine : '\n' ∉ path
  uncut : ∀ before c d after, path = before ++ c :: d :: after → Text.isBlank c = true →
    isStop d = false

/-- Literals that can be written on the line of their name. -/
inductive IsWritable : Literal → Prop
  | bool (b : Bool) : IsWritable (.bool b)
  | int (i : Int32) : IsWritable (.int i)
  | string {s : String} : '"' ∉ s.toList → '\n' ∉ s.toList → IsWritable (.string s)

def literalText : Literal → List Char
  | .bool true => "true".toList
  | .bool false => "false".toList
  | .int i => (toString i.toInt).toList
  | .string s => '"' :: (s.toList ++ ['"'])
  | _ => []

def IsIndent (cs : List Char) : Prop := ∀ c ∈ cs, c = ' ' ∨ c = '\t'

/-- What may stand at the end of a line. -/
inductive Tail : List Char → Prop
  | none : Tail []
  | comment {cs : List Char} : '\n' ∉ cs → Tail (' ' :: '#' :: cs)

/-- A line without content. -/
inductive Filler : List Char → Prop
  | blank {cs : List Char} : IsIndent cs → Filler cs
  | comment {indent cs : List Char} : IsIndent indent → '\n' ∉ cs → Filler (indent ++ '#' :: cs)

/-- A line that begins with a name and a colon. -/
def named (indent : List Char) (name : String) (body tail : List Char) : List Char :=
  indent ++ (name.toList ++ ':' :: ' ' :: (body ++ tail))

/-- Lines that a document can be written as, and the number of parameters in them. The values of a
name stand on one line, while every file and every policy under a name is written by itself. -/
inductive Written : List (String × Values Content) → Nat → List (List Char) → Prop
  | empty : Written [] 0 []
  | filler {rows : List (String × Values Content)} {n : Nat} {lines : List (List Char)}
      {line : List Char} : Written rows n lines → Filler line → Written rows n (lines ++ [line])
  | values {rows : List (String × Values Content)} {n : Nat} {lines : List (List Char)}
      {indent tail : List Char} {name : String} {vs : Values Empty} : Written rows n lines →
      IsIndent indent → Tail tail → IsName name → Table.get? name rows = none →
      vs.toList ≠ [] → (∀ v ∈ vs.toList, IsWritable v) →
      Written (Table.insert name (vs.map Empty.elim) rows) (n + 1)
        (lines ++ [named indent name ([' '].intercalate (vs.toList.map literalText)) tail])
  | file {rows : List (String × Values Content)} {n : Nat} {lines : List (List Char)}
      {indent tail : List Char} {name path : String} {earlier : List FileRef} :
      Written rows n lines → IsIndent indent → Tail tail → IsName name →
      (Table.get? name rows).getD (.files []) = .files earlier → IsPath path.toList →
      Written (Table.insert name (.files (earlier ++ [⟨path, none⟩])) rows) (n + 1)
        (lines ++ [named indent name ('@' :: path.toList) tail])
  | block {rows inner : List (String × Values Content)} {n m : Nat} {lines body : List (List Char)}
      {indent tail indent' tail' : List Char} {name : String} {earlier : List Content} :
      Written rows n lines → Written inner m body → IsIndent indent → Tail tail →
      IsIndent indent' → Tail tail' → IsName name →
      (Table.get? name rows).getD (.policies []) = .policies earlier →
      Written (Table.insert name (.policies (earlier ++ [.node inner])) rows) (n + (1 + m))
        (lines ++ [named indent name ['\x7b'] tail] ++ body ++ [indent' ++ '\x7d' :: tail'])

/-- The text of some lines. -/
def textOf (lines : List (List Char)) : String := String.ofList (['\n'].intercalate lines)

/-! ## Documents that can be written -/

/-- An array that has a text if blocks with `P` have one. -/
inductive IsArray (P : List (String × Values Content) → Prop) : Values Content → Prop
  | literals {vs : Values Empty} : vs.toList ≠ [] → (∀ v ∈ vs.toList, IsWritable v) →
      IsArray P (vs.map Empty.elim)
  | files {paths : List String} : paths ≠ [] → (∀ path ∈ paths, IsPath path.toList) →
      IsArray P (.files (paths.map fun path => ⟨path, none⟩))
  | blocks {blocks : List (List (String × Values Content))} : blocks ≠ [] →
      (∀ block ∈ blocks, P block) → IsArray P (.policies (blocks.map .node))

/-- The rows of a tree with a number of levels at most. -/
def IsDocument : Nat → List (String × Values Content) → Prop
  | 0, _ => False
  | depth + 1, rows =>
    Table.Sorted rows ∧ ∀ row ∈ rows, IsName row.1 ∧ IsArray (IsDocument depth) row.2

/-- An array whose elements are written one after the other. -/
theorem exists_written_of_steps {β : Type} (make : List β → Values Content) {P : β → Prop}
    {name : String} (hstep : ∀ {rows n lines} {earlier : List β} {b : β}, P b → Written rows n lines →
      (Table.get? name rows).getD (make []) = make earlier →
      ∃ m lines', Written (Table.insert name (make (earlier ++ [b])) rows) m lines')
    {rows : List (String × Values Content)} {n : Nat} {lines : List (List Char)}
    (h : Written rows n lines) (hnone : Table.get? name rows = none) {bs : List β} (hne : bs ≠ [])
    (hall : ∀ b ∈ bs, P b) : ∃ m lines', Written (Table.insert name (make bs) rows) m lines' := by
  -- The array may be left without elements on the way, where the table has no row for it yet.
  have hprefix (earlier : List β) (hall : ∀ b ∈ earlier, P b) : ∃ rows' m lines',
      Written rows' m lines' ∧ (Table.get? name rows').getD (make []) = make earlier ∧
        ∀ vs, Table.insert name vs rows' = Table.insert name vs rows := by
    induction earlier using List.reverseRecOn with
    | nil => exact ⟨rows, n, lines, h, by rw [hnone, Option.getD_none], fun _ => rfl⟩
    | append_singleton earlier b ih =>
      obtain ⟨rows', m, lines', h', hget, hinsert⟩ := ih fun c hc => hall c (List.mem_append_left _ hc)
      obtain ⟨m', lines'', h''⟩ := hstep (hall b (by simp)) h' hget
      refine ⟨_, m', lines'', h'', ?_, fun vs => ?_⟩
      · rw [Table.get?_insert_self, Option.getD_some]
      · rw [Table.insert_insert, hinsert]
  induction bs using List.reverseRecOn with
  | nil => exact (hne rfl).elim
  | append_singleton earlier b _ =>
    obtain ⟨rows', m, lines', h', hget, hinsert⟩ := hprefix earlier fun c hc =>
      hall c (List.mem_append_left _ hc)
    rw [← hinsert]
    exact hstep (hall b (by simp)) h' hget

/-- Every document can be written. -/
theorem exists_written {depth : Nat} {rows : List (String × Values Content)}
    (h : IsDocument depth rows) : ∃ n lines, Written rows n lines := by
  have hindent : IsIndent [] := fun c hc => by cases hc
  induction depth generalizing rows with
  | zero => exact h.elim
  | succ depth ih =>
    obtain ⟨hsorted, hrows⟩ := h
    induction rows using List.reverseRecOn with
    | nil => exact ⟨0, [], .empty⟩
    | append_singleton rows row ihrows =>
      obtain ⟨name, values⟩ := row
      have hlt := Table.lt_of_sorted_append hsorted
      have hinsert : Table.insert name values rows = rows ++ [(name, values)] := by
        have happend := Table.insert_append hlt values []
        rwa [List.append_nil] at happend
      have hnone : Table.get? name rows = none :=
        Table.get?_eq_none_iff.mpr fun hmem => String.lt_irrefl name (hlt name hmem)
      obtain ⟨n, lines, hwritten⟩ := ihrows (hsorted.sublist (by simp [Table.keys])) fun row hrow =>
        hrows row (List.mem_append_left _ hrow)
      obtain ⟨hname, harray⟩ := hrows (name, values) (by simp)
      rw [← hinsert]
      cases harray with
      | literals hne hvs => exact ⟨_, _, .values hwritten hindent .none hname hnone hne hvs⟩
      | files hne hpaths =>
        refine exists_written_of_steps (fun paths => .files (paths.map fun path => ⟨path, none⟩))
          (fun hpath h hget => ?_) hwritten hnone hne hpaths
        simp only [List.map_append]
        exact ⟨_, _, .file h hindent .none hname hget hpath⟩
      | blocks hne hblocks =>
        refine exists_written_of_steps (fun blocks => .policies (blocks.map .node))
          (fun hblock h hget => ?_) hwritten hnone hne hblocks
        obtain ⟨m, body, hbody⟩ := ih hblock
        simp only [List.map_append]
        exact ⟨_, _, .block h hbody hindent .none hindent .none hname hget⟩

end PolicyStore.Paf
