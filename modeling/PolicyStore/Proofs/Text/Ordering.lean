import PolicyStore.Proofs.Text.Naming
import Mathlib.Data.List.Basic

set_option autoImplicit false

namespace PolicyStore

/-!
# The order of names

Texts are compared character by character and stored as the bytes of their characters. The bytes of
a lesser character are lesser where they first differ, so that both orders are the same. The dot is
less than every character of a name, so that what is below a name comes before the next name.
-/

namespace Text

/-! ## Characters and bytes -/

/-- The bytes of a text. -/
def bytes (text : String) : List UInt8 := text.toUTF8.data.toList

theorem bytes_eq_flatMap (text : String) :
    bytes text = text.toList.flatMap String.utf8EncodeChar := by
  rw [bytes, String.toUTF8, ← String.utf8Encode_toList, List.utf8Encode, List.data_toByteArray]

theorem toNat_lt (c : Char) : c.val.toNat < 0x110000 := by
  rcases c.valid with h | ⟨-, h⟩ <;> omega

theorem utf8EncodeChar_append_lt {c d : Char} (h : c < d) (xs ys : List UInt8) :
    String.utf8EncodeChar c ++ xs < String.utf8EncodeChar d ++ ys := by
  have hcode : c.val.toNat < d.val.toNat := h
  have hmax := toNat_lt d
  have hsecond (n : Nat) : n / 4096 = n / 64 / 64 := by omega
  have hthird (n : Nat) : n / 262144 = n / 64 / 64 / 64 := by omega
  unfold String.utf8EncodeChar
  dsimp only
  -- A longer encoding has a greater first byte; encodings of one length are compared byte by byte.
  split_ifs <;> simp only [hsecond, hthird, List.cons_append, List.nil_append,
    List.cons_lt_cons_iff, UInt8.lt_iff_toNat_lt, ← UInt8.toNat_inj, UInt8.toNat_ofNat'] <;> omega

theorem flatMap_utf8EncodeChar_lt {cs ds : List Char} (h : cs < ds) :
    cs.flatMap String.utf8EncodeChar < ds.flatMap String.utf8EncodeChar := by
  have hlex : List.Lex (· < ·) cs ds := h
  induction hlex with
  | @nil d ds =>
    rw [List.flatMap_nil, List.flatMap_cons]
    obtain ⟨byte, bytes, hbytes⟩ :=
      List.exists_cons_of_ne_nil (String.utf8EncodeChar_ne_nil (c := d))
    rw [hbytes]
    exact .nil
  | cons hlex ih =>
    rw [List.flatMap_cons, List.flatMap_cons]
    exact List.append_left_lt (ih hlex)
  | rel hcd =>
    rw [List.flatMap_cons, List.flatMap_cons]
    exact utf8EncodeChar_append_lt hcd _ _

/-- A text that is less than another has the lesser bytes. -/
theorem bytes_lt_of_lt {text other : String} (h : text < other) : bytes text < bytes other := by
  rw [bytes_eq_flatMap, bytes_eq_flatMap]
  exact flatMap_utf8EncodeChar_lt h

/-- Of two texts the lesser one stays so when it goes on with a character that is less than those
of the other. -/
theorem append_lt_append {mark : Char} {cs ds xs : List Char} (h : cs < ds)
    (hmark : ∀ d ∈ ds, mark < d) (hxs : ∀ x ∈ xs.head?, x = mark) (ys : List Char) :
    cs ++ xs < ds ++ ys := by
  have hlex : List.Lex (· < ·) cs ds := h
  clear h
  induction hlex with
  | @nil d ds =>
    cases xs with
    | nil => exact .nil
    | cons x xs =>
      rw [hxs x rfl]
      exact .rel (hmark d List.mem_cons_self)
  | cons _ ih => exact .cons (ih fun d hd => hmark d (List.mem_cons_of_mem _ hd))
  | rel hcd => exact .rel hcd

theorem dot_lt_of_isNameChar {c : Char} (h : isNameChar c = true) : '.' < c := by
  have hnone : ∀ n ≤ '.'.toNat, isNameChar (Char.ofNat n) = false := by decide
  refine Nat.lt_of_not_le fun hle => ?_
  have hc := hnone c.toNat hle
  rw [Char.ofNat_toNat, h] at hc
  cases hc

end Text

namespace Name

/-! ## Names and the keys before them -/

variable {key other name : String}

theorem toList_concat (key name : String) :
    (key ++ "." ++ name).toList = key.toList ++ '.' :: name.toList := by
  simp

theorem lt_concat (key name : String) : key < key ++ "." ++ name := by
  show key.toList < (key ++ "." ++ name).toList
  rw [toList_concat]
  have happend : key.toList ++ [] < key.toList ++ '.' :: name.toList :=
    List.append_left_lt .nil
  rwa [List.append_nil] at happend

theorem concat_lt_concat (key : String) (h : name < other) :
    key ++ "." ++ name < key ++ "." ++ other := by
  show (key ++ "." ++ name).toList < (key ++ "." ++ other).toList
  rw [toList_concat, toList_concat]
  exact List.append_left_lt (.cons h)

theorem exists_toList_of_above (h : name = key ∨ Above key name) :
    ∃ rest, name.toList = key.toList ++ rest ∧ ∀ c ∈ rest.head?, c = '.' := by
  rcases h with rfl | ⟨rest, rfl⟩
  · exact ⟨[], (List.append_nil _).symm, nofun⟩
  · exact ⟨'.' :: rest.toList, toList_concat _ _, fun c hc => (Option.some.inj hc).symm⟩

/-- A key and all that is below it comes before a greater key and all that is below that one. -/
theorem lt_of_key_lt {first second : String} (hother : segments other = .ok [other])
    (h : key < other) (hfirst : first = key ∨ Above key first)
    (hsecond : second = other ∨ Above other second) : first < second := by
  obtain ⟨xs, hxs, hdot⟩ := exists_toList_of_above hfirst
  obtain ⟨ys, hys, -⟩ := exists_toList_of_above hsecond
  show first.toList < second.toList
  rw [hxs, hys]
  have hchars := List.all_eq_true.mp (Bool.and_eq_true_iff.mp (isSegment_of_segments_self hother)).2
  exact Text.append_lt_append h (fun c hc => Text.dot_lt_of_isNameChar (hchars c hc)) hdot ys

end Name

end PolicyStore
