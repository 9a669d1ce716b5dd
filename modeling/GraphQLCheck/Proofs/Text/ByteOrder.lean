import Mathlib.Data.String.Basic
import Mathlib.Tactic.SplitIfs

/-!
# Names in byte order

Strings are compared character by character, and the order of names is that of their bytes in UTF-8.
The two come to the same.

Main statements: a character with a greater code has the greater bytes (`utf8EncodeChar_append_lt`),
and so the bytes of strings are in the order of the strings (`utf8Bytes_lt_iff`).
-/

namespace GraphQLCheck

/-- The bytes of a character are less than those of a character with a greater code, whatever comes
after them. -/
theorem utf8EncodeChar_append_lt {c d : Char} (h : c < d) (bs bs' : List UInt8) :
    String.utf8EncodeChar c ++ bs < String.utf8EncodeChar d ++ bs' := by
  have hlt : c.val.toNat < d.val.toNat := h
  have hvalid : d.val.toNat < 0x110000 := d.valid.elim (fun h => by omega) (fun h => h.2)
  simp only [String.utf8EncodeChar]
  generalize c.val.toNat = v at hlt ⊢
  generalize d.val.toNat = w at hlt hvalid ⊢
  -- one to four bytes on each side: the first bytes tell how many, and the others are digits
  split_ifs <;>
    simp (disch := omega) only [List.cons_append, List.nil_append, List.cons_lt_cons_iff,
      UInt8.lt_iff_toNat_lt, ← UInt8.toNat_inj, UInt8.toNat_ofNat', Nat.reducePow,
      Nat.mod_eq_of_lt] <;>
    omega

/-- A character has at least one byte. -/
theorem utf8EncodeChar_ne_nil (c : Char) : String.utf8EncodeChar c ≠ [] := by
  rw [String.utf8EncodeChar]
  split_ifs <;> exact List.cons_ne_nil _ _

/-- The bytes of a string in UTF-8. -/
def utf8Bytes (s : String) : List UInt8 := s.toUTF8.data.toList

/-- The bytes of a string are those of its characters. -/
theorem utf8Bytes_eq_flatMap (s : String) :
    utf8Bytes s = s.toList.flatMap String.utf8EncodeChar := by
  have hbytes : s.toByteArray = s.toList.utf8Encode := by
    rw [← String.toByteArray_ofList, String.ofList_toList]
  rw [utf8Bytes, String.toUTF8_eq_toByteArray, hbytes, List.utf8Encode, List.data_toByteArray]

/-- The bytes of strings are in the order of the strings. -/
theorem utf8Bytes_lt_of_lt {s t : String} (h : s < t) : utf8Bytes s < utf8Bytes t := by
  rw [utf8Bytes_eq_flatMap, utf8Bytes_eq_flatMap]
  rw [String.lt_iff_toList_lt] at h
  generalize s.toList = cs at h ⊢
  generalize t.toList = ds at h ⊢
  -- what comes before the first difference has the same bytes
  induction h with
  | nil =>
    obtain ⟨b, bs, hbytes⟩ := List.exists_cons_of_ne_nil (utf8EncodeChar_ne_nil _)
    rw [List.flatMap_nil, List.flatMap_cons, hbytes]
    exact .nil
  | rel hcd =>
    rw [List.flatMap_cons, List.flatMap_cons]
    exact utf8EncodeChar_append_lt hcd _ _
  | cons _ ih =>
    rw [List.flatMap_cons, List.flatMap_cons]
    exact List.append_left_lt ih

/-- Strings are in the order of their bytes. -/
theorem utf8Bytes_lt_iff {s t : String} : utf8Bytes s < utf8Bytes t ↔ s < t := by
  refine ⟨fun h => ?_, utf8Bytes_lt_of_lt⟩
  by_contra hst
  rcases (not_lt.mp hst).lt_or_eq with hts | rfl
  · exact List.lt_asymm h (utf8Bytes_lt_of_lt hts)
  · exact List.lt_irrefl _ h

end GraphQLCheck
