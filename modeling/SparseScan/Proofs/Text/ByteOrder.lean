import Mathlib.Data.String.Basic

set_option autoImplicit false

/-! # The byte order of text

Strings are ordered by their characters. `Text.utf8_strictMono` says that this is the order of their
UTF-8 bytes: a character with a longer encoding starts with a greater byte, and in encodings of one
length the bits of the character are digits, the most significant ones first. -/

namespace SparseScan.Text

/-- The bytes of a string in UTF-8. -/
def utf8 (s : String) : List UInt8 := s.toUTF8.data.toList

theorem utf8_eq (s : String) : utf8 s = s.toList.flatMap String.utf8EncodeChar := by
  rw [utf8, String.toUTF8_eq_toByteArray, ← String.utf8Encode_toList, List.utf8Encode,
    List.data_toByteArray]

/-- Bytes compare as the numbers below 256 that they stand for. -/
theorem cons_ofNat_lt_iff {m n : Nat} {xs ys : List UInt8} (hm : m < 256) (hn : n < 256) :
    UInt8.ofNat m :: xs < UInt8.ofNat n :: ys ↔ m < n ∨ m = n ∧ xs < ys := by
  rw [List.cons_lt_cons_iff, UInt8.lt_iff_toNat_lt, ← UInt8.toNat_inj, UInt8.toNat_ofNat_of_lt' hm,
    UInt8.toNat_ofNat_of_lt' hn]

/-- Numbers compare by their digits in base 64. -/
theorem digits_lt {m n : Nat} (h : m < n) :
    m / 262144 < n / 262144 ∨ m / 262144 = n / 262144 ∧
      (m / 4096 % 64 < n / 4096 % 64 ∨ m / 4096 % 64 = n / 4096 % 64 ∧
        (m / 64 % 64 < n / 64 % 64 ∨ m / 64 % 64 = n / 64 % 64 ∧ m % 64 < n % 64)) := by
  have hdigit : ∀ {x y : Nat}, x < y → x / 64 < y / 64 ∨ x / 64 = y / 64 ∧ x % 64 < y % 64 := by
    omega
  rcases hdigit h with h1 | h1
  · rcases hdigit h1 with h2 | h2
    · rcases hdigit h2 with h3 | h3
      · omega
      · omega
    · omega
  · omega

/-- A lesser character has lesser bytes, whatever follows. -/
theorem utf8EncodeChar_append_lt {c d : Char} (h : c < d) (xs ys : List UInt8) :
    String.utf8EncodeChar c ++ xs < String.utf8EncodeChar d ++ ys := by
  have hlt : c.val.toNat < d.val.toNat := UInt32.lt_iff_toNat_lt.1 (Char.lt_def.1 h)
  have hmax : d.val.toNat < 0x110000 := by
    rcases d.valid with hvalid | hvalid
    · exact hvalid.trans (by decide)
    · exact hvalid.2
  unfold String.utf8EncodeChar
  dsimp only
  generalize c.val.toNat = m at hlt
  generalize d.val.toNat = n at hlt hmax
  have hdigits := digits_lt hlt
  have htop : m / 262144 % 8 = m / 262144 ∧ n / 262144 % 8 = n / 262144 := by omega
  -- one case for each two lengths; where they differ, the first bytes decide
  split_ifs <;>
    simp (disch := omega) only [List.cons_append, List.nil_append, cons_ofNat_lt_iff] <;>
    omega

theorem flatMap_utf8EncodeChar_lt {cs ds : List Char} (h : cs < ds) :
    cs.flatMap String.utf8EncodeChar < ds.flatMap String.utf8EncodeChar := by
  induction cs generalizing ds with
  | nil =>
      cases ds with
      | nil => exact absurd h (lt_irrefl _)
      | cons d ds =>
          obtain ⟨b, bs, hbytes⟩ :=
            List.exists_cons_of_ne_nil (String.utf8EncodeChar_ne_nil (c := d))
          rw [List.flatMap_nil, List.flatMap_cons, hbytes]
          exact List.nil_lt_cons _ _
  | cons c cs ih =>
      cases ds with
      | nil => cases h
      | cons d ds =>
          rw [List.flatMap_cons, List.flatMap_cons]
          rcases List.cons_lt_cons_iff.1 h with hlt | ⟨rfl, htail⟩
          · exact utf8EncodeChar_append_lt hlt _ _
          · exact List.append_left_lt (ih htail)

/-- The order of strings is the order of their bytes. -/
theorem utf8_strictMono {s t : String} (h : s < t) : utf8 s < utf8 t := by
  rw [utf8_eq, utf8_eq]
  exact flatMap_utf8EncodeChar_lt (String.lt_iff_toList_lt.1 h)

end SparseScan.Text
