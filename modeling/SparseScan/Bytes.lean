set_option autoImplicit false

/-! # Little-endian bytes

A natural number as a fixed number of bytes, least significant first (`Bytes.ofNat`), and back
(`Bytes.toNat`). The two are inverse on numbers that fit and on byte strings of that length. -/

namespace SparseScan.Bytes

-- powers in the sense of the core library, whatever else is imported
attribute [local instance (high)] instPowNat

/-- The `w` bytes of `n`, least significant first; higher bits are dropped. -/
def ofNat : Nat → Nat → List UInt8
  | 0, _ => []
  | w + 1, n => UInt8.ofNat n :: ofNat w (n / 256)

/-- The number whose bytes are given, least significant first. -/
def toNat : List UInt8 → Nat
  | [] => 0
  | b :: bs => b.toNat + 256 * toNat bs

theorem ofNat_length (w n : Nat) : (ofNat w n).length = w := by
  induction w generalizing n with
  | zero => rfl
  | succ w ih => simp [ofNat, ih]

theorem toNat_ofNat (w n : Nat) : toNat (ofNat w n) = n % 256 ^ w := by
  induction w generalizing n with
  | zero => simp [ofNat, toNat, Nat.mod_one]
  | succ w ih =>
      have hb : (UInt8.ofNat n).toNat = n % 256 := by simp
      rw [ofNat, toNat, ih, hb, Nat.pow_succ, Nat.mul_comm (256 ^ w), Nat.mod_mul]

theorem toNat_lt (bs : List UInt8) : toNat bs < 256 ^ bs.length := by
  induction bs with
  | nil => simp [toNat]
  | cons b bs ih =>
      have hb : b.toNat < 256 := b.toNat_lt
      rw [toNat, List.length_cons, Nat.pow_succ]
      omega

theorem ofNat_toNat (bs : List UInt8) : ofNat bs.length (toNat bs) = bs := by
  induction bs with
  | nil => rfl
  | cons b bs ih =>
      have hb : b.toNat < 256 := b.toNat_lt
      have hd : (b.toNat + 256 * toNat bs) / 256 = toNat bs := by omega
      have hh : UInt8.ofNat (b.toNat + 256 * toNat bs) = b := by
        apply UInt8.toNat_inj.mp
        simp
      rw [List.length_cons, toNat, ofNat, hd, ih, hh]

end SparseScan.Bytes
