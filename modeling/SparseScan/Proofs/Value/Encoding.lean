import SparseScan.Value.Conversion

set_option autoImplicit false

/-! # Encoded values

The encoding of the values of a datatype and its decoding are inverse to each other. `decode_encode`
says that the bytes of a value are read as that value again, bit for bit: integers through their
two's complement pattern, floats through their bit pattern, NaN payloads included, and text as it
is. `decode_eq_ok_iff` and `decode_eq_error_iff` say which byte strings decode at all, and to what;
as many bytes as an element takes are the encoding of what they decode to (`encode_ofBytes`).
`encode_decode_inverse` puts the two directions together. -/

namespace SparseScan

-- powers in the sense of the core library, whatever else is imported
attribute [local instance (high)] instPowNat

theorem IntKind.toNat_emod_lt (k : IntKind) (n : Int) : (n % k.size).toNat < k.size := by
  have hpos : 0 < k.size := Nat.pow_pos (by decide)
  have hmod := Int.emod_lt_of_pos n (Int.ofNat_lt.2 hpos)
  omega

/-- An integer of a range is the one with its own pattern. -/
theorem IntKind.ofPattern_emod (k : IntKind) (n : k.Value) :
    k.ofPattern (n.val % k.size).toNat = n.val := by
  obtain ⟨n, hlow, hhigh⟩ := n
  unfold ofPattern
  rw [Nat.mod_eq_of_lt (k.toNat_emod_lt n)]
  unfold greatest least at *
  cases k <;> simp [signed, size, bytes] at hlow hhigh ⊢ <;> omega

/-- A pattern of a range is the one of the integer that it stands for. -/
theorem IntKind.emod_ofPattern (k : IntKind) {pattern : Nat} (h : pattern < k.size) :
    (k.ofPattern pattern % k.size).toNat = pattern := by
  have hpattern : ((pattern : Int) % k.size).toNat = pattern := by
    rw [Int.emod_eq_of_lt (by omega) (by omega), Int.toNat_natCast]
  unfold ofPattern
  rw [Nat.mod_eq_of_lt h]
  split
  · rw [Int.sub_emod_right, hpattern]
  · exact hpattern

/-- The bit patterns of a format are those of its bytes. -/
theorem FloatFormat.two_pow_magnitudeBits (f : FloatFormat) :
    2 ^ (f.magnitudeBits + 1) = 256 ^ f.bytes := by
  cases f <;> decide

theorem Binary.toBits_ofBits {f : FloatFormat} {bits : Nat} (h : bits < 2 ^ (f.magnitudeBits + 1)) :
    (ofBits bits : Binary f).toBits = bits := by
  have hsplit := Nat.div_add_mod bits (2 ^ f.magnitudeBits)
  have hsign : bits / 2 ^ f.magnitudeBits < 2 := by
    rwa [Nat.div_lt_iff_lt_mul (Nat.two_pow_pos _), Nat.mul_comm, ← Nat.pow_succ]
  simp only [ofBits, toBits, decide_eq_true_eq, Nat.mod_eq_of_lt hsign]
  rcases Nat.lt_succ_iff_lt_or_eq.1 hsign with hzero | hone
  · rw [Nat.lt_one_iff.1 hzero] at hsplit ⊢
    simpa using hsplit
  · rw [hone] at hsplit ⊢
    simpa using hsplit

namespace StoredValue

/-! ## Sizes -/

/-- Only texts differ in size from others of their form. -/
theorem size_eq_bytes {v : StoredValue} (h : v.form ≠ .text) : v.size = v.form.bytes := by
  cases v with
  | int k n => rfl
  | float f x => rfl
  | text bytes => exact absurd rfl h

/-- All values of a datatype other than text take the bytes of one element. -/
theorem size_eq_width {d : Datatype} {v : StoredValue} (h : v.hasType d = true)
    (hd : d.isText = false) : v.size = d.width := by
  have hform : v.form = d.form := by simpa [hasType] using h
  have hne : v.form ≠ .text := by simpa [Datatype.isText, ← hform] using hd
  rw [size_eq_bytes hne, hform, Datatype.width]

/-! ## Reading back what was written -/

/-- As many bytes as an element takes are the bytes of one element. -/
theorem decode_of_length {d : Datatype} {bytes : List UInt8} (hd : d.isText = false)
    (hlen : bytes.length = d.width) : decode d bytes = .ok (ofBytes d.form bytes) := by
  rw [decode, if_neg (by simp [hd]), if_neg (by omega), List.take_of_length_le (by omega)]

/-- The bytes of an element stand for the value that they encode. -/
theorem ofBytes_encode (v : StoredValue) : ofBytes v.form v.encode = v := by
  rcases v with ⟨k, n⟩ | ⟨f, x⟩ | bytes
  · have hbits : Bytes.toNat (encode (int k n)) = (n.val % k.size).toNat := by
      rw [encode, Bytes.toNat_ofNat]
      exact Nat.mod_eq_of_lt (k.toNat_emod_lt n.val)
    have hpattern : k.ofPattern (Bytes.toNat (encode (int k n))) = n.val := by
      rw [hbits, k.ofPattern_emod n]
    exact congrArg (int k) (Subtype.ext hpattern)
  · have hbits : Bytes.toNat (encode (float f x)) = x.toBits := by
      rw [encode, Bytes.toNat_ofNat]
      exact Nat.mod_eq_of_lt (f.two_pow_magnitudeBits ▸ x.toBits_lt)
    rw [form, ofBytes, hbits, Binary.ofBits_toBits]
  · rfl

/-- What is read out of an encoding is the value that was encoded. -/
theorem decode_encode {d : Datatype} {v : StoredValue} (h : v.hasType d = true) :
    decode d v.encode = .ok v := by
  have hform : v.form = d.form := by simpa [hasType] using h
  by_cases hd : d.isText = true
  · rw [decode, if_pos hd]
    rcases v with ⟨k, n⟩ | ⟨f, x⟩ | bytes
    · simp [Datatype.isText, ← hform, form] at hd
    · simp [Datatype.isText, ← hform, form] at hd
    · rfl
  · have hd : d.isText = false := by simpa using hd
    have hlen : v.encode.length = d.width := by rw [encode_length, size_eq_width h hd]
    rw [decode_of_length hd hlen, ← hform, ofBytes_encode]

/-! ## Writing back what was read -/

theorem form_ofBytes (form : StoredForm) (bytes : List UInt8) :
    (ofBytes form bytes).form = form := by
  cases form <;> rfl

/-- The value that the bytes of an element stand for has these bytes as its encoding. -/
theorem encode_ofBytes {form : StoredForm} {bytes : List UInt8}
    (h : form = .text ∨ bytes.length = form.bytes) : (ofBytes form bytes).encode = bytes := by
  cases form with
  | int k =>
      have hlen : bytes.length = k.bytes := h.resolve_left (by simp)
      have hlt : Bytes.toNat bytes < k.size := by
        rw [IntKind.size, ← hlen]
        exact Bytes.toNat_lt bytes
      rw [ofBytes, encode, k.emod_ofPattern hlt, ← hlen, Bytes.ofNat_toNat]
  | float f =>
      have hlen : bytes.length = f.bytes := h.resolve_left (by simp)
      have hlt : Bytes.toNat bytes < 2 ^ (f.magnitudeBits + 1) := by
        rw [f.two_pow_magnitudeBits, ← hlen]
        exact Bytes.toNat_lt bytes
      rw [ofBytes, encode, Binary.toBits_ofBits hlt, ← hlen, Bytes.ofNat_toNat]
  | text => rfl

/-- Only too few bytes do not decode, and never as text. -/
theorem decode_eq_error_iff {d : Datatype} {bytes : List UInt8} :
    (∃ e, decode d bytes = .error e) ↔ d.isText = false ∧ bytes.length < d.width := by
  unfold decode
  by_cases hd : d.isText = true
  · simp [hd]
  · by_cases hlen : bytes.length < d.width
    · simp [hd, hlen]
    · simp [hd, hlen]

/-- What decodes is a value of the datatype, read off the bytes of one element or, for text, off
    all bytes. -/
theorem decode_eq_ok_iff {d : Datatype} {bytes : List UInt8} {v : StoredValue} :
    decode d bytes = .ok v ↔
      (d.isText = true ∧ v = text bytes) ∨
      (d.isText = false ∧ d.width ≤ bytes.length ∧ v = ofBytes d.form (bytes.take d.width)) := by
  unfold decode
  by_cases hd : d.isText = true
  · simp [hd, eq_comm]
  · by_cases hlen : bytes.length < d.width
    · simp [hd, hlen, Nat.not_le.2 hlen]
    · simp [hd, hlen, Nat.not_lt.1 hlen, eq_comm]

theorem decode_hasType {d : Datatype} {bytes : List UInt8} {v : StoredValue}
    (h : decode d bytes = .ok v) : v.hasType d = true := by
  rcases decode_eq_ok_iff.1 h with ⟨hd, rfl⟩ | ⟨-, -, rfl⟩
  · have hform : d.form = .text := by simpa [Datatype.isText] using hd
    simp [hasType, hform, form]
  · simp [hasType, form_ofBytes]

/-- The bytes of an element, and any text, are the encoding of what they decode to. -/
theorem encode_of_decode {d : Datatype} {bytes : List UInt8} {v : StoredValue}
    (h : decode d bytes = .ok v) (hlen : d.isText = true ∨ bytes.length = d.width) :
    v.encode = bytes := by
  rcases decode_eq_ok_iff.1 h with ⟨-, rfl⟩ | ⟨hd, -, rfl⟩
  · rfl
  · have hlen : bytes.length = d.width := by simpa [hd] using hlen
    rw [List.take_of_length_le (by omega)]
    exact encode_ofBytes (.inr hlen)

/-- Encoding and decoding are inverse. A value of a datatype is encoded in as many bytes as its
    size, the width of the datatype unless that is text, and they decode to that very value.
    Conversely bytes fail to decode just if they are fewer than the width of a datatype other than
    text, what they decode to is a value of the datatype, and the bytes of exactly one element, or
    any text, are the encoding of what they decode to. -/
theorem encode_decode_inverse (d : Datatype) :
    (∀ v : StoredValue, v.hasType d = true →
      v.encode.length = v.size ∧ (d.isText = false → v.size = d.width) ∧
      decode d v.encode = .ok v) ∧
    ∀ bytes : List UInt8,
      ((∃ e, decode d bytes = .error e) ↔ d.isText = false ∧ bytes.length < d.width) ∧
      ∀ v, decode d bytes = .ok v →
        v.hasType d = true ∧
        (d.isText = true ∨ bytes.length = d.width → v.encode = bytes) := by
  constructor
  · intro v h
    exact ⟨encode_length v, size_eq_width h, decode_encode h⟩
  · intro bytes
    refine ⟨decode_eq_error_iff, ?_⟩
    intro v h
    exact ⟨decode_hasType h, encode_of_decode h⟩

/-- A signaling NaN with a payload, and its four bytes. -/
theorem encode_decode_inverse_nan :
    decode .float32 [0x01, 0x00, 0xA0, 0xFF] =
      .ok (float .single ⟨true, ⟨0x7FA00001, by decide⟩⟩) ∧
    (float .single ⟨true, ⟨0x7FA00001, by decide⟩⟩).encode = [0x01, 0x00, 0xA0, 0xFF] ∧
    decode .float32 (float .single ⟨true, ⟨0x7FA00001, by decide⟩⟩).encode =
      .ok (float .single ⟨true, ⟨0x7FA00001, by decide⟩⟩) := by
  have hdecode : decode .float32 [0x01, 0x00, 0xA0, 0xFF] =
      .ok (float .single ⟨true, ⟨0x7FA00001, by decide⟩⟩) := rfl
  obtain ⟨htype, hbytes⟩ := ((encode_decode_inverse .float32).2 _).2 _ hdecode
  exact ⟨hdecode, hbytes (.inr rfl), ((encode_decode_inverse .float32).1 _ htype).2.2⟩

end StoredValue

end SparseScan
