import SparseScan.Value.Error

set_option autoImplicit false

/-! # Conversions of values

Three conversions: bytes to a stored value (`StoredValue.decode`), a stored value to what a reader
sees (`toLong`, `toDouble`), and a literal to a value of a datatype (`StoredValue.ofLiteral`). Into
an integer datatype the number never changes: what is not an integer of the range is an error. -/

namespace SparseScan

-- powers in the sense of the core library, whatever else is imported
attribute [local instance (high)] instPowNat

/-- The integer of range `k` whose two's complement encoding is `pattern`. -/
def IntKind.ofPattern (k : IntKind) (pattern : Nat) : Int :=
  if k.signed ∧ k.size ≤ 2 * (pattern % k.size) then (pattern % k.size : Nat) - k.size
  else (pattern % k.size : Nat)

theorem IntKind.ofPattern_holds (k : IntKind) (pattern : Nat) : k.Holds (k.ofPattern pattern) := by
  have hlt : pattern % k.size < k.size := Nat.mod_lt _ (Nat.pow_pos (by decide))
  unfold IntKind.ofPattern
  split
  all_goals
    next hc =>
      unfold IntKind.Holds IntKind.greatest IntKind.least
      cases k <;> simp [IntKind.signed, IntKind.size, IntKind.bytes] at hc hlt ⊢ <;> omega

namespace StoredValue

/-! ## Decoding -/

/-- The value whose encoding is `bytes`, which are as many as the stored form takes. -/
def ofBytes : StoredForm → List UInt8 → StoredValue
  | .int k, bytes => int k ⟨k.ofPattern (Bytes.toNat bytes), k.ofPattern_holds _⟩
  | .float f, bytes => float f (Binary.ofBits (Bytes.toNat bytes))
  | .text, bytes => text bytes

/-- One element of datatype `d` at the start of `bytes`; text takes all of them. -/
def decode (d : Datatype) (bytes : List UInt8) : Except ValueError StoredValue :=
  if d.isText then .ok (text bytes)
  else if bytes.length < d.width then .error (.tooShort d d.width bytes.length)
  else .ok (ofBytes d.form (bytes.take d.width))

/-! ## What a reader sees -/

/-- An integer as a long. Unsigned 64-bit integers beyond the range keep their bit pattern. -/
def toLong : StoredValue → Except ValueError Long
  | int _ n => .ok ⟨IntKind.int64.ofPattern (n.val % IntKind.int64.size).toNat,
      IntKind.int64.ofPattern_holds _⟩
  | v => .error (.notInteger v.form)

/-- A float as a double. -/
def toDouble : StoredValue → Except ValueError (Binary .double)
  | float .single x => .ok x.convert
  | float .double x => .ok x
  | v => .error (.notFloat v.form)

/-! ## From literals -/

/-- The number a literal stands for. -/
inductive Number where
  | whole (n : Int)
  | real (x : Binary .double)
deriving DecidableEq

/-- The number of a literal in a column of type `t`. In a column of four-byte floats a long is a bit
    pattern. -/
def Number.ofLiteral (d : Datatype) (t : ColumnType) (v : Literal) : Except ValueError Number :=
  match v with
  | .long n =>
      if t = .real then
        match unpackReal? n with
        | some x => .ok (.real x.convert)
        | none => .error (.notReal n)
      else .ok (.whole n.val)
  | .double x => .ok (.real x)
  | .boolean b => .ok (.whole (if b then 1 else 0))
  | .bytes _ => .error (.wrongSort v d)

/-- The 128-bit integer nearest to `n`. -/
def clamp128 (n : Int) : Int := max (-2 ^ (127 : Nat)) (min n (2 ^ (127 : Nat) - 1))

/-- An integer as a value of range `k`. -/
def fitInteger (k : IntKind) (d : Datatype) (n : Int) : Except ValueError StoredValue :=
  match k.ofInt? n with
  | some v => .ok (int k v)
  | none => .error (.outOfRange n d)

/-- A number as a value of range `k`. A negative integer in an unsigned 64-bit column is the bit
    pattern of a stored value beyond the range of longs. -/
def toInteger (k : IntKind) (d : Datatype) : Number → Except ValueError StoredValue
  | .whole n =>
      if k = .uint64 ∧ n < 0 then fitInteger k d (n + 2 ^ (64 : Nat))
      else fitInteger k d n
  | .real x =>
      match x.integer? with
      | some n => fitInteger k d (clamp128 n)
      | none => .error (.notWhole x d)

/-- The float of a format nearest to a number. -/
def toFloat : (f : FloatFormat) → Number → Binary f
  | f, .whole n => (Binary.ofInt n : Binary f)
  | .single, .real x => x.convert
  | .double, .real x => x

/-- A literal in a column of type `t` as a value of datatype `d`. -/
def ofLiteral (d : Datatype) (t : ColumnType) (v : Literal) : Except ValueError StoredValue :=
  match d.form with
  | .text =>
      match v with
      | .bytes bytes => .ok (text bytes)
      | _ => .error (.wrongSort v d)
  | .int k =>
      match Number.ofLiteral d t v with
      | .ok n => toInteger k d n
      | .error e => .error e
  | .float f =>
      match Number.ofLiteral d t v with
      | .ok n => .ok (float f (toFloat f n))
      | .error e => .error e

end StoredValue

end SparseScan
