import SparseScan.Value.Error

set_option autoImplicit false

/-! # Order and neighbours of stored values

Values of one stored form are ordered: integers by value, floats by rank, byte strings
lexicographically. `StoredValue.order` has no answer across forms or on NaN.

`above` is the least representable value greater than the given one and `below` the greatest
smaller one. Byte strings have no greatest predecessor: `below` answers the greatest one among
strings without the byte `0xFF`, closed by that byte. -/

namespace SparseScan.StoredValue

/-! ## Order -/

/-- Lexicographic order of byte strings. -/
def orderBytes : List UInt8 → List UInt8 → Ordering
  | [], [] => .eq
  | [], _ :: _ => .lt
  | _ :: _, [] => .gt
  | a :: as, b :: bs => (compare a b).then (orderBytes as bs)

/-- The order of two values of one stored form. -/
def order : StoredValue → StoredValue → Except ValueError Ordering
  | int k a, int l b =>
      if k = l then .ok (compare a.val b.val) else .error (.incomparable (.int k) (.int l))
  | float f a, float g b =>
      if f = g then
        if a.isNaN || b.isNaN then .error (.unordered (float f a) (float g b))
        else .ok (compare a.rank b.rank)
      else .error (.incomparable (.float f) (.float g))
  | text a, text b => .ok (orderBytes a b)
  | a, b => .error (.incomparable a.form b.form)

/-- Whether `a` is at most `b`; values without an order are not. -/
def atMost (a b : StoredValue) : Bool :=
  match order a b with
  | .ok o => o != .gt
  | .error _ => false

/-- The lesser of two values, the first of equals. -/
def least (a b : StoredValue) : Except ValueError StoredValue :=
  match order a b with
  | .ok .gt => .ok b
  | .ok _ => .ok a
  | .error e => .error e

/-- The greater of two values, the first of equals. -/
def greatest (a b : StoredValue) : Except ValueError StoredValue :=
  match order a b with
  | .ok .lt => .ok b
  | .ok _ => .ok a
  | .error e => .error e

/-! ## Neighbours -/

/-- The string just below: a final zero byte is dropped, any other final byte is lowered by one
    and followed by the greatest byte. -/
def bytesBelow? (bytes : List UInt8) : Option (List UInt8) :=
  match bytes.getLast? with
  | none => none
  | some last =>
      if last = 0 then some bytes.dropLast else some (bytes.dropLast ++ [last - 1, 0xFF])

/-- The least value of the same stored form above `v`. -/
def above? : StoredValue → Option StoredValue
  | int k n => (k.ofInt? (n.val + 1)).map (int k)
  | float f x => x.above?.map (float f)
  | text bytes => some (text (bytes ++ [0]))

/-- The greatest value of the same stored form below `v`. -/
def below? : StoredValue → Option StoredValue
  | int k n => (k.ofInt? (n.val - 1)).map (int k)
  | float f x => x.below?.map (float f)
  | text bytes => (bytesBelow? bytes).map text

/-- The least value above `v`, an error when there is none. -/
def above (v : StoredValue) : Except ValueError StoredValue :=
  match v.above? with
  | some u => .ok u
  | none => .error (.nothingAbove v)

/-- The greatest value below `v`, an error when there is none. -/
def below (v : StoredValue) : Except ValueError StoredValue :=
  match v.below? with
  | some d => .ok d
  | none => .error (.nothingBelow v)

end SparseScan.StoredValue
