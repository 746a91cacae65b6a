set_option autoImplicit false

/-! # Scan identifiers

A scan has the identifier its caller gives it, or a random one: a version-4 UUID, so that the
reports of two scans do not collide. -/

namespace SparseScan

-- powers in the sense of the core library, whatever else is imported
attribute [local instance (high)] instPowNat

/-- What a scan is called. -/
structure ScanId where
  text : String
deriving DecidableEq, Repr

namespace ScanId

/-- The `count` hexadecimal digits of `n` from digit `first` on, counted from the most significant
    of 32. -/
def hexGroup (n first count : Nat) : String :=
  String.ofList ((List.range count).map fun i => Nat.digitChar (n / 16 ^ (31 - first - i) % 16))

/-- The UUID of 128 random bits: digit 12 is the version, 4, and the top bits of digit 16 are the
    variant, binary 10. -/
def ofRandom (bits : Nat) : ScanId :=
  let variant := Nat.digitChar (8 + bits / 16 ^ (15 : Nat) % 4)
  ⟨hexGroup bits 0 8 ++ "-" ++ hexGroup bits 8 4 ++ "-4" ++ hexGroup bits 13 3 ++ "-" ++
    variant.toString ++ hexGroup bits 17 3 ++ "-" ++ hexGroup bits 20 12⟩

end ScanId

end SparseScan
