import SparseScan.Storage.Error
import SparseScan.Value.Order

set_option autoImplicit false

/-! # Sparse arrays in memory

A `TiledArray` holds the cells of a sparse array in row-major order of their coordinates.
`TiledArray.ofCells` checks every cell against the schema and sorts them; cells at equal coordinates
keep the order in which they were added. -/

namespace SparseScan

/-- A coordinate per dimension and a value per attribute; `none` is null. -/
structure Cell where
  coords : List StoredValue
  values : List (Option StoredValue)
deriving DecidableEq

/-- The cells of an array, and how many result cells make a tile. -/
structure TiledArray where
  schema : Schema
  cells : List Cell
  tileExtent : Nat
deriving DecidableEq

/-- Whether a value can stand in a field: it has the datatype, and the width unless elements have
    lengths of their own. -/
def fitsField (d : Datatype) (varLen : Bool) (v : StoredValue) : Bool :=
  v.hasType d && (varLen || v.size == d.width)

/-- Refuse a value that cannot stand in a field. -/
def ensureStorable (name : String) (d : Datatype) (varLen : Bool) (v : StoredValue) :
    Except ArrayError Unit :=
  if fitsField d varLen v then .ok () else .error (.wrongDatatype name d v)

namespace Cell

/-- Refuse coordinates that a dimension cannot hold or that have no order. -/
def ensureCoords : List Dimension → List StoredValue → Except ArrayError Unit
  | d :: ds, c :: cs =>
      match ensureStorable d.name d.datatype d.varLen c with
      | .error e => .error e
      | .ok () => if c.atMost c then ensureCoords ds cs else .error (.coordinateUnordered d.name)
  | _, _ => .ok ()

/-- Refuse values that an attribute cannot hold. -/
def ensureValues : List Attribute → List (Option StoredValue) → Except ArrayError Unit
  | a :: as, some v :: vs =>
      match ensureStorable a.name a.datatype a.varLen v with
      | .error e => .error e
      | .ok () => ensureValues as vs
  | a :: as, none :: vs => if a.nullable then ensureValues as vs else .error (.valueMissing a.name)
  | _, _ => .ok ()

/-- Refuse a cell that does not fit a schema. -/
def ensureFits (s : Schema) (c : Cell) : Except ArrayError Unit :=
  if c.coords.length ≠ s.dimensions.length then
    .error (.coordinateCount c.coords.length s.dimensions.length)
  else if c.values.length ≠ s.attributes.length then
    .error (.valueCount c.values.length s.attributes.length)
  else
    match ensureCoords s.dimensions c.coords with
    | .error e => .error e
    | .ok () => ensureValues s.attributes c.values

/-- Row-major order: the first dimension on which two cells differ decides. -/
def orderCoords : List StoredValue → List StoredValue → Ordering
  | x :: xs, y :: ys =>
      match x.order y with
      | .ok .lt => .lt
      | .ok .gt => .gt
      | _ => orderCoords xs ys
  | _, _ => .eq

end Cell

namespace TiledArray

/-- The array of a schema and its cells. -/
def ofCells (schema : Schema) (tileExtent : Nat) (cells : List Cell) :
    Except ArrayError TiledArray :=
  if tileExtent = 0 then .error .emptyTile
  else if schema.dimensions.isEmpty then .error .noDimensions
  else
    match cells.forM (Cell.ensureFits schema) with
    | .error e => .error e
    | .ok () =>
        .ok ⟨schema, cells.mergeSort fun a b => Cell.orderCoords a.coords b.coords != .gt,
          tileExtent⟩

/-- The number of cells. -/
def size (a : TiledArray) : Nat := a.cells.length

/-- What a name refers to: the position of an attribute or of a dimension. -/
inductive Origin where
  | ofAttribute (position : Nat)
  | ofDimension (position : Nat)
deriving DecidableEq, Repr

/-- What is stored under a name. -/
structure StoredField where
  origin : Origin
  datatype : Datatype
  shape : FieldShape
deriving DecidableEq, Repr

/-- What is stored under a name, attributes first. -/
def stored? (a : TiledArray) (name : String) : Option StoredField :=
  match a.schema.attributes.zipIdx.find? (·.1.name == name) with
  | some (attr, position) =>
      some ⟨.ofAttribute position, attr.datatype, ⟨attr.varLen, attr.nullable⟩⟩
  | none =>
      match a.schema.dimension? name with
      | some (position, d) => some ⟨.ofDimension position, d.datatype, ⟨d.varLen, false⟩⟩
      | none => none

/-- What is stored under a name; an error when nothing is. -/
def stored (a : TiledArray) (name : String) : Except ArrayError StoredField :=
  match a.stored? name with
  | some f => .ok f
  | none => .error (.unknownField name)

namespace StoredField

/-- The value of a cell, none for null. -/
def value? (f : StoredField) (c : Cell) : Option StoredValue :=
  match f.origin with
  | .ofAttribute position => c.values[position]?.join
  | .ofDimension position => c.coords[position]?

/-- The elements that a cell takes in the value buffer. -/
def elements (f : StoredField) (c : Cell) : Nat :=
  if f.shape.varLen then
    match f.value? c with
    | some v => v.size
    | none => 0
  else 1

/-- The bytes of a cell in a buffer with offsets; null takes none. -/
def packed (f : StoredField) (c : Cell) : List UInt8 :=
  match f.value? c with
  | some v => v.encode
  | none => []

/-- The bytes of a cell in a buffer without offsets; null takes the place of one element. -/
def aligned (f : StoredField) (c : Cell) : List UInt8 :=
  match f.value? c with
  | some v => v.encode
  | none => List.replicate f.datatype.width 0

/-- The validity flag of a cell. -/
def flag (f : StoredField) (c : Cell) : UInt8 := if (f.value? c).isSome then 1 else 0

end StoredField

/-! ## The populated box -/

/-- Widen the bounds of one dimension to a coordinate. -/
def widen (bounds : StoredValue × StoredValue) (coord : StoredValue) :
    Except ValueError (StoredValue × StoredValue) :=
  match coord.order bounds.1, coord.order bounds.2 with
  | .error e, _ => .error e
  | .ok _, .error e => .error e
  | .ok l, .ok h =>
      .ok (if l = .lt then coord else bounds.1, if h = .gt then coord else bounds.2)

/-- Widen the bounds of every dimension to a cell. -/
def widenAll : List (StoredValue × StoredValue) → List StoredValue →
    Except ValueError (List (StoredValue × StoredValue))
  | b :: bs, c :: cs =>
      match widen b c with
      | .error e => .error e
      | .ok b => (widenAll bs cs).map (b :: ·)
  | bs, _ => .ok bs

/-- The least and greatest coordinate of each dimension; none without cells. -/
def populated (a : TiledArray) : Except ArrayError (Option (List (StoredValue × StoredValue))) :=
  match a.cells with
  | [] => .ok none
  | first :: rest =>
      match rest.foldlM (fun bounds c => widenAll bounds c.coords)
          (first.coords.map fun c => (c, c)) with
      | .error e => .error (.comparison e)
      | .ok bounds => .ok (some bounds)

end TiledArray

end SparseScan
