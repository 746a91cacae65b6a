import SparseScan.Datatype

set_option autoImplicit false

/-! # Array schemas and projections

An array has dimensions, the axes of its coordinates, and attributes, the values of its cells.
`Schema.project` joins the columns a scan asks for with the schema: each column becomes one
`Field` whose ordinal is the column's position. A name is looked up among the attributes first. -/

namespace SparseScan

/-- A coordinate axis. -/
structure Dimension where
  name : String
  datatype : Datatype
  varLen : Bool
deriving DecidableEq, Repr

/-- A value stored in each cell. -/
structure Attribute where
  name : String
  datatype : Datatype
  varLen : Bool
  nullable : Bool
deriving DecidableEq, Repr

/-- Whether elements of a field have a length of their own, and whether they may be null. -/
structure FieldShape where
  varLen : Bool
  nullable : Bool
deriving DecidableEq, Repr

/-- The dimensions and attributes of an array, in their order. -/
structure Schema where
  dimensions : List Dimension
  attributes : List Attribute
deriving DecidableEq, Repr

namespace Schema

/-- The first attribute called `name`. -/
def attribute? (s : Schema) (name : String) : Option Attribute :=
  s.attributes.find? (·.name == name)

/-- The first dimension called `name`, with its position. -/
def dimension? (s : Schema) (name : String) : Option (Nat × Dimension) :=
  (s.dimensions.zipIdx.find? (·.1.name == name)).map fun (d, position) => (position, d)

end Schema

/-! ## Projections -/

/-- A column a scan asks for. -/
structure Column where
  name : String
  columnType : ColumnType
  isDimension : Bool
deriving DecidableEq, Repr

/-- What a field reads: an attribute, or the dimension at a position. -/
inductive FieldOrigin where
  | ofAttribute
  | ofDimension (position : Nat)
deriving DecidableEq, Repr

/-- A projected column joined with what it reads. -/
structure Field where
  ordinal : Nat
  name : String
  datatype : Datatype
  varLen : Bool
  nullable : Bool
  columnType : ColumnType
  origin : FieldOrigin
deriving DecidableEq, Repr

namespace Field

/-- Whether the field reads coordinates. -/
def isDimension (f : Field) : Bool :=
  match f.origin with
  | .ofAttribute => false
  | .ofDimension _ => true

/-- The shape of the field. -/
def shape (f : Field) : FieldShape := ⟨f.varLen, f.nullable⟩

end Field

/-- Why a projection does not fit a schema. -/
inductive SchemaError where
  | noDimensions
  | repeated (name : String)
  | unknown (name : String)
deriving DecidableEq, Repr

/-- The wording of each cause. -/
def SchemaError.message : SchemaError → String
  | noDimensions => "Schema error: array has no dimensions"
  | repeated name => s!"Schema error: column '{name}' projected twice"
  | unknown name => s!"Schema error: column '{name}' is neither an attribute nor a dimension"

namespace Schema

/-- The field that a column at position `ordinal` reads. -/
def field? (s : Schema) (ordinal : Nat) (c : Column) : Option Field :=
  match s.attribute? c.name with
  | some a => some ⟨ordinal, a.name, a.datatype, a.varLen, a.nullable, c.columnType, .ofAttribute⟩
  | none =>
      match s.dimension? c.name with
      | some (position, d) =>
          some ⟨ordinal, d.name, d.datatype, d.varLen, false, c.columnType, .ofDimension position⟩
      | none => none

/-- The fields of the columns that follow those in `done`. -/
def projectFrom (s : Schema) (done : List Field) : List Column → Except SchemaError (List Field)
  | [] => .ok done
  | c :: rest =>
      if done.any (·.name == c.name) then .error (.repeated c.name)
      else
        match s.field? done.length c with
        | some f => projectFrom s (done ++ [f]) rest
        | none => .error (.unknown c.name)

/-- The fields of a projection. A scan without columns still counts rows, so it reads the first
    dimension. -/
def project (s : Schema) (columns : List Column) : Except SchemaError (List Field) :=
  match columns with
  | [] =>
      match s.dimensions with
      | [] => .error .noDimensions
      | d :: _ =>
          .ok [⟨0, d.name, d.datatype, d.varLen, false, d.datatype.columnType, .ofDimension 0⟩]
  | columns => projectFrom s [] columns

end Schema

end SparseScan
