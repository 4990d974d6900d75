import SlotLayout.Collation.Error
import SlotLayout.Label
import SlotLayout.Layout

/-!
# Shapes of types

How packing treats a value of a type: whether it is placed as a whole or falls into parts, and how
many bytes it takes. Only an `inplace` type can have parts; a value of any other encoding takes one
slot, whatever its type says about bytes.

The parts of a value are listed all at once, and memory is taken to suffice for the list. The label
of an array may state any length of at most 64 bits, so this is an assumption: where the elements of
`uint8[18446744073709551615]` cannot be held in memory, packing breaks off without a result, while
here it has one.
-/

namespace SlotLayout

/-- The ways in which packing treats a value. -/
inductive Shape where
  | value
  | struct (members : List Declaration)
  | fixedArray (base : String) (length : Nat)
  /-- Kept elsewhere; only its slot is placed. -/
  | indirect
  deriving DecidableEq, Repr

/-- A value to be packed, by its full path and its type. -/
structure Part where
  name : String
  typeId : String
  deriving DecidableEq, Repr

/-- The part that a declaration stands for. -/
def Declaration.part (d : Declaration) : Part := ⟨d.label, d.typeId⟩

/-- The part that a member of the struct `name` stands for. -/
def Declaration.partOf (name : String) (d : Declaration) : Part :=
  ⟨name ++ "." ++ d.label, d.typeId⟩

/-- An element of the array `name`. -/
def Part.element (name base : String) (index : Nat) : Part :=
  ⟨name ++ "[" ++ toString index ++ "]", base⟩

/-- The parts that a value with the path `name` falls into, in order; none if it is placed as a
whole. -/
def Shape.parts? (name : String) : Shape → Option (List Part)
  | .struct members => some (members.map (·.partOf name))
  | .fixedArray base length => some ((List.range length).map (.element name base))
  | .value => none
  | .indirect => none

namespace TypeInfo

/-- The number of bytes that a value claims in its slot. -/
def size (info : TypeInfo) : Nat :=
  match info.encoding with
  | .inplace => info.byteCount
  | .mapping | .dynamicArray | .bytes => slotSize

/-- The number of bytes that a value fills with content. -/
def filled (info : TypeInfo) : Nat :=
  match info.encoding with
  | .mapping => 0
  | .inplace | .dynamicArray | .bytes => info.size

/-- The label without the lengths of arrays. -/
def normalizedLabel (info : TypeInfo) : String := Label.normalize info.label

/-- How values of the type `typeId` are packed. -/
def shape (info : TypeInfo) (typeId : String) : Except Collation.Error Shape :=
  match info.encoding, info.members?, info.base? with
  | .inplace, some _, some _ =>
    .error (.invalidShape typeId "both struct members and an element type")
  | .inplace, some members, none => .ok (.struct members)
  | .inplace, none, some base =>
    match Label.length? info.label with
    | some length => .ok (.fixedArray base length)
    | none => .error (.malformedArrayLabel info.label)
  | .inplace, none, none => .ok .value
  | .mapping, none, none => .ok .indirect
  | .mapping, _, _ =>
    .error (.invalidShape typeId "a mapping with struct members or an element type")
  | .dynamicArray, none, _ | .bytes, none, _ => .ok .indirect
  | .dynamicArray, some _, _ | .bytes, some _, _ =>
    .error (.invalidShape typeId "a dynamically-sized type with struct members")

end TypeInfo

/-- What is known of the type `typeId`, which has to be in the table. -/
def TypeTable.resolve (table : TypeTable) (typeId : String) : Except Collation.Error TypeInfo :=
  match table.get? typeId with
  | some info => .ok info
  | none => .error (.unknownType typeId)

/-- The types of the parts of a value of the type `typeId`; no types if it has no parts. -/
def TypeTable.partTypes (table : TypeTable) (typeId : String) : List String :=
  match table.get? typeId with
  | none => []
  | some info =>
    match info.shape typeId with
    | .ok (.struct members) => members.map (·.typeId)
    | .ok (.fixedArray base length) => List.replicate length base
    | _ => []

end SlotLayout
