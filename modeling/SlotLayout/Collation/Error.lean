/-!
# Errors of collation

Why declarations cannot be packed into slots. All but one are found where packing comes to them.
`endlessType` stands for packing that would go on without end, or until the slots are used up:
`SlotLayout.Collation` says where the two differ.
-/

namespace SlotLayout.Collation

/-- What is wrong with a type, or with the place of a declaration. -/
inductive Error where
  | unknownType (typeId : String)
  | malformedArrayLabel (label : String)
  | invalidShape (typeId reason : String)
  | slotIndexOverflow
  /-- The parts of the type have parts of the same type, and so on without end. Packing without a
  limit to its depth does not come to this error. -/
  | endlessType (typeId : String)
  deriving DecidableEq, Repr

/-- The wording of an error. -/
def Error.message : Error → String
  | .unknownType typeId => "Type `" ++ typeId ++ "` is not present in the type table"
  | .malformedArrayLabel label =>
    "Fixed-size array label `" ++ label ++ "` does not have the form `<base>[<length>]`"
  | .invalidShape typeId reason => "Type `" ++ typeId ++ "` has an invalid shape: " ++ reason
  | .slotIndexOverflow => "Packing ran past the last slot in the storage space"
  | .endlessType typeId => "Type `" ++ typeId ++ "` contains itself"

instance : ToString Error := ⟨Error.message⟩

end SlotLayout.Collation
