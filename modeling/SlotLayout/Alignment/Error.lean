import SlotLayout.Word

/-!
# Errors of alignment

Why two layouts cannot be laid side by side.
-/

namespace SlotLayout

/-- One of the two layouts that are compared. -/
inductive Side where
  | a
  | b
  deriving DecidableEq, Repr

/-- The letter of a side. -/
def Side.letter : Side → String
  | .a => "A"
  | .b => "B"

namespace Alignment

/-- What keeps slots or intervals from being aligned. -/
inductive Error where
  | slotCountMismatch (a b : Nat)
  | slotIndexMismatch (a b : Word)
  | emptyLayout (side : Side)
  | byteOffsetOverflow (index : Word)
  deriving DecidableEq

/-- The wording of an error. -/
def Error.message : Error → String
  | .slotCountMismatch a b =>
    s!"Cannot align {a} slots in layout A against {b} slots in layout B"
  | .slotIndexMismatch a b =>
    "Cannot align slot " ++ a.decimal ++ " in layout A against slot " ++ b.decimal ++
      " in layout B"
  | .emptyLayout side => "Layout " ++ side.letter ++ " has no storage to align"
  | .byteOffsetOverflow index =>
    "The byte offset of slot " ++ index.decimal ++ " does not fit in the storage space"

instance : ToString Error := ⟨Error.message⟩

end Alignment

end SlotLayout
