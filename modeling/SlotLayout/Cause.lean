import SlotLayout.Alignment.Error
import SlotLayout.Collation.Error
import SlotLayout.Document.Error

/-!
# Causes

The errors of all parts of the library as one type, for reports that may hold any of them.
-/

namespace SlotLayout

/-- An error of any part of the library. -/
inductive Cause where
  | collation (e : Collation.Error)
  | alignment (e : Alignment.Error)
  | document (e : Document.Error)
  deriving DecidableEq

/-- The wording of an error is that of the part it comes from. -/
def Cause.message : Cause → String
  | .collation e => e.message
  | .alignment e => e.message
  | .document e => e.message

instance : ToString Cause := ⟨Cause.message⟩

end SlotLayout
