/-!
# Errors of documents

Why a storage layout document could not be read or written.
-/

namespace SlotLayout.Document

/-- What went wrong with a document, with the reason in words. -/
inductive Error where
  | unreadable (reason : String)
  | unwritable (reason : String)
  deriving DecidableEq, Repr

/-- The wording of an error. -/
def Error.message : Error → String
  | .unreadable reason => "Could not parse storage layout document: " ++ reason
  | .unwritable reason => "Could not write storage layout document: " ++ reason

instance : ToString Error := ⟨Error.message⟩

end SlotLayout.Document
