import SlotLayout.Word

/-!
# Reports

What went wrong, and where. An error of any kind may be given a `Location`, and errors are handed
back in a `Report`, which keeps them in the order in which they were added. The words of an error
come from its `ToString` instance.
-/

namespace SlotLayout

/-- The place in a storage layout that an error is about. -/
inductive Location where
  /-- A declaration, by its full path. -/
  | declaration (path : String)
  | slot (index : Word)
  | document
  deriving DecidableEq

/-- How a message names a place. -/
def Location.message : Location → String
  | .declaration path => "`" ++ path ++ "`"
  | .slot index => "slot " ++ index.decimal
  | .document => "document"

/-- An error and the place it is about. -/
structure Located (ε : Type) where
  location : Location
  error : ε
  deriving DecidableEq

/-- The error with its place in front. -/
def Located.message {ε : Type} [ToString ε] (e : Located ε) : String :=
  "[" ++ e.location.message ++ "]: " ++ toString e.error

/-- Errors in the order in which they were added. -/
structure Report (ε : Type) where
  errors : List (Located ε)
  deriving DecidableEq

namespace Report

variable {ε δ : Type}

/-- The report without errors. -/
def empty : Report ε := ⟨[]⟩

/-- The report of one error. -/
def one (location : Location) (error : ε) : Report ε := ⟨[⟨location, error⟩]⟩

/-- The report with one more error at its end. -/
def add (r : Report ε) (e : Located ε) : Report ε := ⟨r.errors ++ [e]⟩

/-- The number of errors. -/
def size (r : Report ε) : Nat := r.errors.length

/-- Whether there are no errors. -/
def isEmpty (r : Report ε) : Bool := r.errors.isEmpty

/-- The report with every error seen as one of a wider kind. -/
def map (f : ε → δ) (r : Report ε) : Report δ :=
  ⟨r.errors.map fun e => ⟨e.location, f e.error⟩⟩

/-- A line with the number of errors, then a line for each. -/
def message [ToString ε] (r : Report ε) : String :=
  if r.isEmpty then "Encountered no errors"
  else s!"Encountered {r.size} errors:\n" ++ String.join (r.errors.map fun e => e.message ++ "\n")

@[simp] theorem errors_one (location : Location) (error : ε) :
    (one location error).errors = [⟨location, error⟩] := rfl

@[simp] theorem map_one (f : ε → δ) (location : Location) (error : ε) :
    (one location error).map f = one location (f error) := rfl

end Report

end SlotLayout
