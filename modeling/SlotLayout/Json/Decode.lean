import SlotLayout.Json.Tree
import SlotLayout.Text.Blank
import SlotLayout.Word

/-!
# Decoders

A decoder reads a tree as a value of one type or says what is wrong first, in the order of the text.
A scalar of the wrong kind is read in full before it is refused, a list or object is refused at
once.
-/

namespace SlotLayout.Json

/-- A reader of trees. -/
abbrev Decoder (α : Type) := Tree → Except Error α

/-- Turns a possible error into a check. -/
def check : Option Error → Except Error Unit
  | none => .ok ()
  | some e => .error e

/-- The error of a reader that wanted something else. -/
def Tree.refuse (wanted : String) : Tree → Error
  | .null => .wrongKind .null wanted
  | .flag b => .wrongKind (.flag b) wanted
  | .number (.ok n) => .wrongKind (.number n) wanted
  | .number (.error e) => e
  | .text (.ok s) => .wrongKind (.text s) wanted
  | .text (.error e) => e
  | .list _ _ => .wrongKind .list wanted
  | .object _ _ => .wrongKind .object wanted
  | .broken why => why.strict

namespace Decoder

/-- A text. -/
def text : Decoder String
  | .text read => read
  | t => .error (t.refuse "a string")

/-- A natural number of at most 64 bits; `kind` is what a message calls it. -/
def natural (kind : String) : Decoder Nat
  | .number (.ok (.natural n)) => .ok n
  | .number (.ok (.negative n)) => .error (.wrongNumber (.negative n) kind)
  | t => .error (t.refuse kind)

/-- A count of bytes. -/
def count : Decoder Nat := natural "usize"

/-- A truth value. -/
def flag : Decoder Bool
  | .flag b => .ok b
  | t => .error (t.refuse "a boolean")

/-- A value or null. -/
def optional {α : Type} (decode : Decoder α) : Decoder (Option α)
  | .null => .ok none
  | t => some <$> decode t

/-- A list of values. -/
def list {α : Type} (decode : Decoder α) : Decoder (List α)
  | .list items ending => do
    let values ← items.mapM decode
    check ending.listError?
    return values
  | t => .error (t.refuse "a sequence")

/-- A slot index or byte position, as text. -/
def word : Decoder Word := fun t => do
  match Word.ofText (← text t) with
  | .ok w => .ok w
  | .error e => .error (.numeral e)

/-- Reads a whole document. -/
def run {α : Type} (decode : Decoder α) (d : Document) : Except Error α := do
  let value ← decode d.root
  check d.trailing
  return value

/-- Reads the document in a sequence of symbols. -/
def ofSymbols {α : Type} (decode : Decoder α) (input : List Symbol) : Except Error α :=
  run decode (document (tokens input))

/-- Reads the document in a text. -/
def ofText {α : Type} (decode : Decoder α) (s : String) : Except Error α :=
  ofSymbols decode (Symbol.ofText s)

end Decoder

/-! ## Values of any kind -/

/-- The deepest nesting of lists and objects that is read, counted from the outermost of the
document, is below this limit. -/
def depthLimit : Nat := 128

mutual

/-- What stops a strict reader of a value that stands inside `depth` lists and objects. -/
def Tree.error? (depth : Nat) : Tree → Option Error
  | .number (.error e) => some e
  | .text (.error e) => some e
  | .list items ending =>
    if depth + 1 < depthLimit then (itemsError? (depth + 1) items).or ending.listError?
    else some .tooDeep
  | .object members ending =>
    if depth + 1 < depthLimit then (membersError? (depth + 1) members).or ending.objectError?
    else some .tooDeep
  | .broken why => some why.strict
  | _ => none

/-- What stops a strict reader of the items of a list. -/
def itemsError? (depth : Nat) : List Tree → Option Error
  | [] => none
  | t :: ts =>
    match t.error? depth with
    | some e => some e
    | none => itemsError? depth ts

/-- What stops a strict reader of the members of an object. -/
def membersError? (depth : Nat) : List (Key × Tree) → Option Error
  | [] => none
  | (.error e, _) :: _ => some e
  | (.ok _, t) :: ms =>
    match t.error? depth with
    | some e => some e
    | none => membersError? depth ms

end

/-- A count of bytes given as a number or as a text, which may have blanks around it. The value is
read in full before its kind is looked at; it stands inside `depth` lists and objects. -/
def Decoder.looseCount (depth : Nat) : Decoder Nat := fun t => do
  check (t.error? depth)
  match t with
  | .number (.ok (.natural n)) => .ok n
  | .text (.ok s) =>
    match Numeral.read 10 Numeral.countBound (Text.trim s.toList) with
    | .ok n => .ok n
    | .error e => .error (.numeral e)
  | _ => .error (.noVariant "Count")

end SlotLayout.Json
