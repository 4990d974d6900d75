import SlotLayout.Decimal.Shortest
import SlotLayout.Numeral
import SlotLayout.Text.Quoted

/-!
# Errors of JSON reading

Everything that can be wrong with a JSON text or with the value it holds, and the wording of each.
-/

namespace SlotLayout.Json

/-- A number as read: a whole number of at most 64 bits, or a floating point number. -/
inductive Number where
  | natural (n : Nat)
  | negative (magnitude : Nat)
  | float (isNegative : Bool) (magnitude : Decimal.Binary64)
  deriving DecidableEq, Repr

/-- Floating point numbers are shown positionally from `10 ^ -5` up to below `10 ^ 16`. -/
def floatLayout : Decimal.Layout := ⟨-5, 15, true⟩

/-- How a message shows a number. -/
def Number.describe : Number → String
  | .natural n => s!"integer `{n}`"
  | .negative n => s!"integer `-{n}`"
  | .float isNegative x =>
    "floating point `" ++ (if isNegative then "-" else "") ++
      floatLayout.write (Decimal.shortest x) ++ "`"

/-- What stood where another kind of value was wanted. -/
inductive Found where
  | null
  | flag (b : Bool)
  | number (n : Number)
  | text (s : String)
  | list
  | object
  deriving DecidableEq, Repr

/-- How a message shows a value. -/
def Found.describe : Found → String
  | .null => "null"
  | .flag b => s!"boolean `{b}`"
  | .number n => n.describe
  | .text s => "string " ++ Text.quoted s
  | .list => "sequence"
  | .object => "map"

/-- The construct that was not complete when the input ended. -/
inductive Construct where
  | list
  | object
  | text
  | value
  deriving DecidableEq, Repr

/-- How a message names a construct. -/
def Construct.describe : Construct → String
  | .list => "a list"
  | .object => "an object"
  | .text => "a string"
  | .value => "a value"

/-- Why a text could not be read as a value of the wanted kind. -/
inductive Error where
  | endOfInput (within : Construct)
  | unreadable (reason : String)
  | expectedColon
  | expectedListComma
  | expectedObjectComma
  | expectedLiteral
  | expectedValue
  | keyNotText
  | trailingComma
  | trailingCharacters
  | invalidNumber
  | numberTooLarge
  | controlCharacter
  | invalidEscape
  | loneSurrogate
  | unpairedSurrogate
  | invalidCodePoint
  | tooDeep
  | wrongKind (found : Found) (wanted : String)
  | wrongNumber (found : Number) (wanted : String)
  | wrongLength (length : Nat) (wanted : String)
  | missingField (name : String)
  | duplicateField (name : String)
  | unknownVariant (name : String) (known : List String)
  | noVariant (kind : String)
  | numeral (reason : Numeral.Error)
  deriving DecidableEq, Repr

/-- The wording of an error. -/
def Error.message : Error → String
  | .endOfInput within => "EOF while parsing " ++ within.describe
  | .unreadable reason => reason
  | .expectedColon => "expected `:`"
  | .expectedListComma => "expected `,` or `]`"
  | .expectedObjectComma => "expected `,` or `\x7d`"
  | .expectedLiteral => "expected ident"
  | .expectedValue => "expected value"
  | .keyNotText => "key must be a string"
  | .trailingComma => "trailing comma"
  | .trailingCharacters => "trailing characters"
  | .invalidNumber => "invalid number"
  | .numberTooLarge => "number out of range"
  | .controlCharacter => "control character (\\u0000-\\u001F) found while parsing a string"
  | .invalidEscape => "invalid escape"
  | .loneSurrogate => "lone leading surrogate in hex escape"
  | .unpairedSurrogate => "unexpected end of hex escape"
  | .invalidCodePoint => "invalid unicode code point"
  | .tooDeep => "recursion limit exceeded"
  | .wrongKind found wanted => "invalid type: " ++ found.describe ++ ", expected " ++ wanted
  | .wrongNumber found wanted => "invalid value: " ++ found.describe ++ ", expected " ++ wanted
  | .wrongLength length wanted => s!"invalid length {length}, expected " ++ wanted
  | .missingField name => "missing field `" ++ name ++ "`"
  | .duplicateField name => "duplicate field `" ++ name ++ "`"
  | .unknownVariant name known =>
    "unknown variant `" ++ name ++ "`, expected one of " ++
      ", ".intercalate (known.map fun k => "`" ++ k ++ "`")
  | .noVariant kind => "data did not match any variant of untagged enum " ++ kind
  | .numeral reason => reason.message

end SlotLayout.Json
