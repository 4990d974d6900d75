import SlotLayout.Numeral

/-!
# Written values

The values that documents are made of when they are written, and their texts: on one line without
blanks (`Style.compact`), or with one item or member a line, each level indented by a fixed number
of spaces (`Style.indented`). Empty lists and objects stay on one line in either style.
-/

namespace SlotLayout.Json

/-- A value to write. -/
inductive Value where
  | text (s : String)
  | count (n : Nat)
  | flag (b : Bool)
  | list (items : List Value)
  | object (members : List (String × Value))

/-- How a value is spread over lines. -/
inductive Style where
  | compact
  | indented (width : Nat)
  deriving DecidableEq, Repr

/-- What separates an item from what stands before it, at nesting depth `depth`. -/
def Style.lineBreak (style : Style) (depth : Nat) : List Char :=
  match style with
  | .compact => []
  | .indented width => '\n' :: List.replicate (width * depth) ' '

/-- What stands between a key and its value. -/
def Style.afterKey : Style → List Char
  | .compact => [':']
  | .indented _ => [':', ' ']

/-- How a character stands in a text literal: the quote, the backslash and controls are escaped. -/
def writtenChar (c : Char) : List Char :=
  if c = '"' ∨ c = '\\' then ['\\', c]
  else if c = '\x08' then ['\\', 'b']
  else if c = '\x0c' then ['\\', 'f']
  else if c = '\n' then ['\\', 'n']
  else if c = '\r' then ['\\', 'r']
  else if c = '\t' then ['\\', 't']
  else if c.toNat < 0x20 then '\\' :: 'u' :: Numeral.padded 16 4 c.toNat
  else [c]

/-- A text literal. -/
def literal (s : String) : List Char := '"' :: s.toList.flatMap writtenChar ++ ['"']

mutual

/-- The text of a value inside `depth` lists and objects. -/
def Value.chars (style : Style) (depth : Nat) : Value → List Char
  | .text s => literal s
  | .count n => Nat.toDigits 10 n
  | .flag true => "true".toList
  | .flag false => "false".toList
  | .list [] => ['[', ']']
  | .list (v :: vs) =>
    '[' :: style.lineBreak (depth + 1) ++ v.chars style (depth + 1) ++
      moreItems style (depth + 1) vs ++ style.lineBreak depth ++ [']']
  | .object [] => ['\x7b', '\x7d']
  | .object ((key, v) :: ms) =>
    '\x7b' :: style.lineBreak (depth + 1) ++ literal key ++ style.afterKey ++
      v.chars style (depth + 1) ++ moreMembers style (depth + 1) ms ++
      style.lineBreak depth ++ ['\x7d']

/-- The items of a list after the first one. -/
def moreItems (style : Style) (depth : Nat) : List Value → List Char
  | [] => []
  | v :: vs =>
    ',' :: style.lineBreak depth ++ v.chars style depth ++ moreItems style depth vs

/-- The members of an object after the first one. -/
def moreMembers (style : Style) (depth : Nat) : List (String × Value) → List Char
  | [] => []
  | (key, v) :: ms =>
    ',' :: style.lineBreak depth ++ literal key ++ style.afterKey ++ v.chars style depth ++
      moreMembers style depth ms

end

/-- The text of a value. -/
def Value.write (style : Style) (v : Value) : String := String.ofList (v.chars style 0)

end SlotLayout.Json
