import SlotLayout.Numeral

/-!
# Type labels

The label of a fixed-size array type ends in its length between brackets, as in `uint8[3]`.

* `Label.normalize` leaves out every such length, so that labels that differ in lengths only become
  equal;
* `Label.length?` reads the length at the end of a label.
-/

namespace SlotLayout.Label

/-- Whether the text starts with digits, or none, and a closing bracket. -/
def closesLength : List Char → Bool
  | [] => false
  | c :: cs => c = ']' || (Numeral.isDigit c && closesLength cs)

/-- A label without its lengths; inside a length, digits are left out. -/
def normalizeFrom (inLength : Bool) : List Char → List Char
  | [] => []
  | c :: cs =>
    if inLength && Numeral.isDigit c then normalizeFrom true cs
    else c :: normalizeFrom (c = '[' && closesLength cs) cs

/-- A label without the lengths in it. -/
def normalize (label : String) : String := String.ofList (normalizeFrom false label.toList)

/-- The length in a label of the form `base[digits]`, if it is a count. The base is not empty and
may itself have brackets. -/
def length? (label : String) : Option Nat :=
  match label.toList.reverse with
  | ']' :: back =>
    match back.span Numeral.isDigit with
    | (d :: ds, '[' :: _ :: _) =>
      (Numeral.readOnto 10 Numeral.countBound 0 (d :: ds).reverse).toOption
    | _ => none
  | _ => none

end SlotLayout.Label
