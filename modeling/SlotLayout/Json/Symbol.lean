/-!
# Input symbols

What a reader meets in its input: characters, bytes that belong to no character, and the point
where the source failed. `Symbol.ofText` and `Symbol.ofBytes` give the symbols of the two kinds of
input; from bytes, a character is read wherever its UTF-8 form stands.
-/

namespace SlotLayout.Json

/-- One item of input. -/
inductive Symbol where
  | char (c : Char)
  | stray (byte : UInt8)
  | fault (reason : String)
  deriving DecidableEq, Repr

namespace Symbol

/-- The symbols of a text are its characters. -/
def ofText (s : String) : List Symbol := s.toList.map .char

/-- The number of bytes a symbol takes up. -/
def size : Symbol → Nat
  | char c => c.utf8Size
  | stray _ => 1
  | fault _ => 0

/-- The value of leading bits followed by those of `count` continuation bytes. -/
def continued (bits : Nat) : Nat → List UInt8 → Option Nat
  | 0, _ => some bits
  | count + 1, b :: bs =>
    if 0x80 ≤ b.toNat ∧ b.toNat < 0xc0 then
      continued (bits * 0x40 + (b.toNat - 0x80)) count bs
    else none
  | _ + 1, [] => none

/-- The character of a code point, unless that is below `least` or no scalar value. -/
def scalar? (least n : Nat) : Option Char :=
  if least ≤ n ∧ n.isValidChar then some (Char.ofNat n) else none

/-- The character whose UTF-8 form starts with the byte `b` and goes on in `bs`. -/
def decode? (b : UInt8) (bs : List UInt8) : Option Char :=
  let n := b.toNat
  if n < 0x80 then scalar? 0 n
  else if n < 0xc0 then none
  else if n < 0xe0 then (continued (n - 0xc0) 1 bs).bind (scalar? 0x80)
  else if n < 0xf0 then (continued (n - 0xe0) 2 bs).bind (scalar? 0x800)
  else if n < 0xf8 then (continued (n - 0xf0) 3 bs).bind (scalar? 0x10000)
  else none

/-- The symbols of the bytes after `skip` of them, which belong to a character already read. -/
def ofBytesAfter : Nat → List UInt8 → List Symbol
  | _, [] => []
  | skip + 1, _ :: bs => ofBytesAfter skip bs
  | 0, b :: bs =>
    match decode? b bs with
    | some c => char c :: ofBytesAfter (c.utf8Size - 1) bs
    | none => stray b :: ofBytesAfter 0 bs

/-- The symbols of a sequence of bytes. -/
def ofBytes (bytes : List UInt8) : List Symbol := ofBytesAfter 0 bytes

end Symbol

end SlotLayout.Json
