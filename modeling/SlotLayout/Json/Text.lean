import SlotLayout.Json.Error
import SlotLayout.Json.Symbol

/-!
# Text literals

The part of a text literal after its opening quote. A literal is looked at in two ways at once. A
lax reader, which only wants to get past it, checks that escapes are well formed and that no control
character occurs. A strict reader wants the text itself, so it also needs surrogate escapes in pairs
and, at the closing quote, characters only.

* `TextScan`: what both readers make of a literal;
* `scanText`: the scan, which goes as far as the lax reader does.
-/

namespace SlotLayout.Json

/-- What the strict reader has so far: the characters (last one first), whether a stray byte was
among them, and a leading surrogate that waits for its partner; or the error it stopped at. -/
inductive Strict where
  | reading (chars : List Char) (stray : Bool) (lead : Option Nat)
  | failed (e : Error)
  deriving DecidableEq, Repr

namespace Strict

/-- The strict reader before the first character. -/
def start : Strict := reading [] false none

/-- Takes a character that is not given as a code unit. -/
def push (c : Char) : Strict → Strict
  | reading cs stray none => reading (c :: cs) stray none
  | reading _ _ (some _) => failed .unpairedSurrogate
  | failed e => failed e

/-- Takes a byte that belongs to no character. -/
def pushStray : Strict → Strict
  | reading cs _ none => reading cs true none
  | reading _ _ (some _) => failed .unpairedSurrogate
  | failed e => failed e

/-- A code unit that only comes second in a pair. -/
def isTrail (n : Nat) : Bool := 0xdc00 ≤ n && n ≤ 0xdfff

/-- A code unit that only comes first in a pair. -/
def isLead (n : Nat) : Bool := 0xd800 ≤ n && n ≤ 0xdbff

/-- Takes an escaped UTF-16 code unit. -/
def pushUnit (n : Nat) : Strict → Strict
  | reading cs stray none =>
    if isTrail n then failed .loneSurrogate
    else if isLead n then reading cs stray (some n)
    else reading (Char.ofNat n :: cs) stray none
  | reading cs stray (some lead) =>
    if isTrail n then
      reading (Char.ofNat (0x10000 + (lead - 0xd800) * 0x400 + (n - 0xdc00)) :: cs) stray none
    else failed .loneSurrogate
  | failed e => failed e

/-- What the strict reader has at the closing quote. -/
def close : Strict → Except Error String
  | reading cs false none => .ok (String.ofList cs.reverse)
  | reading _ true none => .error .invalidCodePoint
  | reading _ _ (some _) => .error .unpairedSurrogate
  | failed e => .error e

/-- The strict reader's error where both readers stop with `e`. -/
def errorOr (e : Error) : Strict → Error
  | reading _ _ _ => e
  | failed e' => e'

/-- The strict reader's error where the lax one stops with `e` at something other than the escaped
code unit that a leading surrogate needs. -/
def errorUnlessWaiting (e : Error) : Strict → Error
  | reading _ _ none => e
  | reading _ _ (some _) => .unpairedSurrogate
  | failed e' => e'

end Strict

/-- What a scan of a text literal finds: the strict reader's result and what follows the closing
quote, or the errors of the two readers. -/
inductive TextScan where
  | closed (read : Except Error String) (rest : List Symbol)
  | broken (strict lax : Error)

/-- The character that a one-letter escape stands for. -/
def escaped? (c : Char) : Option Char :=
  if c = '"' ∨ c = '\\' ∨ c = '/' then some c
  else if c = 'b' then some '\x08'
  else if c = 'f' then some '\x0c'
  else if c = 'n' then some '\n'
  else if c = 'r' then some '\r'
  else if c = 't' then some '\t'
  else none

/-- The code unit that four hexadecimal digits name. -/
def codeUnit? (a b c d : Char) : Option Nat := do
  let w ← Numeral.digitValue? a
  let x ← Numeral.digitValue? b
  let y ← Numeral.digitValue? c
  let z ← Numeral.digitValue? d
  return ((w * 16 + x) * 16 + y) * 16 + z

/-- Why no code unit could be read: an escape takes up `need` bytes, whatever they are, and only
then are they looked at. -/
def codeUnitError (need : Nat) : List Symbol → Error
  | [] => if need = 0 then .invalidEscape else .endOfInput .text
  | s :: rest =>
    if need = 0 then .invalidEscape
    else match s with
      | .fault reason => .unreadable reason
      | s => codeUnitError (need - s.size) rest

/-- Scans a text literal from behind its opening quote. -/
def scanText (read : Strict) : List Symbol → TextScan
  | [] => .broken (read.errorOr (.endOfInput .text)) (.endOfInput .text)
  | .fault reason :: _ => .broken (read.errorOr (.unreadable reason)) (.unreadable reason)
  | .stray _ :: rest => scanText read.pushStray rest
  | .char c :: rest =>
    if c = '"' then .closed read.close rest
    else if c = '\\' then
      match rest with
      | [] => .broken (read.errorOr (.endOfInput .text)) (.endOfInput .text)
      | .fault reason :: _ => .broken (read.errorOr (.unreadable reason)) (.unreadable reason)
      | .stray _ :: _ => .broken (read.errorUnlessWaiting .invalidEscape) .invalidEscape
      | .char e :: more =>
        if e = 'u' then
          match more with
          | .char w :: .char x :: .char y :: .char z :: after =>
            match codeUnit? w x y z with
            | some n => scanText (read.pushUnit n) after
            | none => .broken (read.errorOr (codeUnitError 4 more)) (codeUnitError 4 more)
          | more => .broken (read.errorOr (codeUnitError 4 more)) (codeUnitError 4 more)
        else
          match escaped? e with
          | some c => scanText (read.push c) more
          | none => .broken (read.errorUnlessWaiting .invalidEscape) .invalidEscape
    else if c.toNat < 0x20 then
      .broken (read.errorUnlessWaiting .controlCharacter) .controlCharacter
    else scanText (read.push c) rest

/-- A literal that closes takes up at least its closing quote. -/
theorem length_lt_of_scanText {read : Strict} {input : List Symbol} {s : Except Error String}
    {rest : List Symbol} (h : scanText read input = .closed s rest) :
    rest.length < input.length := by
  fun_induction scanText read input <;> simp_all <;> omega

end SlotLayout.Json
