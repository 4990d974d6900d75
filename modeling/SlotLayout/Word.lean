import SlotLayout.Numeral

/-!
# Words

The storage space has `2 ^ 256` slots, and slot indices and byte positions are words of that many
bits. Arithmetic on them never wraps: `Word.successor?`, `Word.add?` and `Word.scale?` say when a
result does not fit.

A word is read from decimal or `0x` hexadecimal text (`Word.ofText`) and written either in decimal
(`Word.decimal`) or as all 64 hexadecimal digits (`Word.hex`).
-/

namespace SlotLayout

/-- The number of slots in the storage space, `2 ^ 256`. -/
def wordCount : Nat := Nat.pow 2 256

/-- A 256-bit natural number. -/
@[ext] structure Word where
  val : Nat
  isLt : val < wordCount
  deriving DecidableEq

namespace Word

/-- The word of a number, if it fits. -/
def ofNat? (n : Nat) : Option Word :=
  if h : n < wordCount then some ⟨n, h⟩ else none

/-- The first index. -/
def zero : Word := ⟨0, by decide⟩

instance : Ord Word := ⟨fun v w => compare v.val w.val⟩

instance : LT Word := ⟨fun v w => v.val < w.val⟩

instance : LE Word := ⟨fun v w => v.val ≤ w.val⟩

instance (v w : Word) : Decidable (v < w) := inferInstanceAs (Decidable (v.val < w.val))

instance (v w : Word) : Decidable (v ≤ w) := inferInstanceAs (Decidable (v.val ≤ w.val))

instance : Min Word := ⟨fun v w => if v ≤ w then v else w⟩

instance : Max Word := ⟨fun v w => if v ≤ w then w else v⟩

/-- The next word, unless this is the last one. -/
def successor? (w : Word) : Option Word := ofNat? (w.val + 1)

/-- The word `n` further on, if there is one. -/
def add? (w : Word) (n : Nat) : Option Word := ofNat? (w.val + n)

/-- The word `n` times as large, if it fits. -/
def scale? (n : Nat) (w : Word) : Option Word := ofNat? (n * w.val)

theorem ofNat?_eq_some_iff {n : Nat} {w : Word} : ofNat? n = some w ↔ n = w.val := by
  unfold ofNat?
  constructor
  · intro h
    split at h
    · cases h; rfl
    · cases h
  · rintro rfl
    exact dif_pos w.isLt

theorem ofNat?_eq_none_iff {n : Nat} : ofNat? n = none ↔ wordCount ≤ n := by
  unfold ofNat?
  split
  · rename_i h
    exact ⟨nofun, fun h' => absurd h (Nat.not_lt.2 h')⟩
  · rename_i h
    exact ⟨fun _ => Nat.not_lt.1 h, fun _ => rfl⟩

@[simp] theorem ofNat?_val (w : Word) : ofNat? w.val = some w := ofNat?_eq_some_iff.2 rfl

/-! ## Text -/

/-- The word that digits of a radix name. -/
def ofDigits (radix : Nat) (digits : List Char) : Except Numeral.Error Word :=
  match Numeral.read radix wordCount digits with
  | .error e => .error e
  | .ok n =>
    match ofNat? n with
    | some w => .ok w
    | none => .error .tooLarge

/-- Reads hexadecimal digits after `0x`, decimal digits otherwise. -/
def ofChars : List Char → Except Numeral.Error Word
  | '0' :: 'x' :: digits => ofDigits 16 digits
  | digits => ofDigits 10 digits

/-- The word that a decimal or `0x` hexadecimal text names. -/
def ofText (s : String) : Except Numeral.Error Word := ofChars s.toList

/-- The decimal digits of a word. -/
def decimal (w : Word) : String := toString w.val

/-- The prefix `0x` and all 64 hexadecimal digits of a word. -/
def hex (w : Word) : String := String.ofList ('0' :: 'x' :: Numeral.padded 16 64 w.val)

end Word

end SlotLayout
