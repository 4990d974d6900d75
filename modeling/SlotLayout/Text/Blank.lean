/-!
# Blank characters

The characters with the property White_Space, and texts without those at their ends.
-/

namespace SlotLayout.Text

/-- The twenty-five characters with the property White_Space. -/
def isBlank (c : Char) : Bool :=
  let n := c.toNat
  (0x9 ≤ n && n ≤ 0xd) || n == 0x20 || n == 0x85 || n == 0xa0 || n == 0x1680 ||
    (0x2000 ≤ n && n ≤ 0x200a) || n == 0x2028 || n == 0x2029 || n == 0x202f || n == 0x205f ||
    n == 0x3000

/-- A text without the blanks in front of it. -/
def trimStart (cs : List Char) : List Char := cs.dropWhile isBlank

/-- A text without the blanks at either end. -/
def trim (cs : List Char) : List Char := (trimStart (trimStart cs).reverse).reverse

/-- A text that neither starts nor ends with a blank is left as it is. -/
theorem trim_eq_self {cs : List Char} (hs : ∀ c ∈ cs.head?, isBlank c = false)
    (he : ∀ c ∈ cs.getLast?, isBlank c = false) : trim cs = cs := by
  have h {l : List Char} (h : ∀ c ∈ l.head?, isBlank c = false) : trimStart l = l := by
    cases l with
    | nil => rfl
    | cons c l => simp [trimStart, h c rfl]
  rw [trim, h hs, h (by simpa using he), List.reverse_reverse]

/-- Blanks around a text make no difference. -/
theorem trim_append {l cs r : List Char} (hl : ∀ c ∈ l, isBlank c = true)
    (hr : ∀ c ∈ r, isBlank c = true) : trim (l ++ (cs ++ r)) = trim cs := by
  have hfront {l rest : List Char} (hl : ∀ c ∈ l, isBlank c = true) :
      trimStart (l ++ rest) = trimStart rest := List.dropWhile_append_of_pos hl
  have hall : trimStart r = [] := by
    rw [← List.append_nil r, hfront hr]
    rfl
  have hsplit : trimStart (cs ++ r) =
      if (trimStart cs).isEmpty then trimStart r else trimStart cs ++ r := List.dropWhile_append
  rw [trim, hfront hl, hsplit, trim]
  split
  · rename_i hempty
    rw [hall, List.isEmpty_iff.1 hempty]
  · rw [List.reverse_append, hfront fun c hc => hr c (List.mem_reverse.1 hc)]

end SlotLayout.Text
