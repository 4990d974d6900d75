import SlotLayout.Alignment
import SlotLayout.Cause
import SlotLayout.Collation

/-!
# Comparison of layouts

Two layouts compared from end to end: both are collated, layout A first, and their slots are
aligned. The steps can be taken one at a time (`Comparison.collate`, `Collated.align`) or all at
once (`Comparison.diff`).
-/

namespace SlotLayout

/-- Two layouts to compare. Both start at the slot `firstSlot`; if `pad` is set, one may have fewer
slots than the other. -/
structure Comparison where
  a : Layout
  b : Layout
  firstSlot : Word
  pad : Bool
  deriving DecidableEq

/-- The slots of both layouts of a comparison. -/
structure Collated where
  slotsA : List Slot
  slotsB : List Slot
  pad : Bool
  deriving DecidableEq

/-- The slots of both layouts of a comparison, and the slots paired up. -/
structure Aligned where
  slotsA : List Slot
  slotsB : List Slot
  pairs : List SlotPair
  deriving DecidableEq

/-- A result whose errors are seen as those of the whole library. -/
def widen {ε α : Type} (cause : ε → Cause) : Except (Report ε) α → Except (Report Cause) α
  | .ok a => .ok a
  | .error r => .error (r.map cause)

namespace Comparison

/-- Collates both layouts. -/
def collate (c : Comparison) : Except (Report Cause) Collated := do
  let slotsA ← widen .collation (c.a.collate c.firstSlot)
  let slotsB ← widen .collation (c.b.collate c.firstSlot)
  return ⟨slotsA, slotsB, c.pad⟩

end Comparison

/-- Aligns the slots of both layouts. -/
def Collated.align (c : Collated) : Except (Report Cause) Aligned := do
  let pairs ← widen .alignment (SlotLayout.align c.pad c.slotsA c.slotsB)
  return ⟨c.slotsA, c.slotsB, pairs⟩

/-- Whether the two layouts differ anywhere. -/
def Aligned.anyChanges (c : Aligned) : Bool := c.pairs.any (·.hasChanges)

/-- The slots of both layouts, paired up. -/
def Comparison.diff (c : Comparison) : Except (Report Cause) (List SlotPair) := do
  let collated ← c.collate
  let aligned ← collated.align
  return aligned.pairs

end SlotLayout
