import SlotLayout.Alignment.Error
import SlotLayout.Report
import SlotLayout.Slot
import SlotLayout.Sweep

/-!
# Alignment of slots

Two lists of slots compared byte by byte. Slots are paired by position. On each side of a pair, gaps
are put between the values and up to the larger of the two reservations, so that both sides cover
the same bytes, and the two sides are swept together. A stretch is changed if the two sides name
different declarations there: other names, or other type labels even without the lengths of arrays.

* `Slot.segments`: the values of a slot with the gaps between them;
* `Slot.alignWith`: one pair of slots;
* `align`: two lists of slots.
-/

namespace SlotLayout

/-- What covers some bytes of a slot on one side: a value, or nothing. -/
structure Segment where
  name : String
  typeId : String
  typeLabel : String
  offset : Nat
  size : Nat
  deriving DecidableEq

/-- Whether two sides name the same declaration. -/
def sameDeclaration (nameA labelA nameB labelB : String) : Bool :=
  nameA == nameB && Label.normalize labelA == Label.normalize labelB

namespace Segment

/-- Bytes that nothing covers. -/
def gap (offset size : Nat) : Segment := ⟨"", "", "", offset, size⟩

/-- The bytes of a value. -/
def ofEntry (e : Entry) : Segment := ⟨e.name, e.typeId, e.typeLabel, e.offset, e.size⟩

/-- Whether nothing covers the bytes. -/
def isGap (s : Segment) : Bool := s.name == "" && s.typeLabel == ""

/-- The offset after the last byte. -/
def stop (s : Segment) : Nat := s.offset + s.size

/-- Whether two segments name the same declaration. -/
def sameAs (s t : Segment) : Bool := sameDeclaration s.name s.typeLabel t.name t.typeLabel

end Segment

/-- A stretch of bytes of a slot and what covers it on the two sides. -/
structure Span where
  slot : Word
  start : Nat
  stop : Nat
  a : Segment
  b : Segment
  changed : Bool
  deriving DecidableEq

/-- Two aligned slots: what they count, and their bytes in stretches. -/
structure SlotPair where
  index : Word
  reservedA : Nat
  reservedB : Nat
  filledA : Nat
  filledB : Nat
  spans : List Span
  deriving DecidableEq

/-- Whether the two sides differ anywhere in the slot. -/
def SlotPair.hasChanges (p : SlotPair) : Bool := p.spans.any (·.changed)

/-- The stretches where the two sides differ. -/
def changedSpans (pairs : List SlotPair) : List Span :=
  (pairs.flatMap (·.spans)).filter (·.changed)

/-- The segments of values from the byte `covered` on, with gaps before, between and after them so
that they reach up to `span`. -/
def segmentsFrom (span covered : Nat) : List Entry → List Segment
  | [] => if covered < span then [.gap covered (span - covered)] else []
  | e :: es =>
    (if covered < e.offset then [.gap covered (e.offset - covered)] else []) ++
      .ofEntry e :: segmentsFrom span (max covered e.stop) es

/-- The segments of a slot, which cover its bytes up to `span`. -/
def Slot.segments (s : Slot) (span : Nat) : List Segment := segmentsFrom span 0 s.entries

/-- The stretch of a piece in the slot at `index`. -/
def Span.ofPiece (index : Word) (p : Piece Nat Segment) : Span :=
  ⟨index, p.start, p.stop, p.a, p.b, !p.a.sameAs p.b⟩

/-- The pair of two slots, with indices taken to be equal. -/
def Slot.pairWith (a b : Slot) : SlotPair :=
  let span := max a.reserved b.reserved
  ⟨a.index, a.reserved, b.reserved, a.filled, b.filled,
    (sweep Segment.stop 0 (a.segments span) (b.segments span)).map (.ofPiece a.index)⟩

/-- Aligns two slots, which need to have one index. -/
def Slot.alignWith (a b : Slot) : Except (Report Alignment.Error) SlotPair :=
  if a.index = b.index then .ok (a.pairWith b)
  else .error (.one (.slot a.index) (.slotIndexMismatch a.index b.index))

/-- Pairs slots by position; where one side has none, a blank slot stands in. -/
def pairUp : List Slot → List Slot → List (Slot × Slot)
  | a :: as, b :: bs => (a, b) :: pairUp as bs
  | as, [] => as.map fun a => (a, .blank a.index)
  | [], bs => bs.map fun b => (.blank b.index, b)

/-- Aligns two lists of slots; lists of different lengths only where `pad` allows blank slots. -/
def align (pad : Bool) (as bs : List Slot) : Except (Report Alignment.Error) (List SlotPair) :=
  if as.length ≠ bs.length ∧ pad = false then
    .error (.one .document (.slotCountMismatch as.length bs.length))
  else (pairUp as bs).mapM fun p => p.1.alignWith p.2

end SlotLayout
