import SlotLayout.Alignment

/-!
# Intervals

Layouts without slot borders: the values as intervals of bytes, counted from the start of storage,
with gaps between them (`flatten`), and two such lists laid side by side (`alignIntervals`).
-/

namespace SlotLayout

/-- Bytes of storage that are covered by one value, or by nothing. -/
structure Interval where
  start : Word
  stop : Word
  label : String
  typeLabel : String
  deriving DecidableEq

namespace Interval

/-- Bytes that nothing covers. -/
def gap (start stop : Word) : Interval := ⟨start, stop, "", ""⟩

/-- Whether nothing covers the bytes. -/
def isGap (i : Interval) : Bool := i.label == "" && i.typeLabel == ""

/-- Whether two intervals name the same declaration. -/
def sameAs (i j : Interval) : Bool := sameDeclaration i.label i.typeLabel j.label j.typeLabel

end Interval

/-- Bytes of storage and what covers them on the two sides. -/
structure IntervalPair where
  start : Word
  stop : Word
  a : Interval
  b : Interval
  changed : Bool
  deriving DecidableEq

/-! ## Flattening -/

/-- The report that some byte of a slot lies beyond the end of storage. -/
def byteOffsetOverflow (index : Word) : Report Alignment.Error :=
  .one (.slot index) (.byteOffsetOverflow index)

/-- The word, or the report that it would lie beyond the end of storage. -/
def inStorage (index : Word) : Option Word → Except (Report Alignment.Error) Word
  | some w => .ok w
  | none => .error (byteOffsetOverflow index)

/-- The position of the first byte of the slot at `index`. -/
def slotBase (index : Word) : Except (Report Alignment.Error) Word :=
  inStorage index (index.scale? slotSize)

/-- The intervals of values that start in the slot at `index`, with the gaps before them, and the
position up to which bytes have been dealt with. -/
def flattenEntries (index base covered : Word) :
    List Entry → Except (Report Alignment.Error) (List Interval × Word)
  | [] => .ok ([], covered)
  | e :: es => do
    let start ← inStorage index (base.add? e.offset)
    let stop ← inStorage index (start.add? e.size)
    let (rest, covered') ← flattenEntries index base (max covered stop) es
    return ((if covered < start then [.gap covered start] else []) ++
      ⟨start, stop, e.name, e.typeLabel⟩ :: rest, covered')

/-- The intervals of slots once the bytes up to `covered` have been dealt with. Before the first
slot, they are dealt with up to where that slot starts. -/
def flattenFrom (covered : Option Word) :
    List Slot → Except (Report Alignment.Error) (List Interval)
  | [] => .ok []
  | s :: ss => do
    let base ← slotBase s.index
    let (intervals, covered) ← flattenEntries s.index base (covered.getD base) s.entries
    return intervals ++ (← flattenFrom (some covered) ss)

/-- The values of slots as intervals, with gaps for the bytes between two values. -/
def flatten (slots : List Slot) : Except (Report Alignment.Error) (List Interval) :=
  flattenFrom none slots

/-! ## Alignment -/

/-- The first and the last interval of a side, which has to have some. -/
def bounds (side : Side) (intervals : List Interval) :
    Except (Report Alignment.Error) (Interval × Interval) :=
  match intervals.head?, intervals.getLast? with
  | some first, some last => .ok (first, last)
  | _, _ => .error (.one .document (.emptyLayout side))

/-- The intervals of a side, with gaps so that they reach from `start` to `stop`; `first` and `last`
are the outermost of them. -/
def padTo (start stop : Word) (first last : Interval) (intervals : List Interval) : List Interval :=
  (if start < first.start then [.gap start first.start] else []) ++ intervals ++
    (if last.stop < stop then [.gap last.stop stop] else [])

/-- The pair of a piece. -/
def IntervalPair.ofPiece (p : Piece Word Interval) : IntervalPair :=
  ⟨p.start, p.stop, p.a, p.b, !p.a.sameAs p.b⟩

/-- Aligns two lists of intervals over all bytes that either covers. -/
def alignIntervals (as bs : List Interval) :
    Except (Report Alignment.Error) (List IntervalPair) := do
  let (firstA, lastA) ← bounds .a as
  let (firstB, lastB) ← bounds .b bs
  let start := min firstA.start firstB.start
  let stop := max lastA.stop lastB.stop
  return (sweep Interval.stop start (padTo start stop firstA lastA as)
    (padTo start stop firstB lastB bs)).map .ofPiece

end SlotLayout
