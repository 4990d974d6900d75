import SlotLayout.Document.Layout
import SlotLayout.Interval

/-!
# Interval documents

Intervals of bytes and pairs of them as JSON: positions as hexadecimal text.
-/

namespace SlotLayout

open Json (Decoder Fields Value)

/-- The fields of an interval. -/
def Interval.fields :=
  Fields.add (.required "start" .word) <|
  Fields.add (.required "end" .word) <|
  Fields.add (.required "label" .text) <|
  Fields.add (.required "typeLabel" .text) Fields.nil

/-- Reads an interval. -/
def Interval.decoder : Decoder Interval := fun t => do
  let (start, stop, label, typeLabel, ()) ← Decoder.record "Interval" fields t
  return ⟨start, stop, label, typeLabel⟩

/-- The document form of an interval. -/
def Interval.document (i : Interval) : Value :=
  .object [("start", .text i.start.hex), ("end", .text i.stop.hex), ("label", .text i.label),
    ("typeLabel", .text i.typeLabel)]

/-- The fields of a pair of intervals. -/
def IntervalPair.fields :=
  Fields.add (.required "start" .word) <|
  Fields.add (.required "end" .word) <|
  Fields.add (.required "a" Interval.decoder) <|
  Fields.add (.required "b" Interval.decoder) <|
  Fields.add (.required "changed" .flag) Fields.nil

/-- Reads a pair of intervals. -/
def IntervalPair.decoder : Decoder IntervalPair := fun t => do
  let (start, stop, a, b, changed, ()) ← Decoder.record "MergedInterval" fields t
  return ⟨start, stop, a, b, changed⟩

/-- The document form of a pair of intervals. -/
def IntervalPair.document (p : IntervalPair) : Value :=
  .object [("start", .text p.start.hex), ("end", .text p.stop.hex), ("a", p.a.document),
    ("b", p.b.document), ("changed", .flag p.changed)]

end SlotLayout
