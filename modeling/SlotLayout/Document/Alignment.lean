import SlotLayout.Alignment
import SlotLayout.Document.Slot

/-!
# Documents of aligned slots

Segments, stretches and pairs of slots as JSON.
-/

namespace SlotLayout

open Json (Decoder Fields Value)

/-- The fields of a segment. -/
def Segment.fields :=
  Fields.add (.required "name" .text) <|
  Fields.add (.required "typeId" .text) <|
  Fields.add (.required "typeLabel" .text) <|
  Fields.add (.required "offset" .count) <|
  Fields.add (.required "size" .count) Fields.nil

/-- Reads a segment. -/
def Segment.decoder : Decoder Segment := fun t => do
  let (name, typeId, typeLabel, offset, size, ()) ← Decoder.record "UnitSide" fields t
  return ⟨name, typeId, typeLabel, offset, size⟩

/-- The document form of a segment. -/
def Segment.document (s : Segment) : Value :=
  .object [("name", .text s.name), ("typeId", .text s.typeId), ("typeLabel", .text s.typeLabel),
    ("offset", .count s.offset), ("size", .count s.size)]

/-- The fields of a stretch. -/
def Span.fields :=
  Fields.add (.required "slotIndex" .word) <|
  Fields.add (.required "start" .count) <|
  Fields.add (.required "end" .count) <|
  Fields.add (.required "a" Segment.decoder) <|
  Fields.add (.required "b" Segment.decoder) <|
  Fields.add (.required "changed" .flag) Fields.nil

/-- Reads a stretch. -/
def Span.decoder : Decoder Span := fun t => do
  let (slot, start, stop, a, b, changed, ()) ← Decoder.record "MergedUnit" fields t
  return ⟨slot, start, stop, a, b, changed⟩

/-- The document form of a stretch. -/
def Span.document (s : Span) : Value :=
  .object [("slotIndex", .text s.slot.hex), ("start", .count s.start), ("end", .count s.stop),
    ("a", s.a.document), ("b", s.b.document), ("changed", .flag s.changed)]

/-- The fields of a pair of slots. -/
def SlotPair.fields :=
  Fields.add (.required "index" .word) <|
  Fields.add (.required "reservedBytesA" .count) <|
  Fields.add (.required "reservedBytesB" .count) <|
  Fields.add (.required "filledBytesA" .count) <|
  Fields.add (.required "filledBytesB" .count) <|
  Fields.add (.required "units" (.list Span.decoder)) Fields.nil

/-- Reads a pair of slots. -/
def SlotPair.decoder : Decoder SlotPair := fun t => do
  let (index, reservedA, reservedB, filledA, filledB, spans, ()) ←
    Decoder.record "MergedSlot" fields t
  return ⟨index, reservedA, reservedB, filledA, filledB, spans⟩

/-- The document form of a pair of slots. -/
def SlotPair.document (p : SlotPair) : Value :=
  .object [("index", .text p.index.hex), ("reservedBytesA", .count p.reservedA),
    ("reservedBytesB", .count p.reservedB), ("filledBytesA", .count p.filledA),
    ("filledBytesB", .count p.filledB), ("units", .list (p.spans.map Span.document))]

end SlotLayout
