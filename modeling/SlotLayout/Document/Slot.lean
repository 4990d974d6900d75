import SlotLayout.Document.Layout
import SlotLayout.Slot

/-!
# Slot documents

Slots as JSON: indices as hexadecimal text, counts as numbers.
-/

namespace SlotLayout

open Json (Decoder Fields Value)

/-- The fields of a value in a slot. -/
def Entry.fields :=
  Fields.add (.required "name" .text) <|
  Fields.add (.required "typeId" .text) <|
  Fields.add (.required "typeLabel" .text) <|
  Fields.add (.required "encoding" Encoding.decoder) <|
  Fields.add (.required "offset" .count) <|
  Fields.add (.required "size" .count) Fields.nil

/-- Reads a value in a slot. -/
def Entry.decoder : Decoder Entry := fun t => do
  let (name, typeId, typeLabel, encoding, offset, size, ()) ← Decoder.record "SlotEntry" fields t
  return ⟨name, typeId, typeLabel, encoding, offset, size⟩

/-- The document form of a value in a slot. -/
def Entry.document (e : Entry) : Value :=
  .object [("name", .text e.name), ("typeId", .text e.typeId), ("typeLabel", .text e.typeLabel),
    ("encoding", .text e.encoding.name), ("offset", .count e.offset), ("size", .count e.size)]

/-- The fields of a slot. -/
def Slot.fields :=
  Fields.add (.required "index" .word) <|
  Fields.add (.required "reservedBytes" .count) <|
  Fields.add (.required "filledBytes" .count) <|
  Fields.add (.required "entries" (.list Entry.decoder)) Fields.nil

/-- Reads a slot. -/
def Slot.decoder : Decoder Slot := fun t => do
  let (index, reserved, filled, entries, ()) ← Decoder.record "Slot" fields t
  return ⟨index, reserved, filled, entries⟩

/-- The document form of a slot. -/
def Slot.document (s : Slot) : Value :=
  .object [("index", .text s.index.hex), ("reservedBytes", .count s.reserved),
    ("filledBytes", .count s.filled), ("entries", .list (s.entries.map Entry.document))]

end SlotLayout
