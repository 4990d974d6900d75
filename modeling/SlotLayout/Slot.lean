import SlotLayout.Shape
import SlotLayout.Word

/-!
# Slots

A slot of storage with the values packed into it. A slot counts the bytes that are claimed and the
bytes that hold content; `Slot.occupancy` tells the two apart byte by byte.
-/

namespace SlotLayout

/-- A value in a slot. -/
structure Entry where
  name : String
  typeId : String
  typeLabel : String
  encoding : Encoding
  offset : Nat
  size : Nat
  deriving DecidableEq

/-- The offset after the last byte of a value. -/
def Entry.stop (e : Entry) : Nat := e.offset + e.size

/-- A slot. -/
structure Slot where
  index : Word
  /-- Bytes claimed, content or not. -/
  reserved : Nat
  /-- Bytes of content. -/
  filled : Nat
  entries : List Entry
  deriving DecidableEq

/-- What is in a byte of a slot. -/
inductive ByteState where
  | untouched
  | reserved
  | filled
  deriving DecidableEq, Repr

namespace Slot

/-- The slot without values at an index. -/
def blank (index : Word) : Slot := ⟨index, 0, 0, []⟩

/-- The number of bytes that are not claimed. -/
def remaining (s : Slot) : Nat := slotSize - s.reserved

/-- Whether no byte is claimed. -/
def isEmpty (s : Slot) : Bool := s.reserved == 0

/-- The slot with a value put at its first unclaimed byte. -/
def place (s : Slot) (part : Part) (info : TypeInfo) : Slot :=
  { s with
    reserved := s.reserved + info.size
    filled := s.filled + info.filled
    entries := s.entries ++
      [⟨part.name, part.typeId, info.label, info.encoding, s.reserved, info.size⟩] }

/-- The slot with all its bytes claimed. -/
def close (s : Slot) : Slot := { s with reserved := slotSize }

/-- Marks the bytes of a value as filled. A mapping has no content. -/
def fillEntry (states : List ByteState) (e : Entry) : List ByteState :=
  if e.encoding = .mapping then states
  else
    let stop := min e.stop slotSize
    let start := min e.offset stop
    states.take start ++ List.replicate (stop - start) .filled ++ states.drop stop

/-- The states of all bytes of a slot, in order. -/
def occupancy (s : Slot) : List ByteState :=
  let claimed := min s.reserved slotSize
  s.entries.foldl fillEntry
    (List.replicate claimed .reserved ++ List.replicate (slotSize - claimed) .untouched)

@[simp] theorem index_place (s : Slot) (part : Part) (info : TypeInfo) :
    (s.place part info).index = s.index := rfl

@[simp] theorem index_close (s : Slot) : s.close.index = s.index := rfl

@[simp] theorem entries_close (s : Slot) : s.close.entries = s.entries := rfl

@[simp] theorem reserved_close (s : Slot) : s.close.reserved = slotSize := rfl

end Slot

end SlotLayout
