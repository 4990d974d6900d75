import SlotLayout.Document.Error
import SlotLayout.Json.Record
import SlotLayout.Json.Value
import SlotLayout.Layout
import SlotLayout.Report

/-!
# Layout documents

Storage layouts as JSON documents: `Layout.ofText` and its siblings read them, `Layout.write` writes
them. Fields that have no value are left out in writing. A count of bytes is written as text, and
read as text or number.
-/

namespace SlotLayout

open Json (Decoder Fields Value)

/-! ## Reading -/

namespace Encoding

/-- The name of an encoding. -/
def name : Encoding → String
  | .inplace => "inplace"
  | .mapping => "mapping"
  | .dynamicArray => "dynamic_array"
  | .bytes => "bytes"

/-- All encodings. -/
def all : List Encoding := [.inplace, .mapping, .dynamicArray, .bytes]

/-- The encoding of a name. -/
def ofName (s : String) : Except Json.Error Encoding :=
  match all.find? (·.name == s) with
  | some e => .ok e
  | none => .error (.unknownVariant s (all.map name))

/-- The error of an object without members; one that closes at once lacks a value. -/
def noMember (ending : Json.Ending) : Json.Error := ending.objectError?.getD .expectedValue

/-- Checks that an object ends after its only member. -/
def onlyMember : List (Json.Key × Json.Tree) → Json.Ending → Except Json.Error Unit
  | [], .closed => .ok ()
  | [], .stopped .item none => .error (.endOfInput .object)
  | [], .stopped .item (some (.fault reason)) => .error (.unreadable reason)
  | _, _ => .error .expectedValue

/-- Reads an encoding: its name, or an object with its name as the only key and null as value. -/
def decoder : Decoder Encoding
  | .text read => do ofName (← read)
  | .object ((key, value) :: more) ending => do
    let e ← ofName (← key)
    match value with
    | .null => onlyMember more ending
    | value => .error (value.refuse "unit")
    return e
  | .object [] ending => .error (noMember ending)
  | .broken (.word _ _) => .error .expectedValue
  | .broken why => .error why.strict
  | _ => .error .expectedValue

end Encoding

/-- The fields of a declaration. -/
def Declaration.fields :=
  Fields.add (.optional "astId" (.natural "u64")) <|
  Fields.add (.optional "contract" .text) <|
  Fields.add (.required "label" .text) <|
  Fields.add ⟨"offset", .count, some 0⟩ <|
  Fields.add (.optional "slot" .text) <|
  Fields.add (.required "type" .text) Fields.nil

/-- Reads a declaration. -/
def Declaration.decoder : Decoder Declaration := fun t => do
  let (astId, contract, label, offset, slot, typeId, ()) ←
    Decoder.record "StorageElement" fields t
  return ⟨astId, contract, label, offset, slot, typeId⟩

/-- The fields of a type that is described inside `depth` lists and objects. -/
def TypeInfo.fields (depth : Nat) :=
  Fields.add (.required "encoding" Encoding.decoder) <|
  Fields.add (.required "label" .text) <|
  Fields.add (.required "numberOfBytes" (.looseCount (depth + 1))) <|
  Fields.add (.optional "base" .text) <|
  Fields.add (.optional "key" .text) <|
  Fields.add (.optional "value" .text) <|
  Fields.add (.optional "members" (.list Declaration.decoder)) Fields.nil

/-- Reads what is known of a type, inside `depth` lists and objects. -/
def TypeInfo.decoder (depth : Nat) : Decoder TypeInfo := fun t => do
  let (encoding, label, byteCount, base, key, value, members, ()) ←
    Decoder.record "TypeDescriptor" (fields depth) t
  return ⟨encoding, label, byteCount, base, key, value, members⟩

/-- Reads one type of a table, inside `depth` lists and objects. -/
def TypeTable.entryDecoder (depth : Nat) (member : Json.Key × Json.Tree) :
    Except Json.Error (String × TypeInfo) := do
  let id ← member.1
  let info ← TypeInfo.decoder depth member.2
  return (id, info)

/-- Reads a type table that stands inside `depth` lists and objects. -/
def TypeTable.decoder (depth : Nat) : Decoder TypeTable
  | .object members ending => do
    let entries ← members.mapM (entryDecoder (depth + 1))
    Json.check ending.objectError?
    return ofList entries
  | t => .error (t.refuse "a map")

/-- The fields of a layout document. -/
def Layout.fields :=
  Fields.add (.required "storage" (.list Declaration.decoder)) <|
  Fields.add (.required "types" (TypeTable.decoder 1)) Fields.nil

/-- Reads a layout document. -/
def Layout.decoder : Decoder Layout := fun t => do
  let (storage, types, ()) ← Decoder.record "StorageLayout" fields t
  return ⟨storage, types⟩

namespace Layout

/-- Reads a layout from input symbols. -/
def ofSymbols (input : List Json.Symbol) : Except (Report Document.Error) Layout :=
  match decoder.ofSymbols input with
  | .ok layout => .ok layout
  | .error e => .error (.one .document (.unreadable e.message))

/-- Reads a layout from a text. -/
def ofText (s : String) : Except (Report Document.Error) Layout :=
  ofSymbols (Json.Symbol.ofText s)

/-- Reads a layout from bytes. -/
def ofBytes (bytes : List UInt8) : Except (Report Document.Error) Layout :=
  ofSymbols (Json.Symbol.ofBytes bytes)

/-- Reads a layout from a source that fails, for the given reason, after some bytes. -/
def ofFailingSource (bytes : List UInt8) (reason : String) :
    Except (Report Document.Error) Layout :=
  ofSymbols (Json.Symbol.ofBytes bytes ++ [.fault reason])

end Layout

/-! ## Writing -/

/-- The member for a field that may have no value. -/
def optionalMember {α : Type} (key : String) (write : α → Value) (value : Option α) :
    List (String × Value) :=
  match value with
  | none => []
  | some a => [(key, write a)]

/-- The document form of a declaration. -/
def Declaration.document (d : Declaration) : Value :=
  .object (optionalMember "astId" .count d.astId? ++ optionalMember "contract" .text d.contract? ++
    [("label", .text d.label), ("offset", .count d.offset)] ++
    optionalMember "slot" .text d.slot? ++ [("type", .text d.typeId)])

/-- The document form of what is known of a type. -/
def TypeInfo.document (info : TypeInfo) : Value :=
  .object ([("encoding", .text info.encoding.name), ("label", .text info.label),
      ("numberOfBytes", .text (toString info.byteCount))] ++
    optionalMember "base" .text info.base? ++ optionalMember "key" .text info.key? ++
    optionalMember "value" .text info.value? ++
    optionalMember "members" (fun ms => .list (ms.map Declaration.document)) info.members?)

namespace Layout

/-- The document form of a layout. -/
def document (layout : Layout) : Value :=
  .object [("storage", .list (layout.storage.map Declaration.document)),
    ("types", .object (layout.types.entries.map fun e => (e.1, e.2.document)))]

/-- Writes a layout, each level indented by `width` spaces. -/
def write (width : Nat) (layout : Layout) : String := layout.document.write (.indented width)

/-- The indentation of documents that ask for no other. -/
def defaultWidth : Nat := 2

end Layout

end SlotLayout
