import SlotLayout.Document.Layout
import SlotLayout.Proofs.Records
import SlotLayout.Proofs.Tables

/-!
# Layout documents are read back

A layout is read back from its document as it was (`Layout.ofText_write`), whatever the characters
in its texts and however the document is indented. What is left out in writing is what stands for a
missing field in reading, a byte count is found again in the text it is written as, and a type table
is built again from its entries.

Counts are those of at most 64 bits (`Layout.Counted`), as no other number is read as a count.
-/

namespace SlotLayout

open Json (Decoder Fields Tree Value document_write list_tree memberTrees memberTrees_eq_map
  optional_tree record_of_given)

/-! ## Counts of layouts -/

/-- The counts of a declaration have at most 64 bits. -/
def Declaration.Counted (d : Declaration) : Prop :=
  (∀ n ∈ d.astId?, n < Numeral.countBound) ∧ d.offset < Numeral.countBound

/-- The counts of a type and of its members have at most 64 bits. -/
def TypeInfo.Counted (info : TypeInfo) : Prop :=
  info.byteCount < Numeral.countBound ∧ ∀ ms ∈ info.members?, ∀ d ∈ ms, d.Counted

/-- All counts in a layout have at most 64 bits. -/
def Layout.Counted (layout : Layout) : Prop :=
  (∀ d ∈ layout.storage, d.Counted) ∧ ∀ e ∈ layout.types.entries, e.2.Counted

instance (d : Declaration) : Decidable d.Counted :=
  inferInstanceAs (Decidable ((∀ n ∈ d.astId?, n < Numeral.countBound) ∧ _))

instance (info : TypeInfo) : Decidable info.Counted :=
  inferInstanceAs (Decidable (_ ∧ ∀ ms ∈ info.members?, ∀ d ∈ ms, d.Counted))

instance (layout : Layout) : Decidable layout.Counted :=
  inferInstanceAs (Decidable ((∀ d ∈ layout.storage, d.Counted) ∧
    ∀ e ∈ layout.types.entries, e.2.Counted))

theorem counted_optionalMember {α : Type} {key : String} {write : α → Value} {value : Option α}
    (h : ∀ a ∈ value, (write a).Counted) :
    ∀ m ∈ optionalMember key write value, m.2.Counted := by
  cases value with
  | none => exact nofun
  | some a => exact List.forall_mem_singleton.2 (h a rfl)

theorem Declaration.Counted.document {d : Declaration} (h : d.Counted) : d.document.Counted := by
  refine .object ?_
  simp only [List.forall_mem_append, List.forall_mem_cons]
  refine ⟨⟨⟨⟨?_, ?_⟩, ?_, ?_, nofun⟩, ?_⟩, ?_, nofun⟩
  · exact counted_optionalMember fun n hn => .count (h.1 n hn)
  · exact counted_optionalMember fun _ _ => .text _
  · exact .text _
  · exact .count h.2
  · exact counted_optionalMember fun _ _ => .text _
  · exact .text _

theorem TypeInfo.Counted.document {info : TypeInfo} (h : info.Counted) :
    info.document.Counted := by
  refine .object ?_
  simp only [List.forall_mem_append, List.forall_mem_cons]
  refine ⟨⟨⟨⟨⟨?_, ?_, ?_, nofun⟩, ?_⟩, ?_⟩, ?_⟩, ?_⟩
  · exact .text _
  · exact .text _
  · exact .text _
  · exact counted_optionalMember fun _ _ => .text _
  · exact counted_optionalMember fun _ _ => .text _
  · exact counted_optionalMember fun _ _ => .text _
  · refine counted_optionalMember fun ms hms => .list ?_
    exact List.forall_mem_map.2 fun d hd => (h.2 ms hms d hd).document

theorem Layout.Counted.document {layout : Layout} (h : layout.Counted) :
    layout.document.Counted := by
  refine .object (List.forall_mem_cons.2 ⟨.list ?_, List.forall_mem_singleton.2 (.object ?_)⟩)
  · exact List.forall_mem_map.2 fun d hd => (h.1 d hd).document
  · exact List.forall_mem_map.2 fun e he => (h.2 e he).document

/-! ## Fields of written records -/

section Given

variable {α ρ : Type} {rest : Fields ρ} {ms : List (String × Value)} {r : ρ}

theorem given_member {field : Json.Field α} {v : Value} {a : α} (hd : field.decode v.tree = .ok a)
    (hr : rest.Given (memberTrees ms) r) :
    (Fields.add field rest).Given (memberTrees ((field.name, v) :: ms)) (a, r) :=
  .present hd hr

/-- A field that may be missing is given by its member, or by none. -/
theorem given_optional {name : String} {decode : Decoder α} {write : α → Value} {value : Option α}
    (hd : ∀ a ∈ value, decode (write a).tree = .ok a) (hr : rest.Given (memberTrees ms) r) :
    (Fields.add (.optional name decode) rest).Given
      (memberTrees (optionalMember name write value ++ ms)) (value, r) := by
  cases value with
  | none => exact .absent rfl hr
  | some a => exact .present (optional_tree (hd a rfl)) hr

end Given

theorem Declaration.decoder_document (d : Declaration) :
    Declaration.decoder d.document.tree = .ok d := by
  have hrecord : Decoder.record "StorageElement" fields d.document.tree =
      .ok (d.astId?, d.contract?, d.label, d.offset, d.slot?, d.typeId, ()) := by
    rw [document, Value.tree]
    simp only [List.append_assoc, List.cons_append, List.nil_append]
    exact record_of_given _ (by decide) <|
      given_optional (fun _ _ => rfl) <| given_optional (fun _ _ => rfl) <| given_member rfl <|
        given_member rfl <| given_optional (fun _ _ => rfl) <| given_member rfl .nil
  rw [decoder, hrecord]
  rfl

theorem Encoding.ofName_name (e : Encoding) : ofName e.name = .ok e := by
  cases e <;> rfl

/-- A byte count is found again in its text, also by a reader that takes blanks off. -/
theorem looseCount_toString {n : Nat} (h : n < Numeral.countBound) (depth : Nat) :
    Decoder.looseCount depth (Value.text (toString n)).tree = .ok n := by
  have hread : Numeral.read 10 Numeral.countBound (Text.trim (toString n).toList) = .ok n := by
    rw [Nat.toString_eq_ofList_toDigits, String.toList_ofList, Numeral.trim_toDigits,
      Numeral.read_toDigits h]
  simp only [Value.tree, Decoder.looseCount, Tree.error?, Json.check, bind, Except.bind, hread]

theorem TypeInfo.decoder_document {info : TypeInfo} (h : info.byteCount < Numeral.countBound)
    (depth : Nat) : TypeInfo.decoder depth info.document.tree = .ok info := by
  have hrecord : Decoder.record "TypeDescriptor" (fields depth) info.document.tree =
      .ok (info.encoding, info.label, info.byteCount, info.base?, info.key?, info.value?,
        info.members?, ()) := by
    have hmembers : ∀ ms ∈ info.members?, Decoder.list Declaration.decoder
        (Value.list (ms.map Declaration.document)).tree = .ok ms :=
      fun ms _ => list_tree fun d _ => d.decoder_document
    rw [document, Value.tree, ← List.append_nil (optionalMember "members" _ _)]
    simp only [List.append_assoc, List.cons_append, List.nil_append]
    exact record_of_given _ (show (fields 0).names.Nodup by decide) <|
      given_member (Encoding.ofName_name _) <| given_member rfl <|
        given_member (looseCount_toString h _) <| given_optional (fun _ _ => rfl) <|
          given_optional (fun _ _ => rfl) <| given_optional (fun _ _ => rfl) <|
            given_optional hmembers .nil
  rw [decoder, hrecord]
  rfl

namespace TypeTable

theorem entryDecoder_member {e : String × TypeInfo} (h : e.2.Counted) (depth : Nat) :
    entryDecoder depth (.ok e.1, e.2.document.tree) = .ok e := by
  rw [entryDecoder]
  simp only [bind, Except.bind]
  rw [TypeInfo.decoder_document h.1]
  rfl

theorem decoder_entries {types : TypeTable} (h : ∀ e ∈ types.entries, e.2.Counted)
    (depth : Nat) : TypeTable.decoder depth
      (Value.object (types.entries.map fun e => (e.1, e.2.document))).tree = .ok types := by
  have hentries : (memberTrees (types.entries.map fun e => (e.1, e.2.document))).mapM
      (entryDecoder (depth + 1)) = .ok types.entries := by
    rw [memberTrees_eq_map, List.map_map]
    exact mapM_map_eq_ok fun e he => entryDecoder_member (h e he) _
  rw [Value.tree, decoder, hentries]
  exact congrArg Except.ok types.ofList_entries

end TypeTable

namespace Layout

theorem decoder_document {layout : Layout} (h : layout.Counted) :
    decoder layout.document.tree = .ok layout := by
  have hstorage : Decoder.list Declaration.decoder
      (Value.list (layout.storage.map Declaration.document)).tree = .ok layout.storage :=
    list_tree fun d _ => d.decoder_document
  have hrecord : Decoder.record "StorageLayout" fields layout.document.tree =
      .ok (layout.storage, layout.types, ()) := by
    rw [document, Value.tree]
    exact record_of_given _ (by decide) <|
      given_member hstorage <| given_member (TypeTable.decoder_entries h.2 1) .nil
  rw [decoder, hrecord]
  rfl

/-- A layout is read back from its document, whatever stands in its texts, which of its fields have
a value, and by how many spaces a level is indented. -/
theorem ofText_write {layout : Layout} (h : layout.Counted) (width : Nat) :
    ofText (layout.write width) = .ok layout := by
  have hread : decoder.ofSymbols (Json.Symbol.ofText (layout.write width)) = .ok layout := by
    rw [Decoder.ofSymbols, write, document_write h.document, Decoder.run, decoder_document h]
    rfl
  rw [ofText, ofSymbols, hread]

/-- A layout with texts that need escapes, empty texts, counts of 64 bits, and a struct without
members. -/
theorem ofText_write_escaped :
    let layout : Layout := ⟨[⟨some 18446744073709551615, some "\x00\x1f\x7f\u2028", "a\"\\/\n", 3,
        some "", "\x7b\x7d[]"⟩, .bare "" "𝄞"],
      .ofList [("𝄞", .struct "struct E" 18446744073709551615 []),
        ("\x7b\x7d[]", .struct "struct P" 32 [⟨none, none, "\t\x08\x0c\r", 18446744073709551615, none,
          "\x7b\x7d[]"⟩])]⟩
    layout.Counted ∧ Layout.ofText (layout.write 3) = .ok layout := by
  intro layout
  have h : layout.Counted := by decide
  exact ⟨h, ofText_write h 3⟩

end Layout

end SlotLayout
