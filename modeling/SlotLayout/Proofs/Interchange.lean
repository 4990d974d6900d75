import SlotLayout.Document.Alignment
import SlotLayout.Document.Interval
import SlotLayout.Proofs.Documents
import SlotLayout.Proofs.Words

/-!
# Slots and intervals are read back

Slots, aligned slots, intervals and aligned intervals are read back from their documents as they
were, a list of them at a time (`results_ofText_write`). Each document form comes with its decoder,
and what is needed of the two is that the decoder gives back the value and that no count is too
large to be read (`ReadsBack`). This is kept by lists (`ReadsBack.list`) and by records of fields
that have it (`FieldsReadBack.record`), so it goes from words and counts to values in slots,
stretches and pairs. A word is found again in its hexadecimal text.

Only the counts of slots need to be bounded (`Slot.Counted`, `SlotPair.Counted`); there are none in
intervals.
-/

namespace SlotLayout

namespace Json

/-! ## Reading back -/

/-- The decoder reads the written value `v` as `a`. -/
structure ReadsBack {α : Type} (decode : Decoder α) (v : Value) (a : α) : Prop where
  counted : v.Counted
  decoded : decode v.tree = .ok a

namespace ReadsBack

theorem text (s : String) : ReadsBack Decoder.text (.text s) s := ⟨.text s, rfl⟩

theorem count {n : Nat} (h : n < Numeral.countBound) : ReadsBack Decoder.count (.count n) n :=
  ⟨.count h, rfl⟩

theorem flag (b : Bool) : ReadsBack Decoder.flag (.flag b) b := ⟨.flag b, rfl⟩

theorem word (w : Word) : ReadsBack Decoder.word (.text w.hex) w := by
  refine ⟨.text _, ?_⟩
  simp only [Value.tree, Decoder.word, Decoder.text, bind, Except.bind, w.ofText_hex]

variable {α β : Type} {decode : Decoder α} {v : Value} {a : α}

theorem map {decode' : Decoder β} {b : β} (h : ReadsBack decode v a)
    (hdecode : decode v.tree = .ok a → decode' v.tree = .ok b) : ReadsBack decode' v b :=
  ⟨h.counted, hdecode h.decoded⟩

theorem list {document : α → Value} {xs : List α}
    (h : ∀ x ∈ xs, ReadsBack decode (document x) x) :
    ReadsBack decode.list (.list (xs.map document)) xs :=
  ⟨.list (List.forall_mem_map.2 fun x hx => (h x hx).counted), list_tree fun x hx => (h x hx).decoded⟩

/-- What is read back from the written value is read back from its text, in any style. -/
theorem ofText (h : ReadsBack decode v a) (style : Style) : decode.ofText (v.write style) = .ok a := by
  rw [Decoder.ofText, Decoder.ofSymbols, document_write h.counted, Decoder.run, h.decoded]
  rfl

end ReadsBack

/-- Each field of a record is read back from its member. -/
inductive FieldsReadBack : {ρ : Type} → Fields ρ → List (String × Value) → ρ → Prop
  | nil : FieldsReadBack .nil [] ()
  | add {α ρ : Type} {field : Field α} {rest : Fields ρ} {v : Value} {a : α}
      {ms : List (String × Value)} {r : ρ} (h : ReadsBack field.decode v a)
      (hr : FieldsReadBack rest ms r) :
      FieldsReadBack (.add field rest) ((field.name, v) :: ms) (a, r)

namespace FieldsReadBack

variable {ρ : Type} {fields : Fields ρ} {ms : List (String × Value)} {r : ρ}

theorem given (h : FieldsReadBack fields ms r) : fields.Given (memberTrees ms) r := by
  induction h with
  | nil => exact .nil
  | add h _ ih => exact .present h.decoded ih

theorem counted (h : FieldsReadBack fields ms r) : ∀ m ∈ ms, m.2.Counted := by
  induction h with
  | nil => exact nofun
  | add h _ ih => exact List.forall_mem_cons.2 ⟨h.counted, ih⟩

/-- A record is read back from the object of its members. -/
theorem record (h : FieldsReadBack fields ms r) (name : String) (hnames : fields.names.Nodup) :
    ReadsBack (Decoder.record name fields) (.object ms) r :=
  ⟨.object h.counted, by rw [Value.tree]; exact record_of_given name hnames h.given⟩

end FieldsReadBack

end Json

open Json (Decoder FieldsReadBack ReadsBack Value)
open Numeral (countBound)

/-! ## Slots -/

/-- The counts of a value in a slot have at most 64 bits. -/
def Entry.Counted (e : Entry) : Prop := e.offset < countBound ∧ e.size < countBound

/-- All counts in a slot have at most 64 bits. -/
def Slot.Counted (s : Slot) : Prop :=
  s.reserved < countBound ∧ s.filled < countBound ∧ ∀ e ∈ s.entries, e.Counted

instance (e : Entry) : Decidable e.Counted := inferInstanceAs (Decidable (_ ∧ _))

instance (s : Slot) : Decidable s.Counted :=
  inferInstanceAs (Decidable (_ ∧ _ ∧ ∀ e ∈ s.entries, e.Counted))

theorem Encoding.readsBack (e : Encoding) : ReadsBack decoder (.text e.name) e :=
  ⟨.text _, ofName_name e⟩

theorem Entry.Counted.readsBack {e : Entry} (h : e.Counted) :
    ReadsBack Entry.decoder e.document e := by
  have hfields : FieldsReadBack fields _
      (e.name, e.typeId, e.typeLabel, e.encoding, e.offset, e.size, ()) :=
    .add (.text _) <| .add (.text _) <| .add (.text _) <| .add e.encoding.readsBack <|
      .add (.count h.1) <| .add (.count h.2) .nil
  refine (hfields.record "SlotEntry" (by decide)).map fun hok => ?_
  rw [decoder, hok]
  rfl

theorem Slot.Counted.readsBack {s : Slot} (h : s.Counted) :
    ReadsBack Slot.decoder s.document s := by
  have hfields : FieldsReadBack fields _ (s.index, s.reserved, s.filled, s.entries, ()) :=
    .add (.word _) <| .add (.count h.1) <| .add (.count h.2.1) <|
      .add (.list fun e he => (h.2.2 e he).readsBack) .nil
  refine (hfields.record "Slot" (by decide)).map fun hok => ?_
  rw [decoder, hok]
  rfl

/-! ## Aligned slots -/

/-- The counts of a segment have at most 64 bits. -/
def Segment.Counted (s : Segment) : Prop := s.offset < countBound ∧ s.size < countBound

/-- All counts in a stretch have at most 64 bits. -/
def Span.Counted (s : Span) : Prop :=
  s.start < countBound ∧ s.stop < countBound ∧ s.a.Counted ∧ s.b.Counted

instance (s : Segment) : Decidable s.Counted := inferInstanceAs (Decidable (_ ∧ _))

instance (s : Span) : Decidable s.Counted :=
  inferInstanceAs (Decidable (_ ∧ _ ∧ s.a.Counted ∧ s.b.Counted))

/-- All counts in a pair of slots have at most 64 bits. -/
structure SlotPair.Counted (p : SlotPair) : Prop where
  reservedA : p.reservedA < countBound
  reservedB : p.reservedB < countBound
  filledA : p.filledA < countBound
  filledB : p.filledB < countBound
  spans : ∀ s ∈ p.spans, s.Counted

theorem Segment.Counted.readsBack {s : Segment} (h : s.Counted) :
    ReadsBack Segment.decoder s.document s := by
  have hfields : FieldsReadBack fields _ (s.name, s.typeId, s.typeLabel, s.offset, s.size, ()) :=
    .add (.text _) <| .add (.text _) <| .add (.text _) <| .add (.count h.1) <|
      .add (.count h.2) .nil
  refine (hfields.record "UnitSide" (by decide)).map fun hok => ?_
  rw [decoder, hok]
  rfl

theorem Span.Counted.readsBack {s : Span} (h : s.Counted) :
    ReadsBack Span.decoder s.document s := by
  obtain ⟨hstart, hstop, ha, hb⟩ := h
  have hfields : FieldsReadBack fields _ (s.slot, s.start, s.stop, s.a, s.b, s.changed, ()) :=
    .add (.word _) <| .add (.count hstart) <| .add (.count hstop) <| .add ha.readsBack <|
      .add hb.readsBack <| .add (.flag _) .nil
  refine (hfields.record "MergedUnit" (by decide)).map fun hok => ?_
  rw [decoder, hok]
  rfl

theorem SlotPair.Counted.readsBack {p : SlotPair} (h : p.Counted) :
    ReadsBack SlotPair.decoder p.document p := by
  have hfields : FieldsReadBack fields _
      (p.index, p.reservedA, p.reservedB, p.filledA, p.filledB, p.spans, ()) :=
    .add (.word _) <| .add (.count h.reservedA) <| .add (.count h.reservedB) <|
      .add (.count h.filledA) <| .add (.count h.filledB) <|
        .add (.list fun s hs => (h.spans s hs).readsBack) .nil
  refine (hfields.record "MergedSlot" (by decide)).map fun hok => ?_
  rw [decoder, hok]
  rfl

/-! ## Intervals -/

theorem Interval.readsBack (i : Interval) : ReadsBack decoder i.document i := by
  have hfields : FieldsReadBack fields _ (i.start, i.stop, i.label, i.typeLabel, ()) :=
    .add (.word _) <| .add (.word _) <| .add (.text _) <| .add (.text _) .nil
  refine (hfields.record "Interval" (by decide)).map fun hok => ?_
  rw [decoder, hok]
  rfl

theorem IntervalPair.readsBack (p : IntervalPair) : ReadsBack decoder p.document p := by
  have hfields : FieldsReadBack fields _ (p.start, p.stop, p.a, p.b, p.changed, ()) :=
    .add (.word _) <| .add (.word _) <| .add p.a.readsBack <| .add p.b.readsBack <|
      .add (.flag _) .nil
  refine (hfields.record "MergedInterval" (by decide)).map fun hok => ?_
  rw [decoder, hok]
  rfl

/-! ## Lists of results -/

/-- Lists of slots, of aligned slots, of intervals and of aligned intervals are read back from the
texts that they are written as, on one line or many. -/
theorem results_ofText_write {slots : List Slot} {pairs : List SlotPair}
    (hslots : ∀ s ∈ slots, s.Counted) (hpairs : ∀ p ∈ pairs, p.Counted)
    (intervals : List Interval) (intervalPairs : List IntervalPair) (style : Json.Style) :
    (Decoder.list Slot.decoder).ofText ((Value.list (slots.map Slot.document)).write style) =
        .ok slots ∧
      (Decoder.list SlotPair.decoder).ofText
        ((Value.list (pairs.map SlotPair.document)).write style) = .ok pairs ∧
      (Decoder.list Interval.decoder).ofText
        ((Value.list (intervals.map Interval.document)).write style) = .ok intervals ∧
      (Decoder.list IntervalPair.decoder).ofText
        ((Value.list (intervalPairs.map IntervalPair.document)).write style) =
          .ok intervalPairs :=
  ⟨(ReadsBack.list fun s hs => (hslots s hs).readsBack).ofText style,
    (ReadsBack.list fun p hp => (hpairs p hp).readsBack).ofText style,
    (ReadsBack.list fun i _ => i.readsBack).ofText style,
    (ReadsBack.list fun p _ => p.readsBack).ofText style⟩

/-- The last slot with a value whose texts need escapes and whose counts have 64 bits, and a pair in
which it stands against nothing. -/
theorem results_ofText_write_escaped :
    let last : Word := ⟨wordCount - 1, by decide⟩
    let slot : Slot := ⟨last, 18446744073709551615, 0,
      [⟨"\x00\x1f\x7f\u2028", "", "a\"\\/\n𝄞", .dynamicArray, 7, 18446744073709551615⟩]⟩
    let pair : SlotPair := ⟨last, 18446744073709551615, 0, 7, 0,
      [⟨last, 0, 32, ⟨"\x7b\x7d[]", "\t", "", 0, 32⟩, .gap 0 18446744073709551615, true⟩]⟩
    (slot.Counted ∧ pair.Counted) ∧
      (Decoder.list Slot.decoder).ofText
        ((Value.list ([slot].map Slot.document)).write .compact) = .ok [slot] ∧
      (Decoder.list SlotPair.decoder).ofText
        ((Value.list ([pair].map SlotPair.document)).write .compact) = .ok [pair] := by
  intro last slot pair
  have hslot : slot.Counted := by decide
  have hspan : Span.Counted ⟨last, 0, 32, ⟨"\x7b\x7d[]", "\t", "", 0, 32⟩,
      .gap 0 18446744073709551615, true⟩ := by decide
  have hpair : pair.Counted :=
    ⟨by decide, by decide, by decide, by decide, List.forall_mem_singleton.2 hspan⟩
  have hread := results_ofText_write (List.forall_mem_singleton.2 hslot)
    (List.forall_mem_singleton.2 hpair) [] [] .compact
  exact ⟨⟨hslot, hpair⟩, hread.1, hread.2.1⟩

end SlotLayout
