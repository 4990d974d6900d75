import SlotLayout.Proofs.Packing

/-!
# Occupancy

What the map of a slot says of its bytes. For any values whatever, in any order, a byte is filled if
a value with content lies over it, and otherwise reserved if it is claimed
(`Slot.occupancy_eq_map`). Where the values follow one another, the bytes that they cover are as
many as their sizes add up to (`Laid.countP_covers`), so in a packed slot the map has as many filled
and as many claimed bytes as the slot counts (`occupancy_exact`).
-/

namespace SlotLayout

instance (e : Entry) (byte : Nat) : Decidable (e.Covers byte) :=
  inferInstanceAs (Decidable (e.offset ≤ byte ∧ byte < e.stop))

namespace Slot

/-- Some value that is no mapping lies over the byte. -/
def Fills (s : Slot) (byte : Nat) : Prop := ∃ e ∈ s.entries, e.encoding ≠ .mapping ∧ e.Covers byte

instance (s : Slot) (byte : Nat) : Decidable (s.Fills byte) :=
  inferInstanceAs (Decidable (∃ e ∈ s.entries, e.encoding ≠ .mapping ∧ e.Covers byte))

/-- What is in a byte, seen from the values. -/
def stateAt (s : Slot) (byte : Nat) : ByteState :=
  if s.Fills byte then .filled else if byte < s.reserved then .reserved else .untouched

section

variable {s : Slot} {byte : Nat}

theorem stateAt_eq_filled_iff : s.stateAt byte = .filled ↔ s.Fills byte := by
  grind [stateAt]

theorem stateAt_eq_reserved_iff :
    s.stateAt byte = .reserved ↔ ¬ s.Fills byte ∧ byte < s.reserved := by
  grind [stateAt]

theorem stateAt_eq_untouched_iff :
    s.stateAt byte = .untouched ↔ ¬ s.Fills byte ∧ s.reserved ≤ byte := by
  grind [stateAt]

end

/-! ## The state of each byte -/

theorem length_fillEntry {states : List ByteState} (h : states.length = slotSize) (e : Entry) :
    (fillEntry states e).length = slotSize := by
  unfold fillEntry
  split
  · exact h
  · simp only [List.length_append, List.length_take, List.length_replicate, List.length_drop, h]
    omega

/-- A value fills the bytes of the slot that it lies over, and no others. -/
theorem getElem?_fillEntry {states : List ByteState} (h : states.length = slotSize) (e : Entry)
    {byte : Nat} (hbyte : byte < slotSize) : (fillEntry states e)[byte]? =
      if e.encoding ≠ .mapping ∧ e.Covers byte then some .filled else states[byte]? := by
  unfold fillEntry
  by_cases hm : e.encoding = .mapping
  · rw [if_pos hm, if_neg fun hc => hc.1 hm]
  · have hcov : e.Covers byte ↔
        min e.offset (min e.stop slotSize) ≤ byte ∧ byte < min e.stop slotSize := by
      unfold Entry.Covers
      omega
    rw [if_neg hm]
    simp only [ne_eq, hm, not_false_eq_true, true_and, hcov, List.append_assoc,
      List.getElem?_append, List.getElem?_take, List.getElem?_replicate, List.getElem?_drop,
      List.length_take, List.length_replicate, h]
    grind

/-- Values in any order fill the bytes that some of them lies over. -/
theorem getElem?_foldl_fillEntry {es : List Entry} {states : List ByteState}
    (h : states.length = slotSize) {byte : Nat} (hbyte : byte < slotSize) :
    (es.foldl fillEntry states)[byte]? =
      if ∃ e ∈ es, e.encoding ≠ .mapping ∧ e.Covers byte then some .filled else states[byte]? := by
  induction es generalizing states with
  | nil => simp
  | cons e es ih =>
    rw [List.foldl_cons, ih (length_fillEntry h e), getElem?_fillEntry h e hbyte]
    simp only [List.exists_mem_cons_iff]
    by_cases hlater : ∃ f ∈ es, f.encoding ≠ .mapping ∧ f.Covers byte
    · rw [if_pos hlater, if_pos (.inr hlater)]
    · simp only [hlater, or_false, if_false]

theorem length_foldl_fillEntry {es : List Entry} {states : List ByteState}
    (h : states.length = slotSize) : (es.foldl fillEntry states).length = slotSize := by
  induction es generalizing states with
  | nil => exact h
  | cons e es ih => exact ih (length_fillEntry h e)

/-- The map of a slot has the state of each of its bytes. -/
theorem occupancy_eq_map (s : Slot) : s.occupancy = (List.range slotSize).map s.stateAt := by
  have hstart : (List.replicate (min s.reserved slotSize) ByteState.reserved ++
      List.replicate (slotSize - min s.reserved slotSize) ByteState.untouched).length = slotSize := by
    rw [List.length_append, List.length_replicate, List.length_replicate]
    omega
  refine List.ext_getElem? fun byte => ?_
  rcases Nat.lt_or_ge byte slotSize with hlt | hge
  · rw [occupancy, getElem?_foldl_fillEntry hstart hlt, List.getElem?_map,
      List.getElem?_range hlt, Option.map_some, stateAt, List.getElem?_append,
      List.getElem?_replicate, List.getElem?_replicate, List.length_replicate]
    by_cases hf : s.Fills byte
    · exact (if_pos hf).trans (congrArg some (if_pos hf).symm)
    · refine (if_neg hf).trans (Eq.trans ?_ (congrArg some (if_neg hf).symm))
      clear hf hstart
      grind
  · have hlength : s.occupancy.length = slotSize := length_foldl_fillEntry hstart
    rw [List.getElem?_eq_none (hlength ▸ hge),
      List.getElem?_eq_none (by rwa [List.length_map, List.length_range])]

end Slot

/-! ## Counting bytes -/

/-- A stretch of numbers falls into those below and those from a number on. -/
theorem range'_split {lo mid hi : Nat} (hlo : lo ≤ mid) (hhi : mid ≤ hi) :
    List.range' lo (hi - lo) = List.range' lo (mid - lo) ++ List.range' mid (hi - mid) := by
  obtain ⟨m, rfl⟩ := Nat.exists_eq_add_of_le hlo
  obtain ⟨n, rfl⟩ := Nat.exists_eq_add_of_le hhi
  rw [Nat.add_assoc, Nat.add_sub_cancel_left, Nat.add_sub_cancel_left, ← Nat.add_assoc,
    Nat.add_sub_cancel_left, List.range'_append_1]

namespace Laid

variable (P : Entry → Bool) {lo hi : Nat} {e : Entry} {es : List Entry}

/-- No value covers a byte before the first one. -/
theorem countP_before (h : Laid lo hi (e :: es)) : (List.range' lo (e.offset - lo)).countP
    (fun byte => ∃ f ∈ e :: es, P f ∧ f.Covers byte) = 0 := by
  obtain ⟨hlo, hl⟩ := h
  have hstop : e.offset ≤ e.stop := e.offset_le_stop
  refine List.countP_eq_zero.2 fun byte hbyte => ?_
  have hlt := (List.mem_range'_1.1 hbyte).2
  simp only [decide_eq_true_eq]
  rintro ⟨f, hf, -, hcov⟩
  have hge := hcov.1
  rcases List.mem_cons.1 hf with rfl | hf
  · omega
  · have hlater := (hl.entry_le f hf).1
    omega

/-- The first value has its bytes to itself. -/
theorem countP_own (h : Laid lo hi (e :: es)) : (List.range' e.offset e.size).countP
    (fun byte => ∃ f ∈ e :: es, P f ∧ f.Covers byte) = if P e then e.size else 0 := by
  have hstop : e.stop = e.offset + e.size := rfl
  split
  next hP =>
    refine (List.countP_eq_length.2 fun byte hbyte => ?_).trans List.length_range'
    have hmem := List.mem_range'_1.1 hbyte
    exact decide_eq_true ⟨e, List.mem_cons_self, hP, hmem.1, by omega⟩
  next hP =>
    refine List.countP_eq_zero.2 fun byte hbyte => ?_
    have hlt := (List.mem_range'_1.1 hbyte).2
    simp only [decide_eq_true_eq]
    rintro ⟨f, hf, hPf, hcov⟩
    rcases List.mem_cons.1 hf with rfl | hf
    · exact hP hPf
    · have hlater := (h.2.entry_le f hf).1
      have hge := hcov.1
      omega

/-- It covers no byte behind. -/
theorem countP_behind (e : Entry) (es : List Entry) (n : Nat) : (List.range' e.stop n).countP
    (fun byte => ∃ f ∈ e :: es, P f ∧ f.Covers byte) =
      (List.range' e.stop n).countP (fun byte => ∃ f ∈ es, P f ∧ f.Covers byte) := by
  refine List.countP_congr fun byte hbyte => ?_
  have hge := (List.mem_range'_1.1 hbyte).1
  simp only [decide_eq_true_eq, List.exists_mem_cons_iff, or_iff_right_iff_imp]
  rintro ⟨-, hcov⟩
  have hlt := hcov.2
  omega

/-- Of the bytes of a stretch, the values of a kind that follow one another within it cover as many
as they have. -/
theorem countP_covers : ∀ {lo hi : Nat} {es : List Entry}, Laid lo hi es →
    (List.range' lo (hi - lo)).countP (fun byte => ∃ e ∈ es, P e ∧ e.Covers byte) =
      ((es.filter P).map (·.size)).sum
  | lo, hi, [], _ => by simp
  | lo, hi, e :: es, h => by
    have hstop : e.stop = e.offset + e.size := rfl
    have hle := h.2.le
    have hsplit : List.range' lo (hi - lo) = List.range' lo (e.offset - lo) ++
        (List.range' e.offset e.size ++ List.range' e.stop (hi - e.stop)) := by
      have hsize : e.stop - e.offset = e.size := by omega
      rw [range'_split h.1 (by omega), range'_split (by omega : e.offset ≤ e.stop) hle, hsize]
    rw [hsplit, List.countP_append, List.countP_append, h.countP_before P, h.countP_own P,
      countP_behind, countP_covers h.2, List.filter_cons]
    split <;> simp

end Laid

/-- In a packed slot the map has as many filled and as many claimed bytes as the slot counts. -/
theorem Slot.Packed.count_occupancy {s : Slot} (h : s.Packed) :
    s.occupancy.count .filled = s.filled ∧ s.occupancy.countP (· ≠ .untouched) = s.reserved := by
  have hlaid : Laid 0 slotSize s.entries := h.wellFormed.mono h.reserved_le
  have hclaimed : ∀ byte, s.Fills byte → byte < s.reserved := by
    rintro byte ⟨e, he, -, -, hstop⟩
    exact Nat.lt_of_lt_of_le hstop (h.wellFormed.entry_le e he).2
  rw [Slot.occupancy_eq_map, List.range_eq_range']
  constructor
  · rw [h.filled_eq, List.count, List.countP_map,
      ← hlaid.countP_covers (fun e => decide (e.encoding ≠ .mapping))]
    refine List.countP_congr fun byte _ => ?_
    simp only [Function.comp_apply, beq_iff_eq, decide_eq_true_eq]
    exact Slot.stateAt_eq_filled_iff
  · -- As content is claimed, the bytes that are not untouched are those up to the claimed ones.
    have hlt : ∀ byte, s.stateAt byte ≠ .untouched ↔ byte < s.reserved := by
      intro byte
      rw [ne_eq, Slot.stateAt_eq_untouched_iff]
      have := hclaimed byte
      grind
    have hfront : (List.range' 0 s.reserved).countP
        ((fun state => decide (state ≠ .untouched)) ∘ s.stateAt) = s.reserved := by
      refine (List.countP_eq_length.2 fun byte hbyte => ?_).trans List.length_range'
      exact decide_eq_true ((hlt byte).2 (by simpa using hbyte))
    have hback : (List.range' s.reserved (slotSize - s.reserved)).countP
        ((fun state => decide (state ≠ .untouched)) ∘ s.stateAt) = 0 := by
      refine List.countP_eq_zero.2 fun byte hbyte => ?_
      have hge := (List.mem_range'_1.1 hbyte).1
      simpa using mt (hlt byte).1 (Nat.not_lt.2 hge)
    rw [List.countP_map, ← Nat.sub_zero slotSize, range'_split (Nat.zero_le _) h.reserved_le,
      List.countP_append, Nat.sub_zero, hfront, hback, Nat.add_zero]

/-! ## What the map says -/

/-- The map of a slot tells what is in each byte, whatever its values: a byte is filled if a value
that is no mapping lies over it, and otherwise reserved or untouched as it is claimed or not. In the
slots of a layout whose plain values fit in a slot, the filled bytes of the map are as many as the
slot counts, and so are the claimed ones. -/
theorem occupancy_exact :
    (∀ s : Slot, s.occupancy.length = slotSize ∧ ∀ byte < slotSize,
      (s.occupancy[byte]? = some .filled ↔ s.Fills byte) ∧
      (s.occupancy[byte]? = some .reserved ↔ ¬ s.Fills byte ∧ byte < s.reserved) ∧
      (s.occupancy[byte]? = some .untouched ↔ ¬ s.Fills byte ∧ s.reserved ≤ byte)) ∧
    ∀ (layout : Layout) (first : Word) (slots : List Slot), layout.PlainSizes (· ≤ slotSize) →
      layout.collate first = .ok slots → ∀ s ∈ slots,
        s.occupancy.count .filled = s.filled ∧
          s.occupancy.countP (· ≠ .untouched) = s.reserved := by
  constructor
  · intro s
    rw [Slot.occupancy_eq_map]
    refine ⟨by rw [List.length_map, List.length_range], fun byte hbyte => ?_⟩
    rw [List.getElem?_map, List.getElem?_range hbyte, Option.map_some, Option.some_inj,
      Option.some_inj, Option.some_inj]
    exact ⟨Slot.stateAt_eq_filled_iff, Slot.stateAt_eq_reserved_iff,
      Slot.stateAt_eq_untouched_iff⟩
  · intro layout first slots hfit h s hs
    exact ((Layout.packedFrom_of_collate hfit h).packed s hs).count_occupancy

/-- A struct that is closed over its last bytes, and a mapping, which is claimed and has no
content. -/
theorem occupancy_exact_closed :
    let layout : Layout := ⟨[.bare "s" "t_struct", .bare "m" "t_mapping"],
      .ofList [("t_uint64", .value "uint64" 8),
        ("t_struct", .struct "struct C.S" 32 [.bare "a" "t_uint64"]),
        ("t_mapping", .mapping "mapping(uint64 => uint64)" "t_uint64" "t_uint64")]⟩
    ∃ slots, layout.collate .zero = .ok slots ∧
      slots.map (fun s => (s.filled, s.reserved)) = [(8, 32), (0, 32)] ∧
      ∀ s ∈ slots, s.occupancy.count .filled = s.filled ∧
        s.occupancy.countP (· ≠ .untouched) = s.reserved := by
  intro layout
  have h : ∃ slots, layout.collate .zero = .ok slots ∧
      slots.map (fun s => (s.filled, s.reserved)) = [(8, 32), (0, 32)] := by
    rw [Layout.collate_eq]
    exact ⟨_, rfl, rfl⟩
  obtain ⟨slots, h, hcounts⟩ := h
  exact ⟨slots, h, hcounts, occupancy_exact.2 layout .zero slots (.of_entries (by decide)) h⟩

end SlotLayout
