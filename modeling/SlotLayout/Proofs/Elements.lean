import SlotLayout.Proofs.Closing
import SlotLayout.Proofs.Growth

/-!
# Elements of arrays

Where the elements of an array of small values lie. The array begins in a slot without claimed
bytes; as many elements as fit go side by side into that slot, as many into the next one, and so on
(`Packing.HasElements`). How far the elements fill the slots depends on their number only, so there
is a formula for the slot and the offset of each (`collate_elements`). It holds from whatever packing
has come to: values without bytes may be in front of the first element and behind the last one.
-/

namespace SlotLayout

/-! ## Arrays of small values -/

namespace TypeInfo

/-- The entry of a value that begins at an offset. -/
def entryAt (info : TypeInfo) (part : Part) (offset : Nat) : Entry :=
  ⟨part.name, part.typeId, info.label, info.encoding, offset, info.size⟩

/-- How many values of the type fit in a slot. -/
def perSlot (info : TypeInfo) : Nat := slotSize / info.size

theorem perSlot_mul_size_le (info : TypeInfo) : info.perSlot * info.size ≤ slotSize :=
  Nat.div_mul_le_self ..

/-- The entry of an element of the array `name`, if the elements lie side by side from the first
byte of a slot on and no element across two slots. -/
def elementAt (info : TypeInfo) (name base : String) (i : Nat) : Entry :=
  info.entryAt (.element name base i) (i % info.perSlot * info.size)

end TypeInfo

/-- Values of the type `typeId` are arrays of small values: at least the bytes of a slot are counted
for them, and their elements stay whole, have bytes, and fit in a slot. -/
structure TypeTable.SmallArray (types : TypeTable) (typeId base : String) (length : Nat)
    (elem : TypeInfo) : Prop where
  array : ∃ info, types.get? typeId = some info ∧
    info.shape typeId = .ok (.fixedArray base length) ∧ slotSize ≤ info.byteCount
  elem_eq : types.get? base = some elem
  whole : ∃ shape, elem.shape base = .ok shape ∧ shape.isComposite = false
  size_pos : 1 ≤ elem.size
  size_le : elem.size ≤ slotSize

namespace TypeTable.SmallArray

variable {types : TypeTable} {typeId base : String} {length : Nat} {elem : TypeInfo} {part : Part}
  {p q : Packing}

theorem perSlot_pos (h : types.SmallArray typeId base length elem) : 0 < elem.perSlot :=
  Nat.div_pos h.size_le h.size_pos

theorem below_eq (h : types.SmallArray part.typeId base length elem) :
    types.below part = some ((List.range' 0 length).map (.element part.name base)) := by
  obtain ⟨info, hi, hs, -⟩ := h.array
  rw [TypeTable.below_eq hi hs, ← List.range_eq_range']
  rfl

theorem below_element (h : types.SmallArray typeId base length elem) (name : String)
    (i : Nat) : types.below (.element name base i) = none := by
  obtain ⟨shape, hs, hwhole⟩ := h.whole
  have hbelow : types.below (.element name base i) = shape.parts? (Part.element name base i).name :=
    TypeTable.below_eq h.elem_eq hs
  have hnone := shape.isSome_parts? (Part.element name base i).name
  rw [hwhole] at hnone
  exact hbelow.trans (Option.not_isSome_iff_eq_none.1 (by simp [hnone]))

/-- An array begins in a slot without claimed bytes, as no other has room for it. -/
theorem untouched (h : types.SmallArray part.typeId base length elem) {parts? : Option (List Part)}
    (ha : p.arrive types part = .ok (q, parts?)) :
    ∃ s older, q.slots = s :: older ∧ s.reserved = 0 := by
  obtain ⟨info, hi, hs, hsize⟩ := h.array
  obtain ⟨info', shape, r, hi', hs', ho, hparts, rfl⟩ := Packing.arrive_eq_ok_iff.1 ha
  cases hi.symm.trans hi'
  cases hs.symm.trans hs'
  cases hparts
  obtain ⟨s, older, hslots, hroom⟩ := Packing.room_of_openFor ho
  have hslot : 0 < slotSize := by decide
  rw [TypeInfo.size_of_composite hs rfl, Slot.remaining] at hroom
  exact ⟨s, older, hslots, by omega⟩

/-- How an array is packed depends on its length only in how many elements are packed. -/
theorem apart (h : types.SmallArray part.typeId base length elem) {room : Nat}
    (hq : Collation.placeNested types room part p = .ok q) : ∃ room' r q', room = room' + 1 ∧
      p.openFor slotSize = .ok r ∧
      p.arrive types part = .ok (r, some ((List.range' 0 length).map (.element part.name base))) ∧
      ((List.range' 0 length).map (.element part.name base)).foldlM
        (fun q part => Collation.placeNested types room' part q) r = .ok q' ∧ q = q'.close := by
  have hb := h.below_eq
  rcases Collation.placeNested_cases hq with ha | ⟨room', parts, r, q', hroom, ha, hfold, hclose⟩
  · cases hb.symm.trans (TypeTable.below_of_arrive ha)
  · cases hb.symm.trans (TypeTable.below_of_arrive ha)
    refine ⟨room', r, q', hroom, ?_, ha, hfold, hclose⟩
    obtain ⟨info, hi, hs, hsize⟩ := h.array
    obtain ⟨info', shape, r', hi', hs', ho, hparts, rfl⟩ := Packing.arrive_eq_ok_iff.1 ha
    cases hi.symm.trans hi'
    cases hs.symm.trans hs'
    rw [TypeInfo.size_of_composite hs rfl, Packing.openFor_of_slotSize_le hsize] at ho
    exact ho

/-- An element that is taken in goes behind the values of a slot with room for it. -/
theorem placed (h : types.SmallArray typeId base length elem) {name : String} {i room : Nat}
    (hq : Collation.placeNested types room (.element name base i) p = .ok q) :
    p.arrive types (.element name base i) = .ok (q, none) ∧
      ∃ r, p.openFor elem.size = .ok r ∧ q = r.place (.element name base i) elem := by
  have ha : p.arrive types (.element name base i) = .ok (q, none) := by
    rcases Collation.placeNested_cases hq with ha | ⟨_, _, _, _, _, ha, -⟩
    · exact ha
    · cases (h.below_element name i).symm.trans (TypeTable.below_of_arrive ha)
  obtain ⟨info, shape, r, hi, -, ho, -, rfl⟩ := Packing.arrive_eq_ok_iff.1 ha
  cases h.elem_eq.symm.trans hi
  exact ⟨ha, r, ho, rfl⟩

end TypeTable.SmallArray

/-! ## Slots without claimed bytes -/

/-- Where no byte of a slot is claimed, its values are at its start and have no bytes. -/
theorem Layout.Comes.tiles_of_untouched {layout : Layout} {first : Word} {x : Place} {p : Packing}
    (h : layout.Comes first x p) :
    ∀ s ∈ p.slots, s.reserved = 0 → Tiles Entry.offset Entry.stop 0 0 s.entries := by
  refine h.slots (fun _ _ => rfl) ?_ ?_
  · intro s part info _ _ hs h0
    have hsum : s.reserved + info.size = 0 := h0
    have hzero : s.reserved = 0 := Nat.eq_zero_of_add_eq_zero_right hsum
    exact (hs hzero).append ⟨hzero, Nat.zero_le _, hsum⟩
  · intro s _ h0
    have hslot : slotSize ≠ 0 := by decide
    exact absurd h0 hslot

/-! ## Rows of elements -/

/-- The values with bytes of the slot are `c` elements from the element `i` on, and as many bytes
are claimed. -/
structure Slot.Row (element : Nat → Entry) (size i c : Nat) (s : Slot) : Prop where
  reserved_eq : s.reserved = c * size
  entries_eq : ∃ front, s.entries = front ++ (List.range' i c).map element ∧
    ∀ e ∈ front, e.size = 0

namespace Slot

variable {element : Nat → Entry} {size i c : Nat} {s : Slot}

theorem row_blank (index : Word) (element : Nat → Entry) (size i : Nat) :
    (blank index).Row element size i 0 :=
  ⟨(Nat.zero_mul size).symm, [], rfl, nofun⟩

/-- The next element goes behind the others. -/
theorem Row.place {part : Part} {elem : TypeInfo} (h : s.Row element elem.size i c)
    (he : element (i + c) = elem.entryAt part (c * elem.size)) :
    (s.place part elem).Row element elem.size i (c + 1) := by
  obtain ⟨hreserved, front, hentries, hfront⟩ := h
  refine ⟨?_, front, ?_, hfront⟩
  · show s.reserved + elem.size = (c + 1) * elem.size
    rw [hreserved, Nat.succ_mul]
  · show s.entries ++ [elem.entryAt part s.reserved] = _
    rw [hentries, hreserved, ← he, List.range'_1_concat, List.map_append, List.map_singleton,
      List.append_assoc]

end Slot

/-- The slots of a packing are `top`, with `c` elements of the array `name`, upon the slots `full`,
from the oldest to the newest, with as many elements as fit, upon the slots `older`. -/
structure Packing.Rows (older : List Slot) (elem : TypeInfo) (name base : String)
    (full : List Slot) (top : Slot) (c : Nat) (p : Packing) : Prop where
  slots_eq : p.slots = top :: (full.reverse ++ older)
  full_row : ∀ (r : Nat) (s : Slot), full[r]? = some s →
    s.Row (elem.elementAt name base) elem.size (r * elem.perSlot) elem.perSlot
  top_row : top.Row (elem.elementAt name base) elem.size (full.length * elem.perSlot) c
  count_le : c ≤ elem.perSlot

/-- Upon the slots `older` lie `n` elements of the array `name`, and none in a slot of its own. -/
def Packing.HasElements (older : List Slot) (elem : TypeInfo) (name base : String) (n : Nat)
    (p : Packing) : Prop :=
  ∃ (full : List Slot) (top : Slot) (c : Nat), p.Rows older elem name base full top c ∧
    n = full.length * elem.perSlot + c ∧ (n ≠ 0 → 0 < c)

namespace Packing

variable {older : List Slot} {elem : TypeInfo} {name base : String} {full : List Slot} {top : Slot}
  {c n : Nat} {p q r : Packing}

/-- No elements lie in a slot without claimed bytes, whose values are at its start. -/
theorem hasElements_zero (hp : p.slots = top :: older) (h0 : top.reserved = 0)
    (hentries : Tiles Entry.offset Entry.stop 0 0 top.entries) (elem : TypeInfo)
    (name base : String) : p.HasElements older elem name base 0 := by
  have hsize : ∀ e ∈ top.entries, e.size = 0 := by
    intro e he
    have hle := hentries.range_le e he
    have hstop : e.stop = e.offset + e.size := rfl
    omega
  have hrow : top.Row (elem.elementAt name base) elem.size (0 * elem.perSlot) 0 :=
    ⟨h0.trans (Nat.zero_mul _).symm, top.entries, (List.append_nil _).symm, hsize⟩
  exact ⟨[], top, 0, ⟨hp, nofun, hrow, Nat.zero_le _⟩, (Nat.zero_mul _).symm, nofun⟩

/-- Where there is room for one more element in the newest slot, it goes there. -/
theorem Rows.place (h : p.Rows older elem name base full top c) (hc : c < elem.perSlot)
    (hn : n = full.length * elem.perSlot + c) (ho : p.openFor elem.size = .ok r) :
    (r.place (.element name base n) elem).Rows older elem name base full
      (top.place (.element name base n) elem) (c + 1) := by
  have hroom : elem.size ≤ top.remaining := by
    have hsucc : (c + 1) * elem.size ≤ elem.perSlot * elem.size := Nat.mul_le_mul_right _ hc
    have hfit := elem.perSlot_mul_size_le
    rw [Nat.succ_mul] at hsucc
    rw [Slot.remaining, h.top_row.reserved_eq]
    omega
  cases (openFor_newest h.slots_eq (.inr hroom)).symm.trans ho
  have hmod : n % elem.perSlot = c := by rw [hn, Nat.mul_add_mod_of_lt hc]
  refine ⟨by rw [slots_place, h.slots_eq]; rfl, h.full_row, h.top_row.place ?_, hc⟩
  rw [← hn, TypeInfo.elementAt, hmod]

/-- Where there is not, it begins another slot. -/
theorem Rows.next (h : p.Rows older elem name base full top elem.perSlot)
    (hle : elem.size ≤ slotSize) (hpos : 1 ≤ elem.size)
    (hn : n = (full.length + 1) * elem.perSlot) (ho : p.openFor elem.size = .ok r) :
    ∃ index, (r.place (.element name base n) elem).Rows older elem name base (full ++ [top])
      ((Slot.blank index).place (.element name base n) elem) 1 := by
  have hq : 0 < elem.perSlot := Nat.div_pos hle hpos
  have hfull : slotSize < top.reserved + elem.size := by
    have hlt := Nat.lt_mul_div_succ slotSize hpos
    rw [h.top_row.reserved_eq, ← Nat.succ_mul, Nat.mul_comm]
    exact hlt
  have hreserved : top.reserved ≠ 0 := by
    rw [h.top_row.reserved_eq]
    exact Nat.mul_ne_zero (Nat.ne_of_gt hq) (Nat.ne_of_gt hpos)
  rcases openFor_cases ho with ⟨hnil, -⟩ | ⟨s, ss, index, hs, -, -, -, rfl⟩ | ⟨s, ss, hs, hroom, -⟩
  · rw [h.slots_eq] at hnil
    cases hnil
  · have hmod : n % elem.perSlot = 0 := by rw [hn, Nat.mul_mod_left]
    rw [h.slots_eq] at hs
    cases hs
    refine ⟨index, ?_, ?_, ?_, hq⟩
    · rw [slots_place, List.reverse_append]
      rfl
    · intro k t hk
      by_cases hlt : k < full.length
      · rw [List.getElem?_append_left hlt] at hk
        exact h.full_row k t hk
      · rw [List.getElem?_append_right (Nat.le_of_not_lt hlt), List.getElem?_singleton] at hk
        split at hk
        · rename_i heq
          cases hk
          rw [show k = full.length by omega]
          exact h.top_row
        · cases hk
    · refine (Slot.row_blank index _ _ _).place ?_
      rw [List.length_append, List.length_singleton, Nat.add_zero, ← hn, TypeInfo.elementAt, hmod]
  · rw [h.slots_eq] at hs
    cases hs
    rw [Slot.remaining] at hroom
    omega

/-- One more element is put behind those in the newest slot, or into another slot if there are as
many as fit. -/
theorem HasElements.place (h : p.HasElements older elem name base n) (hle : elem.size ≤ slotSize)
    (hpos : 1 ≤ elem.size) (ho : p.openFor elem.size = .ok r) :
    (r.place (.element name base n) elem).HasElements older elem name base (n + 1) := by
  obtain ⟨full, top, c, hrows, hn, -⟩ := h
  rcases Nat.lt_or_eq_of_le hrows.count_le with hc | rfl
  · exact ⟨full, _, c + 1, hrows.place hc hn ho, by omega, fun _ => Nat.succ_pos c⟩
  · have hnext : n = (full.length + 1) * elem.perSlot := by rw [hn, Nat.succ_mul]
    obtain ⟨index, hplaced⟩ := hrows.next hle hpos hnext ho
    exact ⟨full ++ [top], _, 1, hplaced, by rw [List.length_append, hnext]; rfl,
      fun _ => Nat.one_pos⟩

/-- The last element is the last value of the newest slot, which is as many slots further on as are
full of the elements before. -/
theorem HasElements.last (h : p.HasElements older elem name base (n + 1)) :
    ∃ s ss es, p.slots = s :: ss ∧ ss.length = older.length + n / elem.perSlot ∧
      s.entries = es ++ [elem.elementAt name base n] := by
  obtain ⟨full, top, c, hrows, hn, hc⟩ := h
  obtain ⟨-, front, hentries, -⟩ := hrows.top_row
  obtain ⟨c, rfl⟩ := Nat.exists_eq_succ_of_ne_zero (Nat.ne_of_gt (hc (Nat.succ_ne_zero n)))
  have hlt : c < elem.perSlot := hrows.count_le
  have hn : n = full.length * elem.perSlot + c := Nat.succ.inj hn
  have hdiv : n / elem.perSlot = full.length := by
    rw [hn, Nat.mul_comm, Nat.mul_add_div (Nat.zero_lt_of_lt hlt), Nat.div_eq_of_lt hlt,
      Nat.add_zero]
  refine ⟨top, _, front ++ (List.range' (full.length * elem.perSlot) c).map
    (elem.elementAt name base), hrows.slots_eq, ?_, ?_⟩
  · rw [List.length_append, List.length_reverse, hdiv, Nat.add_comm]
  · rw [hentries, List.range'_1_concat, List.map_append, ← List.append_assoc, ← hn]
    rfl

end Packing

/-- Packing elements one after another puts them into rows. -/
theorem TypeTable.SmallArray.hasElements {types : TypeTable} {typeId base name : String}
    {length room n k : Nat} {elem : TypeInfo} {older : List Slot} {p q : Packing}
    (h : types.SmallArray typeId base length elem) (hp : p.HasElements older elem name base n)
    (hq : ((List.range' n k).map (.element name base)).foldlM
      (fun q part => Collation.placeNested types room part q) p = .ok q) :
    q.HasElements older elem name base (n + k) := by
  induction k generalizing q with
  | zero =>
    cases hq
    exact hp
  | succ k ih =>
    rw [List.range'_1_concat, List.map_append, List.foldlM_append, bind_eq_ok_iff] at hq
    obtain ⟨r, hr, hq⟩ := hq
    rw [List.map_singleton, List.foldlM_cons, bind_eq_ok_iff] at hq
    obtain ⟨r', hr', hq⟩ := hq
    cases hq
    obtain ⟨-, t, ht, rfl⟩ := h.placed hr'
    exact (ih hr).place h.size_le h.size_pos ht

/-! ## Where the elements lie -/

/-- When packing comes to the place, it puts the value there into the slot `k`, counted from the
first one, as `e`. -/
def Layout.Puts (layout : Layout) (first : Word) (x : Place) (k : Nat) (e : Entry) : Prop :=
  ∃ (part : Part) (p q : Packing) (s : Slot) (older : List Slot) (es : List Entry),
    layout.partAt x = some part ∧ layout.Comes first x p ∧
      p.arrive layout.types part = .ok (q, none) ∧ q.slots = s :: older ∧ older.length = k ∧
        s.entries = es ++ [e]

theorem Slot.Row.filter_entries {elem : TypeInfo} {name base : String} {i c : Nat} {s : Slot}
    (h : s.Row (elem.elementAt name base) elem.size i c) (hpos : 1 ≤ elem.size) :
    s.entries.filter (0 < ·.size) = (List.range' i c).map (elem.elementAt name base) := by
  obtain ⟨-, front, hentries, hfront⟩ := h
  have hnone : front.filter (0 < ·.size) = [] :=
    List.filter_eq_nil_iff.2 fun e he => by simp [hfront e he]
  have hall : ((List.range' i c).map (elem.elementAt name base)).filter (0 < ·.size) =
      (List.range' i c).map (elem.elementAt name base) := by
    refine List.filter_eq_self.2 fun e he => ?_
    obtain ⟨j, -, rfl⟩ := List.mem_map.1 he
    exact decide_eq_true hpos
  rw [hentries, List.filter_append, hnone, hall, List.nil_append]

section

variable {layout : Layout} {first : Word} {slots : List Slot} {x : Place} {part : Part}
  {base : String} {length : Nat} {elem : TypeInfo}

/-- Packing comes to the elements of an array with none of them packed, packs them one after another
and closes the last slot. -/
theorem TypeTable.SmallArray.exists_foldlM
    (harray : layout.types.SmallArray part.typeId base length elem)
    (h : layout.collate first = .ok slots) (hx : layout.partAt x = some part) :
    ∃ room older p q, layout.Comes first (x.inner 0) p ∧
      p.HasElements older elem part.name base 0 ∧
      ((List.range' 0 length).map (.element part.name base)).foldlM
        (fun q part => Collation.placeNested layout.types room part q) p = .ok q ∧
      layout.Comes first x.next q.close := by
  obtain ⟨room, p, q, hcomes, hq⟩ := Layout.exists_comes_of_partAt h hx
  have hbehind := hcomes.trans (Layout.run_of_placeNested hx hq)
  obtain ⟨room, r, r', -, -, ha, hfold, rfl⟩ := harray.apart hq
  have hstart : layout.Comes first (x.inner 0) r := hcomes.tail (.enter hx ha)
  obtain ⟨top, older, hr, h0⟩ := harray.untouched ha
  have hempty := hstart.tiles_of_untouched top (by rw [hr]; exact List.mem_cons_self) h0
  exact ⟨room, older, r, r', hstart, Packing.hasElements_zero hr h0 hempty .., hfold, hbehind⟩

/-- Each element is put where its number says. -/
theorem TypeTable.SmallArray.puts {room : Nat} {older : List Slot} {p q : Packing}
    (harray : layout.types.SmallArray part.typeId base length elem)
    (hx : layout.partAt x = some part) (hp : layout.Comes first (x.inner 0) p)
    (hnone : p.HasElements older elem part.name base 0)
    (hq : ((List.range' 0 length).map (.element part.name base)).foldlM
      (fun q part => Collation.placeNested layout.types room part q) p = .ok q)
    {i : Nat} (hi : i < length) : layout.Puts first (x.inner i)
      (older.length + i / elem.perSlot) (elem.elementAt part.name base i) := by
  have hb := harray.below_eq
  have hi' : ((List.range' 0 length).map (Part.element part.name base))[i]? =
      some (.element part.name base i) := by
    rw [List.getElem?_map, List.getElem?_range' hi, Nat.zero_add, Nat.one_mul]
    rfl
  obtain ⟨t, t', ht, ht'⟩ := exists_of_foldlM_ok hq hi'
  have hrun : layout.Run ⟨x.inner 0, p⟩ ⟨x.inner i, t⟩ := Layout.run_of_foldlM_take x.path
    (fun k _ hk _ _ hq => Layout.run_of_placeNested ((Layout.partAt_inner hx hb k).trans hk) hq)
    (by simpa using Nat.le_of_lt hi) ht
  obtain ⟨ha, u, hu, rfl⟩ := harray.placed ht'
  rw [← List.map_take, List.take_range'_of_length_ge (Nat.le_of_lt hi)] at ht
  have hplaced := (harray.hasElements hnone ht).place harray.size_le harray.size_pos hu
  rw [Nat.zero_add] at hplaced
  obtain ⟨s, ss, es, hslots, hlen, hentries⟩ := hplaced.last
  exact ⟨_, t, _, s, ss, es, (Layout.partAt_inner hx hb i).trans hi', hp.trans hrun, ha, hslots,
    hlen, hentries⟩

/-- The number of slots for `n` elements of which `c` are in the last. -/
theorem ceil_eq {n m q c : Nat} (hn : n = m * q + c) (hpos : 0 < c) (hle : c ≤ q) :
    (n + q - 1) / q = m + 1 := by
  have hq : 0 < q := Nat.lt_of_lt_of_le hpos hle
  rw [Nat.div_eq_iff hq, hn, Nat.succ_mul]
  omega

/-- An element is among those of the slot that its number says. -/
theorem mem_row {n q i : Nat} (hq : 0 < q) (hi : i < n) :
    i / q < (n + q - 1) / q ∧ i ∈ List.range' (i / q * q) (min q (n - i / q * q)) := by
  have hle : i / q * q ≤ i := Nat.div_mul_le_self i q
  have hlt : i < i / q * q + q := Nat.lt_div_mul_add hq
  rw [List.mem_range'_1]
  refine ⟨(Nat.le_div_iff_mul_le hq).2 ?_, hle, by omega⟩
  rw [Nat.succ_mul]
  omega

/-- The slots of the elements are still there in the end, with nothing but values without bytes
added to the last one. -/
theorem TypeTable.SmallArray.slots_of_collate {room : Nat} {older : List Slot} {p q : Packing}
    (harray : layout.types.SmallArray part.typeId base length elem)
    (h : layout.collate first = .ok slots) (hlength : 1 ≤ length)
    (hnone : p.HasElements older elem part.name base 0)
    (hq : ((List.range' 0 length).map (.element part.name base)).foldlM
      (fun q part => Collation.placeNested layout.types room part q) p = .ok q)
    (hbehind : layout.Comes first x.next q.close) :
    ∀ r < (length + elem.perSlot - 1) / elem.perSlot, ∃ s, slots[older.length + r]? = some s ∧
      s.entries.filter (0 < ·.size) = (List.range' (r * elem.perSlot)
        (min elem.perSlot (length - r * elem.perSlot))).map (elem.elementAt part.name base) ∧
      s.reserved = if r + 1 = (length + elem.perSlot - 1) / elem.perSlot then slotSize
        else elem.perSlot * elem.size := by
  have hall := harray.hasElements hnone hq
  rw [Nat.zero_add] at hall
  obtain ⟨full, top, c, hrows, hn, hc⟩ := hall
  rw [ceil_eq hn (hc (Nat.ne_of_gt hlength)) hrows.count_le]
  obtain ⟨z, hrun, rfl⟩ := hbehind.run_last h
  obtain ⟨t, newer, hz, -, hreserved, xs, hentries, hxs⟩ :=
    (Layout.Run.seals hrun (Packing.seals_close hrows.slots_eq)).exists_reverse
  have hslots : ∀ r, z.slots.reverse[older.length + r]? = (full ++ t :: newer)[r]? := by
    intro r
    rw [hz, List.reverse_append, List.reverse_reverse, List.append_assoc,
      List.getElem?_append_right (by rw [List.length_reverse]; omega), List.length_reverse,
      Nat.add_sub_cancel_left]
  intro r hr
  rw [hslots]
  rcases Nat.lt_or_eq_of_le (Nat.le_of_lt_succ hr) with hlt | rfl
  · -- One of the slots that are full of elements.
    have hrow := hrows.full_row r full[r] (List.getElem?_eq_getElem hlt)
    refine ⟨full[r], ?_, ?_, ?_⟩
    · rw [List.getElem?_append_left hlt, List.getElem?_eq_getElem hlt]
    · have hrest : (r + 1) * elem.perSlot ≤ full.length * elem.perSlot :=
        Nat.mul_le_mul_right _ hlt
      rw [Nat.succ_mul] at hrest
      rw [hrow.filter_entries harray.size_pos, Nat.min_eq_left (by omega)]
    · rw [if_neg (by omega)]
      exact hrow.reserved_eq
  · -- The closed slot of the last elements.
    refine ⟨t, ?_, ?_, ?_⟩
    · rw [List.getElem?_append_right (Nat.le_refl _), Nat.sub_self]
      rfl
    · have hcount : min elem.perSlot (length - full.length * elem.perSlot) = c := by
        have hle := hrows.count_le
        omega
      have hnone : xs.filter (0 < ·.size) = [] :=
        List.filter_eq_nil_iff.2 fun e he => by simp [hxs e he]
      rw [hentries, List.filter_append, hrows.top_row.filter_entries harray.size_pos, hnone,
        List.append_nil, hcount]
    · rw [if_pos rfl]
      exact hreserved

end

/-- The elements of an array of small values, wherever the array stands. From some slot on they lie
side by side, as many in each slot as fit, and no other values with bytes are in these slots. The
last of the slots is claimed in full, the others as far as the elements go. -/
theorem collate_elements {layout : Layout} {first : Word} {slots : List Slot} {x : Place}
    {part : Part} {base : String} {length : Nat} {elem : TypeInfo}
    (h : layout.collate first = .ok slots) (hx : layout.partAt x = some part)
    (harray : layout.types.SmallArray part.typeId base length elem) (hlength : 1 ≤ length) :
    ∃ k, (∀ i < length,
        layout.Puts first (x.inner i) (k + i / elem.perSlot) (elem.elementAt part.name base i) ∧
        ∃ s, slots[k + i / elem.perSlot]? = some s ∧
          elem.elementAt part.name base i ∈ s.entries) ∧
      ∀ r < (length + elem.perSlot - 1) / elem.perSlot, ∃ s, slots[k + r]? = some s ∧
        s.entries.filter (0 < ·.size) = (List.range' (r * elem.perSlot)
          (min elem.perSlot (length - r * elem.perSlot))).map (elem.elementAt part.name base) ∧
        s.reserved = if r + 1 = (length + elem.perSlot - 1) / elem.perSlot then slotSize
          else elem.perSlot * elem.size := by
  obtain ⟨room, older, p, q, hp, hnone, hq, hbehind⟩ := harray.exists_foldlM h hx
  have hslots := harray.slots_of_collate h hlength hnone hq hbehind
  refine ⟨older.length, fun i hi => ⟨harray.puts hx hp hnone hq hi, ?_⟩, hslots⟩
  obtain ⟨hr, hmem⟩ := mem_row harray.perSlot_pos hi
  obtain ⟨s, hs, hentries, -⟩ := hslots _ hr
  have hfilter : elem.elementAt part.name base i ∈ s.entries.filter (0 < ·.size) := by
    rw [hentries]
    exact List.mem_map_of_mem hmem
  exact ⟨s, hs, (List.mem_filter.1 hfilter).1⟩

/-- An array of which two elements fit in a slot, inside of a struct and between values without
bytes. It ends in the slot that the second of these goes into. -/
theorem collate_elements_nested :
    let layout : Layout := ⟨[.bare "a" "t_bool", .bare "s" "t_struct(S)"],
      .ofList [("t_bool", .value "bool" 1), ("t_nil", .value "Nil" 0),
        ("t_uint96", .value "uint96" 12),
        ("t_array(t_uint96)5", .fixedArray "uint96[5]" 96 "t_uint96"),
        ("t_struct(S)", .struct "struct C.S" 128 [.bare "m" "t_nil",
          .bare "xs" "t_array(t_uint96)5", .bare "n" "t_nil", .bare "b" "t_bool"])]⟩
    let elem : TypeInfo := .value "uint96" 12
    let x : Place := ⟨[1], 1⟩
    ∃ slots k, layout.collate .zero = .ok slots ∧
      slots.map (fun s => (s.reserved, s.entries.map fun e => (e.name, e.offset))) =
        [(1, [("a", 0)]), (24, [("s.m", 0), ("s.xs[0]", 0), ("s.xs[1]", 12)]),
          (24, [("s.xs[2]", 0), ("s.xs[3]", 12)]), (32, [("s.xs[4]", 0), ("s.n", 32)]),
          (32, [("s.b", 0)])] ∧
      layout.partAt x = some ⟨"s.xs", "t_array(t_uint96)5"⟩ ∧
      (∀ i < 5, layout.Puts .zero (x.inner i) (k + i / elem.perSlot)
        (elem.elementAt "s.xs" "t_uint96" i)) ∧
      ∀ r < 3, ∃ s, slots[k + r]? = some s ∧ s.entries.filter (0 < ·.size) =
        (List.range' (r * 2) (min 2 (5 - r * 2))).map (elem.elementAt "s.xs" "t_uint96") ∧
        s.reserved = if r + 1 = 3 then slotSize else 24 := by
  intro layout elem x
  have hslots : ∃ slots, layout.collate .zero = .ok slots ∧
      slots.map (fun s => (s.reserved, s.entries.map fun e => (e.name, e.offset))) =
        [(1, [("a", 0)]), (24, [("s.m", 0), ("s.xs[0]", 0), ("s.xs[1]", 12)]),
          (24, [("s.xs[2]", 0), ("s.xs[3]", 12)]), (32, [("s.xs[4]", 0), ("s.n", 32)]),
          (32, [("s.b", 0)])] := by
    rw [Layout.collate_eq]
    exact ⟨_, rfl, rfl⟩
  obtain ⟨slots, hslots, hvalues⟩ := hslots
  have hx : layout.partAt x = some ⟨"s.xs", "t_array(t_uint96)5"⟩ := by decide
  have harray : layout.types.SmallArray "t_array(t_uint96)5" "t_uint96" 5 elem := {
    array := ⟨.fixedArray "uint96[5]" 96 "t_uint96", by decide, by decide, by decide⟩
    elem_eq := by decide
    whole := ⟨.value, by decide, by decide⟩
    size_pos := by decide
    size_le := by decide }
  obtain ⟨k, hputs, hrows⟩ := collate_elements hslots hx harray (by decide)
  have hcount : elem.perSlot = 2 := by decide
  rw [hcount] at hrows
  exact ⟨slots, k, hslots, hvalues, hx, fun i hi => (hputs i hi).1, hrows⟩

end SlotLayout
