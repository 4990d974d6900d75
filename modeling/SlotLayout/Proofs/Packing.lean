import Mathlib.Algebra.BigOperators.Group.List.Basic
import Mathlib.Algebra.GroupWithZero.Nat
import SlotLayout.Proofs.Expansion
import SlotLayout.Proofs.Results
import SlotLayout.Proofs.Segments

/-!
# The packing invariant

What holds of every slot while declarations are packed (`Slot.Packed`), provided that no plain value
is larger than a slot. `Packing.arrive_eq_ok_iff` says all that one step of packing does, and
`Packing.openFor_cases` when it opens a slot; from these, each step keeps the invariant.
`Collation.placeNested_keeps` and `Layout.collate_keeps` carry what the steps keep to whole runs,
and `collate_packed` collects what is then known of the slots of a layout.
-/

namespace SlotLayout

/-! ## Steps of packing -/

namespace Packing

variable {types : TypeTable} {part : Part} {p q : Packing}

@[simp] theorem slots_modifyNewest (p : Packing) (f : Slot → Slot) :
    (p.modifyNewest f).slots = p.slots.modifyHead f := by
  unfold modifyNewest
  cases h : p.slots with
  | nil => exact h
  | cons s older => rfl

@[simp] theorem first_modifyNewest (p : Packing) (f : Slot → Slot) :
    (p.modifyNewest f).first = p.first := by
  unfold modifyNewest
  cases p.slots <;> rfl

@[simp] theorem slots_place (p : Packing) (part : Part) (info : TypeInfo) :
    (p.place part info).slots = p.slots.modifyHead (·.place part info) := slots_modifyNewest ..

@[simp] theorem slots_close (p : Packing) : p.close.slots = p.slots.modifyHead Slot.close :=
  slots_modifyNewest ..

/-- A slot for a value is the first one, the next one after a slot that cannot take the value, or
the newest one. -/
theorem openFor_cases {size : Nat} (h : p.openFor size = .ok q) :
    (p.slots = [] ∧ q = { p with slots := [.blank p.first] }) ∨
    (∃ s older index, p.slots = s :: older ∧ s.reserved ≠ 0 ∧ s.remaining < size ∧
      s.index.successor? = some index ∧ q = { p with slots := .blank index :: s :: older }) ∨
    (∃ s older, p.slots = s :: older ∧ (s.reserved = 0 ∨ size ≤ s.remaining) ∧ q = p) := by
  unfold openFor at h
  split at h
  · rename_i hs
    exact .inl ⟨hs, (Except.ok.inj h).symm⟩
  · rename_i s older hs
    by_cases hfull : (!s.isEmpty && decide (s.remaining < size)) = true
    · rw [if_pos hfull] at h
      simp only [Slot.isEmpty, Bool.and_eq_true, Bool.not_eq_true', beq_eq_false_iff_ne,
        decide_eq_true_eq] at hfull
      split at h
      · rename_i index hi
        exact .inr (.inl ⟨s, older, index, hs, hfull.1, hfull.2, hi, (Except.ok.inj h).symm⟩)
      · cases h
    · rw [if_neg hfull] at h
      simp only [Slot.isEmpty, Bool.and_eq_true, Bool.not_eq_true', beq_eq_false_iff_ne,
        decide_eq_true_eq, not_and, Nat.not_lt] at hfull
      refine .inr (.inr ⟨s, older, hs, ?_, (Except.ok.inj h).symm⟩)
      by_cases h0 : s.reserved = 0
      · exact .inl h0
      · exact .inr (hfull h0)

/-- At most a blank slot is added for a value. -/
theorem eq_or_blank_of_openFor {size : Nat} (h : p.openFor size = .ok q) :
    q = p ∨ ∃ index, q.slots = .blank index :: p.slots := by
  rcases openFor_cases h with ⟨hnil, rfl⟩ | ⟨s, older, index, hs, -, -, -, rfl⟩ |
    ⟨-, -, -, -, rfl⟩
  · exact .inr ⟨p.first, by rw [hnil]⟩
  · exact .inr ⟨index, by rw [hs]⟩
  · exact .inl rfl

theorem openFor_first {size : Nat} (h : p.slots = []) :
    p.openFor size = .ok { p with slots := [.blank p.first] } := by
  rw [openFor, h]

theorem openFor_next {size : Nat} {s : Slot} {older : List Slot} {index : Word}
    (h : p.slots = s :: older) (h0 : s.reserved ≠ 0) (hfull : s.remaining < size)
    (hi : s.index.successor? = some index) :
    p.openFor size = .ok { p with slots := .blank index :: s :: older } := by
  simp [openFor, h, Slot.isEmpty, h0, hfull, hi]

theorem openFor_last {size : Nat} {s : Slot} {older : List Slot} (h : p.slots = s :: older)
    (h0 : s.reserved ≠ 0) (hfull : s.remaining < size) (hi : s.index.successor? = none) :
    p.openFor size = .error .slotIndexOverflow := by
  simp [openFor, h, Slot.isEmpty, h0, hfull, hi]

theorem openFor_newest {size : Nat} {s : Slot} {older : List Slot} (h : p.slots = s :: older)
    (hroom : s.reserved = 0 ∨ size ≤ s.remaining) : p.openFor size = .ok p := by
  rcases hroom with h0 | hfit
  · simp [openFor, h, Slot.isEmpty, h0]
  · simp [openFor, h, Nat.not_lt.2 hfit]

/-- All values that take up a slot or more begin alike. -/
theorem openFor_of_slotSize_le {size : Nat} (h : slotSize ≤ size) (p : Packing) :
    p.openFor size = p.openFor slotSize := by
  unfold openFor
  cases p.slots with
  | nil => rfl
  | cons s older =>
    have hfull : (!s.isEmpty && decide (s.remaining < size)) =
        (!s.isEmpty && decide (s.remaining < slotSize)) := by
      by_cases h0 : s.reserved = 0
      · simp [Slot.isEmpty, h0]
      · have hlt : s.remaining < slotSize := Nat.sub_lt (by decide) (Nat.pos_of_ne_zero h0)
        rw [decide_eq_true hlt, decide_eq_true (Nat.lt_of_lt_of_le hlt h)]
    dsimp only
    rw [hfull]

/-- Taking a value in: its type and shape are found and a slot is opened if need be. Then the value
is placed, or its parts are handed back. -/
theorem arrive_eq_ok_iff {parts? : Option (List Part)} :
    p.arrive types part = .ok (q, parts?) ↔ ∃ info shape r, types.get? part.typeId = some info ∧
      info.shape part.typeId = .ok shape ∧ p.openFor info.size = .ok r ∧
      shape.parts? part.name = parts? ∧ q = if parts?.isSome then r else r.place part info := by
  unfold arrive
  simp only [bind_eq_ok_iff]
  constructor
  · rintro ⟨info, hi, shape, hs, r, hr, h⟩
    refine ⟨info, shape, r, ?_, hs, hr, ?_⟩
    · unfold TypeTable.resolve at hi
      split at hi <;> cases hi
      assumption
    · cases hp : shape.parts? part.name <;> rw [hp] at h <;> cases h <;> exact ⟨rfl, rfl⟩
  · rintro ⟨info, shape, r, hi, hs, hr, rfl, rfl⟩
    refine ⟨info, by rw [TypeTable.resolve, hi], shape, hs, r, hr, ?_⟩
    cases shape.parts? part.name <;> rfl

theorem fallsInto_of_arrive {parts : List Part} (h : p.arrive types part = .ok (q, some parts))
    {inner : Part} (hi : inner ∈ parts) : types.FallsInto part inner := by
  obtain ⟨info, shape, -, hinfo, hs, -, hp, -⟩ := arrive_eq_ok_iff.1 h
  exact ⟨info, shape, parts, hinfo, hs, hp, hi⟩

end Packing

/-! ## Runs -/

namespace Collation

variable {types : TypeTable}

theorem declare_eq (types : TypeTable) (p : Packing) (d : Declaration) :
    declare types p d = placeNested types types.size d.part p := by
  rw [declare, run_place]
  cases placeNested types types.size d.part p with
  | error e => rfl
  | ok q => exact run.eq_1 ..

/-- A value is packed by placing it, or by packing its parts in order and closing the last slot. -/
theorem placeNested_cases {room : Nat} {part : Part} {p q : Packing}
    (h : placeNested types room part p = .ok q) : p.arrive types part = .ok (q, none) ∨
      ∃ room' parts r r', room = room' + 1 ∧ p.arrive types part = .ok (r, some parts) ∧
        parts.foldlM (fun q part => placeNested types room' part q) r = .ok r' ∧ q = r'.close := by
  unfold placeNested at h
  split at h
  · cases h
  · rename_i harr
    exact .inl (by rw [harr, Except.ok.inj h])
  · rename_i r parts harr
    cases room with
    | zero => cases h
    | succ room =>
      dsimp only at h
      cases hf : parts.foldlM (fun q part => placeNested types room part q) r with
      | error e => rw [hf] at h; cases h
      | ok r' =>
        rw [hf] at h
        exact .inr ⟨room, parts, r, r', rfl, harr, hf, (Except.ok.inj h).symm⟩

theorem placeNested_whole {room : Nat} {part : Part} {p q : Packing}
    (h : p.arrive types part = .ok (q, none)) : placeNested types room part p = .ok q := by
  unfold placeNested
  rw [h]

theorem placeNested_apart {room : Nat} {part : Part} {parts : List Part} {p r r' : Packing}
    (h : p.arrive types part = .ok (r, some parts))
    (hr : parts.foldlM (fun q part => placeNested types room part q) r = .ok r') :
    placeNested types (room + 1) part p = .ok r'.close := by
  unfold placeNested
  rw [h]
  dsimp only
  rw [hr]
  rfl

/-- What taking in a value in use keeps, and closing a slot keeps, is kept by packing a value with
all its parts. The parts of a value in use are in use. -/
theorem placeNested_keeps_inside {P : Packing → Prop} {U : Part → Prop}
    (hpart : ∀ whole inner, U whole → types.FallsInto whole inner → U inner)
    (harrive : ∀ part p q parts?, U part → P p → p.arrive types part = .ok (q, parts?) → P q)
    (hclose : ∀ p, P p → P p.close) {room : Nat} {part : Part} {p q : Packing}
    (hu : U part) (hp : P p) (h : placeNested types room part p = .ok q) : P q := by
  induction room generalizing part p q with
  | zero =>
    rcases placeNested_cases h with harr | ⟨room, parts, r, r', hroom, -⟩
    · exact harrive part p q none hu hp harr
    · cases hroom
  | succ n ih =>
    rcases placeNested_cases h with harr | ⟨room, parts, r, r', hroom, harr, hfold, rfl⟩
    · exact harrive part p q none hu hp harr
    · cases hroom
      have hmem : ∀ x ∈ parts, U x := fun x hx => hpart _ _ hu (Packing.fallsInto_of_arrive harr hx)
      exact hclose r' (foldlM_keeps (fun x hx _ _ hc hx' => ih (hmem x hx) hc hx')
        (harrive part p r _ hu hp harr) hfold)

/-- What is kept by taking in a value of a type in use and by closing a slot is kept by packing a
value of such a type with all its parts. -/
theorem placeNested_keeps {P : Packing → Prop} {U : String → Prop}
    (hpart : ∀ whole part, U whole → types.HasPart whole part → U part)
    (harrive : ∀ part p q parts?, U part.typeId → P p → p.arrive types part = .ok (q, parts?) → P q)
    (hclose : ∀ p, P p → P p.close) {room : Nat} {part : Part} {p q : Packing}
    (hu : U part.typeId) (hp : P p) (h : placeNested types room part p = .ok q) : P q :=
  placeNested_keeps_inside (U := fun part => U part.typeId) (fun _ _ hu h => hpart _ _ hu h.hasPart)
    harrive hclose hu hp h

end Collation

/-- The slots of a layout are those that packing its declarations by recursion gives. -/
theorem Layout.collate_eq (layout : Layout) (first : Word) : layout.collate first =
    (layout.storage.foldlM
      (fun p d => Collation.placeNested layout.types layout.types.size d.part p)
      (.start first)).map (·.slots.reverse) := by
  have hdeclare : Collation.declare layout.types =
      fun p d => Collation.placeNested layout.types layout.types.size d.part p :=
    funext fun p => funext fun d => Collation.declare_eq layout.types p d
  rw [← hdeclare, collate]
  cases layout.storage.foldlM (Collation.declare layout.types) (.start first) <;> rfl

/-- What the packing without slots has, and packing each declaration keeps, the last packing has. -/
theorem Layout.collate_keeps {layout : Layout} {first : Word} {slots : List Slot}
    {P : Packing → Prop} (hstart : P (.start first))
    (hdeclare : ∀ d ∈ layout.storage, ∀ p q, P p →
      Collation.placeNested layout.types layout.types.size d.part p = .ok q → P q)
    (h : layout.collate first = .ok slots) : ∃ p, P p ∧ slots = p.slots.reverse := by
  rw [collate_eq, map_eq_ok_iff] at h
  obtain ⟨p, hp, rfl⟩ := h
  exact ⟨p, foldlM_keeps hdeclare hstart hp, rfl⟩

/-! ## Slots -/

/-- The values of a slot follow one another within the claimed bytes, which are no more than a
slot has. Those are the bytes of the values, unless the slot has been closed; the filled bytes are
those of the values that are no mappings. A value that is kept elsewhere has a slot to itself. -/
structure Slot.Packed (s : Slot) : Prop where
  wellFormed : s.WellFormed
  reserved_le : s.reserved ≤ slotSize
  reserved_eq : s.reserved = (s.entries.map (·.size)).sum ∨ s.reserved = slotSize
  filled_eq : s.filled = ((s.entries.filter (·.encoding ≠ .mapping)).map (·.size)).sum
  elsewhere : ∀ e ∈ s.entries, e.encoding ≠ .inplace → e.offset = 0 ∧ e.size = slotSize

namespace Slot

theorem packed_blank (index : Word) : (Slot.blank index).Packed where
  wellFormed := wellFormed_blank index
  reserved_le := Nat.zero_le _
  reserved_eq := .inl rfl
  filled_eq := rfl
  elsewhere := nofun

variable {s : Slot}

theorem Packed.close (h : s.Packed) : s.close.Packed where
  wellFormed := h.wellFormed.mono h.reserved_le
  reserved_le := Nat.le_refl _
  reserved_eq := .inr rfl
  filled_eq := h.filled_eq
  elsewhere := h.elsewhere

/-- A value no larger than a slot may be placed in a slot that is empty or has room for it. In a
closed slot there is room for values without bytes only. -/
theorem Packed.place {part : Part} {info : TypeInfo} (h : s.Packed) (hsize : info.size ≤ slotSize)
    (hroom : s.reserved = 0 ∨ info.size ≤ s.remaining) : (s.place part info).Packed where
  wellFormed := h.wellFormed.append_singleton (Nat.le_refl _) (Nat.le_refl _)
  reserved_le := by
    have := h.reserved_le
    unfold remaining at hroom
    show s.reserved + info.size ≤ slotSize
    omega
  reserved_eq := by
    have hsum : ((s.place part info).entries.map (·.size)).sum =
        (s.entries.map (·.size)).sum + info.size := by
      simp [Slot.place]
    unfold remaining at hroom
    rw [hsum]
    show s.reserved + info.size = _ ∨ s.reserved + info.size = slotSize
    have hslot : 0 < slotSize := by decide
    have := h.reserved_eq
    omega
  filled_eq := by
    show s.filled + info.filled = _
    rw [h.filled_eq, TypeInfo.filled_eq, Slot.place, List.filter_append, List.map_append,
      List.sum_append]
    by_cases hm : info.encoding = .mapping <;> simp [hm]
  elsewhere e he hne := by
    rcases List.mem_append.1 he with he | he
    · exact h.elsewhere e he hne
    · rw [List.mem_singleton.1 he] at hne ⊢
      have hslot : 0 < slotSize := by decide
      have hall : info.size = slotSize := TypeInfo.size_of_not_inplace hne
      have := h.reserved_le
      unfold remaining at hroom
      exact ⟨by show s.reserved = 0; omega, hall⟩

end Slot

/-! ## Packings -/

/-- The slots, the newest first, have the indices from `first` on. -/
def Consecutive (first : Word) : List Slot → Prop
  | [] => True
  | s :: older => s.index.val = first.val + older.length ∧ Consecutive first older

theorem Consecutive.getElem?_reverse {first : Word} {ss : List Slot} (h : Consecutive first ss)
    {k : Nat} {s : Slot} (hk : ss.reverse[k]? = some s) : s.index.val = first.val + k := by
  induction ss with
  | nil => cases hk
  | cons t ts ih =>
    rw [List.reverse_cons] at hk
    by_cases hlt : k < ts.reverse.length
    · rw [List.getElem?_append_left hlt] at hk
      exact ih h.2 hk
    · rw [List.getElem?_append_right (Nat.le_of_not_lt hlt)] at hk
      rw [List.getElem?_singleton] at hk
      split at hk
      · rename_i hz
        cases hk
        have := h.1
        rw [List.length_reverse] at hlt hz
        omega
      · cases hk

namespace Packing

variable {first : Word} {p q : Packing} {size : Nat}

/-- After a slot has been opened for a value, the newest slot can take the value. -/
theorem room_of_openFor (h : p.openFor size = .ok q) :
    ∃ s older, q.slots = s :: older ∧ (s.reserved = 0 ∨ size ≤ s.remaining) := by
  rcases openFor_cases h with ⟨-, rfl⟩ | ⟨s, older, i, -, -, -, -, rfl⟩ | ⟨s, older, hs, hr, rfl⟩
  · exact ⟨_, _, rfl, .inl rfl⟩
  · exact ⟨_, _, rfl, .inl rfl⟩
  · exact ⟨s, older, hs, hr⟩

/-- The slots have the indices from `first` on. -/
structure Numbered (first : Word) (p : Packing) : Prop where
  first_eq : p.first = first
  consecutive : Consecutive first p.slots

theorem numbered_start (first : Word) : (start first).Numbered first := ⟨rfl, trivial⟩

theorem Numbered.openFor (h : p.Numbered first) (ho : p.openFor size = .ok q) :
    q.Numbered first := by
  rcases openFor_cases ho with ⟨-, rfl⟩ | ⟨s, older, index, hs, -, -, hi, rfl⟩ | ⟨-, -, -, -, rfl⟩
  · exact ⟨h.first_eq, by simp [Consecutive, Slot.blank, h.first_eq]⟩
  · have hcons := hs ▸ h.consecutive
    refine ⟨h.first_eq, ?_, hcons⟩
    have hval : s.index.val + 1 = index.val := Word.ofNat?_eq_some_iff.1 hi
    have := hcons.1
    show index.val = first.val + (older.length + 1)
    omega
  · exact h

theorem Numbered.modifyNewest {f : Slot → Slot} (h : p.Numbered first)
    (hindex : ∀ s, (f s).index = s.index) : (p.modifyNewest f).Numbered first := by
  have hcons := h.consecutive
  refine ⟨(first_modifyNewest ..).trans h.first_eq, ?_⟩
  rw [slots_modifyNewest]
  cases hs : p.slots with
  | nil => trivial
  | cons s older =>
    rw [hs] at hcons
    exact ⟨by rw [hindex]; exact hcons.1, hcons.2⟩

theorem Numbered.close (h : p.Numbered first) : p.close.Numbered first :=
  h.modifyNewest fun _ => rfl

theorem Numbered.arrive {types : TypeTable} {part : Part} {parts? : Option (List Part)}
    (h : p.Numbered first) (ha : p.arrive types part = .ok (q, parts?)) : q.Numbered first := by
  obtain ⟨info, shape, r, -, -, hr, -, rfl⟩ := arrive_eq_ok_iff.1 ha
  have hopen := h.openFor hr
  cases parts? with
  | some parts => exact hopen
  | none => exact hopen.modifyNewest fun _ => rfl

theorem Numbered.placeNested {types : TypeTable} {room : Nat} {part : Part} (h : p.Numbered first)
    (hq : Collation.placeNested types room part p = .ok q) : q.Numbered first :=
  Collation.placeNested_keeps (U := fun _ => True) (fun _ _ _ _ => trivial)
    (fun _ _ _ _ _ hp ha => hp.arrive ha) (fun _ hp => hp.close) trivial h hq

/-- All slots, which have the indices from `first` on, are packed. -/
structure Packed (first : Word) (p : Packing) : Prop where
  first_eq : p.first = first
  slots : ∀ s ∈ p.slots, s.Packed
  consecutive : Consecutive first p.slots

theorem packed_start (first : Word) : (start first).Packed first where
  first_eq := rfl
  slots := nofun
  consecutive := trivial

theorem Packed.numbered (h : p.Packed first) : p.Numbered first := ⟨h.first_eq, h.consecutive⟩

theorem Packed.openFor (h : p.Packed first) (ho : p.openFor size = .ok q) : q.Packed first := by
  obtain ⟨hfirst, hcons⟩ := h.numbered.openFor ho
  refine ⟨hfirst, ?_, hcons⟩
  rcases openFor_cases ho with ⟨-, rfl⟩ | ⟨s, older, index, hs, -, -, -, rfl⟩ | ⟨-, -, -, -, rfl⟩
  · simp [Slot.packed_blank]
  · intro t ht
    rcases List.mem_cons.1 ht with rfl | ht
    · exact Slot.packed_blank index
    · exact h.slots t (hs ▸ ht)
  · exact h.slots

/-- Changing the newest slot keeps what is known of the packing if it keeps what is known of that
slot, and its index. -/
theorem Packed.modifyNewest {f : Slot → Slot} (h : p.Packed first)
    (hf : ∀ s ∈ p.slots.head?, (f s).Packed) (hindex : ∀ s, (f s).index = s.index) :
    (p.modifyNewest f).Packed first := by
  obtain ⟨hfirst, hcons⟩ := h.numbered.modifyNewest hindex
  have hslots := h.slots
  refine ⟨hfirst, ?_, hcons⟩
  rw [slots_modifyNewest]
  cases hs : p.slots with
  | nil => simp
  | cons s older =>
    intro t ht
    rcases List.mem_cons.1 ht with rfl | ht
    · exact hf s (by rw [hs]; rfl)
    · exact hslots t (hs ▸ List.mem_cons_of_mem _ ht)

theorem Packed.close (h : p.Packed first) : p.close.Packed first :=
  h.modifyNewest (fun s hs => (h.slots s (List.mem_of_mem_head? hs)).close) fun _ => rfl

/-- Taking in a value of a type in use keeps the invariant if plain values fit in a slot. -/
theorem Packed.arrive {layout : Layout} {part : Part} {parts? : Option (List Part)}
    (hfit : layout.PlainSizes (· ≤ slotSize)) (hu : layout.Uses part.typeId) (h : p.Packed first)
    (ha : p.arrive layout.types part = .ok (q, parts?)) : q.Packed first := by
  obtain ⟨info, shape, r, hi, hs, hr, hparts, rfl⟩ := arrive_eq_ok_iff.1 ha
  have hopen := h.openFor hr
  cases parts? with
  | some parts => exact hopen
  | none =>
    have hsize : info.size ≤ slotSize := hfit.whole (Nat.le_refl _) hu hi hs hparts
    obtain ⟨s, older, hslots, hroom⟩ := room_of_openFor hr
    refine hopen.modifyNewest (fun t ht => ?_) fun _ => rfl
    rw [hslots] at ht
    cases ht
    exact (hopen.slots s (by simp [hslots])).place hsize hroom

theorem Packed.placeNested {layout : Layout} {room : Nat} {part : Part}
    (hfit : layout.PlainSizes (· ≤ slotSize)) (hu : layout.Uses part.typeId) (h : p.Packed first)
    (hq : Collation.placeNested layout.types room part p = .ok q) : q.Packed first :=
  Collation.placeNested_keeps (fun _ _ => Layout.Uses.part)
    (fun _ _ _ _ hu hp ha => hp.arrive hfit hu ha) (fun _ hp => hp.close) hu h hq

/-! ### Claimed slots -/

/-- Bytes are claimed in every slot but perhaps the newest. -/
def OlderClaimed (p : Packing) : Prop := ∀ s ∈ p.slots.tail, 0 < s.reserved

/-- Bytes are claimed in the newest slot. -/
def NewestClaimed (p : Packing) : Prop := ∀ s ∈ p.slots.head?, 0 < s.reserved

theorem OlderClaimed.modifyNewest {f : Slot → Slot} (h : p.OlderClaimed) :
    (p.modifyNewest f).OlderClaimed := by
  unfold OlderClaimed at h ⊢
  rw [slots_modifyNewest]
  cases hs : p.slots with
  | nil => exact nofun
  | cons s older => rwa [hs] at h

/-- Only a slot with claimed bytes is left for a new one. -/
theorem OlderClaimed.arrive {types : TypeTable} {part : Part} {parts? : Option (List Part)}
    (h : p.OlderClaimed) (ha : p.arrive types part = .ok (q, parts?)) : q.OlderClaimed := by
  obtain ⟨info, shape, r, -, -, hr, -, rfl⟩ := arrive_eq_ok_iff.1 ha
  have hopen : r.OlderClaimed := by
    unfold OlderClaimed at h ⊢
    rcases openFor_cases hr with ⟨-, rfl⟩ | ⟨s, older, index, hs, h0, -, -, rfl⟩ | ⟨-, -, -, -, rfl⟩
    · exact nofun
    · rw [hs] at h
      intro t ht
      rcases List.mem_cons.1 ht with rfl | ht
      · exact Nat.pos_of_ne_zero h0
      · exact h t ht
    · exact h
  cases parts? with
  | some parts => exact hopen
  | none => exact hopen.modifyNewest

end Packing

/-- A value that has been packed, with all its parts, leaves claimed bytes in the newest slot: its
own, or those up to the end of the slot. -/
theorem Collation.newestClaimed_of_placeNested {layout : Layout} {room : Nat} {part : Part}
    {p q : Packing} (hpos : layout.PlainSizes (1 ≤ ·)) (hu : layout.Uses part.typeId)
    (h : placeNested layout.types room part p = .ok q) : q.NewestClaimed := by
  unfold Packing.NewestClaimed
  rcases placeNested_cases h with ha | ⟨room', parts, r, r', -, -, -, rfl⟩
  · obtain ⟨info, shape, r, hi, hs, hr, hparts, rfl⟩ := Packing.arrive_eq_ok_iff.1 ha
    have hsize : 1 ≤ info.size := hpos.whole (by decide) hu hi hs hparts
    obtain ⟨s, older, hslots, -⟩ := Packing.room_of_openFor hr
    intro t ht
    simp only [Option.isSome_none, Bool.false_eq_true, if_false, Packing.slots_place, hslots] at ht
    cases ht
    show 0 < s.reserved + info.size
    omega
  · intro t ht
    rw [Packing.slots_close] at ht
    cases hs : r'.slots with
    | nil => simp [hs] at ht
    | cons s older =>
      rw [hs] at ht
      cases ht
      show 0 < slotSize
      decide

/-! ## The slots of a layout -/

/-- The slots have the indices from `first` on, and all of them are packed. -/
structure PackedFrom (first : Word) (slots : List Slot) : Prop where
  index_eq : ∀ k s, slots[k]? = some s → s.index.val = first.val + k
  packed : ∀ s ∈ slots, s.Packed

namespace Layout

variable {layout : Layout} {first : Word} {slots : List Slot}

/-- The indices of the slots of a layout count from `first` on. -/
theorem index_of_collate (h : layout.collate first = .ok slots) {k : Nat} {s : Slot}
    (hs : slots[k]? = some s) : s.index.val = first.val + k := by
  obtain ⟨p, hp, rfl⟩ := collate_keeps (Packing.numbered_start first)
    (fun _ _ _ _ hp hq => hp.placeNested hq) h
  exact hp.consecutive.getElem?_reverse hs

/-- The slots of a layout keep the invariant, and their indices count from `first` on. -/
theorem packedFrom_of_collate (hfit : layout.PlainSizes (· ≤ slotSize))
    (h : layout.collate first = .ok slots) : PackedFrom first slots := by
  obtain ⟨p, hp, rfl⟩ := collate_keeps (Packing.packed_start first)
    (fun _ hd _ _ hp hq => hp.placeNested hfit (uses_typeId hd) hq) h
  exact ⟨fun k s => index_of_collate h, fun s hs => hp.slots s (List.mem_reverse.1 hs)⟩

theorem claimed_of_collate (hpos : layout.PlainSizes (1 ≤ ·))
    (h : layout.collate first = .ok slots) : ∀ s ∈ slots, 0 < s.reserved := by
  have hkeep : ∀ d ∈ layout.storage, ∀ p q : Packing, p.OlderClaimed ∧ p.NewestClaimed →
      Collation.placeNested layout.types layout.types.size d.part p = .ok q →
        q.OlderClaimed ∧ q.NewestClaimed := by
    intro d hd p q hp hq
    refine ⟨?_, Collation.newestClaimed_of_placeNested hpos (uses_typeId hd) hq⟩
    exact Collation.placeNested_keeps (U := layout.Uses) (fun _ _ => Uses.part)
      (fun _ _ _ _ _ hp ha => hp.arrive ha) (fun _ hp => hp.modifyNewest) (uses_typeId hd) hp.1 hq
  obtain ⟨p, ⟨holder, hnewest⟩, rfl⟩ := collate_keeps ⟨nofun, nofun⟩ hkeep h
  intro s hs
  rw [List.mem_reverse] at hs
  cases hslots : p.slots with
  | nil =>
    rw [hslots] at hs
    cases hs
  | cons t older =>
    rw [hslots] at hs
    rcases List.mem_cons.1 hs with rfl | hs
    · exact hnewest s (by rw [hslots]; rfl)
    · exact holder s (by rw [hslots]; exact hs)

end Layout

/-- The slots of a layout whose plain values fit in a slot: they have the indices from `first` on,
and each of them is packed. If moreover no plain value is empty, bytes are claimed in every slot,
and a slot without values has been closed. -/
theorem collate_packed {layout : Layout} {first : Word} {slots : List Slot}
    (hfit : layout.PlainSizes (· ≤ slotSize)) (h : layout.collate first = .ok slots) :
    (∀ k s, slots[k]? = some s → s.index.val = first.val + k) ∧ (∀ s ∈ slots, s.Packed) ∧
      (layout.PlainSizes (1 ≤ ·) →
        ∀ s ∈ slots, 0 < s.reserved ∧ (s.entries = [] → s.reserved = slotSize)) := by
  obtain ⟨hindex, hpacked⟩ := Layout.packedFrom_of_collate hfit h
  refine ⟨hindex, hpacked, fun hpos s hs => ?_⟩
  have hclaimed := Layout.claimed_of_collate hpos h s hs
  refine ⟨hclaimed, fun hnone => ?_⟩
  -- Without values the sum of their bytes is zero, so only closing can have claimed any.
  rcases (hpacked s hs).reserved_eq with hsum | hslot
  · rw [hnone] at hsum
    exact absurd hsum (Nat.ne_of_gt hclaimed)
  · exact hslot

/-- A mapping has a slot to itself, and what is left of the slot before it stays unclaimed. -/
theorem collate_packed_mapping :
    let layout : Layout := ⟨[.bare "a" "t_uint128", .bare "m" "t_mapping", .bare "b" "t_bool"],
      .ofList [("t_bool", .value "bool" 1), ("t_uint128", .value "uint128" 16),
        ("t_mapping", .mapping "mapping(bool => uint128)" "t_bool" "t_uint128")]⟩
    ∃ slots, layout.collate .zero = .ok slots ∧ slots.map (·.reserved) = [16, 32, 1] ∧
      (∀ k s, slots[k]? = some s → s.index.val = Word.zero.val + k) ∧ (∀ s ∈ slots, s.Packed) ∧
        ∀ s ∈ slots, 0 < s.reserved ∧ (s.entries = [] → s.reserved = slotSize) := by
  intro layout
  have h : ∃ slots, layout.collate .zero = .ok slots ∧ slots.map (·.reserved) = [16, 32, 1] := by
    rw [Layout.collate_eq]
    exact ⟨_, rfl, rfl⟩
  obtain ⟨slots, h, hreserved⟩ := h
  obtain ⟨hindex, hpacked, hclaimed⟩ := collate_packed (.of_entries (by decide)) h
  exact ⟨slots, h, hreserved, hindex, hpacked, hclaimed (.of_entries (by decide))⟩

end SlotLayout
