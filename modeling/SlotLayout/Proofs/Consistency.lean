import SlotLayout.Proofs.Relocation

/-!
# Byte counts that agree with packing

For a type whose values fall into parts a compiler counts the bytes of whole slots. Packing does not
look at how many these are, it places the parts. In a layout that is `Layout.CompilerConsistent` the
two agree: a value of such a type begins a slot (`Layout.CompilerConsistent.begins_of_arrive`) and
takes as many slots as the type says (`Layout.CompilerConsistent.length_of_placeNested`), the ones
that it takes on its own (`Collation.alone_of_placeNested`).
-/

namespace SlotLayout

/-- A single declaration of the type is packed into `k` slots. -/
def TypeTable.Takes (types : TypeTable) (typeId : String) (k : Nat) : Prop :=
  ∃ (d : Declaration) (slots : List Slot), d.typeId = typeId ∧
    (⟨[d], types⟩ : Layout).collate .zero = .ok slots ∧ slots.length = k

/-- The byte counts of the types in use are those of a compiler: plain values have bytes and fit in
a slot, and types whose values fall into parts count the slots that these are packed into. -/
structure Layout.CompilerConsistent (layout : Layout) : Prop where
  plain : layout.PlainSizes fun n => 1 ≤ n ∧ n ≤ slotSize
  composite : ∀ typeId info shape, layout.Uses typeId → layout.types.get? typeId = some info →
    info.shape typeId = .ok shape → shape.isComposite = true →
      ∃ k, 1 ≤ k ∧ layout.types.Takes typeId k ∧ info.byteCount = slotSize * k

/-! ## Single declarations -/

theorem Layout.collate_single (types : TypeTable) (d : Declaration) (first : Word) :
    (⟨[d], types⟩ : Layout).collate first =
      (Collation.placeNested types types.size d.part (.start first)).map (·.slots.reverse) := by
  rw [collate_eq, List.foldlM_cons]
  cases Collation.placeNested types types.size d.part (.start first) <;> rfl

/-- The slots of a value that has begun a slot with nothing in it are those of a single declaration
of its type, as many slots further on as it has begun in. -/
theorem Collation.alone_of_placeNested {types : TypeTable} {room : Nat} (hroom : room ≤ types.size)
    {part : Part} {p q r : Packing} {parts : List Part} {s : Slot} {older : List Slot}
    (ha : p.arrive types part = .ok (r, some parts)) (hr : r.slots = s :: older)
    (h0 : s.reserved = 0) (hnone : s.entries = []) (h : placeNested types room part p = .ok q)
    {d : Declaration} (hd : d.typeId = part.typeId) :
    ∃ alone newer, (⟨[d], types⟩ : Layout).collate .zero = .ok alone ∧ q.slots = newer ++ older ∧
      List.Forall₂ (Slot.Moved part.name d.label s.index.val) newer.reverse alone := by
  obtain ⟨q', hq', -, newer, hq, hall⟩ :=
    placeNested_relocate (y := d.part) hroom hd.symm ha hr h0 hnone h
  refine ⟨q'.slots.reverse, newer, ?_, hq, List.rel_reverse hall⟩
  rw [Layout.collate_single, hq']
  rfl

theorem TypeTable.Takes.length_eq {types : TypeTable} {part : Part} {k : Nat}
    (hk : types.Takes part.typeId k) {room : Nat} (hroom : room ≤ types.size) {p q r : Packing}
    {parts : List Part} {s : Slot} {older : List Slot}
    (ha : p.arrive types part = .ok (r, some parts)) (hr : r.slots = s :: older)
    (h0 : s.reserved = 0) (hnone : s.entries = [])
    (h : Collation.placeNested types room part p = .ok q) : q.slots.length = older.length + k := by
  obtain ⟨d, alone, hd, halone, rfl⟩ := hk
  obtain ⟨alone', newer, halone', hq, hall⟩ :=
    Collation.alone_of_placeNested hroom ha hr h0 hnone h hd
  rw [halone] at halone'
  cases halone'
  rw [hq, List.length_append, ← List.length_reverse, hall.length_eq, Nat.add_comm]

/-- The last slot of a value that falls into parts is claimed in full. -/
theorem Collation.reserved_of_apart {types : TypeTable} {room : Nat} {part : Part}
    {p q r : Packing} {parts : List Part} (ha : p.arrive types part = .ok (r, some parts))
    (h : placeNested types room part p = .ok q) : ∀ s ∈ q.slots.head?, s.reserved = slotSize := by
  rcases placeNested_cases h with ha' | ⟨-, -, -, r', -, -, -, rfl⟩
  · rw [ha] at ha'
    cases ha'
  · intro s hs
    rw [Packing.slots_close] at hs
    cases hr : r'.slots with
    | nil => simp [hr] at hs
    | cons t ts =>
      rw [hr] at hs
      cases hs
      rfl

/-! ## Values in use -/

namespace Layout.CompilerConsistent

variable {layout : Layout}

theorem fit (hc : layout.CompilerConsistent) : layout.PlainSizes (· ≤ slotSize) :=
  fun typeId info hu hi hs => (hc.plain typeId info hu hi hs).2

/-- A value in use that does not fall into parts has bytes and fits in a slot. -/
theorem size_of_whole (hc : layout.CompilerConsistent) {typeId name : String} {info : TypeInfo}
    {shape : Shape} (hu : layout.Uses typeId) (hi : layout.types.get? typeId = some info)
    (hs : info.shape typeId = .ok shape) (hw : shape.parts? name = none) :
    1 ≤ info.size ∧ info.size ≤ slotSize :=
  hc.plain.whole ⟨by decide, Nat.le_refl _⟩ hu hi hs hw

/-- A value in use that falls into parts counts the bytes of some slots. -/
theorem size_of_composite (hc : layout.CompilerConsistent) {typeId : String} {info : TypeInfo}
    {shape : Shape} (hu : layout.Uses typeId) (hi : layout.types.get? typeId = some info)
    (hs : info.shape typeId = .ok shape) (hcomp : shape.isComposite = true) :
    ∃ k, 1 ≤ k ∧ layout.types.Takes typeId k ∧ info.byteCount = slotSize * k ∧
      info.size = slotSize * k := by
  obtain ⟨k, hpos, hk, hcount⟩ := hc.composite typeId info shape hu hi hs hcomp
  exact ⟨k, hpos, hk, hcount, (TypeInfo.size_of_composite hs hcomp).trans hcount⟩

/-- A value in use that falls into parts begins a slot. -/
theorem begins_of_arrive (hc : layout.CompilerConsistent) {part : Part} {p r : Packing}
    {parts : List Part} (hu : layout.Uses part.typeId)
    (ha : p.arrive layout.types part = .ok (r, some parts)) :
    ∃ s older, r.slots = s :: older ∧ s.reserved = 0 := by
  obtain ⟨info, shape, r, hi, hs, ho, hparts, rfl⟩ := Packing.arrive_eq_ok_iff.1 ha
  obtain ⟨k, hpos, -, -, hsize⟩ :=
    hc.size_of_composite hu hi hs (Shape.isComposite_of_parts? hparts)
  have hwhole : slotSize ≤ info.size := hsize ▸ Nat.le_mul_of_pos_right _ hpos
  obtain ⟨s, older, hr, hroom⟩ := Packing.room_of_openFor ho
  have hslot : 0 < slotSize := by decide
  unfold Slot.remaining at hroom
  exact ⟨s, older, hr, by omega⟩

/-- Packing a value in use that falls into parts goes on for as many slots as its bytes fill,
counted from the one it begins. -/
theorem length_of_placeNested (hc : layout.CompilerConsistent) {room : Nat}
    (hroom : room ≤ layout.types.size) {part : Part} {p q r : Packing} {parts : List Part}
    (hu : layout.Uses part.typeId) (ha : p.arrive layout.types part = .ok (r, some parts))
    (hblank : ∀ s ∈ r.slots.head?, s.reserved = 0 → s.entries = [])
    (h : Collation.placeNested layout.types room part p = .ok q) :
    ∃ info k, layout.types.get? part.typeId = some info ∧ info.byteCount = slotSize * k ∧
      q.slots.length + 1 = r.slots.length + k := by
  obtain ⟨s, older, hr, h0⟩ := hc.begins_of_arrive hu ha
  obtain ⟨info, shape, -, hi, hs, -, hparts, -⟩ := Packing.arrive_eq_ok_iff.1 ha
  obtain ⟨k, -, hk, hcount, -⟩ :=
    hc.size_of_composite hu hi hs (Shape.isComposite_of_parts? hparts)
  refine ⟨info, k, hi, hcount, ?_⟩
  rw [hk.length_eq hroom ha hr h0 (hblank s (by rw [hr]; rfl) h0) h, hr, List.length_cons]
  omega

/-- What holds of all types in the table holds of those in use. -/
theorem of_entries
    (hplain : ∀ e ∈ layout.types.entries, e.2.shape e.1 = .ok .value →
      1 ≤ e.2.byteCount ∧ e.2.byteCount ≤ slotSize)
    (hcomposite : ∀ e ∈ layout.types.entries, ∀ shape ∈ (e.2.shape e.1).toOption,
      shape.isComposite = true →
        (Collation.placeNested layout.types layout.types.size ⟨"", e.1⟩ (.start .zero)).toOption.any
          fun p => 1 ≤ p.slots.length ∧ e.2.byteCount = slotSize * p.slots.length) :
    layout.CompilerConsistent where
  plain := .of_entries hplain
  composite := by
    intro typeId info shape _ hi hs hcomp
    have hany := hcomposite _ (TypeTable.mem_of_get? hi) shape (by rw [hs]; rfl) hcomp
    obtain ⟨p, hp, hcount⟩ := (Option.any_eq_true ..).1 hany
    obtain ⟨hpos, hcount⟩ := of_decide_eq_true hcount
    have hplace : Collation.placeNested layout.types layout.types.size
        (Declaration.bare "" typeId).part (.start .zero) = .ok p := toOption_eq_some_iff.1 hp
    refine ⟨p.slots.length, hpos, ⟨.bare "" typeId, p.slots.reverse, rfl, ?_, ?_⟩, hcount⟩
    · rw [collate_single, hplace]
      rfl
    · exact List.length_reverse

end Layout.CompilerConsistent

end SlotLayout
