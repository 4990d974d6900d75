import Mathlib.Logic.Relation
import SlotLayout.Collation
import SlotLayout.Proofs.Tables

/-!
# Expansion of types

Which types the values of a type fall into (`TypeTable.Reaches`) and which a layout therefore makes
use of (`Layout.Uses`); no others are looked at while it is packed. A layout expands without end
only if one of these types has itself among its parts (`Layout.Finite`). Both this and the sizes of
plain values can be checked on the table (`Layout.finite_of_rank`, `Layout.PlainSizes.of_entries`).

`TypeTable.Inside` and `Layout.Holds` tell more than `TypeTable.Reaches` and `Layout.Uses`: the
parts themselves, at any depth, with their paths.
-/

namespace SlotLayout

namespace TypeTable

variable (types : TypeTable)

/-- Some part of a value of the type `whole` is of the type `part`. -/
def HasPart (whole part : String) : Prop := part ∈ types.partTypes whole

/-- A value of the first type is of the second type, or has a part of that type at some depth. -/
def Reaches : String → String → Prop := Relation.ReflTransGen types.HasPart

variable {types}

theorem HasPart.mem {whole part : String} (h : types.HasPart whole part) :
    ∃ info, (whole, info) ∈ types.entries := by
  unfold HasPart partTypes at h
  cases hi : types.get? whole with
  | none =>
    rw [hi] at h
    cases h
  | some info => exact ⟨info, mem_of_get? hi⟩

variable (types)

/-- The value `whole` falls into parts, one of which is `inner`. -/
def FallsInto (whole inner : Part) : Prop :=
  ∃ info shape parts, types.get? whole.typeId = some info ∧ info.shape whole.typeId = .ok shape ∧
    shape.parts? whole.name = some parts ∧ inner ∈ parts

/-- The value `inner` is `whole` or one of its parts at some depth. -/
def Inside : Part → Part → Prop := Relation.ReflTransGen types.FallsInto

variable {types}

theorem FallsInto.hasPart {whole inner : Part} (h : types.FallsInto whole inner) :
    types.HasPart whole.typeId inner.typeId := by
  obtain ⟨info, shape, parts, hi, hs, hp, hmem⟩ := h
  unfold HasPart partTypes
  rw [hi]
  dsimp only
  rw [hs]
  cases shape with
  | value | indirect => cases hp
  | struct members =>
    cases hp
    obtain ⟨m, hm, rfl⟩ := List.mem_map.1 hmem
    exact List.mem_map_of_mem hm
  | fixedArray base length =>
    cases hp
    obtain ⟨i, hi, rfl⟩ := List.mem_map.1 hmem
    exact List.mem_replicate.2 ⟨Nat.ne_zero_of_lt (List.mem_range.1 hi), rfl⟩

theorem Inside.reaches {whole inner : Part} (h : types.Inside whole inner) :
    types.Reaches whole.typeId inner.typeId := by
  induction h with
  | refl => exact .refl
  | tail _ hp ih => exact ih.tail hp.hasPart

end TypeTable

namespace Layout

variable (layout : Layout)

/-- Some declaration is of the type, or has a part of it at some depth. -/
def Uses (typeId : String) : Prop := ∃ d ∈ layout.storage, layout.types.Reaches d.typeId typeId

/-- The value is one of the declarations, or one of their parts at some depth. -/
def Holds (part : Part) : Prop := ∃ d ∈ layout.storage, layout.types.Inside d.part part

/-- None of the types in use has a part of the same type at some depth. -/
def Finite : Prop :=
  ∀ typeId, layout.Uses typeId → ¬ Relation.TransGen layout.types.HasPart typeId typeId

/-- The byte counts of all types in use whose values are plain have the property. -/
def PlainSizes (P : Nat → Prop) : Prop :=
  ∀ typeId info, layout.Uses typeId → layout.types.get? typeId = some info →
    info.shape typeId = .ok .value → P info.byteCount

variable {layout}

theorem uses_typeId {d : Declaration} (hd : d ∈ layout.storage) : layout.Uses d.typeId :=
  ⟨d, hd, .refl⟩

theorem Uses.part {whole part : String} (h : layout.Uses whole)
    (hp : layout.types.HasPart whole part) : layout.Uses part :=
  let ⟨d, hd, hr⟩ := h
  ⟨d, hd, hr.tail hp⟩

/-- Types among which are those of all declarations, and with each those of its parts, are all that
are in use. -/
theorem Uses.mem_of_closed {ids : List String} {id : String}
    (hstorage : ∀ d ∈ layout.storage, d.typeId ∈ ids)
    (hclosed : ∀ whole ∈ ids, ∀ part ∈ layout.types.partTypes whole, part ∈ ids)
    (h : layout.Uses id) : id ∈ ids := by
  obtain ⟨d, hd, hreaches⟩ := h
  induction hreaches with
  | refl => exact hstorage d hd
  | tail _ hpart ih => exact hclosed _ ih _ hpart

theorem holds_part {d : Declaration} (hd : d ∈ layout.storage) : layout.Holds d.part :=
  ⟨d, hd, .refl⟩

theorem Holds.falls {whole inner : Part} (h : layout.Holds whole)
    (hp : layout.types.FallsInto whole inner) : layout.Holds inner :=
  let ⟨d, hd, hi⟩ := h
  ⟨d, hd, hi.tail hp⟩

theorem Holds.uses {part : Part} (h : layout.Holds part) : layout.Uses part.typeId :=
  let ⟨d, hd, hi⟩ := h
  ⟨d, hd, hi.reaches⟩

/-- What holds of all plain values in the table holds of those in use. -/
theorem PlainSizes.of_entries {P : Nat → Prop}
    (h : ∀ e ∈ layout.types.entries, e.2.shape e.1 = .ok .value → P e.2.byteCount) :
    layout.PlainSizes P :=
  fun _ _ _ hi => h _ (TypeTable.mem_of_get? hi)

/-- Types that can be ranked above those of their parts do not contain themselves. -/
theorem finite_of_rank (rank : String → Nat) (h : ∀ e ∈ layout.types.entries,
    ∀ part ∈ layout.types.partTypes e.1, rank part < rank e.1) : layout.Finite := by
  have hstep : ∀ whole part, layout.types.HasPart whole part → rank part < rank whole := by
    intro whole part hp
    obtain ⟨info, hi⟩ := hp.mem
    exact h _ hi part hp
  have hlt : ∀ whole part, Relation.TransGen layout.types.HasPart whole part →
      rank part < rank whole := by
    intro whole part hp
    induction hp with
    | single hp => exact hstep _ _ hp
    | tail _ hp ih => exact Nat.lt_trans (hstep _ _ hp) ih
  exact fun id _ hid => Nat.lt_irrefl _ (hlt id id hid)

end Layout

/-! ## Shapes -/

/-- Whether values of the shape fall into parts. -/
def Shape.isComposite : Shape → Bool
  | .struct _ | .fixedArray _ _ => true
  | .value | .indirect => false

theorem Shape.isSome_parts? (shape : Shape) (name : String) :
    (shape.parts? name).isSome = shape.isComposite := by
  cases shape <;> rfl

theorem Shape.isComposite_of_parts? {shape : Shape} {name : String} {parts : List Part}
    (h : shape.parts? name = some parts) : shape.isComposite = true := by
  rw [← shape.isSome_parts? name, h]
  rfl

namespace TypeInfo

variable {info : TypeInfo} {typeId : String}

theorem encoding_of_value (h : info.shape typeId = .ok .value) : info.encoding = .inplace := by
  cases he : info.encoding with
  | inplace => rfl
  | mapping | dynamicArray | bytes =>
    unfold shape at h
    rw [he] at h
    split at h <;> simp_all

theorem encoding_of_indirect (h : info.shape typeId = .ok .indirect) :
    info.encoding ≠ .inplace := by
  intro he
  unfold shape at h
  rw [he] at h
  split at h
  case h_3 => split at h <;> cases h
  all_goals first | contradiction | cases h

theorem size_of_inplace (h : info.encoding = .inplace) : info.size = info.byteCount := by
  rw [size, h]

/-- Only values in place fall into parts. -/
theorem size_of_composite {shape : Shape} (h : info.shape typeId = .ok shape)
    (hcomp : shape.isComposite = true) : info.size = info.byteCount := by
  refine size_of_inplace (Classical.byContradiction fun hne => ?_)
  unfold TypeInfo.shape at h
  split at h <;> first | contradiction | (cases h; contradiction)

/-- Whatever its type says about bytes, a value of any encoding but `inplace` takes a slot. -/
theorem size_of_not_inplace (h : info.encoding ≠ .inplace) : info.size = slotSize := by
  unfold size
  cases he : info.encoding with
  | inplace => exact absurd he h
  | mapping => rfl
  | dynamicArray => rfl
  | bytes => rfl

theorem filled_eq : info.filled = if info.encoding = .mapping then 0 else info.size := by
  unfold filled
  cases info.encoding <;> rfl

/-- A value that does not fall into parts is plain, or kept elsewhere. -/
theorem size_of_whole {shape : Shape} {name : String} (h : info.shape typeId = .ok shape)
    (hw : shape.parts? name = none) :
    info.shape typeId = .ok .value ∧ info.size = info.byteCount ∨ info.size = slotSize := by
  cases shape with
  | value => exact .inl ⟨h, size_of_inplace (encoding_of_value h)⟩
  | indirect => exact .inr (size_of_not_inplace (encoding_of_indirect h))
  | struct members => cases hw
  | fixedArray base length => cases hw

end TypeInfo

/-- The sizes of the values that a layout places are bounded by those of its plain values. -/
theorem Layout.PlainSizes.whole {layout : Layout} {P : Nat → Prop} (h : layout.PlainSizes P)
    (hslot : P slotSize) {typeId name : String} {info : TypeInfo} {shape : Shape}
    (hu : layout.Uses typeId) (hi : layout.types.get? typeId = some info)
    (hs : info.shape typeId = .ok shape) (hw : shape.parts? name = none) : P info.size := by
  rcases TypeInfo.size_of_whole hs hw with ⟨hv, hsize⟩ | hsize
  · rw [hsize]
    exact h typeId info hu hi hv
  · rwa [hsize]

end SlotLayout
