import SlotLayout.Proofs.Faults
import SlotLayout.Proofs.Growth

/-!
# What packing looks at

Of the declarations, packing looks at labels and types only, and of a type only at what its encoding
gives a meaning to (`TypeInfo.Alike`). Two layouts that agree in this, for the types in use, have
the same slots or fail with the same error, and a comparison of the two finds no difference
(`collate_of_alike`). The values may have any size: where two slots have the same values, no stretch
is changed, be the slots well formed or not (`Comparison.diff_unchanged`).
-/

namespace SlotLayout

/-- The two say the same of a type as far as packing looks at it. Of members and elements it looks
at what a value in place falls into, and otherwise at whether there are any where none may be. -/
structure TypeInfo.Alike (i j : TypeInfo) : Prop where
  encoding_eq : i.encoding = j.encoding
  label_eq : i.label = j.label
  byteCount_eq : i.encoding = .inplace → i.byteCount = j.byteCount
  kind_eq : i.encoding = .inplace →
    i.members?.isSome = j.members?.isSome ∧ i.base?.isSome = j.base?.isSome
  members_eq : i.encoding = .inplace → i.base? = none →
    i.members?.map (·.map Declaration.part) = j.members?.map (·.map Declaration.part)
  base_eq : i.encoding = .inplace → i.members? = none → i.base? = j.base?
  mapping : i.encoding = .mapping →
    (i.members? = none ∧ i.base? = none ↔ j.members? = none ∧ j.base? = none)
  dynamic : i.encoding = .dynamicArray ∨ i.encoding = .bytes →
    (i.members? = none ↔ j.members? = none)

/-- Members of the same labels and types are the same parts of a struct. -/
theorem map_partOf_of_map_part {ms ns : List Declaration}
    (h : ms.map Declaration.part = ns.map Declaration.part) (name : String) :
    ms.map (·.partOf name) = ns.map (·.partOf name) := by
  have hpart : (fun d : Declaration => d.partOf name) =
      (fun part : Part => ⟨name ++ "." ++ part.name, part.typeId⟩) ∘ Declaration.part := rfl
  rw [hpart, ← List.map_map, h, List.map_map]

namespace TypeInfo.Alike

variable {i j : TypeInfo}

theorem refl (i : TypeInfo) : i.Alike i where
  encoding_eq := rfl
  label_eq := rfl
  byteCount_eq _ := rfl
  kind_eq _ := ⟨rfl, rfl⟩
  members_eq _ _ := rfl
  base_eq _ _ := rfl
  mapping _ := Iff.rfl
  dynamic _ := Iff.rfl

theorem size_eq (h : i.Alike j) : i.size = j.size := by
  have hcount := h.byteCount_eq
  rw [size, size, ← h.encoding_eq]
  split
  · rename_i he
    exact hcount he
  all_goals rfl

theorem filled_eq (h : i.Alike j) : i.filled = j.filled := by
  rw [TypeInfo.filled_eq, TypeInfo.filled_eq, h.size_eq, h.encoding_eq]

theorem place_eq (h : i.Alike j) (part : Part) :
    (fun s : Slot => s.place part i) = fun s => s.place part j := by
  funext s
  rw [Slot.place, Slot.place, h.size_eq, h.filled_eq, h.label_eq, h.encoding_eq]

/-- Values of types in place fall into the same parts, or neither type has a shape. -/
theorem parts_of_inplace (h : i.Alike j) (he : i.encoding = .inplace) (typeId name : String) :
    (i.shape typeId).map (·.parts? name) = (j.shape typeId).map (·.parts? name) := by
  obtain ⟨hm, hb⟩ := h.kind_eq he
  have hmembers := h.members_eq he
  have hbase := h.base_eq he
  unfold shape
  rw [← h.encoding_eq, ← h.label_eq, he]
  cases hi : i.members? with
  | none =>
    rw [hi] at hm
    have hj : j.members? = none := by simpa using hm.symm
    rw [hj, ← hbase hi]
  | some ms =>
    rw [hi] at hm hmembers
    obtain ⟨ns, hj⟩ := Option.isSome_iff_exists.1 hm.symm
    rw [hj] at hmembers ⊢
    cases hbi : i.base? with
    | none =>
      rw [hbi] at hb
      have hbj : j.base? = none := by simpa using hb.symm
      rw [hbj]
      have hparts := map_partOf_of_map_part (Option.some.inj (hmembers hbi)) name
      exact congrArg (fun parts => Except.ok (some parts)) hparts
    | some base =>
      rw [hbi] at hb
      obtain ⟨base', hbj⟩ := Option.isSome_iff_exists.1 hb.symm
      rw [hbj]

/-- Values of the two types fall into the same parts, or neither type has a shape. -/
theorem parts_eq (h : i.Alike j) (typeId name : String) :
    (i.shape typeId).map (·.parts? name) = (j.shape typeId).map (·.parts? name) := by
  have hencoding := h.encoding_eq
  cases he : i.encoding with
  | inplace => exact h.parts_of_inplace he typeId name
  | mapping =>
    have hmapping := h.mapping he
    rw [he] at hencoding
    by_cases hnone : i.members? = none ∧ i.base? = none
    · obtain ⟨hm, hb⟩ := hmapping.1 hnone
      rw [shape, shape, he, ← hencoding, hnone.1, hnone.2, hm, hb]
    · have hnone' := mt hmapping.2 hnone
      rw [not_and_or] at hnone hnone'
      rw [shape_eq_error_iff.2 (.mapping he hnone),
        shape_eq_error_iff.2 (.mapping hencoding.symm hnone')]
  | dynamicArray | bytes =>
    have hdynamic := h.dynamic (by simp [he])
    rw [he] at hencoding
    by_cases hm : i.members? = none
    · rw [shape, shape, he, ← hencoding, hm, hdynamic.1 hm]
    · rw [shape_eq_error_iff.2 (.dynamic (by simp [he]) hm),
        shape_eq_error_iff.2 (.dynamic (by simp [← hencoding]) (mt hdynamic.2 hm))]

end TypeInfo.Alike

/-! ## Packing -/

/-- Taking in a value, as a sequence of what it looks at: what is known of the type, what its values
fall into, how many bytes they take. -/
theorem Packing.arrive_eq (types : TypeTable) (part : Part) (p : Packing) :
    p.arrive types part = do
      let info ← types.resolve part.typeId
      let parts? ← (info.shape part.typeId).map (·.parts? part.name)
      let q ← p.openFor info.size
      return (if parts?.isSome then q else q.place part info, parts?) := by
  unfold arrive
  simp only [bind, Except.bind]
  cases types.resolve part.typeId with
  | error e => rfl
  | ok info =>
    dsimp only
    cases info.shape part.typeId with
    | error e => rfl
    | ok shape =>
      dsimp only [Except.map]
      cases p.openFor info.size with
      | error e => rfl
      | ok q => cases shape.parts? part.name <;> rfl

/-- A value is taken in alike where tables say the same of its type. -/
theorem Packing.arrive_of_alike {types types' : TypeTable} {part : Part}
    (h : Option.Rel TypeInfo.Alike (types.get? part.typeId) (types'.get? part.typeId))
    (p : Packing) : p.arrive types part = p.arrive types' part := by
  rw [arrive_eq, arrive_eq, TypeTable.resolve, TypeTable.resolve]
  generalize types.get? part.typeId = i? at h
  generalize types'.get? part.typeId = j? at h
  cases h with
  | none => rfl
  | some h =>
    rename_i i j
    show ((i.shape part.typeId).map (·.parts? part.name) >>= _) =
      ((j.shape part.typeId).map (·.parts? part.name) >>= _)
    rw [h.parts_eq, h.size_eq]
    simp only [place, h.place_eq]

/-- Parts are packed alike where tables say the same of all types that they come to. -/
theorem Collation.Packs.of_alike {types types' : TypeTable} {U : String → Prop}
    (hU : ∀ whole part, U whole → types.HasPart whole part → U part)
    (h : ∀ id, U id → Option.Rel TypeInfo.Alike (types.get? id) (types'.get? id))
    {parts : List Part} {p : Packing} {r : Except (Report Error) Packing}
    (hr : Packs types parts p r) (hparts : ∀ x ∈ parts, U x.typeId) : Packs types' parts p r := by
  have hinner : ∀ {part : Part} {inner : List Part} {p q : Packing}, U part.typeId →
      p.arrive types part = .ok (q, some inner) → ∀ x ∈ inner, U x.typeId :=
    fun hu ha x hx => hU _ _ hu (Packing.fallsInto_of_arrive ha hx).hasPart
  induction hr with
  | done => exact .done
  | stuck ha =>
    obtain ⟨hu, -⟩ := List.forall_mem_cons.1 hparts
    exact .stuck (Packing.arrive_of_alike (h _ hu) _ ▸ ha)
  | whole ha _ ih =>
    obtain ⟨hu, hparts⟩ := List.forall_mem_cons.1 hparts
    exact .whole (Packing.arrive_of_alike (h _ hu) _ ▸ ha) (ih hparts)
  | apart ha _ _ ihi ihr =>
    obtain ⟨hu, hparts⟩ := List.forall_mem_cons.1 hparts
    exact .apart (Packing.arrive_of_alike (h _ hu) _ ▸ ha) (ihi (hinner hu ha)) (ihr hparts)
  | inside ha _ ih =>
    obtain ⟨hu, -⟩ := List.forall_mem_cons.1 hparts
    exact .inside (Packing.arrive_of_alike (h _ hu) _ ▸ ha) (ih (hinner hu ha))

/-- Layouts with the same slots can be compared, and no stretch is changed. -/
theorem Comparison.diff_unchanged {c : Comparison} {slots : List Slot}
    (hA : c.a.collate c.firstSlot = .ok slots) (hB : c.b.collate c.firstSlot = .ok slots) :
    ∃ pairs : List SlotPair,
      c.diff = .ok pairs ∧ ∀ p ∈ pairs, ∀ u ∈ p.spans, u.changed = false := by
  have hsame : ∀ p ∈ pairUp slots slots, p.1 = p.2 :=
    forall_mem_pairUp (List.forall₂_same.2 fun _ _ => rfl)
  obtain ⟨pairs, hdiff, -, hspans⟩ := diff_of_grown (V := fun _ => False) hA hB (.inl rfl)
    fun p hp => ⟨congrArg Slot.index (hsame p hp), [], by simp [hsame p hp], nofun⟩
  refine ⟨pairs, hdiff, fun p hp u hu => Bool.eq_false_iff.2 fun hchanged => ?_⟩
  obtain ⟨k, hk⟩ := List.mem_iff_getElem?.1 hp
  obtain ⟨-, e, -, hfalse, -⟩ := hspans k p hk u hu hchanged
  exact hfalse

/-- Two layouts with the same labels and types of declarations, and tables that say the same of the
types in use as far as packing looks at it: both have the same slots, or fail with the same error.
If they have slots, a comparison of the two finds no difference. -/
theorem collate_of_alike {layoutA layoutB : Layout} (hA : layoutA.Finite) (hB : layoutB.Finite)
    (hstorage : layoutA.storage.map Declaration.part = layoutB.storage.map Declaration.part)
    (htypes : ∀ id, layoutA.Uses id →
      Option.Rel TypeInfo.Alike (layoutA.types.get? id) (layoutB.types.get? id)) (first : Word) :
    layoutA.collate first = layoutB.collate first ∧
      ∀ slots, layoutA.collate first = .ok slots → ∀ pad, ∃ pairs : List SlotPair,
        Comparison.diff ⟨layoutA, layoutB, first, pad⟩ = .ok pairs ∧
          ∀ p ∈ pairs, ∀ u ∈ p.spans, u.changed = false := by
  have hcollate : layoutA.collate first = layoutB.collate first := by
    obtain ⟨r, hr, hslots⟩ := ((Collation.collate_iff_packs hA first).2 _).1 rfl
    have huses : ∀ x ∈ layoutA.storage.map Declaration.part, layoutA.Uses x.typeId := by
      intro x hx
      obtain ⟨d, hd, rfl⟩ := List.mem_map.1 hx
      exact Layout.uses_typeId hd
    have hr' := hr.of_alike (fun _ _ => Layout.Uses.part) htypes huses
    exact (((Collation.collate_iff_packs hB first).2 _).2 ⟨r, hstorage ▸ hr', hslots⟩).symm
  exact ⟨hcollate, fun slots h pad => Comparison.diff_unchanged h (hcollate ▸ h)⟩

/-- The two layouts differ in positions, in keys and elements of what is kept elsewhere and in its
byte counts, and in a type that is not in use. One of the values is larger than a slot. -/
theorem collate_of_alike_elsewhere :
    let a : Layout := ⟨[.bare "m" "t_mapping", .bare "d" "t_array", .bare "s" "t_struct(S)"],
      .ofList [("t_bool", .value "bool" 1), ("t_big", .value "Big" 40),
        ("t_mapping", .mapping "mapping(bool => bool)" "t_bool" "t_bool"),
        ("t_array", .dynamicArray "bool[]" "t_bool"),
        ("t_struct(S)", .struct "struct S" 64 [.bare "x" "t_big", .bare "y" "t_bool"])]⟩
    let b : Layout := ⟨[⟨some 1, some "C", "m", 0, some "0", "t_mapping"⟩,
        ⟨some 2, some "C", "d", 5, none, "t_array"⟩, ⟨none, none, "s", 0, some "9", "t_struct(S)"⟩],
      .ofList [("t_bool", .value "bool" 1), ("t_big", .value "Big" 40),
        ("t_mapping", ⟨.mapping, "mapping(bool => bool)", 7, none, none, some "t_big", none⟩),
        ("t_array", ⟨.dynamicArray, "bool[]", 0, some "t_big", none, none, none⟩),
        ("t_struct(S)", .struct "struct S" 64
          [⟨some 3, some "C", "x", 8, none, "t_big"⟩, ⟨some 4, none, "y", 9, none, "t_bool"⟩]),
        ("t_uint8", .value "uint8" 1)]⟩
    a.Finite ∧ b.Finite ∧ ∃ slots pairs, a.collate .zero = .ok slots ∧ b.collate .zero = .ok slots ∧
      slots.map (·.reserved) = [32, 32, 40, 32] ∧
        Comparison.diff ⟨a, b, .zero, false⟩ = .ok pairs ∧
          ∀ p ∈ pairs, ∀ u ∈ p.spans, u.changed = false := by
  intro a b
  have hA : a.Finite := Layout.finite_of_rank String.length (by decide)
  have hB : b.Finite := Layout.finite_of_rank String.length (by decide)
  have halike : ∀ id ∈ ["t_bool", "t_big", "t_mapping", "t_array", "t_struct(S)"],
      Option.Rel TypeInfo.Alike (a.types.get? id) (b.types.get? id) := by
    simp only [List.forall_mem_cons]
    refine ⟨.some (.refl _), .some (.refl _), .some ?_, .some ?_, .some ?_, nofun⟩
    all_goals constructor <;> decide
  have htypes : ∀ id, a.Uses id → Option.Rel TypeInfo.Alike (a.types.get? id) (b.types.get? id) :=
    fun id hu => halike id (hu.mem_of_closed (by decide) (by decide))
  have hslots : ∃ slots, a.collate .zero = .ok slots ∧
      slots.map (·.reserved) = [32, 32, 40, 32] := by
    rw [Layout.collate_eq]
    exact ⟨_, rfl, rfl⟩
  obtain ⟨slots, hslots, hreserved⟩ := hslots
  obtain ⟨hcollate, hdiff⟩ := collate_of_alike hA hB rfl htypes .zero
  obtain ⟨pairs, hpairs, hspans⟩ := hdiff slots hslots false
  exact ⟨hA, hB, slots, pairs, hslots, hcollate ▸ hslots, hreserved, hpairs, hspans⟩

end SlotLayout
