import SlotLayout.Proofs.Packing

/-!
# Leaves of declarations

The values that stay whole when declarations fall apart, depth first and from left to right, each
with its full path (`Leaves`). Packing has a place for each of them and for nothing else: read slot
by slot, the values of the slots are the leaves, in their order (`collate_leaves`). A step of
packing adds at most one value, behind all others (`Packing.leaves_of_arrive`); opening and closing
slots adds none.
-/

namespace SlotLayout

/-- A value that stays whole, without its place. -/
structure Leaf where
  name : String
  typeId : String
  typeLabel : String
  encoding : Encoding
  size : Nat
  deriving DecidableEq

/-- What a value in a slot is, apart from its place. -/
def Entry.leaf (e : Entry) : Leaf := ⟨e.name, e.typeId, e.typeLabel, e.encoding, e.size⟩

/-- The leaves of values, in order. -/
inductive Leaves (types : TypeTable) : List Part → List Leaf → Prop
  | nil : Leaves types [] []
  /-- A plain value, or one that is kept elsewhere. -/
  | whole {part : Part} {parts : List Part} {info : TypeInfo} {shape : Shape} {ls : List Leaf}
      (hi : types.get? part.typeId = some info) (hs : info.shape part.typeId = .ok shape)
      (hw : shape = .value ∨ shape = .indirect) (hr : Leaves types parts ls) :
      Leaves types (part :: parts)
        (⟨part.name, part.typeId, info.label, info.encoding, info.size⟩ :: ls)
  | struct {part : Part} {parts : List Part} {info : TypeInfo} {members : List Declaration}
      {inner ls : List Leaf} (hi : types.get? part.typeId = some info)
      (hs : info.shape part.typeId = .ok (.struct members))
      (hm : Leaves types (members.map fun d => ⟨part.name ++ "." ++ d.label, d.typeId⟩) inner)
      (hr : Leaves types parts ls) : Leaves types (part :: parts) (inner ++ ls)
  | fixedArray {part : Part} {parts : List Part} {info : TypeInfo} {base : String} {length : Nat}
      {inner ls : List Leaf} (hi : types.get? part.typeId = some info)
      (hs : info.shape part.typeId = .ok (.fixedArray base length))
      (hm : Leaves types
        ((List.range length).map fun i => ⟨part.name ++ "[" ++ toString i ++ "]", base⟩) inner)
      (hr : Leaves types parts ls) : Leaves types (part :: parts) (inner ++ ls)

namespace Leaves

variable {types : TypeTable} {part : Part} {parts : List Part} {ls ls' : List Leaf}

/-- Type and shape of the first value decide which leaves come first. -/
theorem cons_iff : Leaves types (part :: parts) ls ↔ ∃ info shape,
    types.get? part.typeId = some info ∧ info.shape part.typeId = .ok shape ∧
      ((shape.parts? part.name = none ∧ ∃ more, Leaves types parts more ∧
        ls = ⟨part.name, part.typeId, info.label, info.encoding, info.size⟩ :: more) ∨
      ∃ inner front more, shape.parts? part.name = some inner ∧ Leaves types inner front ∧
        Leaves types parts more ∧ ls = front ++ more) := by
  constructor
  · intro h
    cases h with
    | whole hi hs hw hr =>
      refine ⟨_, _, hi, hs, .inl ⟨?_, _, hr, rfl⟩⟩
      rcases hw with rfl | rfl <;> rfl
    | struct hi hs hm hr => exact ⟨_, _, hi, hs, .inr ⟨_, _, _, rfl, hm, hr, rfl⟩⟩
    | fixedArray hi hs hm hr => exact ⟨_, _, hi, hs, .inr ⟨_, _, _, rfl, hm, hr, rfl⟩⟩
  · rintro ⟨info, shape, hi, hs, ⟨hw, more, hr, rfl⟩ | ⟨inner, front, more, hp, hm, hr, rfl⟩⟩
    · cases shape with
      | value => exact .whole hi hs (.inl rfl) hr
      | indirect => exact .whole hi hs (.inr rfl) hr
      | struct members => cases hw
      | fixedArray base length => cases hw
    · cases shape with
      | value => cases hp
      | indirect => cases hp
      | struct members =>
        cases hp
        exact .struct hi hs hm hr
      | fixedArray base length =>
        cases hp
        exact .fixedArray hi hs hm hr

theorem cons (h : Leaves types [part] ls) (hr : Leaves types parts ls') :
    Leaves types (part :: parts) (ls ++ ls') := by
  obtain ⟨info, shape, hi, hs, ⟨hw, more, hn, rfl⟩ | ⟨inner, front, more, hp, hm, hn, rfl⟩⟩ :=
    cons_iff.1 h
  · cases hn
    exact cons_iff.2 ⟨info, shape, hi, hs, .inl ⟨hw, ls', hr, rfl⟩⟩
  · cases hn
    rw [List.append_nil]
    exact cons_iff.2 ⟨info, shape, hi, hs, .inr ⟨inner, front, ls', hp, hm, hr, rfl⟩⟩

theorem unique (h : Leaves types parts ls) (h' : Leaves types parts ls') : ls = ls' := by
  induction h generalizing ls' with
  | nil =>
    cases h'
    rfl
  | whole hi hs hw _ ih =>
    obtain ⟨info, shape, hi', hs', hcases⟩ := cons_iff.1 h'
    cases hi.symm.trans hi'
    cases hs.symm.trans hs'
    rcases hcases with ⟨-, more, hr, rfl⟩ | ⟨inner, front, more, hp, -⟩
    · rw [ih hr]
    · rcases hw with rfl | rfl <;> cases hp
  | struct hi hs _ _ ihm ihr | fixedArray hi hs _ _ ihm ihr =>
    obtain ⟨info, shape, hi', hs', hcases⟩ := cons_iff.1 h'
    cases hi.symm.trans hi'
    cases hs.symm.trans hs'
    rcases hcases with ⟨hw, -⟩ | ⟨inner, front, more, hp, hm, hr, rfl⟩
    · cases hw
    · cases hp
      rw [ihm hm, ihr hr]

end Leaves

/-! ## Steps of packing -/

namespace Packing

variable {types : TypeTable} {part : Part} {p q : Packing}

/-- The leaves that have a place, in the order of their places. -/
def leaves (p : Packing) : List Leaf := (p.slots.reverse.flatMap (·.entries)).map Entry.leaf

theorem leaves_openFor {size : Nat} (h : p.openFor size = .ok q) : q.leaves = p.leaves := by
  rcases openFor_cases h with ⟨hs, rfl⟩ | ⟨s, older, index, hs, -, -, -, rfl⟩ | ⟨-, -, -, -, rfl⟩
  · simp [leaves, hs, Slot.blank]
  · simp [leaves, hs, Slot.blank]
  · rfl

theorem leaves_close (p : Packing) : p.close.leaves = p.leaves := by
  unfold leaves
  rw [slots_close]
  cases p.slots with
  | nil => rfl
  | cons s older => simp

/-- A value that stays whole is placed behind all others; one that falls apart adds nothing yet. -/
theorem leaves_of_arrive {parts? : Option (List Part)} (h : p.arrive types part = .ok (q, parts?)) :
    ∃ info shape, types.get? part.typeId = some info ∧ info.shape part.typeId = .ok shape ∧
      shape.parts? part.name = parts? ∧ q.leaves = p.leaves ++ (if parts?.isSome then [] else
        [⟨part.name, part.typeId, info.label, info.encoding, info.size⟩]) := by
  obtain ⟨info, shape, r, hi, hs, ho, hp, rfl⟩ := arrive_eq_ok_iff.1 h
  refine ⟨info, shape, hi, hs, hp, ?_⟩
  have hopen := leaves_openFor ho
  cases parts? with
  | some parts => simpa using hopen
  | none =>
    obtain ⟨s, older, hr, -⟩ := room_of_openFor ho
    simp only [leaves, hr] at hopen
    simp [leaves, hr, ← hopen, Slot.place, Entry.leaf]

theorem leaves_of_whole (h : p.arrive types part = .ok (q, none)) :
    ∃ ls, Leaves types [part] ls ∧ q.leaves = p.leaves ++ ls := by
  obtain ⟨info, shape, hi, hs, hw, hq⟩ := leaves_of_arrive h
  exact ⟨_, Leaves.cons_iff.2 ⟨info, shape, hi, hs, .inl ⟨hw, [], .nil, rfl⟩⟩, hq⟩

end Packing

/-! ## Runs -/

/-- Packing values one after another adds their leaves if packing each of them does. -/
theorem leaves_of_foldlM {types : TypeTable} {α : Type} (part : α → Part)
    {f : Packing → α → Except (Report Collation.Error) Packing} {xs : List α} {p q : Packing}
    (hf : ∀ x ∈ xs, ∀ p q, f p x = .ok q →
      ∃ ls, Leaves types [part x] ls ∧ q.leaves = p.leaves ++ ls)
    (h : xs.foldlM f p = .ok q) :
    ∃ ls, Leaves types (xs.map part) ls ∧ q.leaves = p.leaves ++ ls := by
  induction xs generalizing p with
  | nil =>
    rw [List.foldlM_nil, pure_eq_ok_iff] at h
    exact ⟨[], .nil, by rw [h, List.append_nil]⟩
  | cons x xs ih =>
    rw [List.foldlM_cons, bind_eq_ok_iff] at h
    obtain ⟨r, hr, h⟩ := h
    obtain ⟨hx, hxs⟩ := List.forall_mem_cons.1 hf
    obtain ⟨ls, hls, hleaves⟩ := hx p r hr
    obtain ⟨more, hmore, hleaves'⟩ := ih hxs h
    exact ⟨ls ++ more, hls.cons hmore, by rw [hleaves', hleaves, List.append_assoc]⟩

/-- Packing a value with all its parts adds its leaves. -/
theorem Collation.leaves_of_placeNested {types : TypeTable} {room : Nat} {part : Part}
    {p q : Packing} (h : placeNested types room part p = .ok q) :
    ∃ ls, Leaves types [part] ls ∧ q.leaves = p.leaves ++ ls := by
  induction room generalizing part p q with
  | zero =>
    rcases placeNested_cases h with ha | ⟨room, parts, r, r', hroom, -⟩
    · exact Packing.leaves_of_whole ha
    · cases hroom
  | succ n ih =>
    rcases placeNested_cases h with ha | ⟨room, parts, r, r', hroom, ha, hfold, rfl⟩
    · exact Packing.leaves_of_whole ha
    · cases hroom
      obtain ⟨info, shape, hi, hs, hp, hr⟩ := Packing.leaves_of_arrive ha
      obtain ⟨ls, hls, hr'⟩ := leaves_of_foldlM id (fun _ _ _ _ => ih) hfold
      rw [List.map_id] at hls
      refine ⟨ls, Leaves.cons_iff.2 ⟨info, shape, hi, hs, .inr ⟨parts, ls, [], hp, hls, .nil, ?_⟩⟩,
        ?_⟩
      · exact (List.append_nil ls).symm
      · rw [Packing.leaves_close, hr', hr, if_pos (Option.isSome_some ..), List.append_nil]

/-- The values of all slots, in the order of the slots, are the leaves of the declarations: none is
lost, none comes twice, and none is out of order. -/
theorem collate_leaves {layout : Layout} {first : Word} {slots : List Slot}
    (h : layout.collate first = .ok slots) (ls : List Leaf) :
    Leaves layout.types (layout.storage.map (·.part)) ls ↔
      (slots.flatMap (·.entries)).map Entry.leaf = ls := by
  rw [Layout.collate_eq, map_eq_ok_iff] at h
  obtain ⟨p, hp, rfl⟩ := h
  obtain ⟨all, hall, hleaves⟩ := leaves_of_foldlM Declaration.part
    (fun _ _ _ _ => Collation.leaves_of_placeNested) hp
  have heq : p.leaves = all := hleaves
  exact ⟨fun hls => heq.trans (hall.unique hls), fun hls => (heq.symm.trans hls) ▸ hall⟩

/-- A struct with an array in it, between a mapping and a byte string. -/
theorem collate_leaves_nested :
    let layout : Layout := ⟨[.bare "m" "t_mapping", .bare "s" "t_struct(S)", .bare "b" "t_bytes"],
      .ofList [("t_uint8", .value "uint8" 1), ("t_bool", .value "bool" 1),
        ("t_bytes", .bytes "bytes"), ("t_mapping", .mapping "mapping(bool => uint8)" "t_bool" "?"),
        ("t_array", .fixedArray "uint8[2]" 32 "t_uint8"),
        ("t_struct(S)", .struct "struct S" 64 [.bare "x" "t_bool", .bare "ys" "t_array"])]⟩
    let ls : List Leaf := [⟨"m", "t_mapping", "mapping(bool => uint8)", .mapping, 32⟩,
      ⟨"s.x", "t_bool", "bool", .inplace, 1⟩, ⟨"s.ys[0]", "t_uint8", "uint8", .inplace, 1⟩,
      ⟨"s.ys[1]", "t_uint8", "uint8", .inplace, 1⟩, ⟨"b", "t_bytes", "bytes", .bytes, 32⟩]
    ∃ slots, layout.collate .zero = .ok slots ∧
      Leaves layout.types (layout.storage.map (·.part)) ls ∧
        (slots.flatMap (·.entries)).map Entry.leaf = ls := by
  intro layout ls
  have h : ∃ slots, layout.collate .zero = .ok slots ∧
      (slots.flatMap (·.entries)).map Entry.leaf = ls := by
    rw [Layout.collate_eq]
    exact ⟨_, rfl, rfl⟩
  obtain ⟨slots, h, hls⟩ := h
  exact ⟨slots, h, (collate_leaves h ls).2 hls, hls⟩

end SlotLayout
