import SlotLayout.Proofs.Consistency

/-!
# Positions by a shallow scan

Where a layout puts its values can be told from byte counts alone, without taking values apart. A
scan moves a cursor over the declarations (`scan`): a value that stays whole goes to the cursor or,
if too few bytes are left there, to the next slot; a value that falls into parts begins a slot and
goes on for as many slots as its type counts, and inside of it everything lies as if it had been
declared alone. If the byte counts are those of a compiler, packing puts all values where the scan
says (`collate_scan`).
-/

namespace SlotLayout

/-- Where a scan has come to: a slot, counted from the first one, and how many of its bytes are
taken. -/
structure Cursor where
  slot : Nat
  offset : Nat
  deriving DecidableEq

/-- The values of slots, in order, each with the index of its slot. -/
def located (slots : List Slot) : List (Nat × Entry) :=
  slots.flatMap fun s => s.entries.map fun e => (s.index.val, e)

namespace Cursor

/-- The place for a value of some bytes that stays whole. -/
def seat (c : Cursor) (size : Nat) : Cursor :=
  if slotSize < c.offset + size then ⟨c.slot + 1, 0⟩ else c

/-- The place for a value that falls into parts. -/
def fresh (c : Cursor) : Cursor := if 0 < c.offset then ⟨c.slot + 1, 0⟩ else c

/-- The values of a declaration and where the cursor is after it. The parts of a value are those of
the declaration alone, as many slots further on. -/
def step (types : TypeTable) (first : Nat) (c : Cursor) (d : Declaration) :
    Option (List (Nat × Entry) × Cursor) := do
  let info ← types.get? d.typeId
  let shape ← (info.shape d.typeId).toOption
  if shape.isComposite then
    let alone ← ((⟨[d], types⟩ : Layout).collate .zero).toOption
    return ((located alone).map fun v => (first + c.fresh.slot + v.1, v.2),
      ⟨c.fresh.slot + info.byteCount / slotSize, 0⟩)
  else
    let c := c.seat info.size
    return ([(first + c.slot, ⟨d.label, d.typeId, info.label, info.encoding, c.offset, info.size⟩)],
      ⟨c.slot, c.offset + info.size⟩)

end Cursor

/-- The values of declarations from a cursor on, each with the index of its slot. -/
def scan (types : TypeTable) (first : Nat) : Cursor → List Declaration → Option (List (Nat × Entry))
  | _, [] => some []
  | c, d :: ds => do
    let (vs, c) ← c.step types first d
    return vs ++ (← scan types first c ds)

/-! ## Values in slots -/

theorem located_cons (s : Slot) (ss : List Slot) :
    located (s :: ss) = (s.entries.map fun e => (s.index.val, e)) ++ located ss :=
  List.flatMap_cons

theorem located_append (ss ts : List Slot) : located (ss ++ ts) = located ss ++ located ts :=
  List.flatMap_append

theorem located_singleton (s : Slot) :
    located [s] = s.entries.map fun e => (s.index.val, e) := List.flatMap_singleton ..

/-- Slots that stand further on under one name have the same values further on. -/
theorem located_of_moved {a : String} {n : Nat} {ss ts : List Slot}
    (h : List.Forall₂ (Slot.Moved a a n) ss ts) :
    located ss = (located ts).map fun v => (n + v.1, v.2) := by
  induction h with
  | nil => rfl
  | @cons s t ss ts hst _ ih =>
    have hentries : s.entries = t.entries :=
      List.forall₂_eq_eq_eq ▸ hst.entries.imp fun _ _ => Entry.eq_of_renamed
    rw [located_cons, located_cons, ih, List.map_append, List.map_map, hentries, hst.index_eq]
    rfl

namespace Packing

/-- The values packed so far, each with the index of its slot. -/
def located (p : Packing) : List (Nat × Entry) := SlotLayout.located p.slots.reverse

theorem located_blank {p q : Packing} {index : Word} (h : q.slots = .blank index :: p.slots) :
    q.located = p.located := by
  rw [located, located, h, List.reverse_cons, located_append, located_singleton]
  exact List.append_nil _

theorem located_place {p : Packing} {part : Part} {info : TypeInfo} {s : Slot} {older : List Slot}
    (hs : p.slots = s :: older) : (p.place part info).located = p.located ++
      [(s.index.val,
        ⟨part.name, part.typeId, info.label, info.encoding, s.reserved, info.size⟩)] := by
  simp only [located, slots_place, hs, List.modifyHead_cons, List.reverse_cons, located_append,
    located_singleton, List.append_assoc, Slot.place, List.map_append, List.map_singleton]

end Packing

/-! ## The cursor of a packing -/

namespace Cursor

/-- The packing has come to the cursor: a slot begins there, as all before are claimed in full, or
the newest slot has as many bytes taken. -/
def At (c : Cursor) (p : Packing) : Prop :=
  (c.offset = 0 ∧ p.slots.length = c.slot ∧ ∀ s ∈ p.slots.head?, s.reserved = slotSize) ∨
    ∃ s older, p.slots = s :: older ∧ older.length = c.slot ∧ s.reserved = c.offset ∧ 0 < c.offset

variable {c : Cursor} {p q r : Packing} {first : Word} {size : Nat}

theorem at_start (first : Word) : (⟨0, 0⟩ : Cursor).At (.start first) := .inl ⟨rfl, rfl, nofun⟩

theorem offset_fresh (c : Cursor) : c.fresh.offset = 0 := by
  unfold fresh
  split
  · rfl
  · exact Nat.eq_zero_of_not_pos ‹_›

/-- Where a slot begins, or too few bytes are left of one, both kinds of values go to one place. -/
theorem seat_eq_fresh (hfit : size ≤ slotSize)
    (h : c.offset = 0 ∨ slotSize < c.offset + size) : c.seat size = c.fresh := by
  unfold seat fresh
  rcases h with h | h
  · rw [if_neg (by omega), if_neg (by omega)]
  · rw [if_pos h, if_pos (by omega)]

/-- A slot is opened for a value where one begins, and where too few bytes are left. -/
theorem At.openFor (h : c.At p) (hpos : 1 ≤ size) (ho : p.openFor size = .ok r) :
    (∃ index, r.slots = .blank index :: p.slots ∧ p.slots.length = c.fresh.slot ∧
      (c.offset = 0 ∨ slotSize < c.offset + size)) ∨
    (r = p ∧ c.offset + size ≤ slotSize ∧ ∃ s older, p.slots = s :: older ∧
      older.length = c.slot ∧ s.reserved = c.offset ∧ 0 < c.offset) := by
  unfold fresh
  rcases h with ⟨hoff, hslot, hall⟩ | ⟨s, older, hs, hslot, hres, hoff⟩
  · rw [if_neg (Nat.not_lt.2 (Nat.le_of_eq hoff))]
    rcases Packing.openFor_cases ho with ⟨hnil, rfl⟩ | ⟨s, older, index, hs, -, -, -, rfl⟩ |
      ⟨s, older, hs, hroom, rfl⟩
    · exact .inl ⟨p.first, by rw [hnil], hslot, .inl hoff⟩
    · exact .inl ⟨index, by rw [hs], hslot, .inl hoff⟩
    · have hres := hall s (by rw [hs]; rfl)
      have hbytes : slotSize = 32 := rfl
      unfold Slot.remaining at hroom
      omega
  · rw [if_pos hoff]
    rcases Packing.openFor_cases ho with ⟨hnil, -⟩ | ⟨t, ts, index, ht, -, hfull, -, rfl⟩ |
      ⟨t, ts, ht, hroom, rfl⟩
    · rw [hs] at hnil
      cases hnil
    · rw [hs] at ht
      cases ht
      unfold Slot.remaining at hfull
      exact .inl ⟨index, by rw [hs], by rw [hs, List.length_cons, hslot], .inr (by omega)⟩
    · rw [hs] at ht
      cases ht
      unfold Slot.remaining at hroom
      exact .inr ⟨rfl, by omega, s, older, hs, hslot, hres, hoff⟩

/-- A slot for a value that stays whole is the one at its seat. -/
theorem At.openFor_seat (h : c.At p) (hpos : 1 ≤ size) (hfit : size ≤ slotSize)
    (ho : p.openFor size = .ok r) : ∃ s older, r.slots = s :: older ∧
      older.length = (c.seat size).slot ∧ s.reserved = (c.seat size).offset ∧
        r.located = p.located := by
  rcases h.openFor hpos ho with ⟨index, hr, hslot, hwhere⟩ |
    ⟨rfl, hroom, s, older, hs, hslot, hres, -⟩
  · rw [seat_eq_fresh hfit hwhere]
    exact ⟨.blank index, p.slots, hr, hslot, (offset_fresh c).symm, Packing.located_blank hr⟩
  · rw [seat, if_neg (Nat.not_lt.2 hroom)]
    exact ⟨s, older, hs, hslot, hres, rfl⟩

/-- A slot for a value of whole slots is a new one. -/
theorem At.openFor_fresh (h : c.At p) (hsize : slotSize ≤ size) (ho : p.openFor size = .ok r) :
    ∃ index, r.slots = .blank index :: p.slots ∧ p.slots.length = c.fresh.slot := by
  have hbytes : slotSize = 32 := rfl
  rcases h.openFor (by omega) ho with ⟨index, hr, hslot, -⟩ | ⟨-, hroom, _, _, -, -, -, hoff⟩
  · exact ⟨index, hr, hslot⟩
  · omega

theorem step_of_whole {types : TypeTable} {n : Nat} {d : Declaration} {info : TypeInfo}
    {shape : Shape} (hi : types.get? d.typeId = some info)
    (hs : info.shape d.typeId = .ok shape) (hw : shape.isComposite = false) :
    c.step types n d = some ([(n + (c.seat info.size).slot,
      ⟨d.label, d.typeId, info.label, info.encoding, (c.seat info.size).offset, info.size⟩)],
      ⟨(c.seat info.size).slot, (c.seat info.size).offset + info.size⟩) := by
  simp [step, hi, hs, hw, Except.toOption]

theorem step_of_composite {types : TypeTable} {n : Nat} {d : Declaration} {info : TypeInfo}
    {shape : Shape} {alone : List Slot} (hi : types.get? d.typeId = some info)
    (hs : info.shape d.typeId = .ok shape) (hcomp : shape.isComposite = true)
    (halone : (⟨[d], types⟩ : Layout).collate .zero = .ok alone) :
    c.step types n d =
      some ((SlotLayout.located alone).map fun v => (n + c.fresh.slot + v.1, v.2),
        ⟨c.fresh.slot + info.byteCount / slotSize, 0⟩) := by
  simp [step, hi, hs, hcomp, halone, Except.toOption]

variable {layout : Layout} {d : Declaration}

/-- A declaration that stays whole is placed where the scan places it. -/
theorem At.whole (hc : layout.CompilerConsistent) (hu : layout.Uses d.typeId) (h : c.At p)
    (hp : p.Packed first) (ha : p.arrive layout.types d.part = .ok (q, none)) :
    ∃ vs c', c.step layout.types first.val d = some (vs, c') ∧ c'.At q ∧
      q.located = p.located ++ vs := by
  obtain ⟨info, shape, r, hi, hs, ho, hparts, rfl⟩ := Packing.arrive_eq_ok_iff.1 ha
  have hw : shape.isComposite = false := by
    rw [← Shape.isSome_parts? shape d.part.name, hparts]
    rfl
  obtain ⟨hpos, hfit⟩ := hc.size_of_whole hu hi hs hparts
  obtain ⟨s, older, hr, hslot, hoff, hlocated⟩ := h.openFor_seat hpos hfit ho
  have hindex : s.index.val = first.val + older.length :=
    (hr ▸ (hp.openFor ho).consecutive : Consecutive first (s :: older)).1
  refine ⟨_, _, step_of_whole hi hs hw, .inr ⟨s.place d.part info, older, ?_, hslot, ?_, ?_⟩, ?_⟩
  · show (r.place d.part info).slots = _
    rw [Packing.slots_place, hr]
    rfl
  · exact congrArg (· + info.size) hoff
  · exact Nat.add_pos_right _ hpos
  · show (r.place d.part info).located = _
    rw [Packing.located_place hr, hlocated, hindex, hslot, hoff]
    rfl

/-- A declaration that falls into parts has these where the scan has them, and takes the slots that
the scan passes over. -/
theorem At.composite {parts : List Part} (hc : layout.CompilerConsistent)
    (hu : layout.Uses d.typeId) (h : c.At p) (hp : p.Packed first)
    (ha : p.arrive layout.types d.part = .ok (r, some parts))
    (hq : Collation.placeNested layout.types layout.types.size d.part p = .ok q) :
    ∃ vs c', c.step layout.types first.val d = some (vs, c') ∧ c'.At q ∧
      q.located = p.located ++ vs := by
  obtain ⟨info, shape, _, hi, hs, ho, hparts, rfl⟩ := Packing.arrive_eq_ok_iff.1 ha
  have hcomp := Shape.isComposite_of_parts? hparts
  obtain ⟨k, hpos, hk, hcount, hsize⟩ := hc.size_of_composite hu hi hs hcomp
  have hwhole : slotSize ≤ info.size := hsize ▸ Nat.le_mul_of_pos_right _ hpos
  obtain ⟨index, hr, hslot⟩ := h.openFor_fresh hwhole ho
  have hindex : index.val = first.val + p.slots.length :=
    (hr ▸ (hp.openFor ho).consecutive : Consecutive first (.blank index :: p.slots)).1
  obtain ⟨alone, newer, halone, hq', hall⟩ :=
    Collation.alone_of_placeNested (Nat.le_refl _) ha hr rfl rfl hq rfl
  have hlength := hk.length_eq (Nat.le_refl _) ha hr rfl rfl hq
  refine ⟨_, _, step_of_composite hi hs hcomp halone,
    .inl ⟨rfl, ?_, Collation.reserved_of_apart ha hq⟩, ?_⟩
  · rw [hlength, hslot, hcount, Nat.mul_div_cancel_left _ (by decide)]
  · rw [Packing.located, Packing.located, hq', List.reverse_append, located_append,
      located_of_moved hall, ← hslot, ← hindex]
    rfl

/-- Where packing a declaration in a consistent layout puts its values, the scan does so too. -/
theorem At.placeNested (hc : layout.CompilerConsistent) (hu : layout.Uses d.typeId) (h : c.At p)
    (hp : p.Packed first)
    (hq : Collation.placeNested layout.types layout.types.size d.part p = .ok q) :
    ∃ vs c', c.step layout.types first.val d = some (vs, c') ∧ c'.At q ∧
      q.located = p.located ++ vs := by
  rcases Collation.placeNested_cases hq with ha | ⟨-, _, _, -, -, ha, -, -⟩
  · exact h.whole hc hu hp ha
  · exact h.composite hc hu hp ha hq

end Cursor

/-- Packing declarations of a consistent layout from where the cursor is puts their values where the
scan from there says. -/
theorem scan_of_foldlM {layout : Layout} (hc : layout.CompilerConsistent) {first : Word}
    {ds : List Declaration} (hds : ∀ d ∈ ds, layout.Uses d.typeId) {c : Cursor} {p q : Packing}
    (hat : c.At p) (hp : p.Packed first)
    (h : ds.foldlM (fun p d => Collation.placeNested layout.types layout.types.size d.part p) p =
      .ok q) :
    ∃ vs, scan layout.types first.val c ds = some vs ∧ q.located = p.located ++ vs := by
  induction ds generalizing c p with
  | nil =>
    rw [List.foldlM_nil, pure_eq_ok_iff] at h
    exact ⟨[], rfl, by rw [h, List.append_nil]⟩
  | cons d ds ih =>
    rw [List.foldlM_cons, bind_eq_ok_iff] at h
    obtain ⟨r, hr, h⟩ := h
    obtain ⟨hu, hds⟩ := List.forall_mem_cons.1 hds
    obtain ⟨vs, c', hstep, hat', hlocated⟩ := hat.placeNested hc hu hp hr
    obtain ⟨ws, hscan, hlocated'⟩ := ih hds hat' (hp.placeNested hc.fit hu hr) h
    refine ⟨vs ++ ws, ?_, by rw [hlocated', hlocated, List.append_assoc]⟩
    rw [scan, hstep]
    simp only [Option.bind_eq_bind, Option.bind_some, hscan]
    rfl

/-- The values of a layout whose byte counts are those of a compiler are where the shallow scan of
its declarations says, and there are no others. -/
theorem collate_scan {layout : Layout} {first : Word} {slots : List Slot}
    (hc : layout.CompilerConsistent) (h : layout.collate first = .ok slots) :
    scan layout.types first.val ⟨0, 0⟩ layout.storage = some (located slots) := by
  rw [Layout.collate_eq, map_eq_ok_iff] at h
  obtain ⟨p, hp, rfl⟩ := h
  obtain ⟨vs, hscan, hlocated⟩ := scan_of_foldlM hc (fun _ => Layout.uses_typeId)
    (Cursor.at_start first) (Packing.packed_start first) hp
  exact hscan.trans (congrArg some hlocated.symm)

/-- An array of structs stands between small values, of which the first has a slot to itself. -/
theorem collate_scan_array :
    let layout : Layout := ⟨[.bare "a" "t_uint8", .bare "ps" "t_array", .bare "b" "t_bool",
      .bare "c" "t_uint128"],
      .ofList [("t_uint8", .value "uint8" 1), ("t_bool", .value "bool" 1),
        ("t_uint128", .value "uint128" 16), ("t_uint256", .value "uint256" 32),
        ("t_struct(P)", .struct "struct P" 64 [.bare "x" "t_uint128", .bare "y" "t_uint256"]),
        ("t_array", .fixedArray "struct P[2]" 128 "t_struct(P)")]⟩
    let first : Word := ⟨5, by decide⟩
    ∃ slots, layout.CompilerConsistent ∧ layout.collate first = .ok slots ∧
      (located slots).map (fun v => (v.1, v.2.offset)) =
        [(5, 0), (6, 0), (7, 0), (8, 0), (9, 0), (10, 0), (10, 1)] ∧
      scan layout.types first.val ⟨0, 0⟩ layout.storage = some (located slots) := by
  intro layout first
  have hc : layout.CompilerConsistent := .of_entries (by decide) (by decide)
  have h : ∃ slots, layout.collate first = .ok slots ∧
      (located slots).map (fun v => (v.1, v.2.offset)) =
        [(5, 0), (6, 0), (7, 0), (8, 0), (9, 0), (10, 0), (10, 1)] := by
    rw [Layout.collate_eq]
    exact ⟨_, rfl, rfl⟩
  obtain ⟨slots, h, hpositions⟩ := h
  exact ⟨slots, hc, h, hpositions, collate_scan hc h⟩

end SlotLayout
