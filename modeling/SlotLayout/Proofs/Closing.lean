import SlotLayout.Proofs.Places

/-!
# Closed slots

When packing has come to the end of the parts of a value that falls apart, it closes its newest
slot. That there is one is seen from the start (`Layout.Run.slots_ne_nil`), and from then on the
slot is full and takes in values without bytes only (`Slot.Sealed`). So it stays through everything
that is packed later, with no assumption on sizes (`collate_closed`).
-/

namespace SlotLayout

variable {layout : Layout} {first : Word} {x : Place}

/-! ## There is a slot to close -/

theorem Packing.slots_ne_nil_of_arrive {types : TypeTable} {part : Part} {p q : Packing}
    {parts? : Option (List Part)} (h : p.arrive types part = .ok (q, parts?)) : q.slots ≠ [] := by
  obtain ⟨info, shape, r, -, -, ho, -, rfl⟩ := arrive_eq_ok_iff.1 h
  obtain ⟨s, older, hs, -⟩ := room_of_openFor ho
  split
  · simp [hs]
  · simp [hs]

/-- Everywhere but at the start there are slots. -/
theorem Layout.Run.slots_ne_nil {p : Packing} {a : Stage} (h : layout.Run ⟨.start, p⟩ a)
    (hplace : a.place ≠ .start) : a.packing.slots ≠ [] := by
  induction h with
  | refl => exact absurd rfl hplace
  | tail _ hstep ih =>
    cases hstep with
    | whole _ ha | enter _ ha => exact Packing.slots_ne_nil_of_arrive ha
    | leave =>
      have hne := ih fun heq => Place.path_ne_nil _ (congrArg Place.parent heq)
      rw [Packing.slots_close]
      simpa using hne

/-! ## It stays closed -/

/-- The slot `t` is the slot `s`, claimed to its end, with values without bytes behind those of `s`
at most. -/
structure Slot.Sealed (s t : Slot) : Prop where
  index_eq : t.index = s.index
  reserved_eq : t.reserved = slotSize
  entries : ∃ xs, t.entries = s.entries ++ xs ∧ ∀ e ∈ xs, e.size = 0

namespace Slot.Sealed

variable {s t : Slot}

theorem of_close (s : Slot) : s.Sealed s.close := ⟨rfl, rfl, [], (List.append_nil _).symm, nofun⟩

theorem close (h : s.Sealed t) : s.Sealed t.close := ⟨h.index_eq, rfl, h.entries⟩

/-- A value that goes into the slot has no bytes, as there are none left. -/
theorem place {part : Part} {info : TypeInfo} (h : s.Sealed t)
    (hroom : t.reserved = 0 ∨ info.size ≤ t.remaining) : s.Sealed (t.place part info) := by
  have hsize : info.size = 0 := by
    have hslot : 0 < slotSize := by decide
    rw [Slot.remaining, h.reserved_eq] at hroom
    omega
  obtain ⟨xs, hentries, hxs⟩ := h.entries
  refine ⟨h.index_eq, ?_, xs ++ [⟨part.name, part.typeId, info.label, info.encoding, t.reserved,
    info.size⟩], ?_, List.forall_mem_append.2 ⟨hxs, List.forall_mem_singleton.2 hsize⟩⟩
  · show t.reserved + info.size = slotSize
    rw [h.reserved_eq, hsize, Nat.add_zero]
  · rw [← List.append_assoc, ← hentries]
    rfl

end Slot.Sealed

namespace Packing

variable {s : Slot} {older : List Slot} {types : TypeTable} {part : Part} {p q : Packing}

/-- The slot `s` upon the slots `older`, as it has been closed, is still there. -/
def Seals (s : Slot) (older : List Slot) (p : Packing) : Prop :=
  ∃ newer t, p.slots = newer ++ t :: older ∧ s.Sealed t

theorem seals_close (h : p.slots = s :: older) : p.close.Seals s older :=
  ⟨[], s.close, by rw [slots_close, h]; rfl, .of_close s⟩

theorem Seals.modifyNewest {f : Slot → Slot} (h : p.Seals s older)
    (hf : ∀ t ∈ p.slots.head?, s.Sealed t → s.Sealed (f t)) : (p.modifyNewest f).Seals s older := by
  obtain ⟨newer, t, hp, ht⟩ := h
  cases newer with
  | nil => exact ⟨[], f t, by rw [slots_modifyNewest, hp]; rfl, hf t (by rw [hp]; rfl) ht⟩
  | cons u us => exact ⟨f u :: us, t, by rw [slots_modifyNewest, hp]; rfl, ht⟩

theorem Seals.close (h : p.Seals s older) : p.close.Seals s older :=
  h.modifyNewest fun _ _ ht => ht.close

theorem Seals.arrive {parts? : Option (List Part)} (h : p.Seals s older)
    (ha : p.arrive types part = .ok (q, parts?)) : q.Seals s older := by
  obtain ⟨info, shape, r, -, -, ho, -, rfl⟩ := arrive_eq_ok_iff.1 ha
  have hopen : r.Seals s older := by
    rcases eq_or_blank_of_openFor ho with rfl | ⟨index, hr⟩
    · exact h
    · obtain ⟨newer, t, hp, ht⟩ := h
      exact ⟨.blank index :: newer, t, by rw [hr, hp]; rfl, ht⟩
  obtain ⟨u, us, hu, hroom⟩ := room_of_openFor ho
  split
  · exact hopen
  · refine hopen.modifyNewest fun t ht hsealed => hsealed.place ?_
    rw [hu] at ht
    cases ht
    exact hroom

/-- Among all slots the closed one stands behind as many as were there before it. -/
theorem Seals.exists_reverse (h : p.Seals s older) :
    ∃ t newer, p.slots.reverse = older.reverse ++ t :: newer ∧ s.Sealed t := by
  obtain ⟨newer, t, hp, ht⟩ := h
  refine ⟨t, newer.reverse, ?_, ht⟩
  rw [hp, List.reverse_append, List.reverse_cons, List.append_assoc]
  rfl

end Packing

theorem Layout.Run.seals {a b : Stage} (h : layout.Run a b) {s : Slot} {older : List Slot}
    (ha : a.packing.Seals s older) : b.packing.Seals s older :=
  h.keeps (fun _ _ _ _ hp ha => hp.arrive ha) (fun _ hp => hp.close) ha

/-- Packing comes to the end of the parts of every value that falls apart. What it has packed by
then has a newest slot, and it goes on from there to the slots of the layout. Among these the slot
is claimed to its end, and behind the values that it had are values without bytes only. -/
theorem collate_closed {slots : List Slot} {part : Part} {inner : List Part}
    (h : layout.collate first = .ok slots) (hx : layout.partAt x = some part)
    (hb : layout.types.below part = some inner) :
    (∃ p, layout.Comes first (x.inner inner.length) p) ∧
      ∀ p, layout.Comes first (x.inner inner.length) p →
        (∃ q, layout.Run ⟨x.inner inner.length, p⟩ ⟨layout.last, q⟩ ∧ slots = q.slots.reverse) ∧
          ∃ s older t xs, p.slots = s :: older ∧ slots[older.length]? = some t ∧
            t.index = s.index ∧ t.reserved = slotSize ∧ t.entries = s.entries ++ xs ∧
              ∀ e ∈ xs, e.size = 0 := by
  refine ⟨Layout.exists_comes_of_below h hx hb, fun p hp => ?_⟩
  have hparent : (x.inner inner.length).parent ≠ [] := x.path_ne_nil
  obtain ⟨s, older, hs⟩ := List.exists_cons_of_ne_nil
    (Layout.Run.slots_ne_nil hp fun heq => hparent (congrArg Place.parent heq))
  obtain ⟨q, hrun, hslots⟩ := hp.run_last h
  refine ⟨⟨q, hrun, hslots⟩, s, older, ?_⟩
  -- The next step closes the slot.
  have hclosed : q.Seals s older := by
    rcases Relation.ReflTransGen.cases_head hrun with heq | ⟨b, hstep, hrest⟩
    · exact absurd (congrArg (·.place.parent) heq) hparent
    · cases hstep.unique (.leave hx hb)
      exact Layout.Run.seals hrest (Packing.seals_close hs)
  obtain ⟨t, newer, hq, hindex, hres, xs, hentries, hxs⟩ := hclosed.exists_reverse
  refine ⟨t, xs, hs, ?_, hindex, hres, hentries, hxs⟩
  rw [hslots, hq]
  simp

/-- A struct without members, itself a member, closes the slot of a value that is larger than a
slot. A value without bytes still goes into that slot, and the next one opens another. -/
theorem collate_closed_oversize :
    let layout : Layout := ⟨[.bare "a" "t_big", .bare "s" "t_struct(S)", .bare "n" "t_nil",
      .bare "b" "t_bool"], .ofList [("t_big", .value "Big" 40), ("t_nil", .value "Nil" 0),
        ("t_bool", .value "bool" 1), ("t_struct(E)", .struct "struct E" 0 []),
        ("t_struct(S)", .struct "struct S" 0 [.bare "e" "t_struct(E)"])]⟩
    let x : Place := ⟨[1], 0⟩
    ∃ slots p, layout.collate .zero = .ok slots ∧
      slots.map (fun s => (s.reserved, s.entries.map (·.name))) =
        [(slotSize, ["a", "n"]), (1, ["b"])] ∧
      layout.partAt x = some ⟨"s.e", "t_struct(E)"⟩ ∧ layout.Comes .zero (x.inner 0) p ∧
        ∃ s older t xs, p.slots = s :: older ∧ slots[older.length]? = some t ∧
          t.index = s.index ∧ t.reserved = slotSize ∧ t.entries = s.entries ++ xs ∧
            ∀ e ∈ xs, e.size = 0 := by
  intro layout x
  have hslots : ∃ slots, layout.collate .zero = .ok slots ∧
      slots.map (fun s => (s.reserved, s.entries.map (·.name))) =
        [(slotSize, ["a", "n"]), (1, ["b"])] := by
    rw [Layout.collate_eq]
    exact ⟨_, rfl, rfl⟩
  obtain ⟨slots, hslots, hvalues⟩ := hslots
  have hx : layout.partAt x = some ⟨"s.e", "t_struct(E)"⟩ := by decide
  have hb : layout.types.below ⟨"s.e", "t_struct(E)"⟩ = some [] := by decide
  obtain ⟨⟨p, hp⟩, hclosed⟩ := collate_closed hslots hx hb
  exact ⟨slots, p, hslots, hvalues, hx, hp, (hclosed p hp).2⟩

end SlotLayout
