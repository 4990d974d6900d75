import SlotLayout.Comparison
import SlotLayout.Proofs.Alignment
import SlotLayout.Proofs.Packing

/-!
# Slots that gain values

Packing more values leaves all slots but the newest as they are; the newest can only gain values
behind those it has (`Packing.Grows`, `Collation.grows_of_placeNested`). Where a slot is aligned
with one that has the same values and more behind them, no value of the smaller slot is touched:
only new values are changes, each facing the gap behind the old ones (`Slot.pairWith_grown`). So a
comparison of layouts reports nothing else if all slots are paired so (`Comparison.diff_of_grown`).
-/

namespace SlotLayout

/-! ## Packing more values -/

/-- The part that a value was placed for. -/
def Entry.part (e : Entry) : Part := ⟨e.name, e.typeId⟩

namespace Packing

/-- The slots of `p` are still there in `q`. The newest of them may have gained values, all of them
placed for parts with the property, and newer slots may stand on top. -/
structure Grows (U : Part → Prop) (p q : Packing) : Prop where
  first_eq : q.first = p.first
  slots : ∀ s older, p.slots = s :: older → ∃ newer t xs, q.slots = newer ++ t :: older ∧
    t.index = s.index ∧ t.entries = s.entries ++ xs ∧ ∀ x ∈ xs, U x.part

variable {U : Part → Prop} {p q r : Packing}

theorem grows_refl (U : Part → Prop) (p : Packing) : p.Grows U p where
  first_eq := rfl
  slots s _ hs := ⟨[], s, [], hs, rfl, (List.append_nil _).symm, nofun⟩

theorem Grows.openFor {size : Nat} (h : p.Grows U q) (ho : q.openFor size = .ok r) :
    p.Grows U r := by
  rcases openFor_cases ho with ⟨hnil, rfl⟩ | ⟨u, us, index, hu, -, -, -, rfl⟩ | ⟨-, -, -, -, rfl⟩
  · refine ⟨h.first_eq, fun s older hs => ?_⟩
    obtain ⟨newer, t, xs, hq, -⟩ := h.slots s older hs
    rw [hnil] at hq
    exact absurd hq.symm (by simp)
  · refine ⟨h.first_eq, fun s older hs => ?_⟩
    obtain ⟨newer, t, xs, hq, hrest⟩ := h.slots s older hs
    refine ⟨.blank index :: newer, t, xs, ?_, hrest⟩
    rw [List.cons_append, ← hq, hu]
  · exact h

/-- Changing the newest slot counts as growth if its index is kept and values are only added. -/
theorem Grows.modifyNewest {f : Slot → Slot} (h : p.Grows U q)
    (hindex : ∀ s, (f s).index = s.index)
    (hentries : ∀ s, ∃ ys, (f s).entries = s.entries ++ ys ∧ ∀ y ∈ ys, U y.part) :
    p.Grows U (q.modifyNewest f) := by
  refine ⟨(first_modifyNewest ..).trans h.first_eq, fun s older hs => ?_⟩
  obtain ⟨newer, t, xs, hq, hi, he, hxs⟩ := h.slots s older hs
  rw [slots_modifyNewest, hq]
  cases newer with
  | nil =>
    obtain ⟨ys, hf, hys⟩ := hentries t
    refine ⟨[], f t, xs ++ ys, rfl, (hindex t).trans hi, by rw [hf, he, List.append_assoc], ?_⟩
    exact fun x hx => (List.mem_append.1 hx).elim (hxs x) (hys x)
  | cons u newer => exact ⟨f u :: newer, t, xs, rfl, hi, he, hxs⟩

theorem Grows.close (h : p.Grows U q) : p.Grows U q.close :=
  h.modifyNewest (fun _ => rfl) fun _ => ⟨[], (List.append_nil _).symm, nofun⟩

theorem Grows.arrive {types : TypeTable} {part : Part} {parts? : Option (List Part)}
    (h : p.Grows U q) (hu : U part) (ha : q.arrive types part = .ok (r, parts?)) :
    p.Grows U r := by
  obtain ⟨info, shape, r', -, -, ho, -, rfl⟩ := arrive_eq_ok_iff.1 ha
  have hopen := h.openFor ho
  cases parts? with
  | some parts => exact hopen
  | none =>
    refine hopen.modifyNewest (fun _ => rfl) fun _ => ⟨_, rfl, fun y hy => ?_⟩
    rw [List.mem_singleton.1 hy]
    exact hu

end Packing

/-- Packing a value adds to the slots only values that lie in it. -/
theorem Collation.grows_of_placeNested {types : TypeTable} {U : Part → Prop}
    (hpart : ∀ whole inner, U whole → types.FallsInto whole inner → U inner) {room : Nat}
    {part : Part} {p q r : Packing} (hu : U part) (hp : p.Grows U q)
    (h : placeNested types room part q = .ok r) : p.Grows U r :=
  placeNested_keeps_inside hpart (fun _ _ _ _ hu hp ha => hp.arrive hu ha) (fun _ hp => hp.close)
    hu hp h

/-! ## Aligning a slot with one that has gained values -/

theorem Segment.sameAs_gap (o n o' n' : Nat) : (Segment.gap o n).sameAs (.gap o' n') = true :=
  (Segment.sameAs_iff _ _).2 ⟨rfl, rfl⟩

/-- Where one slot has the values of the other and more behind them, the stretches that are changed
show one of these on its side and the gap behind the common values on the other. -/
theorem Slot.pairWith_grown {a b : Slot} {xs : List Entry} (h : b.entries = a.entries ++ xs)
    {u : Span} (hu : u ∈ (a.pairWith b).spans) (hchanged : u.changed = true) :
    u.a.Free a.entries ∧ ∃ x ∈ xs, u.b = .ofEntry x := by
  obtain ⟨front, reach, -, hreach, hsegments⟩ := segmentsFrom_append 0 a.entries
  obtain ⟨p, hp, rfl⟩ := List.mem_map.1 hu
  have hdiffer : ¬ p.a.sameAs p.b = true := by
    simpa [Span.ofPiece] using hchanged
  -- Both sides have the segments of the common values in front, which are swept in pairs.
  rw [segments, segments, h, ← List.append_nil a.entries, List.append_assoc, List.nil_append,
    hsegments, hsegments] at hp
  obtain ⟨pieces, lo, hsame, hsweep⟩ := sweep_append Segment.stop front
    (segmentsFrom (max a.reserved b.reserved) reach [])
    (segmentsFrom (max a.reserved b.reserved) reach xs) 0
  rw [hsweep] at hp
  rcases List.mem_append.1 hp with hp | hp
  · rw [hsame p hp] at hdiffer
    exact absurd ((Segment.sameAs_iff _ _).2 ⟨rfl, rfl⟩) hdiffer
  · obtain ⟨ha, hb⟩ := mem_of_mem_sweep hp
    rw [segmentsFrom] at ha
    split at ha
    · rename_i hlt
      have hgap := List.mem_singleton.1 ha
      refine ⟨?_, (ofEntry_or_gap_of_mem hb).resolve_right fun hb => hdiffer ?_⟩
      · show p.a.Free a.entries
        rw [hgap]
        exact ⟨rfl, Nat.sub_pos_of_lt hlt, fun e he => .inl (hreach e he)⟩
      · rw [hgap, hb]
        exact Segment.sameAs_gap ..
    · cases ha

/-! ## Comparing layouts -/

/-- A comparison packs both layouts, A first, and aligns their slots. -/
theorem Comparison.diff_eq (c : Comparison) : c.diff =
    (widen .collation (c.a.collate c.firstSlot)).bind fun as =>
      (widen .collation (c.b.collate c.firstSlot)).bind fun bs =>
        widen .alignment (align c.pad as bs) := by
  unfold diff collate
  cases c.a.collate c.firstSlot with
  | error e => rfl
  | ok as =>
    cases c.b.collate c.firstSlot with
    | error e => rfl
    | ok bs =>
      show (Collated.align ⟨as, bs, c.pad⟩).bind (fun aligned => .ok aligned.pairs) =
        widen .alignment (SlotLayout.align c.pad as bs)
      unfold Collated.align
      cases SlotLayout.align c.pad as bs <;> rfl

/-- Layouts that can be packed are compared by aligning their slots. -/
theorem Comparison.diff_eq_ok {c : Comparison} {as bs : List Slot} {pairs : List SlotPair}
    (hA : c.a.collate c.firstSlot = .ok as) (hB : c.b.collate c.firstSlot = .ok bs)
    (h : align c.pad as bs = .ok pairs) : c.diff = .ok pairs := by
  rw [diff_eq, hA, hB]
  show widen .alignment (align c.pad as bs) = .ok pairs
  rw [h]
  rfl

/-- Layouts can be compared if their slots are paired with slots of the same index that have their
values, and others with the property behind them. What is reported as changed are these. -/
theorem Comparison.diff_of_grown {c : Comparison} {as bs : List Slot} {V : Entry → Prop}
    (hA : c.a.collate c.firstSlot = .ok as) (hB : c.b.collate c.firstSlot = .ok bs)
    (hlength : as.length = bs.length ∨ c.pad = true)
    (hpairs : ∀ p ∈ pairUp as bs, p.1.index = p.2.index ∧
      ∃ xs, p.2.entries = p.1.entries ++ xs ∧ ∀ x ∈ xs, V x) :
    ∃ pairs : List SlotPair, c.diff = .ok pairs ∧ pairs.length = max as.length bs.length ∧
      ∀ (k : Nat) (p : SlotPair), pairs[k]? = some p → ∀ u ∈ p.spans, u.changed = true →
        u.a.Free (slotAt as k p.index).entries ∧
          ∃ e ∈ (slotAt bs k p.index).entries, V e ∧ u.b = .ofEntry e := by
  have halign : align c.pad as bs = .ok ((pairUp as bs).map fun p => p.1.pairWith p.2) :=
    align_eq_ok_iff.2 ⟨hlength, fun p hp => (hpairs p hp).1, rfl⟩
  refine ⟨_, diff_eq_ok hA hB halign, length_of_align halign, fun k p hk u hu hchanged => ?_⟩
  rw [List.getElem?_map] at hk
  obtain ⟨q, hq, rfl⟩ := Option.map_eq_some_iff.1 hk
  obtain ⟨-, xs, hxs, hV⟩ := hpairs q (List.mem_of_getElem? hq)
  obtain ⟨hslotA, hslotB⟩ := slotAt_of_pairUp hq
  obtain ⟨hfree, x, hx, hb⟩ := Slot.pairWith_grown hxs hu hchanged
  rw [show (q.1.pairWith q.2).index = q.1.index from rfl, hslotA, hslotB]
  exact ⟨hfree, x, hxs ▸ List.mem_append_right _ hx, hV x hx, hb⟩

end SlotLayout
