import SlotLayout.Interval
import SlotLayout.Proofs.Results
import SlotLayout.Proofs.Segments

/-!
# Tilings by intervals of values

What it is for intervals to tile a stretch of storage and to be those of some values, in their
places, and gaps (`Flattened`), and for slots to have rising indices and values that follow one
another within the slots (`Rising`).
-/

namespace SlotLayout

/-! ## Words -/

namespace Word

@[simp] theorem val_max (v w : Word) : (max v w).val = max v.val w.val := by
  have : max v w = if v.val ≤ w.val then w else v := rfl
  rw [this]
  split <;> omega

@[simp] theorem val_min (v w : Word) : (min v w).val = min v.val w.val := by
  have : min v w = if v.val ≤ w.val then v else w := rfl
  rw [this]
  split <;> omega

theorem min_le_left (v w : Word) : min v w ≤ v := by
  show (min v w).val ≤ v.val
  rw [val_min]
  exact Nat.min_le_left ..

theorem min_le_right (v w : Word) : min v w ≤ w := by
  show (min v w).val ≤ w.val
  rw [val_min]
  exact Nat.min_le_right ..

theorem le_max_left (v w : Word) : v ≤ max v w := by
  show v.val ≤ (max v w).val
  rw [val_max]
  exact Nat.le_max_left ..

theorem le_max_right (v w : Word) : w ≤ max v w := by
  show w.val ≤ (max v w).val
  rw [val_max]
  exact Nat.le_max_right ..

theorem val_add? {v w : Word} {n : Nat} (h : v.add? n = some w) : w.val = v.val + n :=
  (ofNat?_eq_some_iff.1 h).symm

theorem val_scale? {v w : Word} {n : Nat} (h : v.scale? n = some w) : w.val = n * v.val :=
  (ofNat?_eq_some_iff.1 h).symm

end Word

theorem inStorage_eq_ok_iff {index w : Word} {w? : Option Word} :
    inStorage index w? = .ok w ↔ w? = some w := by
  cases w? with
  | none => exact ⟨nofun, nofun⟩
  | some v => simp [inStorage]

/-! ## Intervals -/

namespace Interval

/-- The position of the first byte, as a number. -/
abbrev lo (i : Interval) : Nat := i.start.val

/-- The position after the last byte, as a number. -/
abbrev hi (i : Interval) : Nat := i.stop.val

/-- The interval of a value in the slot whose first byte is at `base`. -/
structure Of (i : Interval) (base : Nat) (e : Entry) : Prop where
  lo_eq : i.lo = base + e.offset
  hi_eq : i.hi = base + e.stop
  label_eq : i.label = e.name
  typeLabel_eq : i.typeLabel = e.typeLabel

end Interval

/-- The intervals tile a stretch, and they are those of the values `V` that lie in storage, each
given with the position that its offset counts from, and gaps. -/
structure Flattened (V : Nat → Entry → Prop) (lo hi : Nat) (is : List Interval) : Prop where
  tiles : Tiles Interval.lo Interval.hi lo hi is
  sound : ∀ i ∈ is, i = .gap i.start i.stop ∨ ∃ base e, V base e ∧ i.Of base e
  complete : ∀ base e, V base e → ∃ i ∈ is, i.Of base e

namespace Flattened

variable {V W : Nat → Entry → Prop} {lo mid hi : Nat} {is js : List Interval}

theorem nil (lo : Nat) : Flattened (fun _ _ => False) lo lo [] := ⟨rfl, nofun, nofun⟩

theorem gap {v w : Word} (h : v ≤ w) :
    Flattened (fun _ _ => False) v.val w.val (if v < w then [.gap v w] else []) := by
  have hle : v.val ≤ w.val := h
  split
  · exact ⟨⟨rfl, hle, rfl⟩, fun i hi => .inl (by rw [List.mem_singleton.1 hi]; rfl), nofun⟩
  · rename_i hlt
    have hge : ¬ v.val < w.val := hlt
    rw [show v.val = w.val by omega]
    exact nil _

theorem append (h : Flattened V lo mid is) (h' : Flattened W mid hi js) :
    Flattened (fun b e => V b e ∨ W b e) lo hi (is ++ js) where
  tiles := h.tiles.append h'.tiles
  sound i hi := by
    rcases List.mem_append.1 hi with hi | hi
    · exact (h.sound i hi).imp_right fun ⟨b, e, hv, ho⟩ => ⟨b, e, .inl hv, ho⟩
    · exact (h'.sound i hi).imp_right fun ⟨b, e, hv, ho⟩ => ⟨b, e, .inr hv, ho⟩
  complete b e hv := by
    rcases hv with hv | hv
    · obtain ⟨i, hi, ho⟩ := h.complete b e hv
      exact ⟨i, List.mem_append_left _ hi, ho⟩
    · obtain ⟨i, hi, ho⟩ := h'.complete b e hv
      exact ⟨i, List.mem_append_right _ hi, ho⟩

theorem congr (h : Flattened V lo hi is) (hV : ∀ b e, V b e ↔ W b e) : Flattened W lo hi is where
  tiles := h.tiles
  sound i hi := (h.sound i hi).imp_right fun ⟨b, e, hv, ho⟩ => ⟨b, e, (hV b e).1 hv, ho⟩
  complete b e hw := h.complete b e ((hV b e).2 hw)

end Flattened

theorem flattenEntries_cons {index base covered : Word} {e : Entry} {es : List Entry}
    {is : List Interval} {covered' : Word}
    (h : flattenEntries index base covered (e :: es) = .ok (is, covered')) :
    ∃ start stop rest, start.val = base.val + e.offset ∧ stop.val = start.val + e.size ∧
      flattenEntries index base (max covered stop) es = .ok (rest, covered') ∧
      is = (if covered < start then [.gap covered start] else []) ++
        ⟨start, stop, e.name, e.typeLabel⟩ :: rest := by
  rw [flattenEntries] at h
  simp only [bind_eq_ok_iff, inStorage_eq_ok_iff, pure_eq_ok_iff] at h
  obtain ⟨start, hstart, stop, hstop, ⟨rest, c⟩, hrest, h⟩ := h
  cases h
  exact ⟨start, stop, rest, Word.val_add? hstart, Word.val_add? hstop, hrest, rfl⟩

/-- The indices of the slots rise, from the byte `lo` of storage on, and the values of each slot
follow one another and end within it. -/
def Rising : Nat → List Slot → Prop
  | _, [] => True
  | lo, s :: ss => lo ≤ slotSize * s.index.val ∧ Laid 0 slotSize s.entries ∧
      Rising (slotSize * s.index.val + slotSize) ss

theorem rising_of_pairwise {lo : Nat} {ss : List Slot} (hlo : ∀ s ∈ ss, lo ≤ slotSize * s.index.val)
    (hindex : ss.Pairwise fun s t => s.index < t.index)
    (hl : ∀ s ∈ ss, Laid 0 slotSize s.entries) : Rising lo ss := by
  induction ss generalizing lo with
  | nil => trivial
  | cons s ss ih =>
    obtain ⟨hs, hss⟩ := List.pairwise_cons.1 hindex
    refine ⟨hlo s List.mem_cons_self, hl s List.mem_cons_self,
      ih (fun t ht => ?_) hss fun t ht => hl t (List.mem_cons_of_mem _ ht)⟩
    rw [← Nat.mul_succ]
    exact Nat.mul_le_mul_left _ (hs t ht)

/-- The value `e` lies in one of the slots, its offset counted from `base`. -/
def ValueAt (slots : List Slot) (base : Nat) (e : Entry) : Prop :=
  ∃ s ∈ slots, base = slotSize * s.index.val ∧ e ∈ s.entries

end SlotLayout
