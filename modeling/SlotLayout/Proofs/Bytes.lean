import SlotLayout.Proofs.Alignment
import SlotLayout.Proofs.Packing
import SlotLayout.Proofs.Tilings

/-!
# Bytes of storage

What lies at a byte of storage (`Shown`), as the intervals of flattened slots show it
(`Flattened.shown`) and as the segments of the slots do (`PackedFrom.shown`). No two values share a
byte, so there is only one thing to show (`Flattened.shown_unique`).
-/

namespace SlotLayout

/-! ## What lies at a byte -/

/-- The value `e`, its offset counted from `base`, lies over the byte `g` of storage. -/
def Entry.Over (e : Entry) (base g : Nat) : Prop := base + e.offset ≤ g ∧ g < base + e.stop

/-- The name and the type label of the value at the byte `g` of storage; both are empty if none of
the values lies there. -/
def Shown (V : Nat → Entry → Prop) (g : Nat) (name label : String) : Prop :=
  (∃ base e, V base e ∧ e.Over base g ∧ name = e.name ∧ label = e.typeLabel) ∨
    (∀ base e, V base e → ¬ e.Over base g) ∧ name = "" ∧ label = ""

/-- Some value of the slots lies over the byte `g` of storage. -/
def Occupied (slots : List Slot) (g : Nat) : Prop := ∃ base e, ValueAt slots base e ∧ e.Over base g

theorem Shown.of_not_occupied {slots : List Slot} {g : Nat} {name label : String}
    (h : Shown (ValueAt slots) g name label) (hg : ¬ Occupied slots g) : name = "" ∧ label = "" := by
  rcases h with ⟨base, e, hv, ho, -⟩ | ⟨-, hname, hlabel⟩
  · exact absurd ⟨base, e, hv, ho⟩ hg
  · exact ⟨hname, hlabel⟩

namespace Flattened

variable {V : Nat → Entry → Prop} {lo hi g : Nat} {is : List Interval}

theorem over_iff {i : Interval} {base : Nat} {e : Entry} (h : i.Of base e) :
    e.Over base g ↔ i.lo ≤ g ∧ g < i.hi := by
  rw [Entry.Over, h.lo_eq, h.hi_eq]

/-- An interval with the byte in it is that of the value there, or a gap. -/
theorem shown (h : Flattened V lo hi is) {i : Interval} (hi : i ∈ is)
    (hg : i.lo ≤ g ∧ g < i.hi) : Shown V g i.label i.typeLabel := by
  by_cases hv : ∃ base e, V base e ∧ e.Over base g
  · obtain ⟨base, e, hv, ho⟩ := hv
    obtain ⟨j, hj, hof⟩ := h.complete base e hv
    have hij : i = j := h.tiles.unique hi hg hj ((over_iff hof).1 ho)
    rw [← hij] at hof
    exact .inl ⟨base, e, hv, ho, hof.label_eq, hof.typeLabel_eq⟩
  · have hnone : ∀ base e, V base e → ¬ e.Over base g := fun base e h ho => hv ⟨base, e, h, ho⟩
    rcases h.sound i hi with hgap | ⟨base, e, hV, hof⟩
    · exact .inr ⟨hnone, congrArg Interval.label hgap, congrArg Interval.typeLabel hgap⟩
    · exact absurd ((over_iff hof).2 hg) (hnone base e hV)

/-- No two values share a byte, so what is shown at one is determined. -/
theorem shown_unique (h : Flattened V lo hi is) {n l n' l' : String} (hs : Shown V g n l)
    (hs' : Shown V g n' l') : n = n' ∧ l = l' := by
  rcases hs with ⟨base, e, hv, ho, rfl, rfl⟩ | ⟨hnone, rfl, rfl⟩
  · rcases hs' with ⟨base', e', hv', ho', rfl, rfl⟩ | ⟨hnone', -, -⟩
    · obtain ⟨i, hi, hof⟩ := h.complete base e hv
      obtain ⟨j, hj, hof'⟩ := h.complete base' e' hv'
      have hij : i = j := h.tiles.unique hi ((over_iff hof).1 ho) hj ((over_iff hof').1 ho')
      rw [← hof.label_eq, ← hof'.label_eq, ← hof.typeLabel_eq, ← hof'.typeLabel_eq, hij]
      exact ⟨rfl, rfl⟩
    · exact absurd ho (hnone' base e hv)
  · rcases hs' with ⟨base', e', hv', ho', -, -⟩ | ⟨-, rfl, rfl⟩
    · exact absurd ho' (hnone base' e' hv')
    · exact ⟨rfl, rfl⟩

/-- A byte that a value lies over is in the stretch that is tiled. -/
theorem mem_of_over (h : Flattened V lo hi is) {base : Nat} {e : Entry} (hv : V base e)
    (ho : e.Over base g) : lo ≤ g ∧ g < hi := by
  obtain ⟨i, hi, hof⟩ := h.complete base e hv
  have := h.tiles.range_le i hi
  have := (over_iff hof).1 ho
  omega

theorem ne_nil {slots : List Slot} (h : Flattened (ValueAt slots) lo hi is)
    (hs : ∃ s ∈ slots, s.entries ≠ []) : is ≠ [] := by
  obtain ⟨s, hs, hne⟩ := hs
  obtain ⟨e, he⟩ := List.exists_mem_of_ne_nil _ hne
  obtain ⟨i, hi, -⟩ := h.complete _ e ⟨s, hs, rfl, he⟩
  exact List.ne_nil_of_mem hi

end Flattened

/-! ## What the slots show -/

namespace PackedFrom

variable {first : Word} {slots : List Slot}

theorem laid (h : PackedFrom first slots) {s : Slot} (hs : s ∈ slots) : Laid 0 slotSize s.entries :=
  (h.packed s hs).wellFormed.mono (h.packed s hs).reserved_le

theorem pairwise_index (h : PackedFrom first slots) :
    slots.Pairwise fun s t => s.index < t.index := by
  refine List.pairwise_iff_getElem.2 fun k m hk hm hkm => ?_
  have hindex := h.index_eq k _ (List.getElem?_eq_getElem hk)
  have hindex' := h.index_eq m _ (List.getElem?_eq_getElem hm)
  show slots[k].index.val < slots[m].index.val
  omega

theorem rising (h : PackedFrom first slots) : Rising 0 slots :=
  rising_of_pairwise (fun _ _ => Nat.zero_le _) h.pairwise_index fun _ => h.laid

theorem packed_slotAt (h : PackedFrom first slots) (k : Nat) (index : Word) :
    (slotAt slots k index).Packed :=
  holds_slotAt Slot.packed_blank h.packed k index

/-- A value over a byte of storage is one of the slot that the byte belongs to. -/
theorem over_iff (h : PackedFrom first slots) {k : Nat} {index : Word}
    (hk : index.val = first.val + k) {j base : Nat} (hj : j < slotSize) {e : Entry} :
    ValueAt slots base e ∧ e.Over base (slotSize * index.val + j) ↔
      base = slotSize * index.val ∧ e ∈ (slotAt slots k index).entries ∧ e.Covers j := by
  unfold Entry.Over Entry.Covers slotAt
  constructor
  · rintro ⟨⟨s, hs, rfl, he⟩, hlo, hhi⟩
    have hstop := ((h.laid hs).entry_le e he).2
    obtain ⟨m, hm⟩ := List.mem_iff_getElem?.1 hs
    have hindex := h.index_eq m s hm
    simp only [slotSize] at *
    have hkm : k = m := by omega
    have hval : s.index.val = index.val := by omega
    rw [hkm, hm]
    exact ⟨by omega, he, by omega, by omega⟩
  · rintro ⟨rfl, he, hlo, hhi⟩
    cases hs : slots[k]? with
    | none =>
      rw [hs] at he
      cases he
    | some s =>
      rw [hs] at he
      have hval : s.index.val = index.val := (h.index_eq k s hs).trans hk.symm
      exact ⟨⟨s, List.mem_of_getElem? hs, by rw [hval], he⟩, by omega, by omega⟩

/-- What a segment shows of a byte of its slot lies at that byte of storage. -/
theorem shown (h : PackedFrom first slots) {k : Nat} {index : Word}
    (hk : index.val = first.val + k) {j : Nat} (hj : j < slotSize) {g : Segment} {u : Span}
    (hs : g.Shows (slotAt slots k index).entries u j) :
    Shown (ValueAt slots) (slotSize * index.val + j) g.name g.typeLabel := by
  rcases hs.2.2 with ⟨e, he, hcov, rfl⟩ | ⟨hnone, hgap, -, -⟩
  · obtain ⟨hv, ho⟩ := (h.over_iff hk hj).2 ⟨rfl, he, hcov⟩
    exact .inl ⟨_, e, hv, ho, rfl, rfl⟩
  · refine .inr ⟨fun base e hv ho => ?_, ?_, ?_⟩
    · obtain ⟨-, he, hcov⟩ := (h.over_iff hk hj).1 ⟨hv, ho⟩
      exact hnone e he hcov
    · rw [hgap]
      rfl
    · rw [hgap]
      rfl

/-- An occupied byte belongs to one of the slots and is claimed there. -/
theorem claimed_of_occupied {g : Nat} (h : PackedFrom first slots) (hg : Occupied slots g) :
    ∃ k < slots.length, first.val + k = g / slotSize ∧
      ∀ index, g % slotSize < (slotAt slots k index).reserved := by
  obtain ⟨_, e, ⟨s, hs, rfl, he⟩, hlo, hhi⟩ := hg
  obtain ⟨k, hk⟩ := List.mem_iff_getElem?.1 hs
  have hindex := h.index_eq k s hk
  have hstop := ((h.packed s hs).wellFormed.entry_le e he).2
  have hreserved := (h.packed s hs).reserved_le
  refine ⟨k, (List.getElem?_eq_some_iff.1 hk).1, ?_, fun index => ?_⟩
  · simp only [slotSize] at *
    omega
  · unfold slotAt
    rw [hk]
    simp only [slotSize, Option.getD_some] at *
    omega

end PackedFrom

end SlotLayout
