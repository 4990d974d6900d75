import SlotLayout.Proofs.Bytes
import SlotLayout.Proofs.Flattening

/-!
# The flat view and the slot view

Two layouts can be compared slot by slot, or as intervals of storage without slot borders. Either
way, a stretch with a byte in it shows on both sides what lies at the byte: `shown_of_align` for the
slots, `shown_of_sweep` for the intervals. So stretches of the two views that share a byte agree
(`agrees_of_holds`), and so do the two views as a whole (`flatView_agrees`).
-/

namespace SlotLayout

/-! ## Tilings of intervals side by side -/

theorem Flattened.padTo {V : Nat → Entry → Prop} {lo hi : Nat} {is : List Interval}
    {start stop : Word} {first last : Interval} (h : Flattened V lo hi is)
    (hfirst : is.head? = some first) (hlast : is.getLast? = some last)
    (hstart : start ≤ first.start) (hstop : last.stop ≤ stop) :
    Flattened V start.val stop.val (padTo start stop first last is) := by
  have elo : first.start.val = lo := h.tiles.head hfirst
  have ehi : last.stop.val = hi := h.tiles.last hlast
  subst elo ehi
  refine (((Flattened.gap hstart).append h).append (Flattened.gap hstop)).congr fun b e => ?_
  simp

namespace IntervalPair

/-- The position of the first byte, as a number. -/
abbrev lo (u : IntervalPair) : Nat := u.start.val

/-- The position after the last byte, as a number. -/
abbrev hi (u : IntervalPair) : Nat := u.stop.val

end IntervalPair

theorem bounds_eq (side : Side) {is : List Interval} (h : is ≠ []) :
    bounds side is = .ok (is.head h, is.getLast h) := by
  rw [bounds, List.head?_eq_some_head h, List.getLast?_eq_some_getLast h]

theorem bounds_eq_ok (side : Side) {is : List Interval} (h : is ≠ []) :
    ∃ first last, is.head? = some first ∧ is.getLast? = some last ∧
      bounds side is = .ok (first, last) :=
  ⟨_, _, List.head?_eq_some_head h, List.getLast?_eq_some_getLast h, bounds_eq side h⟩

theorem alignIntervals_eq_ok {as bs : List Interval} {firstA lastA firstB lastB : Interval}
    (hA : bounds .a as = .ok (firstA, lastA)) (hB : bounds .b bs = .ok (firstB, lastB)) :
    alignIntervals as bs = .ok ((sweep Interval.stop (min firstA.start firstB.start)
      (padTo (min firstA.start firstB.start) (max lastA.stop lastB.stop) firstA lastA as)
      (padTo (min firstA.start firstB.start) (max lastA.stop lastB.stop) firstB lastB bs)).map
        .ofPiece) := by
  rw [alignIntervals, hA]
  simp only [bind, Except.bind]
  rw [hB]
  rfl

section Sweep

variable {start : Word} {hi : Nat} {as bs : List Interval}

/-- The sweep of intervals, with positions as numbers. -/
theorem sweep_val (start : Word) (as bs : List Interval) :
    sweep Interval.hi start.val as bs = (sweep Interval.stop start as bs).map fun p =>
      ⟨p.start.val, p.stop.val, p.a, p.b⟩ :=
  sweep_map Word.val Interval.stop (fun _ _ => rfl) start as bs

theorem tiles_sweep_ofPiece (ha : Tiles Interval.lo Interval.hi start.val hi as)
    (hb : Tiles Interval.lo Interval.hi start.val hi bs) :
    Tiles IntervalPair.lo IntervalPair.hi start.val hi
      ((sweep Interval.stop start as bs).map .ofPiece) := by
  have h := tiles_sweep ha.covers hb.covers
  rw [sweep_val, tiles_map] at h
  exact (tiles_map _).2 h

theorem within_sweep_ofPiece (ha : Tiles Interval.lo Interval.hi start.val hi as)
    (hb : Tiles Interval.lo Interval.hi start.val hi bs) {u : IntervalPair}
    (hu : u ∈ (sweep Interval.stop start as bs).map .ofPiece) :
    (⟨u.lo, u.hi, u.a, u.b⟩ : Piece Nat Interval).Within Interval.lo Interval.hi as bs ∧
      u.changed = !u.a.sameAs u.b := by
  obtain ⟨p, hp, rfl⟩ := List.mem_map.1 hu
  refine ⟨sweep_within ha.covers hb.covers _ ?_, rfl⟩
  rw [sweep_val]
  exact List.mem_map_of_mem hp

end Sweep

/-! ## The two views -/

/-- The stretch of a slot has the byte `g` of storage in it. -/
def Span.Holds (u : Span) (g : Nat) : Prop :=
  slotSize * u.slot.val + u.start ≤ g ∧ g < slotSize * u.slot.val + u.stop

/-- The stretch of storage has the byte `g` in it. -/
def IntervalPair.Holds (v : IntervalPair) (g : Nat) : Prop := v.lo ≤ g ∧ g < v.hi

/-- Both sides show the same, and both views say alike whether the sides differ. -/
structure Span.Agrees (u : Span) (v : IntervalPair) : Prop where
  name_a : u.a.name = v.a.label
  typeLabel_a : u.a.typeLabel = v.a.typeLabel
  name_b : u.b.name = v.b.label
  typeLabel_b : u.b.typeLabel = v.b.typeLabel
  changed_eq : u.changed = v.changed

/-- The pairs of slots and the stretches of storage agree byte for byte on two lists of slots. Each
byte with a value on either side is in one stretch of its slot and in one of storage, which show the
same. All other bytes are gaps on both sides, and the same bytes are changed. -/
structure ViewsAgree (as bs : List Slot) (pairs : List SlotPair) (flat : List IntervalPair) :
    Prop where
  occupied : ∀ g, Occupied as g ∨ Occupied bs g →
    ∃ p u v, pairs.filter (·.index.val = g / slotSize) = [p] ∧
      covering Span.start Span.stop (g % slotSize) p.spans = [u] ∧
      covering IntervalPair.lo IntervalPair.hi g flat = [v] ∧ u.Agrees v
  gap_spans : ∀ g, ¬ Occupied as g → ¬ Occupied bs g → ∀ p ∈ pairs, ∀ u ∈ p.spans, u.Holds g →
    u.a.isGap = true ∧ u.b.isGap = true ∧ u.changed = false
  gap_flat : ∀ g, ¬ Occupied as g → ¬ Occupied bs g → ∀ v ∈ flat, v.Holds g →
    v.a.isGap = true ∧ v.b.isGap = true ∧ v.changed = false
  changed_iff : ∀ g, (∃ u ∈ changedSpans pairs, u.Holds g) ↔
    ∃ v ∈ flat, v.changed = true ∧ v.Holds g

section Slots

variable {first : Word} {as bs : List Slot} {pairs : List SlotPair} {g : Nat}

theorem slot_of_align (h : align true as bs = .ok pairs) {k : Nat} {p : SlotPair}
    (hk : pairs[k]? = some p) {u : Span} (hu : u ∈ p.spans) : u.slot = p.index := by
  have hpair := eq_pairWith_of_align h hk
  rw [hpair] at hu
  obtain ⟨piece, -, rfl⟩ := List.mem_map.1 hu
  exact (congrArg SlotPair.index hpair).symm

variable (ha : PackedFrom first as) (hb : PackedFrom first bs)
include ha hb

variable (h : align true as bs = .ok pairs)
include h

/-- A stretch of a slot with a byte in it shows on both sides what lies at the byte. -/
theorem shown_of_align {p : SlotPair} (hp : p ∈ pairs) {u : Span} (hu : u ∈ p.spans)
    (hg : u.Holds g) :
    Shown (ValueAt as) g u.a.name u.a.typeLabel ∧ Shown (ValueAt bs) g u.b.name u.b.typeLabel ∧
      u.changed = !u.a.sameAs u.b := by
  obtain ⟨k, hk⟩ := List.mem_iff_getElem?.1 hp
  have hindex := index_of_align ha.index_eq hb.index_eq h hk
  have hA := ha.packed_slotAt k p.index
  have hB := hb.packed_slotAt k p.index
  have hslot := slot_of_align h hk hu
  rw [eq_pairWith_of_align h hk] at hu
  obtain ⟨hlo, hhi⟩ := hg
  rw [hslot] at hlo hhi
  obtain ⟨j, rfl⟩ := Nat.exists_eq_add_of_le (Nat.le_trans (Nat.le_add_right _ _) hlo)
  have hle := (Slot.tiles_pairWith hA.wellFormed hB.wellFormed).range_le u hu
  have hmax : max (slotAt as k p.index).reserved (slotAt bs k p.index).reserved ≤ slotSize :=
    Nat.max_le.2 ⟨hA.reserved_le, hB.reserved_le⟩
  have hin : u.start ≤ j ∧ j < u.stop := by omega
  obtain ⟨w, hw, hshowsA, hshowsB⟩ := (Slot.pairWith_exact hA.wellFormed hB.wellFormed).shows j
    (by omega)
  have huw : u = w := eq_of_covering_eq_singleton hw hu hin
  subst huw
  exact ⟨ha.shown hindex (by omega) hshowsA, hb.shown hindex (by omega) hshowsB,
    Slot.changed_pairWith hu⟩

theorem filter_index_of_align {k : Nat} {p : SlotPair} (hk : pairs[k]? = some p) :
    pairs.filter (·.index.val = first.val + k) = [p] := by
  have htiles : Tiles (fun q : SlotPair => q.index.val) (fun q => q.index.val + 1) first.val
      (first.val + pairs.length) pairs :=
    tiles_of_getElem? fun i q hi => index_of_align ha.index_eq hb.index_eq h hi
  have hlen : k < pairs.length := (List.getElem?_eq_some_iff.1 hk).1
  obtain ⟨q, hq⟩ := htiles.covering_eq_singleton (n := first.val + k) (by omega) (by omega)
  have hindex := index_of_align ha.index_eq hb.index_eq h hk
  have hp : p = q := eq_of_covering_eq_singleton hq (List.mem_of_getElem? hk)
    ⟨Nat.le_of_eq hindex, by rw [hindex]; omega⟩
  rw [hp, ← hq, covering]
  refine List.filter_congr fun r _ => ?_
  rw [decide_eq_decide]
  omega

/-- A byte with a value on either side is in one pair of slots, and in one stretch of this pair. -/
theorem spans_of_occupied (hg : Occupied as g ∨ Occupied bs g) :
    ∃ p ∈ pairs, ∃ u ∈ p.spans, pairs.filter (·.index.val = g / slotSize) = [p] ∧
      covering Span.start Span.stop (g % slotSize) p.spans = [u] ∧ u.Holds g := by
  have hclaimed : ∃ k < max as.length bs.length, first.val + k = g / slotSize ∧ ∀ index,
      g % slotSize < max (slotAt as k index).reserved (slotAt bs k index).reserved := by
    rcases hg with hg | hg
    · obtain ⟨k, hk, hdiv, hmod⟩ := ha.claimed_of_occupied hg
      exact ⟨k, Nat.lt_of_lt_of_le hk (Nat.le_max_left ..), hdiv,
        fun index => Nat.lt_of_lt_of_le (hmod index) (Nat.le_max_left ..)⟩
    · obtain ⟨k, hk, hdiv, hmod⟩ := hb.claimed_of_occupied hg
      exact ⟨k, Nat.lt_of_lt_of_le hk (Nat.le_max_right ..), hdiv,
        fun index => Nat.lt_of_lt_of_le (hmod index) (Nat.le_max_right ..)⟩
  obtain ⟨k, hk, hdiv, hmod⟩ := hclaimed
  rw [← length_of_align h] at hk
  have hp := List.getElem?_eq_getElem hk
  have hpair := eq_pairWith_of_align h hp
  have hA := ha.packed_slotAt k pairs[k].index
  have hB := hb.packed_slotAt k pairs[k].index
  obtain ⟨u, hu, -, -⟩ := (Slot.pairWith_exact hA.wellFormed hB.wellFormed).shows _ (hmod _)
  rw [← hpair] at hu
  obtain ⟨hmem, hin⟩ := of_covering_eq_singleton hu
  refine ⟨pairs[k], List.getElem_mem hk, u, hmem, hdiv ▸ filter_index_of_align ha hb h hp, hu, ?_⟩
  have hslot : u.slot = pairs[k].index := slot_of_align h hp hmem
  have hdecomp := Nat.div_add_mod g slotSize
  rw [← hdiv, ← index_of_align ha.index_eq hb.index_eq h hp] at hdecomp
  rw [Span.Holds, hslot]
  omega

theorem gap_of_align (hgA : ¬ Occupied as g) (hgB : ¬ Occupied bs g) {p : SlotPair}
    (hp : p ∈ pairs) {u : Span} (hu : u ∈ p.spans) (hgu : u.Holds g) :
    u.a.isGap = true ∧ u.b.isGap = true ∧ u.changed = false := by
  obtain ⟨hsA, hsB, hchanged⟩ := shown_of_align ha hb h hp hu hgu
  obtain ⟨hnA, hlA⟩ := hsA.of_not_occupied hgA
  obtain ⟨hnB, hlB⟩ := hsB.of_not_occupied hgB
  rw [hchanged, Segment.sameAs, Segment.isGap, Segment.isGap, hnA, hlA, hnB, hlB]
  simp [sameDeclaration]

end Slots

section Storage

variable {as bs : List Slot} {is js : List Interval} {start : Word} {hi g : Nat}
  (hfa : Flattened (ValueAt as) start.val hi is) (hfb : Flattened (ValueAt bs) start.val hi js)
include hfa hfb

/-- A stretch of storage with a byte in it shows on both sides what lies at the byte. -/
theorem shown_of_sweep {v : IntervalPair}
    (hv : v ∈ (sweep Interval.stop start is js).map .ofPiece) (hg : v.Holds g) :
    Shown (ValueAt as) g v.a.label v.a.typeLabel ∧
      Shown (ValueAt bs) g v.b.label v.b.typeLabel ∧ v.changed = !v.a.sameAs v.b := by
  obtain ⟨hw, hchanged⟩ := within_sweep_ofPiece hfa.tiles hfb.tiles hv
  have hinA : v.a.lo ≤ g ∧ g < v.a.hi :=
    ⟨Nat.le_trans hw.start_a hg.1, Nat.lt_of_lt_of_le hg.2 hw.stop_a⟩
  have hinB : v.b.lo ≤ g ∧ g < v.b.hi :=
    ⟨Nat.le_trans hw.start_b hg.1, Nat.lt_of_lt_of_le hg.2 hw.stop_b⟩
  exact ⟨hfa.shown hw.mem_a hinA, hfb.shown hw.mem_b hinB, hchanged⟩

/-- A byte with a value on either side is in one stretch of storage. -/
theorem flat_of_occupied (hg : Occupied as g ∨ Occupied bs g) :
    ∃ v ∈ (sweep Interval.stop start is js).map .ofPiece,
      covering IntervalPair.lo IntervalPair.hi g
        ((sweep Interval.stop start is js).map .ofPiece) = [v] ∧ v.Holds g := by
  have hin : start.val ≤ g ∧ g < hi := by
    rcases hg with ⟨base, e, hv, ho⟩ | ⟨base, e, hv, ho⟩
    · exact hfa.mem_of_over hv ho
    · exact hfb.mem_of_over hv ho
  obtain ⟨v, hv⟩ :=
    (tiles_sweep_ofPiece hfa.tiles hfb.tiles).covering_eq_singleton hin.1 hin.2
  obtain ⟨hmem, hgv⟩ := of_covering_eq_singleton hv
  exact ⟨v, hmem, hv, hgv⟩

theorem gap_of_sweep (hgA : ¬ Occupied as g) (hgB : ¬ Occupied bs g) {v : IntervalPair}
    (hv : v ∈ (sweep Interval.stop start is js).map .ofPiece) (hgv : v.Holds g) :
    v.a.isGap = true ∧ v.b.isGap = true ∧ v.changed = false := by
  obtain ⟨htA, htB, hchanged⟩ := shown_of_sweep hfa hfb hv hgv
  obtain ⟨hnA, hlA⟩ := htA.of_not_occupied hgA
  obtain ⟨hnB, hlB⟩ := htB.of_not_occupied hgB
  rw [hchanged, Interval.sameAs, Interval.isGap, Interval.isGap, hnA, hlA, hnB, hlB]
  simp [sameDeclaration]

end Storage

/-- Both sides padded to the same bytes, two lists of intervals are swept together. -/
theorem flattened_of_alignIntervals {V W : Nat → Entry → Prop} {loA hiA loB hiB : Nat}
    {is js : List Interval} (ha : Flattened V loA hiA is) (hb : Flattened W loB hiB js)
    (hne : is ≠ []) (hne' : js ≠ []) :
    ∃ start hi is' js', Flattened V start.val hi is' ∧ Flattened W start.val hi js' ∧
      alignIntervals is js = .ok ((sweep Interval.stop start is' js').map .ofPiece) := by
  obtain ⟨firstA, lastA, hfA, hlA, hboundsA⟩ := bounds_eq_ok .a hne
  obtain ⟨firstB, lastB, hfB, hlB, hboundsB⟩ := bounds_eq_ok .b hne'
  exact ⟨_, _, _, _,
    ha.padTo hfA hlA (Word.min_le_left ..) (Word.le_max_left ..),
    hb.padTo hfB hlB (Word.min_le_right ..) (Word.le_max_right ..),
    alignIntervals_eq_ok hboundsA hboundsB⟩

section Views

variable {first : Word} {as bs : List Slot} {is js : List Interval} {pairs : List SlotPair}
  {start : Word} {hi g : Nat} (ha : PackedFrom first as) (hb : PackedFrom first bs)
  (h : align true as bs = .ok pairs) (hfa : Flattened (ValueAt as) start.val hi is)
  (hfb : Flattened (ValueAt bs) start.val hi js)
include ha hb h hfa hfb

/-- Stretches of the two views with a byte in common agree. -/
theorem agrees_of_holds {p : SlotPair} (hp : p ∈ pairs) {u : Span} (hu : u ∈ p.spans)
    (hgu : u.Holds g) {v : IntervalPair}
    (hv : v ∈ (sweep Interval.stop start is js).map .ofPiece) (hgv : v.Holds g) : u.Agrees v := by
  obtain ⟨hsA, hsB, hchanged⟩ := shown_of_align ha hb h hp hu hgu
  obtain ⟨htA, htB, hchanged'⟩ := shown_of_sweep hfa hfb hv hgv
  obtain ⟨hnA, hlA⟩ := hfa.shown_unique hsA htA
  obtain ⟨hnB, hlB⟩ := hfb.shown_unique hsB htB
  refine ⟨hnA, hlA, hnB, hlB, ?_⟩
  rw [hchanged, hchanged', Segment.sameAs, Interval.sameAs, hnA, hlA, hnB, hlB]

/-- The slots of two layouts and a sweep of their flattened values, padded to the same bytes. -/
theorem viewsAgree_of_sweep :
    ViewsAgree as bs pairs ((sweep Interval.stop start is js).map .ofPiece) where
  occupied g hg := by
    obtain ⟨p, hp, u, hu, hpairs, hspans, hgu⟩ := spans_of_occupied ha hb h hg
    obtain ⟨v, hv, hflat, hgv⟩ := flat_of_occupied hfa hfb hg
    exact ⟨p, u, v, hpairs, hspans, hflat, agrees_of_holds ha hb h hfa hfb hp hu hgu hv hgv⟩
  gap_spans _ hgA hgB _ hp _ hu hgu := gap_of_align ha hb h hgA hgB hp hu hgu
  gap_flat _ hgA hgB _ hv hgv := gap_of_sweep hfa hfb hgA hgB hv hgv
  changed_iff g := by
    by_cases hg : Occupied as g ∨ Occupied bs g
    · obtain ⟨p, hp, u, hu, -, -, hgu⟩ := spans_of_occupied ha hb h hg
      obtain ⟨v, hv, -, hgv⟩ := flat_of_occupied hfa hfb hg
      constructor
      · rintro ⟨u', hu', hgu'⟩
        obtain ⟨hu', hchanged⟩ := List.mem_filter.1 hu'
        obtain ⟨p', hp', hu'⟩ := List.mem_flatMap.1 hu'
        have hagrees := agrees_of_holds ha hb h hfa hfb hp' hu' hgu' hv hgv
        exact ⟨v, hv, hagrees.changed_eq ▸ hchanged, hgv⟩
      · rintro ⟨v', hv', hchanged, hgv'⟩
        have hagrees := agrees_of_holds ha hb h hfa hfb hp hu hgu hv' hgv'
        have hspan : u ∈ pairs.flatMap (·.spans) := List.mem_flatMap.2 ⟨p, hp, hu⟩
        exact ⟨u, List.mem_filter.2 ⟨hspan, hagrees.changed_eq ▸ hchanged⟩, hgu⟩
    · obtain ⟨hgA, hgB⟩ := not_or.1 hg
      constructor
      · rintro ⟨u, hu, hgu⟩
        obtain ⟨hu, hchanged⟩ := List.mem_filter.1 hu
        obtain ⟨p, hp, hu⟩ := List.mem_flatMap.1 hu
        rw [(gap_of_align ha hb h hgA hgB hp hu hgu).2.2] at hchanged
        cases hchanged
      · rintro ⟨v, hv, hchanged, hgv⟩
        rw [(gap_of_sweep hfa hfb hgA hgB hv hgv).2.2] at hchanged
        cases hchanged

end Views

/-- Two layouts whose plain values fit in slots, with values on both sides: if both can be flattened,
their slots and their intervals can be aligned, and the two views agree on every byte. -/
theorem flatView_agrees {layoutA layoutB : Layout} {first : Word} {as bs : List Slot}
    {is js : List Interval} (hfitA : layoutA.PlainSizes (· ≤ slotSize))
    (hfitB : layoutB.PlainSizes (· ≤ slotSize)) (hA : layoutA.collate first = .ok as)
    (hB : layoutB.collate first = .ok bs) (hsomeA : ∃ s ∈ as, s.entries ≠ [])
    (hsomeB : ∃ s ∈ bs, s.entries ≠ []) (hflatA : flatten as = .ok is)
    (hflatB : flatten bs = .ok js) :
    ∃ pairs flat, align true as bs = .ok pairs ∧ alignIntervals is js = .ok flat ∧
      ViewsAgree as bs pairs flat := by
  have ha := Layout.packedFrom_of_collate hfitA hA
  have hb := Layout.packedFrom_of_collate hfitB hB
  obtain ⟨loA, hiA, hfa⟩ := flattened_of_flatten ha.rising hflatA
  obtain ⟨loB, hiB, hfb⟩ := flattened_of_flatten hb.rising hflatB
  obtain ⟨pairs, hpairs⟩ := exists_align ha.index_eq hb.index_eq (.inr rfl)
  obtain ⟨start, hi, is', js', hfa', hfb', hflat⟩ := flattened_of_alignIntervals hfa hfb
    (hfa.ne_nil hsomeA) (hfb.ne_nil hsomeB)
  exact ⟨pairs, _, hpairs, hflat, viewsAgree_of_sweep ha hb hpairs hfa' hfb'⟩

/-- Behind a larger value, the second of two values moves to the next slot. -/
theorem flatView_agrees_moved :
    let types : TypeTable := .ofList [("t_uint128", .value "uint128" 16),
      ("t_address", .value "address" 20)]
    let layoutA : Layout := ⟨[.bare "a" "t_uint128", .bare "b" "t_uint128"], types⟩
    let layoutB : Layout := ⟨[.bare "a" "t_address", .bare "b" "t_uint128"], types⟩
    ∃ as bs is js pairs flat, layoutA.collate .zero = .ok as ∧ layoutB.collate .zero = .ok bs ∧
      flatten as = .ok is ∧ flatten bs = .ok js ∧ align true as bs = .ok pairs ∧
        alignIntervals is js = .ok flat ∧ ViewsAgree as bs pairs flat := by
  intro types layoutA layoutB
  have hA : ∃ as is, layoutA.collate .zero = .ok as ∧ flatten as = .ok is ∧
      ∃ s ∈ as, s.entries ≠ [] := by
    rw [Layout.collate_eq]
    exact ⟨_, _, rfl, rfl, _, List.mem_cons_self, nofun⟩
  have hB : ∃ bs js, layoutB.collate .zero = .ok bs ∧ flatten bs = .ok js ∧
      ∃ s ∈ bs, s.entries ≠ [] := by
    rw [Layout.collate_eq]
    exact ⟨_, _, rfl, rfl, _, List.mem_cons_self, nofun⟩
  obtain ⟨as, is, hA, hflatA, hsomeA⟩ := hA
  obtain ⟨bs, js, hB, hflatB, hsomeB⟩ := hB
  obtain ⟨pairs, flat, hpairs, hflat, hagree⟩ := flatView_agrees (.of_entries (by decide))
    (.of_entries (by decide)) hA hB hsomeA hsomeB hflatA hflatB
  exact ⟨as, bs, is, js, pairs, flat, hA, hB, hflatA, hflatB, hpairs, hflat, hagree⟩

end SlotLayout
