import SlotLayout.Proofs.Elements
import SlotLayout.Proofs.Positions

/-!
# Arrays that grow

Two layouts that differ in the length of their last array only. Packing does the same for both up to
the last element that they share, where the slots of the shorter one end; from there on the longer
one adds its further elements, to that slot and to new ones (`Packing.Adds`). So its slots can be
paired with those of the shorter, or with blank ones, such that each has the values of the other
and its further elements behind them (`Slot.Extends`), and the comparison shows these elements, one
by one, and nothing else (`collate_lengthened`).
-/

namespace SlotLayout

/-! ## Sweeping a gap -/

section

variable {α : Type} {start stop : α → Nat}

/-- Segments that both sides begin with are swept side by side, and the sweep goes on where they
end. -/
theorem sweep_append_of_tiles {lo hi : Nat} {front : List α} (h : Tiles start stop lo hi front)
    (as bs : List α) : sweep stop lo (front ++ as) (front ++ bs) =
      front.map (fun x => ⟨start x, stop x, x, x⟩) ++ sweep stop hi as bs := by
  induction front generalizing lo with
  | nil =>
    cases h
    rfl
  | cons x front ih =>
    obtain ⟨rfl, -, htiles⟩ := h
    rw [List.cons_append, List.cons_append, sweep_cons, Nat.min_self, past_of_le (Nat.le_refl _),
      past_of_le (Nat.le_refl _), ih htiles]
    rfl

end

/-- On values that tile a stretch the segments are the values. -/
theorem segmentsFrom_of_tiles (span : Nat) {lo hi : Nat} {es : List Entry}
    (h : Tiles Entry.offset Entry.stop lo hi es) (fs : List Entry) :
    segmentsFrom span lo (es ++ fs) = es.map .ofEntry ++ segmentsFrom span hi fs := by
  induction es generalizing lo with
  | nil =>
    cases h
    rfl
  | cons e es ih =>
    obtain ⟨rfl, -, htiles⟩ := h
    rw [List.cons_append, segmentsFrom_cons (Nat.le_refl _), if_neg (Nat.lt_irrefl _), ih htiles]
    rfl

/-- Values with bytes take up some. -/
theorem eq_nil_of_tiles {lo hi : Nat} {xs : List Entry}
    (h : Tiles Entry.offset Entry.stop lo hi xs) (hpos : ∀ x ∈ xs, 0 < x.size) (hle : hi ≤ lo) :
    xs = [] := by
  cases xs with
  | nil => rfl
  | cons x xs =>
    have hx := h.range_le x List.mem_cons_self
    have hsize := hpos x List.mem_cons_self
    have hstop : x.stop = x.offset + x.size := rfl
    omega

/-- A gap against values that tile some of it, and another gap behind them: each value is a piece of
its own, and so is what is left. -/
theorem sweep_gap {span lo hi : Nat} {g : Segment} {xs : List Entry} (hg : g.stop = span)
    (h : Tiles Entry.offset Entry.stop lo hi xs) (hpos : ∀ x ∈ xs, 0 < x.size) (hlo : lo < span)
    (hhi : hi ≤ span) : sweep Segment.stop lo [g] (xs.map .ofEntry ++ segmentsFrom span hi []) =
      xs.map (fun x => ⟨x.offset, x.stop, g, .ofEntry x⟩) ++
        if hi < span then [⟨hi, span, g, .gap hi (span - hi)⟩] else [] := by
  induction xs generalizing lo with
  | nil =>
    cases h
    have hstop : (Segment.gap hi (span - hi)).stop = span := Segment.stop_gap hhi
    rw [segmentsFrom, if_pos hlo, if_pos hlo, List.map_nil, List.nil_append, sweep_cons, hg, hstop,
      Nat.min_self, past_of_le (Nat.le_of_eq hg), sweep]
    rfl
  | cons x xs ih =>
    obtain ⟨rfl, -, htiles⟩ := h
    obtain ⟨hx, hxs⟩ := List.forall_mem_cons.1 hpos
    have hle : x.stop ≤ span := Nat.le_trans htiles.le hhi
    have hstop : (Segment.ofEntry x).stop = x.stop := rfl
    rw [List.map_cons, List.cons_append, sweep_cons, hg, hstop, Nat.min_eq_right hle,
      past_of_le (Nat.le_of_eq hstop)]
    rcases Nat.lt_or_eq_of_le hle with hlt | heq
    · rw [past_of_lt (hg ▸ hlt), ih htiles hxs hlt]
      rfl
    · -- The value fills the gap, and nothing is behind it.
      have hend : hi = x.stop := Nat.le_antisymm (heq ▸ hhi) htiles.le
      have hnone : xs = [] := eq_nil_of_tiles htiles hxs (Nat.le_of_eq hend)
      rw [hnone, past_of_le (by omega), sweep, if_neg (by omega)]
      rfl

namespace Span

variable (index : Word) (lo hi : Nat)

/-- Stretches of one declaration on both sides, and of none, are unchanged. -/
theorem changed_of_sameAs {s t : Segment} (h : s.sameAs t = true) :
    (ofPiece index ⟨lo, hi, s, t⟩).changed = false := by
  rw [ofPiece, h]
  rfl

/-- A value with a name that stands against a gap is a change. -/
theorem ofPiece_gap {x : Entry} (hname : x.name ≠ "") (offset size : Nat) :
    ofPiece index ⟨lo, hi, .gap offset size, .ofEntry x⟩ =
      ⟨index, lo, hi, .gap offset size, .ofEntry x, true⟩ := by
  have hdiffer : (Segment.gap offset size).sameAs (.ofEntry x) = false :=
    Bool.eq_false_iff.2 fun h => hname ((Segment.sameAs_iff _ _).1 h).1.symm
  rw [ofPiece, hdiffer]
  rfl

end Span

/-- Values against what is left of a slot: each of them is a change, and nothing else. -/
theorem filter_changed_gap (index : Word) {span mid hi : Nat} {xs : List Entry}
    (hxs : Tiles Entry.offset Entry.stop mid hi xs) (hhi : hi ≤ span) (hpos : ∀ x ∈ xs, 0 < x.size)
    (hname : ∀ x ∈ xs, x.name ≠ "") :
    ((sweep Segment.stop mid (segmentsFrom span mid []) (segmentsFrom span mid xs)).map
      (Span.ofPiece index)).filter (·.changed) = xs.map fun x =>
        ⟨index, x.offset, x.stop, .gap mid (span - mid), .ofEntry x, true⟩ := by
  by_cases hmid : mid < span
  · have hstop : (Segment.gap mid (span - mid)).stop = span := Segment.stop_gap (Nat.le_of_lt hmid)
    have hsegments := segmentsFrom_of_tiles span hxs []
    rw [List.append_nil] at hsegments
    have hnew : (xs.map fun x => Span.ofPiece index
        ⟨x.offset, x.stop, .gap mid (span - mid), .ofEntry x⟩) = xs.map fun x =>
          ⟨index, x.offset, x.stop, .gap mid (span - mid), .ofEntry x, true⟩ :=
      List.map_congr_left fun x hx => Span.ofPiece_gap index _ _ (hname x hx) _ _
    rw [hsegments, segmentsFrom, if_pos hmid, sweep_gap hstop hxs hpos hmid hhi, List.map_append,
      List.filter_append, List.map_map]
    refine (congrArg (List.filter _ · ++ _) hnew).trans ?_
    rw [List.filter_eq_self.2 (by simp)]
    split
    · simp [Span.changed_of_sameAs, Segment.sameAs_gap]
    · exact List.append_nil _
  · -- Nothing is left of the slot.
    have hnone : xs = [] := eq_nil_of_tiles hxs hpos (Nat.le_trans hhi (Nat.le_of_not_lt hmid))
    rw [hnone, segmentsFrom, if_neg hmid, sweep]
    rfl

namespace Slot

variable {a b : Slot} {mid : Nat} {xs : List Entry}

/-- Where one slot has the values of another and more behind them, the common values are swept side
by side. -/
theorem spans_pairWith (ha : Tiles Entry.offset Entry.stop 0 mid a.entries)
    (hb : b.entries = a.entries ++ xs) : (a.pairWith b).spans =
      (a.entries.map fun x => Span.ofPiece a.index ⟨x.offset, x.stop, .ofEntry x, .ofEntry x⟩) ++
        (sweep Segment.stop mid (segmentsFrom (max a.reserved b.reserved) mid [])
          (segmentsFrom (max a.reserved b.reserved) mid xs)).map (.ofPiece a.index) := by
  have hfront : Tiles Segment.offset Segment.stop 0 mid (a.entries.map Segment.ofEntry) :=
    (tiles_map Segment.ofEntry).2 ha
  have hsegments := segmentsFrom_of_tiles (max a.reserved b.reserved) ha []
  rw [List.append_nil] at hsegments
  show (sweep Segment.stop 0 (a.segments _) (b.segments _)).map _ = _
  rw [segments, segments, hb, hsegments, segmentsFrom_of_tiles _ ha xs,
    sweep_append_of_tiles hfront, List.map_append, List.map_map, List.map_map]
  rfl

/-- Each of the values that one slot has more is a change, if all of them follow one another, and
nothing else. -/
theorem filter_changed_pairWith {hi : Nat}
    (ha : Tiles Entry.offset Entry.stop 0 mid a.entries) (hb : b.entries = a.entries ++ xs)
    (hxs : Tiles Entry.offset Entry.stop mid hi xs) (hhi : hi ≤ max a.reserved b.reserved)
    (hpos : ∀ x ∈ xs, 0 < x.size) (hname : ∀ x ∈ xs, x.name ≠ "") :
    (a.pairWith b).spans.filter (·.changed) = xs.map fun x =>
      ⟨a.index, x.offset, x.stop, .gap mid (max a.reserved b.reserved - mid), .ofEntry x, true⟩ := by
  have hsame : (a.entries.map fun x =>
      Span.ofPiece a.index ⟨x.offset, x.stop, .ofEntry x, .ofEntry x⟩).filter (·.changed) = [] := by
    refine List.filter_eq_nil_iff.2 fun u hu => ?_
    obtain ⟨x, -, rfl⟩ := List.mem_map.1 hu
    have hrefl : (Segment.ofEntry x).sameAs (.ofEntry x) = true :=
      (Segment.sameAs_iff _ _).2 ⟨rfl, rfl⟩
    rw [Span.changed_of_sameAs a.index _ _ hrefl]
    exact Bool.false_ne_true
  rw [spans_pairWith ha hb, List.filter_append, hsame, List.nil_append]
  exact filter_changed_gap a.index hxs hhi hpos hname

end Slot

/-! ## Adding values -/

/-- The slot `t` is the slot `s` with the values `xs` behind those of `s`, each where the one before
ends. As many bytes more are claimed. -/
structure Slot.Gained (s : Slot) (xs : List Entry) (t : Slot) : Prop where
  index_eq : t.index = s.index
  entries_eq : t.entries = s.entries ++ xs
  tiles : Tiles Entry.offset Entry.stop s.reserved t.reserved xs
  reserved_le : t.reserved ≤ slotSize

namespace Slot

variable {s t : Slot} {xs : List Entry}

theorem gained_refl (h : s.reserved ≤ slotSize) : s.Gained [] s where
  index_eq := rfl
  entries_eq := (List.append_nil _).symm
  tiles := rfl
  reserved_le := h

theorem Gained.place {part : Part} {info : TypeInfo} (h : s.Gained xs t)
    (hle : info.size ≤ slotSize) (hroom : t.reserved = 0 ∨ info.size ≤ t.remaining) :
    s.Gained (xs ++ [info.entryAt part t.reserved]) (t.place part info) where
  index_eq := h.index_eq
  entries_eq := by
    show t.entries ++ [info.entryAt part t.reserved] = _
    rw [h.entries_eq, List.append_assoc]
  tiles := h.tiles.append ⟨rfl, Nat.le_add_right .., rfl⟩
  reserved_le := by
    have hreserved := h.reserved_le
    show t.reserved + info.size ≤ slotSize
    rw [remaining] at hroom
    omega

end Slot

/-- To the slots `s :: older` values have been added, behind those of `s` and in newer slots. With
the indices of their slots, these are `vs`. -/
def Packing.Adds (s : Slot) (older : List Slot) (vs : List (Nat × Entry)) (p : Packing) : Prop :=
  ∃ newer t xs, p.slots = newer ++ t :: older ∧ s.Gained xs t ∧
    (∀ u ∈ newer, (Slot.blank u.index).Gained u.entries u) ∧
    vs = (xs.map fun x => (s.index.val, x)) ++ SlotLayout.located newer.reverse

namespace Packing

variable {s : Slot} {older : List Slot} {vs : List (Nat × Entry)} {p r : Packing}

theorem adds_nil (hp : p.slots = s :: older) (h : s.reserved ≤ slotSize) : p.Adds s older [] :=
  ⟨[], s, [], hp, Slot.gained_refl h, nofun, rfl⟩

theorem Adds.openFor {size : Nat} (h : p.Adds s older vs) (ho : p.openFor size = .ok r) :
    r.Adds s older vs := by
  rcases eq_or_blank_of_openFor ho with rfl | ⟨index, hr⟩
  · exact h
  · obtain ⟨newer, t, xs, hp, ht, hnewer, hvs⟩ := h
    refine ⟨.blank index :: newer, t, xs, by rw [hr, hp]; rfl, ht, ?_, ?_⟩
    · exact List.forall_mem_cons.2 ⟨Slot.gained_refl (Nat.zero_le _), hnewer⟩
    · rw [hvs, List.reverse_cons, located_append, located_singleton]
      exact congrArg _ (List.append_nil _).symm

/-- A value that fits in a slot is added to the newest. -/
theorem Adds.place {info : TypeInfo} (h : p.Adds s older vs) (part : Part)
    (hle : info.size ≤ slotSize) (ho : p.openFor info.size = .ok r) :
    ∃ u us, r.slots = u :: us ∧ (r.place part info).Adds s older
      (vs ++ [(u.index.val, info.entryAt part u.reserved)]) := by
  obtain ⟨u, us, hu, hroom⟩ := room_of_openFor ho
  refine ⟨u, us, hu, ?_⟩
  obtain ⟨newer, t, xs, hr, ht, hnewer, rfl⟩ := h.openFor ho
  rw [hr] at hu
  cases newer with
  | nil =>
    cases hu
    refine ⟨[], u.place part info, xs ++ [info.entryAt part u.reserved], ?_,
      ht.place hle hroom, nofun, ?_⟩
    · rw [slots_place, hr]
      rfl
    · rw [List.map_append, ht.index_eq]
      simp [SlotLayout.located]
  | cons v newer =>
    cases hu
    obtain ⟨hu, hnewer⟩ := List.forall_mem_cons.1 hnewer
    refine ⟨u.place part info :: newer, t, xs, ?_, ht, ?_, ?_⟩
    · rw [slots_place, hr]
      rfl
    · exact List.forall_mem_cons.2 ⟨hu.place hle hroom, hnewer⟩
    · rw [List.reverse_cons, List.reverse_cons, located_append, located_append, located_singleton,
        located_singleton, List.append_assoc, List.append_assoc, Slot.place, List.map_append]
      rfl

/-- If the values of `s` follow one another, so do those of the newest slot. -/
theorem Adds.newest (h : p.Adds s older vs)
    (hs : Tiles Entry.offset Entry.stop 0 s.reserved s.entries) : ∃ u us, p.slots = u :: us ∧
      Tiles Entry.offset Entry.stop 0 u.reserved u.entries ∧ u.reserved ≤ slotSize := by
  obtain ⟨newer, t, xs, hp, ht, hnewer, -⟩ := h
  cases newer with
  | nil => exact ⟨t, older, hp, ht.entries_eq ▸ hs.append ht.tiles, ht.reserved_le⟩
  | cons u newer =>
    have hu := hnewer u List.mem_cons_self
    exact ⟨u, _, hp, hu.tiles, hu.reserved_le⟩

end Packing

/-- The slot `t` has the values of `s` and behind them `xs`, which follow one another within the
claimed bytes. -/
structure Slot.Extends (s : Slot) (xs : List Entry) (t : Slot) : Prop where
  index_eq : t.index = s.index
  entries_eq : t.entries = s.entries ++ xs
  tiles : ∃ hi ≤ t.reserved, Tiles Entry.offset Entry.stop s.reserved hi xs

theorem Slot.Gained.extends {s t : Slot} {xs : List Entry} (h : s.Gained xs t) : s.Extends xs t :=
  ⟨h.index_eq, h.entries_eq, t.reserved, Nat.le_refl _, h.tiles⟩

theorem Slot.Gained.close {s t : Slot} {xs : List Entry} (h : s.Gained xs t) :
    s.Extends xs t.close :=
  ⟨h.index_eq, h.entries_eq, t.reserved, h.reserved_le, h.tiles⟩

/-- When the newest slot has been closed, the values are still those that have been added. -/
theorem Packing.Adds.close {s : Slot} {older : List Slot} {vs : List (Nat × Entry)} {p : Packing}
    (h : p.Adds s older vs) : ∃ t rest xs, p.close.slots.reverse = older.reverse ++ t :: rest ∧
      s.Extends xs t ∧ (∀ u ∈ rest, (Slot.blank u.index).Extends u.entries u) ∧
      vs = (xs.map fun x => (s.index.val, x)) ++ SlotLayout.located rest := by
  obtain ⟨newer, t, xs, hp, ht, hnewer, rfl⟩ := h
  cases newer with
  | nil =>
    refine ⟨t.close, [], xs, ?_, ht.close, nofun, rfl⟩
    rw [slots_close, hp]
    exact List.reverse_cons
  | cons u newer =>
    obtain ⟨hu, hnewer⟩ := List.forall_mem_cons.1 hnewer
    refine ⟨t, newer.reverse ++ [u.close], xs, ?_, ht.extends, ?_, ?_⟩
    · rw [slots_close, hp]
      simp
    · intro v hv
      rcases List.mem_append.1 hv with hv | hv
      · exact (hnewer v (List.mem_reverse.1 hv)).extends
      · rw [List.mem_singleton.1 hv]
        exact hu.close
    · rw [List.reverse_cons, located_append, located_append]
      rfl

/-! ## Comparing slots that have been extended -/

theorem pairUp_append (front as bs : List Slot) :
    pairUp (front ++ as) (front ++ bs) = front.map (fun s => (s, s)) ++ pairUp as bs := by
  induction front with
  | nil => rfl
  | cons s front ih => rw [List.cons_append, List.cons_append, pairUp, ih]; rfl

theorem pairUp_nil (bs : List Slot) : pairUp [] bs = bs.map fun b => (.blank b.index, b) := by
  cases bs <;> rfl

/-- A slot does not differ from itself. -/
theorem Slot.filter_changed_self (s : Slot) : (s.pairWith s).spans.filter (·.changed) = [] := by
  refine List.filter_eq_nil_iff.2 fun u hu hchanged => ?_
  obtain ⟨-, x, hx, -⟩ := Slot.pairWith_grown (List.append_nil _).symm hu hchanged
  cases hx

/-- The stretches show the values, one by one: the bytes of each in the slot of its index, with the
value on the side of layout B and a gap on that of layout A. -/
structure ShowAdded (us : List Span) (vs : List (Nat × Entry)) : Prop where
  shown : us.map (fun u => (u.slot.val, u.start, u.stop, u.b)) =
    vs.map fun v => (v.1, v.2.offset, v.2.stop, .ofEntry v.2)
  gap : ∀ u ∈ us, u.a = .gap u.a.offset u.a.size

theorem ShowAdded.append {us us' : List Span} {vs vs' : List (Nat × Entry)}
    (h : ShowAdded us vs) (h' : ShowAdded us' vs') : ShowAdded (us ++ us') (vs ++ vs') where
  shown := by rw [List.map_append, List.map_append, h.shown, h'.shown]
  gap := List.forall_mem_append.2 ⟨h.gap, h'.gap⟩

/-- A slot that has been extended differs in the values that it has been extended by. -/
theorem Slot.Extends.showAdded {s a t : Slot} {xs : List Entry} (h : s.Extends xs t)
    (hs : Tiles Entry.offset Entry.stop 0 s.reserved s.entries) (hindex : a.index = s.index)
    (hentries : a.entries = s.entries)
    (hvalues : ∀ v ∈ xs.map fun x => (s.index.val, x), 0 < v.2.size ∧ v.2.name ≠ "") :
    ShowAdded ((a.pairWith t).spans.filter (·.changed)) (xs.map fun x => (s.index.val, x)) := by
  obtain ⟨hi, hle, htiles⟩ := h.tiles
  have hchanged := Slot.filter_changed_pairWith (hentries.symm ▸ hs)
    (hentries.symm ▸ h.entries_eq) htiles (Nat.le_trans hle (Nat.le_max_right ..))
    (fun x hx => (hvalues _ (List.mem_map_of_mem hx)).1)
    (fun x hx => (hvalues _ (List.mem_map_of_mem hx)).2)
  rw [hchanged, ← hindex]
  refine ⟨by rw [List.map_map, List.map_map]; rfl, fun u hu => ?_⟩
  obtain ⟨x, -, rfl⟩ := List.mem_map.1 hu
  rfl

theorem changedSpans_append (ps qs : List SlotPair) :
    changedSpans (ps ++ qs) = changedSpans ps ++ changedSpans qs := by
  rw [changedSpans, List.flatMap_append, List.filter_append]
  rfl

theorem changedSpans_cons (p : SlotPair) (ps : List SlotPair) :
    changedSpans (p :: ps) = p.spans.filter (·.changed) ++ changedSpans ps := by
  rw [changedSpans, List.flatMap_cons, List.filter_append]
  rfl

/-- Slots that the other side does not have show all of their values. -/
theorem showAdded_blank {rest : List Slot}
    (hrest : ∀ u ∈ rest, (Slot.blank u.index).Extends u.entries u)
    (hvalues : ∀ v ∈ located rest, 0 < v.2.size ∧ v.2.name ≠ "") :
    ShowAdded (changedSpans ((pairUp [] rest).map fun q => q.1.pairWith q.2)) (located rest) := by
  rw [pairUp_nil]
  induction rest with
  | nil => exact ⟨rfl, nofun⟩
  | cons w rest ih =>
    obtain ⟨hw, hrest⟩ := List.forall_mem_cons.1 hrest
    rw [located_cons] at hvalues ⊢
    obtain ⟨hwvalues, hvalues⟩ := List.forall_mem_append.1 hvalues
    rw [List.map_cons, List.map_cons, changedSpans_cons]
    exact (hw.showAdded rfl rfl rfl hwvalues).append (ih hrest hvalues)

/-- Between slots of which the last of one side has been extended on the other, and further ones
have been added, the changes are the added values. -/
theorem showAdded_of_extends (front : List Slot) {rest : List Slot} {s a t : Slot}
    {xs : List Entry} (h : s.Extends xs t) (hs : Tiles Entry.offset Entry.stop 0 s.reserved s.entries)
    (hindex : a.index = s.index) (hentries : a.entries = s.entries)
    (hrest : ∀ u ∈ rest, (Slot.blank u.index).Extends u.entries u)
    (hvalues : ∀ v ∈ (xs.map fun x => (s.index.val, x)) ++ located rest,
      0 < v.2.size ∧ v.2.name ≠ "") :
    ShowAdded (changedSpans
        ((pairUp (front ++ [a]) (front ++ t :: rest)).map fun q => q.1.pairWith q.2))
      ((xs.map fun x => (s.index.val, x)) ++ located rest) := by
  obtain ⟨hxs, hrestvalues⟩ := List.forall_mem_append.1 hvalues
  have hfront : changedSpans ((front.map fun s => (s, s)).map fun q => q.1.pairWith q.2) = [] := by
    clear hvalues
    induction front with
    | nil => rfl
    | cons s front ih =>
      rw [List.map_cons, List.map_cons, changedSpans_cons, ih, s.filter_changed_self]
      rfl
  rw [pairUp_append, List.map_append, changedSpans_append, hfront, List.nil_append, pairUp,
    List.map_cons, changedSpans_cons]
  exact (h.showAdded hs hindex hentries hxs).append (showAdded_blank hrest hrestvalues)

/-- If packing has added values where another packing stands, the slots of the two, once the newest
of each has been closed, differ in these values. -/
theorem Packing.Adds.showAdded {p q : Packing} {u : Slot} {us : List Slot} {vs : List (Nat × Entry)}
    (h : q.Adds u us vs) (hp : p.slots = u :: us)
    (hu : Tiles Entry.offset Entry.stop 0 u.reserved u.entries)
    (hvalues : ∀ v ∈ vs, 0 < v.2.size ∧ v.2.name ≠ "") :
    SlotLayout.located q.close.slots.reverse = SlotLayout.located p.close.slots.reverse ++ vs ∧
      ShowAdded (changedSpans ((pairUp p.close.slots.reverse q.close.slots.reverse).map fun x =>
        x.1.pairWith x.2)) vs := by
  obtain ⟨t, rest, xs, hq, hextends, hrest, rfl⟩ := h.close
  have hp' : p.close.slots.reverse = us.reverse ++ [u.close] := by
    rw [slots_close, hp]
    exact List.reverse_cons
  rw [hp', hq]
  refine ⟨?_, showAdded_of_extends us.reverse hextends hu rfl rfl hrest hvalues⟩
  rw [located_append, located_append, located_cons, located_singleton, hextends.entries_eq,
    hextends.index_eq, List.map_append]
  simp only [Slot.entries_close, Slot.index_close, List.append_assoc]

/-! ## The elements that are added -/

/-- The `k` elements from the number `n` on of the array `name`, which begins in the slot at
`index`. Each has the index of its slot. -/
def TypeInfo.elementsFrom (info : TypeInfo) (name base : String) (index n k : Nat) :
    List (Nat × Entry) :=
  (List.range' n k).map fun i => (index + i / info.perSlot, info.elementAt name base i)

/-- Where packing stands after `n` elements, the next ones are added where their numbers say. -/
theorem TypeTable.SmallArray.adds {types : TypeTable} {typeId base name : String}
    {length room n k : Nat} {elem : TypeInfo} {first : Word} {s : Slot} {older below : List Slot}
    {p q : Packing} (h : types.SmallArray typeId base length elem)
    (hn : p.HasElements below elem name base n) (hnumbered : p.Numbered first)
    (hp : p.slots = s :: older) (hs : s.reserved ≤ slotSize)
    (hq : ((List.range' n k).map (.element name base)).foldlM
      (fun q part => Collation.placeNested types room part q) p = .ok q) :
    q.Adds s older (elem.elementsFrom name base (first.val + below.length) n k) := by
  induction k generalizing q with
  | zero =>
    cases hq
    exact Packing.adds_nil hp hs
  | succ k ih =>
    have hq' : q.Numbered first :=
      foldlM_keeps (fun _ _ _ _ hc hc' => hc.placeNested hc') hnumbered hq
    have hrows := h.hasElements hn hq
    rw [← Nat.add_assoc] at hrows
    obtain ⟨t, ts, es, ht, hlength, hentries⟩ := hrows.last
    rw [List.range'_1_concat, List.map_append, List.foldlM_append, bind_eq_ok_iff] at hq
    obtain ⟨r, hr, hq⟩ := hq
    rw [List.map_singleton, List.foldlM_cons, bind_eq_ok_iff] at hq
    obtain ⟨r', hr', hq⟩ := hq
    cases hq
    obtain ⟨-, v, hv, rfl⟩ := h.placed hr'
    obtain ⟨u, us, hu, hadds⟩ := (ih hr).place (.element name base (n + k)) h.size_le hv
    have hconsecutive := hq'.consecutive
    rw [Packing.slots_place, hu, List.modifyHead_cons] at ht hconsecutive
    cases ht
    have hentry : elem.entryAt (.element name base (n + k)) u.reserved =
        elem.elementAt name base (n + k) := (List.cons.inj (List.append_inj' hentries rfl).2).1
    have hindex : u.index.val = first.val + below.length + (n + k) / elem.perSlot := by
      rw [Nat.add_assoc, ← hlength]
      exact hconsecutive.1
    rw [TypeInfo.elementsFrom, List.range'_1_concat, List.map_append, List.map_singleton, ← hentry,
      ← hindex]
    exact hadds

/-- Elements of small arrays have bytes and a name. -/
theorem TypeTable.SmallArray.of_mem_elementsFrom {types : TypeTable} {typeId base : String}
    {length : Nat} {elem : TypeInfo} (h : types.SmallArray typeId base length elem) (name : String)
    (index n k : Nat) :
    ∀ v ∈ elem.elementsFrom name base index n k, 0 < v.2.size ∧ v.2.name ≠ "" := by
  intro v hv
  obtain ⟨i, -, rfl⟩ := List.mem_map.1 hv
  refine ⟨h.size_pos, fun hname => ?_⟩
  have hlength : ((name ++ "[" ++ toString i) ++ "]").length = 0 := congrArg String.length hname
  rw [String.length_append] at hlength
  have hbracket : "]".length = 1 := rfl
  omega

/-! ## Layouts that differ in the length of the last array -/

section

variable {types : TypeTable} {before : List Declaration} {d : Declaration} {first : Word}
  {slots : List Slot}

theorem Layout.partAt_concat (types : TypeTable) (before : List Declaration) (d : Declaration) :
    partAt ⟨before ++ [d], types⟩ ⟨[], before.length⟩ = some d.part := by
  show ((before ++ [d]).map (·.part))[before.length]? = some d.part
  simp

/-- The last declaration is packed when packing comes to it behind the others. -/
theorem Layout.exists_comes_concat (h : Layout.collate ⟨before ++ [d], types⟩ first = .ok slots) :
    ∃ p q, before.foldlM (fun p d => Collation.placeNested types types.size d.part p)
        (.start first) = .ok p ∧
      Layout.Comes ⟨before ++ [d], types⟩ first ⟨[], before.length⟩ p ∧
      Collation.placeNested types types.size d.part p = .ok q ∧ slots = q.slots.reverse := by
  rw [collate_eq, map_eq_ok_iff, List.foldlM_append] at h
  obtain ⟨q, hq, rfl⟩ := h
  obtain ⟨p, hp, hq⟩ := bind_eq_ok_iff.1 hq
  rw [List.foldlM_cons, bind_eq_ok_iff] at hq
  obtain ⟨q', hq', hq⟩ := hq
  cases hq
  have hfold : (((before ++ [d]).map (·.part)).take before.length).foldlM
      (fun p part => Collation.placeNested types types.size part p) (.start first) = .ok p := by
    simpa [List.foldlM_map] using hp
  have hcomes : Layout.Comes ⟨before ++ [d], types⟩ first ⟨[], before.length⟩ p :=
    run_of_foldlM_take [] (fun i _ hi _ _ hq => run_of_placeNested (x := ⟨[], i⟩) hi hq)
      (by simp) hfold
  exact ⟨p, q, hp, hcomes, hq', rfl⟩

end

section

variable {types : TypeTable} {before : List Declaration} {a b : Declaration} {base : String}
  {n m : Nat} {elem : TypeInfo} {first : Word} {as bs : List Slot}

/-- Two layouts with one array at the end, longer in the second. Packing begins the array alike for
both, in a slot without claimed bytes. After the elements of the shorter array, it closes the slots
of the first layout, and goes on with the other elements for the second. -/
theorem Layout.exists_shared (hlabel : a.label = b.label)
    (ha : types.SmallArray a.typeId base n elem) (hb : types.SmallArray b.typeId base m elem)
    (hle : n ≤ m) (hA : Layout.collate ⟨before ++ [a], types⟩ first = .ok as)
    (hB : Layout.collate ⟨before ++ [b], types⟩ first = .ok bs) :
    ∃ room r s older qA qB, r.Numbered first ∧ r.slots = s :: older ∧ s.reserved = 0 ∧
      Tiles Entry.offset Entry.stop 0 0 s.entries ∧
      ((List.range' 0 n).map (.element b.label base)).foldlM
        (fun q part => Collation.placeNested types room part q) r = .ok qA ∧
      ((List.range' n (m - n)).map (.element b.label base)).foldlM
        (fun q part => Collation.placeNested types room part q) qA = .ok qB ∧
      as = qA.close.slots.reverse ∧ bs = qB.close.slots.reverse := by
  have ha' : types.SmallArray a.part.typeId base n elem := ha
  have hb' : types.SmallArray b.part.typeId base m elem := hb
  obtain ⟨p, q, hp, hcomes, hq, rfl⟩ := exists_comes_concat hA
  obtain ⟨p', q', hp', -, hq', rfl⟩ := exists_comes_concat hB
  cases hp.symm.trans hp'
  obtain ⟨room, r, qA, hroom, ho, harrive, hfoldA, rfl⟩ := ha'.apart hq
  obtain ⟨room', r', qB, hroom', ho', -, hfoldB, rfl⟩ := hb'.apart hq'
  cases Nat.succ.inj (hroom.symm.trans hroom')
  cases ho.symm.trans ho'
  have hstart := hcomes.tail (.enter (partAt_concat types before a) harrive)
  obtain ⟨s, older, hr, h0⟩ := ha'.untouched harrive
  have hempty := Comes.tiles_of_untouched hstart s (by rw [hr]; exact List.mem_cons_self) h0
  have hname : a.part.name = b.part.name := hlabel
  have hrange : List.range' 0 m = List.range' 0 n ++ List.range' n (m - n) := by
    have happend := List.range'_append_1 (s := 0) (m := n) (n := m - n)
    rw [Nat.zero_add, Nat.add_sub_cancel' hle] at happend
    exact happend.symm
  rw [hname] at hfoldA
  rw [hrange, List.map_append, List.foldlM_append] at hfoldB
  obtain ⟨qA', hqA', hfoldB⟩ := bind_eq_ok_iff.1 hfoldB
  cases hfoldA.symm.trans hqA'
  exact ⟨room, r, s, older, qA, qB, Comes.numbered hstart, hr, h0, hempty, hfoldA, hfoldB, rfl, rfl⟩

/-- If the last declaration is an array of small values and gets longer, comparing the layouts shows
the new elements, one by one and in order, each against a gap, and nothing else. They lie where
their numbers say, and the values before them stay where they are. -/
theorem collate_lengthened (hlabel : a.label = b.label)
    (ha : types.SmallArray a.typeId base n elem) (hb : types.SmallArray b.typeId base m elem)
    (hle : n ≤ m) (hA : Layout.collate ⟨before ++ [a], types⟩ first = .ok as)
    (hB : Layout.collate ⟨before ++ [b], types⟩ first = .ok bs) :
    ∃ k pairs, Comparison.diff ⟨⟨before ++ [a], types⟩, ⟨before ++ [b], types⟩, first, true⟩ =
        .ok pairs ∧
      located bs = located as ++ elem.elementsFrom b.label base (first.val + k) n (m - n) ∧
      ShowAdded (changedSpans pairs) (elem.elementsFrom b.label base (first.val + k) n (m - n)) ∧
      (changedSpans pairs).length = m - n := by
  obtain ⟨room, r, s, older, qA, qB, hnumbered, hr, h0, hempty, hfoldA, hfoldB, rfl, rfl⟩ :=
    Layout.exists_shared hlabel ha hb hle hA hB
  have hnone := Packing.hasElements_zero hr h0 hempty elem b.label base
  have hreached := hb.hasElements hnone hfoldA
  rw [Nat.zero_add] at hreached
  have hnumberedA : qA.Numbered first :=
    foldlM_keeps (fun _ _ _ _ hc hc' => hc.placeNested hc') hnumbered hfoldA
  have haddsA := hb.adds hnone hnumbered hr (h0 ▸ Nat.zero_le _) hfoldA
  -- The slots of the shorter array end in `u`, which the longer one goes on with.
  obtain ⟨u, us, hu, htiles, hreserved⟩ := haddsA.newest (h0.symm ▸ hempty)
  have haddsB := hb.adds hreached hnumberedA hu hreserved hfoldB
  obtain ⟨hlocated, hshow⟩ := haddsB.showAdded hu htiles (hb.of_mem_elementsFrom _ _ _ _)
  have hpairs : ∃ pairs, align true qA.close.slots.reverse qB.close.slots.reverse = .ok pairs :=
    exists_align (fun _ _ => Layout.index_of_collate hA) (fun _ _ => Layout.index_of_collate hB)
      (.inr rfl)
  obtain ⟨pairs, halign⟩ := hpairs
  have hdiff := Comparison.diff_eq_ok (c := ⟨_, _, _, true⟩) hA hB halign
  obtain ⟨-, -, rfl⟩ := align_eq_ok_iff.1 halign
  refine ⟨older.length, _, hdiff, hlocated, hshow, ?_⟩
  have hlength := congrArg List.length hshow.shown
  rwa [List.length_map, List.length_map, TypeInfo.elementsFrom, List.length_map,
    List.length_range'] at hlength

end

/-- An array of which two elements fit in a slot. The first new element goes behind the last of the
three old ones, and the others go to new slots. -/
theorem collate_lengthened_onward :
    let types : TypeTable := .ofList [("t_bool", .value "bool" 1),
      ("t_uint96", .value "uint96" 12),
      ("t_array(t_uint96)3", .fixedArray "uint96[3]" 64 "t_uint96"),
      ("t_array(t_uint96)7", .fixedArray "uint96[7]" 128 "t_uint96")]
    let before : List Declaration := [.bare "a" "t_bool"]
    let a : Declaration := .bare "xs" "t_array(t_uint96)3"
    let b : Declaration := .bare "xs" "t_array(t_uint96)7"
    let elem : TypeInfo := .value "uint96" 12
    ∃ as bs k pairs, Layout.collate ⟨before ++ [a], types⟩ .zero = .ok as ∧
      Layout.collate ⟨before ++ [b], types⟩ .zero = .ok bs ∧
      (located as).map (fun v => (v.1, v.2.name, v.2.offset)) =
        [(0, "a", 0), (1, "xs[0]", 0), (1, "xs[1]", 12), (2, "xs[2]", 0)] ∧
      (located bs).map (fun v => (v.1, v.2.name, v.2.offset)) =
        [(0, "a", 0), (1, "xs[0]", 0), (1, "xs[1]", 12), (2, "xs[2]", 0), (2, "xs[3]", 12),
          (3, "xs[4]", 0), (3, "xs[5]", 12), (4, "xs[6]", 0)] ∧
      Comparison.diff ⟨⟨before ++ [a], types⟩, ⟨before ++ [b], types⟩, .zero, true⟩ = .ok pairs ∧
      located bs = located as ++ elem.elementsFrom "xs" "t_uint96" k 3 4 ∧
      ShowAdded (changedSpans pairs) (elem.elementsFrom "xs" "t_uint96" k 3 4) ∧
      (changedSpans pairs).length = 4 := by
  intro types before a b elem
  have hA : ∃ as, Layout.collate ⟨before ++ [a], types⟩ .zero = .ok as ∧
      (located as).map (fun v => (v.1, v.2.name, v.2.offset)) =
        [(0, "a", 0), (1, "xs[0]", 0), (1, "xs[1]", 12), (2, "xs[2]", 0)] := by
    rw [Layout.collate_eq]
    exact ⟨_, rfl, rfl⟩
  have hB : ∃ bs, Layout.collate ⟨before ++ [b], types⟩ .zero = .ok bs ∧
      (located bs).map (fun v => (v.1, v.2.name, v.2.offset)) =
        [(0, "a", 0), (1, "xs[0]", 0), (1, "xs[1]", 12), (2, "xs[2]", 0), (2, "xs[3]", 12),
          (3, "xs[4]", 0), (3, "xs[5]", 12), (4, "xs[6]", 0)] := by
    rw [Layout.collate_eq]
    exact ⟨_, rfl, rfl⟩
  obtain ⟨as, hA, hvaluesA⟩ := hA
  obtain ⟨bs, hB, hvaluesB⟩ := hB
  have hwhole : ∃ shape, elem.shape "t_uint96" = .ok shape ∧ shape.isComposite = false :=
    ⟨.value, by decide, by decide⟩
  have ha : types.SmallArray a.typeId "t_uint96" 3 elem :=
    ⟨⟨.fixedArray "uint96[3]" 64 "t_uint96", by decide, by decide, by decide⟩, by decide, hwhole,
      by decide, by decide⟩
  have hb : types.SmallArray b.typeId "t_uint96" 7 elem :=
    ⟨⟨.fixedArray "uint96[7]" 128 "t_uint96", by decide, by decide, by decide⟩, by decide, hwhole,
      by decide, by decide⟩
  have hlabel : a.label = b.label := rfl
  obtain ⟨k, pairs, hdiff, hadded, hshow, hcount⟩ :=
    collate_lengthened hlabel ha hb (by decide) hA hB
  exact ⟨as, bs, _, pairs, hA, hB, hvaluesA, hvaluesB, hdiff, hadded, hshow, hcount⟩

end SlotLayout
