import SlotLayout.Proofs.Results
import SlotLayout.Proofs.Segments

/-!
# Alignment of well-formed slots

What the stretches of two aligned slots say of every byte (`SlotPair.Exact`), and that nothing is
cut where no value begins or ends (`SlotPair.Coarsest`). Both hold for a pair of well-formed slots
(`Slot.pairWith_exact`, `Slot.pairWith_coarsest`), hence for two lists of slots (`align_exact`),
whose alignment pairs them by position (`align_eq_ok_iff`, `getElem?_pairUp`).
-/

namespace SlotLayout

/-! ## Pairs of slots -/

/-- A side of the stretch `u`, which has `byte` in it: the value over the byte or, if there is none,
a gap that no value reaches into. Either has the whole stretch in it. -/
def Segment.Shows (g : Segment) (es : List Entry) (u : Span) (byte : Nat) : Prop :=
  g.offset ≤ u.start ∧ u.stop ≤ g.stop ∧
    ((∃ e ∈ es, e.Covers byte ∧ g = .ofEntry e) ∨ (∀ e ∈ es, ¬ e.Covers byte) ∧ g.Free es)

/-- The stretches of a pair tile the bytes that either slot claims, show for each of them what the
two slots have there, and are changed where the sides differ in name or in normalized label. -/
structure SlotPair.Exact (p : SlotPair) (a b : Slot) : Prop where
  reserved_a : p.reservedA = a.reserved
  reserved_b : p.reservedB = b.reserved
  tiles : Tiles Span.start Span.stop 0 (max a.reserved b.reserved) p.spans
  shows : ∀ byte < max a.reserved b.reserved,
    ∃ u, covering Span.start Span.stop byte p.spans = [u] ∧
      u.a.Shows a.entries u byte ∧ u.b.Shows b.entries u byte
  changed_iff : ∀ u ∈ p.spans, u.changed = true ↔
    u.a.name ≠ u.b.name ∨ Label.normalize u.a.typeLabel ≠ Label.normalize u.b.typeLabel

/-- A range meets the bytes of a value only if it lies within them. -/
def Entry.Respects (e : Entry) (r : Nat × Nat) : Prop :=
  e.stop ≤ r.1 ∨ r.2 ≤ e.offset ∨ (e.offset ≤ r.1 ∧ r.2 ≤ e.stop)

/-- The stretches of a pair are not empty, and they are cut exactly where a value of either slot
begins or ends. Every other tiling whose ranges lie within or outside of each value is finer. -/
structure SlotPair.Coarsest (p : SlotPair) (a b : Slot) : Prop where
  proper : ∀ u ∈ p.spans, u.start < u.stop
  cut : ∀ n, (n = 0 ∨ ∃ u ∈ p.spans, u.stop = n) ↔ n = 0 ∨ n = max a.reserved b.reserved ∨
    ∃ e ∈ a.entries ++ b.entries, e.offset = n ∨ e.stop = n
  finer : ∀ rs : List (Nat × Nat), Tiles Prod.fst Prod.snd 0 (max a.reserved b.reserved) rs →
    (∀ r ∈ rs, r.1 < r.2) → (∀ r ∈ rs, ∀ e ∈ a.entries ++ b.entries, e.Respects r) →
      ∀ r ∈ rs, ∃ u ∈ p.spans, u.start ≤ r.1 ∧ r.2 ≤ u.stop

theorem Segment.sameAs_iff (s t : Segment) :
    s.sameAs t = true ↔
      s.name = t.name ∧ Label.normalize s.typeLabel = Label.normalize t.typeLabel := by
  simp [Segment.sameAs, sameDeclaration]

/-- A segment of a well-formed slot that has a byte's stretch in it shows the byte. -/
theorem Segment.shows_of_mem {s : Slot} {span byte : Nat} {g : Segment} {u : Span}
    (h : s.WellFormed) (hs : s.reserved ≤ span) (hg : g ∈ s.segments span)
    (hu : u.start ≤ byte ∧ byte < u.stop) (h₁ : g.offset ≤ u.start) (h₂ : u.stop ≤ g.stop) :
    g.Shows s.entries u byte := by
  have hbyte : g.offset ≤ byte ∧ byte < g.stop := by omega
  refine ⟨h₁, h₂, ?_⟩
  by_cases he : ∃ e ∈ s.entries, e.Covers byte
  · obtain ⟨e, he, hcov⟩ := he
    have hmem : Segment.ofEntry e ∈ s.segments span := ofEntry_mem_segmentsFrom he
    exact .inl ⟨e, he, hcov, (Slot.tiles_segments h hs).unique hg hbyte hmem hcov⟩
  · have hnone : ∀ e ∈ s.entries, ¬ e.Covers byte := fun e he' hcov => he ⟨e, he', hcov⟩
    rcases Slot.mem_segments h hs hg with ⟨e, he', rfl⟩ | hfree
    · exact absurd hbyte (hnone e he')
    · exact .inr ⟨hnone, hfree⟩

namespace Slot

variable {a b : Slot}

theorem tiles_pairWith (ha : a.WellFormed) (hb : b.WellFormed) :
    Tiles Span.start Span.stop 0 (max a.reserved b.reserved) (a.pairWith b).spans :=
  (tiles_map _).2 (tiles_sweep (tiles_segments ha (Nat.le_max_left ..)).covers
    (tiles_segments hb (Nat.le_max_right ..)).covers)

/-- Every stretch of a pair comes from a piece of the sweep, which lies within its segments. -/
theorem within_pairWith (ha : a.WellFormed) (hb : b.WellFormed) {u : Span}
    (hu : u ∈ (a.pairWith b).spans) :
    (⟨u.start, u.stop, u.a, u.b⟩ : Piece Nat Segment).Within Segment.offset Segment.stop
      (a.segments (max a.reserved b.reserved)) (b.segments (max a.reserved b.reserved)) := by
  obtain ⟨p, hp, rfl⟩ := List.mem_map.1 hu
  exact sweep_within (tiles_segments ha (Nat.le_max_left ..)).covers
    (tiles_segments hb (Nat.le_max_right ..)).covers p hp

theorem changed_pairWith {u : Span} (hu : u ∈ (a.pairWith b).spans) :
    u.changed = !u.a.sameAs u.b := by
  obtain ⟨p, -, rfl⟩ := List.mem_map.1 hu
  rfl

theorem pairWith_exact (ha : a.WellFormed) (hb : b.WellFormed) : (a.pairWith b).Exact a b where
  reserved_a := rfl
  reserved_b := rfl
  tiles := tiles_pairWith ha hb
  shows byte hbyte := by
    obtain ⟨u, hu⟩ := (tiles_pairWith ha hb).covering_eq_singleton (Nat.zero_le byte) hbyte
    obtain ⟨hmem, hin⟩ := of_covering_eq_singleton hu
    have hw := within_pairWith ha hb hmem
    exact ⟨u, hu,
      Segment.shows_of_mem ha (Nat.le_max_left ..) hw.mem_a hin hw.start_a hw.stop_a,
      Segment.shows_of_mem hb (Nat.le_max_right ..) hw.mem_b hin hw.start_b hw.stop_b⟩
  changed_iff u hu := by
    rw [changed_pairWith hu, Bool.not_eq_true', ← Bool.not_eq_true, Segment.sameAs_iff,
      Classical.not_and_iff_not_or_not]

theorem cut_pairWith (ha : a.WellFormed) (hb : b.WellFormed) (n : Nat) :
    (n = 0 ∨ ∃ u ∈ (a.pairWith b).spans, u.stop = n) ↔ n = 0 ∨ n = max a.reserved b.reserved ∨
      ∃ e ∈ a.entries ++ b.entries, e.offset = n ∨ e.stop = n := by
  have hA : a.reserved ≤ max a.reserved b.reserved := Nat.le_max_left ..
  have hB : b.reserved ≤ max a.reserved b.reserved := Nat.le_max_right ..
  have hsweep := cut_sweep (tiles_segments ha hA).covers (tiles_segments hb hB).covers n
  have hspans : (∃ u ∈ (a.pairWith b).spans, u.stop = n) ↔
      ∃ p ∈ sweep Segment.stop 0 (a.segments (max a.reserved b.reserved))
        (b.segments (max a.reserved b.reserved)), p.stop = n := by
    simp only [pairWith, List.mem_map, exists_exists_and_eq_and]
    rfl
  have happ : (∃ e ∈ a.entries ++ b.entries, e.offset = n ∨ e.stop = n) ↔
      (∃ e ∈ a.entries, e.offset = n ∨ e.stop = n) ∨
        ∃ e ∈ b.entries, e.offset = n ∨ e.stop = n := by
    simp only [List.mem_append, or_and_right, exists_or]
  rw [hspans, hsweep, happ, or_or_distrib_left, cut_segments ha hA, cut_segments hb hB,
    ← or_or_distrib_left, ← or_or_distrib_left]

/-- Where all values have bytes, all segments have. -/
theorem ahead_segments {s : Slot} {span : Nat} (h : s.WellFormed) (hs : s.reserved ≤ span)
    (hsize : ∀ e ∈ s.entries, 0 < e.size) :
    Ahead Segment.offset Segment.stop 0 (s.segments span) := by
  intro g hg
  have hpos : 0 < g.size := by
    rcases mem_segments h hs hg with ⟨e, he, rfl⟩ | ⟨-, hpos, -⟩
    · exact hsize e he
    · exact hpos
  have hlt : g.offset < g.stop := Nat.lt_add_of_pos_right hpos
  exact ⟨hlt, Nat.zero_lt_of_lt hlt⟩

theorem pairWith_coarsest (ha : a.WellFormed) (hb : b.WellFormed)
    (hsize : ∀ e ∈ a.entries ++ b.entries, 0 < e.size) : (a.pairWith b).Coarsest a b where
  proper u hu := by
    obtain ⟨p, hp, rfl⟩ := List.mem_map.1 hu
    exact sweep_proper (tiles_segments ha (Nat.le_max_left ..)).covers
      (tiles_segments hb (Nat.le_max_right ..)).covers
      (ahead_segments ha (Nat.le_max_left ..) fun e he => hsize e (List.mem_append_left _ he))
      (ahead_segments hb (Nat.le_max_right ..) fun e he => hsize e (List.mem_append_right _ he))
      p hp
  cut := cut_pairWith ha hb
  finer rs hrs hproper hresp r hr := by
    have hle := hrs.range_le r hr
    have hlt := hproper r hr
    obtain ⟨u, hu⟩ := (tiles_pairWith ha hb).covering_eq_singleton (Nat.zero_le r.1)
      (show r.1 < max a.reserved b.reserved by omega)
    obtain ⟨hmem, hstart, hstop⟩ := of_covering_eq_singleton hu
    refine ⟨u, hmem, hstart, Nat.le_of_not_lt fun hin => ?_⟩
    -- The stretch ends inside the range, so a value begins or ends there.
    rcases (cut_pairWith ha hb u.stop).1 (.inr ⟨u, hmem, rfl⟩) with h | h | ⟨e, he, h⟩
    · omega
    · omega
    · have := e.offset_le_stop
      have := hresp r hr e he
      unfold Entry.Respects at this
      omega

end Slot

/-! ## Lists of slots -/

/-- Slots are paired by position, and where one side has none, a blank slot stands in. -/
theorem getElem?_pairUp (as bs : List Slot) (i : Nat) : (pairUp as bs)[i]? =
    match as[i]?, bs[i]? with
    | some a, some b => some (a, b)
    | some a, none => some (a, .blank a.index)
    | none, some b => some (.blank b.index, b)
    | none, none => none := by
  induction as, bs using pairUp.induct generalizing i with
  | case1 a as b bs ih =>
    rw [pairUp]
    cases i with
    | zero => rfl
    | succ i => exact ih i
  | case2 as =>
    rw [pairUp, List.getElem?_map]
    cases as[i]? <;> rfl
  | case3 bs hbs =>
    rw [pairUp.eq_3 _ hbs, List.getElem?_map]
    cases bs[i]? <;> rfl

theorem length_pairUp (as bs : List Slot) : (pairUp as bs).length = max as.length bs.length := by
  induction as, bs using pairUp.induct with
  | case1 a as b bs ih => rw [pairUp, List.length_cons, ih, List.length_cons, List.length_cons,
      Nat.add_max_add_right]
  | case2 as => simp [pairUp]
  | case3 bs hbs => simp [pairUp.eq_3 _ hbs]

/-- Of lists with related slots all pairs are related. -/
theorem forall_mem_pairUp {R : Slot → Slot → Prop} {as bs : List Slot} (h : List.Forall₂ R as bs) :
    ∀ p ∈ pairUp as bs, R p.1 p.2 := by
  induction h with
  | nil => exact nofun
  | cons hab _ ih => exact List.forall_mem_cons.2 ⟨hab, ih⟩

theorem Slot.alignWith_eq_ok_iff {a b : Slot} {p : SlotPair} :
    a.alignWith b = .ok p ↔ a.index = b.index ∧ p = a.pairWith b := by
  unfold Slot.alignWith
  split
  · rename_i h
    rw [Except.ok.injEq, eq_comm, iff_and_self]
    exact fun _ => h
  · rename_i h
    simp [h]

theorem mapM_alignWith (ps : List (Slot × Slot)) (pairs : List SlotPair) :
    ps.mapM (fun p => p.1.alignWith p.2) = .ok pairs ↔
      (∀ p ∈ ps, p.1.index = p.2.index) ∧ pairs = ps.map fun p => p.1.pairWith p.2 := by
  induction ps generalizing pairs with
  | nil => simp [pure, Except.pure, eq_comm]
  | cons p ps ih =>
    simp only [List.mapM_cons, bind_eq_ok_iff, pure_eq_ok_iff, ih, Slot.alignWith_eq_ok_iff,
      List.forall_mem_cons, List.map_cons]
    constructor
    · rintro ⟨q, ⟨hp, rfl⟩, qs, ⟨hps, rfl⟩, rfl⟩
      exact ⟨⟨hp, hps⟩, rfl⟩
    · rintro ⟨⟨hp, hps⟩, rfl⟩
      exact ⟨_, ⟨hp, rfl⟩, _, ⟨hps, rfl⟩, rfl⟩

/-- Lists of slots are aligned if they are equally long or may be padded and the slots at every
position have one index, and then each pair is that of the two slots at its position. -/
theorem align_eq_ok_iff {pad : Bool} {as bs : List Slot} {pairs : List SlotPair} :
    align pad as bs = .ok pairs ↔ (as.length = bs.length ∨ pad = true) ∧
      (∀ p ∈ pairUp as bs, p.1.index = p.2.index) ∧
        pairs = (pairUp as bs).map fun p => p.1.pairWith p.2 := by
  unfold align
  split
  · rename_i h
    simp [h.1, h.2]
  · rename_i h
    rw [mapM_alignWith, iff_and_self]
    intro _
    by_cases hl : as.length = bs.length
    · exact .inl hl
    · exact .inr (by simpa [hl] using h)

/-- The slot at a position of a list, or a blank one at `index` if the list ends before. -/
def slotAt (ss : List Slot) (i : Nat) (index : Word) : Slot := ss[i]?.getD (.blank index)

/-- What holds of all slots and of blank ones holds at every position. -/
theorem holds_slotAt {P : Slot → Prop} {ss : List Slot} (hblank : ∀ index, P (.blank index))
    (hs : ∀ s ∈ ss, P s) (i : Nat) (index : Word) : P (slotAt ss i index) := by
  unfold slotAt
  cases hi : ss[i]? with
  | none => exact hblank index
  | some s => exact hs s (List.mem_of_getElem? hi)

theorem wellFormed_slotAt {ss : List Slot} (hs : ∀ s ∈ ss, s.WellFormed) (i : Nat) (index : Word) :
    (slotAt ss i index).WellFormed :=
  holds_slotAt Slot.wellFormed_blank hs i index

theorem slotAt_of_pairUp {as bs : List Slot} {i : Nat} {p : Slot × Slot}
    (h : (pairUp as bs)[i]? = some p) :
    slotAt as i p.1.index = p.1 ∧ slotAt bs i p.1.index = p.2 := by
  rw [getElem?_pairUp] at h
  unfold slotAt
  cases ha : as[i]? <;> cases hb : bs[i]? <;> rw [ha, hb] at h <;> cases h <;> exact ⟨rfl, rfl⟩

/-- What holds of the slots of both sides and of blank ones holds of both slots of a pair. -/
theorem holds_of_mem_pairUp {P : Slot → Prop} {as bs : List Slot}
    (hblank : ∀ index, P (.blank index)) (ha : ∀ s ∈ as, P s) (hb : ∀ s ∈ bs, P s)
    {p : Slot × Slot} (h : p ∈ pairUp as bs) : P p.1 ∧ P p.2 := by
  obtain ⟨i, hi⟩ := List.getElem?_of_mem h
  obtain ⟨eA, eB⟩ := slotAt_of_pairUp hi
  have hA : P (slotAt as i p.1.index) := holds_slotAt hblank ha i p.1.index
  have hB : P (slotAt bs i p.1.index) := holds_slotAt hblank hb i p.1.index
  rw [eA] at hA
  rw [eB] at hB
  exact ⟨hA, hB⟩

/-- The pair at a position is that of the slots there. -/
theorem eq_pairWith_of_align {pad : Bool} {as bs : List Slot} {pairs : List SlotPair} {i : Nat}
    {p : SlotPair} (h : align pad as bs = .ok pairs) (hp : pairs[i]? = some p) :
    p = (slotAt as i p.index).pairWith (slotAt bs i p.index) := by
  obtain ⟨-, -, rfl⟩ := align_eq_ok_iff.1 h
  rw [List.getElem?_map] at hp
  obtain ⟨q, hq, rfl⟩ := Option.map_eq_some_iff.1 hp
  obtain ⟨eA, eB⟩ := slotAt_of_pairUp hq
  rw [show (q.1.pairWith q.2).index = q.1.index from rfl, eA, eB]

theorem length_of_align {pad : Bool} {as bs : List Slot} {pairs : List SlotPair}
    (h : align pad as bs = .ok pairs) : pairs.length = max as.length bs.length := by
  obtain ⟨-, -, rfl⟩ := align_eq_ok_iff.1 h
  rw [List.length_map, length_pairUp]

/-- The slots have the indices from `first` on. -/
def IndexedFrom (first : Word) (ss : List Slot) : Prop :=
  ∀ k s, ss[k]? = some s → s.index.val = first.val + k

section IndexedFrom

variable {first : Word} {as bs : List Slot} (ha : IndexedFrom first as) (hb : IndexedFrom first bs)
include ha hb

/-- The slots of two sides with one first index have equal indices where they are paired. -/
theorem index_of_pairUp {k : Nat} {q : Slot × Slot} (hq : (pairUp as bs)[k]? = some q) :
    q.1.index.val = first.val + k ∧ q.1.index = q.2.index := by
  rw [getElem?_pairUp] at hq
  split at hq
  · rename_i s t hs ht
    cases hq
    have hi := ha k s hs
    exact ⟨hi, Word.ext (hi.trans (hb k t ht).symm)⟩
  · rename_i s hs _
    cases hq
    exact ⟨ha k s hs, rfl⟩
  · rename_i t _ ht
    cases hq
    exact ⟨hb k t ht, rfl⟩
  · cases hq

/-- The slots of two sides with one first index can be aligned, unless there are more of them on one
side and no blank slots may stand in. -/
theorem exists_align {pad : Bool} (hlength : as.length = bs.length ∨ pad = true) :
    ∃ pairs, align pad as bs = .ok pairs := by
  refine ⟨_, align_eq_ok_iff.2 ⟨hlength, fun q hq => ?_, rfl⟩⟩
  obtain ⟨k, hk⟩ := List.mem_iff_getElem?.1 hq
  exact (index_of_pairUp ha hb hk).2

theorem index_of_align {pad : Bool} {pairs : List SlotPair} (h : align pad as bs = .ok pairs)
    {k : Nat} {p : SlotPair} (hk : pairs[k]? = some p) : p.index.val = first.val + k := by
  obtain ⟨-, -, rfl⟩ := align_eq_ok_iff.1 h
  rw [List.getElem?_map] at hk
  obtain ⟨q, hq, rfl⟩ := Option.map_eq_some_iff.1 hk
  exact (index_of_pairUp ha hb hq).1

end IndexedFrom

/-- Aligned lists of well-formed slots have a pair for each position of the longer list. It says of
every byte what the two slots there have, and it is the coarsest to do so if no value is empty. -/
theorem align_exact {pad : Bool} {as bs : List Slot} {pairs : List SlotPair}
    (ha : ∀ s ∈ as, s.WellFormed) (hb : ∀ s ∈ bs, s.WellFormed)
    (h : align pad as bs = .ok pairs) :
    pairs.length = max as.length bs.length ∧ ∀ i p, pairs[i]? = some p →
      p.Exact (slotAt as i p.index) (slotAt bs i p.index) ∧
        ((∀ e ∈ (slotAt as i p.index).entries ++ (slotAt bs i p.index).entries, 0 < e.size) →
          p.Coarsest (slotAt as i p.index) (slotAt bs i p.index)) := by
  refine ⟨length_of_align h, fun i p hp => ?_⟩
  have hA := wellFormed_slotAt ha i p.index
  have hB := wellFormed_slotAt hb i p.index
  have hexact := Slot.pairWith_exact hA hB
  have hcoarsest := Slot.pairWith_coarsest hA hB
  rw [← eq_pairWith_of_align h hp] at hexact hcoarsest
  exact ⟨hexact, hcoarsest⟩

/-- A pair without empty values, and a slot with an empty one that is paired with a blank slot. -/
theorem align_exact_padded :
    let s : Slot := ⟨.zero, 17, 17, [⟨"a", "t_uint128", "uint128", .inplace, 0, 16⟩,
      ⟨"b", "t_bool", "bool", .inplace, 16, 1⟩]⟩
    let t : Slot := ⟨.zero, 20, 20, [⟨"a", "t_uint128", "uint128", .inplace, 0, 16⟩,
      ⟨"c", "t_uint32", "uint32", .inplace, 16, 4⟩]⟩
    let s' : Slot := ⟨⟨1, by decide⟩, 32, 4, [⟨"d", "t_uint32", "uint32", .inplace, 0, 4⟩,
      ⟨"e", "t_empty", "Empty", .inplace, 4, 0⟩]⟩
    ∃ p q, align true [s, s'] [t] = .ok [p, q] ∧ p.Exact s t ∧ p.Coarsest s t ∧
      q.Exact s' (.blank s'.index) := by
  intro s t s'
  have h : align true [s, s'] [t] = .ok [s.pairWith t, s'.pairWith (.blank s'.index)] :=
    align_eq_ok_iff.2 ⟨.inr rfl, by decide, rfl⟩
  obtain ⟨-, hall⟩ := align_exact (by decide) (by decide) h
  obtain ⟨hexact, hcoarsest⟩ := hall 0 _ rfl
  exact ⟨_, _, h, hexact, hcoarsest (by decide), (hall 1 _ rfl).1⟩

end SlotLayout
