import SlotLayout.Proofs.Alignment
import SlotLayout.Proofs.Places

/-!
# Counts of at most 64 bits

Byte counts of types have at most 64 bits, and nothing else is asked of them here: a value may be
larger than a slot or have no bytes at all. No sum that is formed while a layout is packed has more
bits. A value goes into a slot with enough bytes left, or into one without any claimed, where its
own size is the sum; and content and unclaimed bytes together never grow beyond the larger of a slot
and its first value (`Slot.InCount`).

Where two slots are aligned, sums are ends of values and of gaps. `Slot.pairWith?` is
`Slot.pairWith` with every sum and difference checked. It gives the same wherever the values lie
(`Slot.pairWith?_eq`), hence for slots in count.
-/

namespace SlotLayout

open Numeral (countBound)

/-! ## Slots in count -/

/-- What a slot counts has at most 64 bits, and so do the ends of its values. A slot without claimed
bytes has no content. -/
structure Slot.InCount (s : Slot) : Prop where
  reserved_lt : s.reserved < countBound
  content_lt : s.filled + s.remaining < countBound
  filled_eq : s.reserved = 0 → s.filled = 0
  stop_lt : ∀ e ∈ s.entries, e.stop < countBound

theorem TypeInfo.size_lt {info : TypeInfo} (h : info.byteCount < countBound) :
    info.size < countBound := by
  have hslot : slotSize < countBound := by decide
  unfold size
  split <;> assumption

theorem TypeInfo.filled_le (info : TypeInfo) : info.filled ≤ info.size := by
  unfold filled
  split <;> omega

namespace Slot

theorem inCount_blank (index : Word) : (blank index).InCount where
  reserved_lt := by
    show 0 < countBound
    decide
  content_lt := by
    show 0 + (slotSize - 0) < countBound
    decide
  filled_eq _ := rfl
  stop_lt := nofun

namespace InCount

variable {s : Slot}

/-- Closing may take back bytes that a large value has claimed, but not its content. -/
theorem close (h : s.InCount) : s.close.InCount where
  reserved_lt := by
    show slotSize < countBound
    decide
  content_lt := by
    have hcontent := h.content_lt
    show s.filled + (slotSize - slotSize) < countBound
    omega
  filled_eq h0 := by
    have hslot : slotSize ≠ 0 := by decide
    exact absurd h0 hslot
  stop_lt := h.stop_lt

theorem place {part : Part} {info : TypeInfo} (h : s.InCount) (hsize : info.size < countBound)
    (hroom : s.reserved = 0 ∨ info.size ≤ s.remaining) : (s.place part info).InCount := by
  have hslot : slotSize < countBound := by decide
  have hfilled := info.filled_le
  obtain ⟨hreserved, hcontent, hempty, hstop⟩ := h
  unfold remaining at hcontent hroom
  have hsum : s.reserved + info.size < countBound := by omega
  refine ⟨hsum, ?_, ?_, ?_⟩
  · show s.filled + info.filled + (slotSize - (s.reserved + info.size)) < countBound
    omega
  · show s.reserved + info.size = 0 → s.filled + info.filled = 0
    omega
  · intro e he
    rcases List.mem_append.1 he with he | he
    · exact hstop e he
    · rw [List.mem_singleton.1 he]
      exact hsum

end InCount

end Slot

/-- Wherever packing comes to, the slots are in count. -/
theorem Layout.Comes.inCount {layout : Layout} {first : Word} {x : Place} {p : Packing}
    (hcounts : ∀ e ∈ layout.types.entries, e.2.byteCount < countBound)
    (h : layout.Comes first x p) : ∀ s ∈ p.slots, s.InCount := by
  refine h.slots Slot.inCount_blank ?_ fun _ hs => hs.close
  intro s part info hi hroom hs
  exact hs.place (TypeInfo.size_lt (hcounts _ (TypeTable.mem_of_get? hi))) hroom

/-! ## Checked arithmetic -/

/-- The sum of two counts, if it has at most 64 bits. -/
def addCounts? (m n : Nat) : Option Nat := if m + n < countBound then some (m + n) else none

/-- The difference of two counts, if there is one. -/
def subCounts? (m n : Nat) : Option Nat := if n ≤ m then some (m - n) else none

theorem addCounts?_of_lt {m n : Nat} (h : m + n < countBound) : addCounts? m n = some (m + n) :=
  if_pos h

theorem subCounts?_of_le {m n : Nat} (h : n ≤ m) : subCounts? m n = some (m - n) := if_pos h

/-- The offset after the last byte of a segment, if it is a count. -/
def Segment.stop? (s : Segment) : Option Nat := addCounts? s.offset s.size

/-- The gap from the byte `covered` up to `start`, if it lies ahead. -/
def gapBefore? (covered start : Nat) : Option (List Segment) :=
  if covered < start then do return [.gap covered (← subCounts? start covered)] else some []

/-- The segments of values up to `span`, with sums and differences checked. -/
def segmentsFrom? (span covered : Nat) : List Entry → Option (List Segment)
  | [] => gapBefore? covered span
  | e :: es => do
    let gap ← gapBefore? covered e.offset
    let stop ← addCounts? e.offset e.size
    let rest ← segmentsFrom? span (max covered stop) es
    return gap ++ .ofEntry e :: rest

/-- The sweep of two lists of segments, with the sums for their ends checked. -/
def sweep? (start : Nat) : List Segment → List Segment → Option (List (Piece Nat Segment))
  | a :: as, b :: bs => do
    let stopA ← a.stop?
    let stopB ← b.stop?
    match compare stopA stopB with
    | .lt => do return ⟨start, stopA, a, b⟩ :: (← sweep? stopA as (b :: bs))
    | .gt => do return ⟨start, stopB, a, b⟩ :: (← sweep? stopB (a :: as) bs)
    | .eq => do return ⟨start, stopA, a, b⟩ :: (← sweep? stopA as bs)
  | [], _ => some []
  | _ :: _, [] => some []
termination_by as bs => as.length + bs.length

/-- The pair of two slots, if all sums and differences on the way are counts. -/
def Slot.pairWith? (a b : Slot) : Option SlotPair := do
  let span := max a.reserved b.reserved
  let as ← segmentsFrom? span 0 a.entries
  let bs ← segmentsFrom? span 0 b.entries
  let pieces ← sweep? 0 as bs
  return ⟨a.index, a.reserved, b.reserved, a.filled, b.filled, pieces.map (.ofPiece a.index)⟩

theorem gapBefore?_eq (covered start : Nat) : gapBefore? covered start =
    some (if covered < start then [.gap covered (start - covered)] else []) := by
  unfold gapBefore?
  split
  · rw [subCounts?_of_le (Nat.le_of_lt ‹_›)]
    rfl
  · rfl

/-- Values with ends in count have segments. -/
theorem segmentsFrom?_eq {es : List Entry} (h : ∀ e ∈ es, e.stop < countBound)
    (span covered : Nat) : segmentsFrom? span covered es = some (segmentsFrom span covered es) := by
  induction es generalizing covered with
  | nil => exact gapBefore?_eq covered span
  | cons e es ih =>
    obtain ⟨he, hes⟩ := List.forall_mem_cons.1 h
    rw [segmentsFrom?, gapBefore?_eq, addCounts?_of_lt he]
    show (do
      let rest ← segmentsFrom? span (max covered e.stop) es
      return _ ++ Segment.ofEntry e :: rest) = _
    rw [ih hes]
    rfl

/-- A gap ends where a value starts or at the span. -/
theorem stop_lt_of_mem_segmentsFrom {es : List Entry} (h : ∀ e ∈ es, e.stop < countBound)
    {span : Nat} (hspan : span < countBound) (covered : Nat) :
    ∀ g ∈ segmentsFrom span covered es, g.stop < countBound := by
  have hgap : ∀ (lo hi : Nat), hi < countBound →
      ∀ g ∈ (if lo < hi then [Segment.gap lo (hi - lo)] else []), g.stop < countBound := by
    intro lo hi hlt g hg
    split at hg
    · rw [List.mem_singleton.1 hg]
      show lo + (hi - lo) < countBound
      omega
    · cases hg
  induction es generalizing covered with
  | nil => exact hgap covered span hspan
  | cons e es ih =>
    obtain ⟨he, hes⟩ := List.forall_mem_cons.1 h
    have hoffset : e.offset < countBound := Nat.lt_of_le_of_lt e.offset_le_stop he
    intro g hg
    rcases List.mem_append.1 hg with hg | hg
    · exact hgap covered e.offset hoffset g hg
    · rcases List.mem_cons.1 hg with rfl | hg
      · exact he
      · exact ih hes _ g hg

/-- Segments with ends in count can be swept. -/
theorem sweep?_eq {as bs : List Segment} (ha : ∀ a ∈ as, a.stop < countBound)
    (hb : ∀ b ∈ bs, b.stop < countBound) (start : Nat) :
    sweep? start as bs = some (sweep Segment.stop start as bs) := by
  have hstop : ∀ {s : Segment}, s.stop < countBound → s.stop? = some s.stop := addCounts?_of_lt
  induction start, as, bs using sweep.induct Segment.stop with
  | case1 lo a as b bs hlt ih =>
    have hrest := ih (List.forall_mem_cons.1 ha).2 hb
    simp [sweep?, sweep, hstop (ha a List.mem_cons_self), hstop (hb b List.mem_cons_self), hlt,
      hrest]
  | case2 lo a as b bs hgt ih =>
    have hrest := ih ha (List.forall_mem_cons.1 hb).2
    simp [sweep?, sweep, hstop (ha a List.mem_cons_self), hstop (hb b List.mem_cons_self), hgt,
      hrest]
  | case3 lo a as b bs heq ih =>
    have hrest := ih (List.forall_mem_cons.1 ha).2 (List.forall_mem_cons.1 hb).2
    simp [sweep?, sweep, hstop (ha a List.mem_cons_self), hstop (hb b List.mem_cons_self), heq,
      hrest]
  | case4 lo bs => rw [sweep?, sweep]
  | case5 lo a as => rw [sweep?, sweep]

/-- Two slots are paired without a sum or difference that is no count if the bytes that they claim
and the ends of their values are counts, wherever the values lie. -/
theorem Slot.pairWith?_eq {a b : Slot} (hreserved : max a.reserved b.reserved < countBound)
    (hstop : ∀ e ∈ a.entries ++ b.entries, e.stop < countBound) :
    a.pairWith? b = some (a.pairWith b) := by
  obtain ⟨ha, hb⟩ := List.forall_mem_append.1 hstop
  have hsweep := sweep?_eq (stop_lt_of_mem_segmentsFrom ha hreserved 0)
    (stop_lt_of_mem_segmentsFrom hb hreserved 0) 0
  rw [Slot.pairWith?, segmentsFrom?_eq ha, segmentsFrom?_eq hb]
  show (do
    let pieces ← sweep? 0 _ _
    return _) = _
  rw [hsweep]
  rfl

theorem Slot.InCount.pairWith?_eq {a b : Slot} (ha : a.InCount) (hb : b.InCount) :
    a.pairWith? b = some (a.pairWith b) :=
  Slot.pairWith?_eq (Nat.max_lt.2 ⟨ha.reserved_lt, hb.reserved_lt⟩)
    (List.forall_mem_append.2 ⟨ha.stop_lt, hb.stop_lt⟩)

/-! ## Layouts in count -/

/-- However large the values of a layout are, no sum that is formed while it is packed has more than
64 bits, whether packing succeeds or comes to a value that is not taken in: the claimed bytes, the
bytes of content and the ends of all values are counts wherever it comes to. And where the slots of
two such layouts are aligned, all sums are counts and all differences exist. -/
theorem collate_inCount {layoutA layoutB : Layout}
    (hA : ∀ e ∈ layoutA.types.entries, e.2.byteCount < countBound)
    (hB : ∀ e ∈ layoutB.types.entries, e.2.byteCount < countBound) (firstA firstB : Word) :
    (∀ x p, layoutA.Comes firstA x p → ∀ s ∈ p.slots,
      s.reserved < countBound ∧ s.filled < countBound ∧ ∀ e ∈ s.entries, e.stop < countBound) ∧
    layoutA.Ends firstA (layoutA.collate firstA) ∧
    ∀ as bs, layoutA.collate firstA = .ok as → layoutB.collate firstB = .ok bs →
      ∀ q ∈ pairUp as bs, q.1.pairWith? q.2 = some (q.1.pairWith q.2) := by
  refine ⟨fun x p hp s hs => ?_, Layout.ends_collate layoutA firstA, ?_⟩
  · have hcount := hp.inCount hA s hs
    exact ⟨hcount.reserved_lt, Nat.lt_of_le_of_lt (Nat.le_add_right ..) hcount.content_lt,
      hcount.stop_lt⟩
  · intro as bs has hbs
    obtain ⟨p, hp, rfl⟩ := Layout.comes_of_collate has
    obtain ⟨q, hq, rfl⟩ := Layout.comes_of_collate hbs
    intro pair hpair
    obtain ⟨ha, hb⟩ := holds_of_mem_pairUp Slot.inCount_blank
      (fun s hs => hp.inCount hA s (List.mem_reverse.1 hs))
      (fun s hs => hq.inCount hB s (List.mem_reverse.1 hs)) hpair
    exact ha.pairWith?_eq hb

/-- A value of the largest count is closed by a struct without members, so that its slot counts
fewer bytes than it has; on the other side it is not. A value without bytes stands behind it. -/
theorem collate_inCount_largest :
    let types : TypeTable := .ofList [("t_big", .value "Big" (countBound - 1)),
      ("t_nil", .value "Nil" 0), ("t_bool", .value "bool" 1),
      ("t_struct(E)", .struct "struct E" 0 [])]
    let layoutA : Layout := ⟨[.bare "a" "t_big", .bare "e" "t_struct(E)", .bare "n" "t_nil",
      .bare "b" "t_bool"], types⟩
    let layoutB : Layout := ⟨[.bare "a" "t_big", .bare "b" "t_bool"], types⟩
    ∃ as bs, layoutA.collate .zero = .ok as ∧ layoutB.collate .zero = .ok bs ∧
      as.map (fun s => (s.reserved, s.filled, s.entries.map (·.stop))) =
        [(32, countBound - 1, [countBound - 1, 32]), (1, 1, [1])] ∧
      bs.map (fun s => (s.reserved, s.filled, s.entries.map (·.stop))) =
        [(countBound - 1, countBound - 1, [countBound - 1]), (1, 1, [1])] ∧
      (∀ x p, layoutA.Comes .zero x p → ∀ s ∈ p.slots,
        s.reserved < countBound ∧ s.filled < countBound ∧ ∀ e ∈ s.entries, e.stop < countBound) ∧
      ∀ q ∈ pairUp as bs, q.1.pairWith? q.2 = some (q.1.pairWith q.2) := by
  intro types layoutA layoutB
  have hA : ∃ as, layoutA.collate .zero = .ok as ∧
      as.map (fun s => (s.reserved, s.filled, s.entries.map (·.stop))) =
        [(32, countBound - 1, [countBound - 1, 32]), (1, 1, [1])] := by
    rw [Layout.collate_eq]
    exact ⟨_, rfl, rfl⟩
  have hB : ∃ bs, layoutB.collate .zero = .ok bs ∧
      bs.map (fun s => (s.reserved, s.filled, s.entries.map (·.stop))) =
        [(countBound - 1, countBound - 1, [countBound - 1]), (1, 1, [1])] := by
    rw [Layout.collate_eq]
    exact ⟨_, rfl, rfl⟩
  obtain ⟨as, hA, hcountsA⟩ := hA
  obtain ⟨bs, hB, hcountsB⟩ := hB
  have hcounts : ∀ e ∈ types.entries, e.2.byteCount < countBound := by decide
  obtain ⟨hsteps, -, hpairs⟩ := @collate_inCount layoutA layoutB hcounts hcounts .zero .zero
  exact ⟨as, bs, hA, hB, hcountsA, hcountsB, hsteps, hpairs as bs hA hB⟩

end SlotLayout
