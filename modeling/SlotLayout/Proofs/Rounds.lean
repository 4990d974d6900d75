import SlotLayout.Proofs.Chains
import SlotLayout.Proofs.Counts

/-!
# Sweeps round by round

A sweep can be run as a loop that counts on each side which segment it looks at. In a round it cuts
a piece off the two current segments and moves on from the one that ends first, or from both
(`Sweep.round`). Of two ends one is not later than the other, so every round moves on by one segment
on one side or on both (`Sweep.advances_of_round`), in whatever order the segments are and wherever
they end. Hence the loop is over after fewer rounds than there are segments
(`Sweep.Loops.length_lt`), and it cuts the pieces of `sweep` (`Sweep.loops_sweep`).

`align_orderly` says so of the stretches of two aligned slots and of two aligned lists of intervals,
for which neither the slots nor the intervals need to be well formed.
-/

namespace SlotLayout

namespace Sweep

/-- Where a sweep is: the numbers of the current segments of both sides, and how far it has come. -/
structure State where
  a : Nat
  b : Nat
  position : Nat

section

variable {α : Type}

/-- A round of the loop: the piece up to the nearer end of the current segments, and the state after
it. A side moves on if its segment does not end later than that of the other side. There is no round
once a side has no segments left. -/
def round (stop : α → Nat) (as bs : List α) (s : State) : Option (Piece Nat α × State) :=
  match as[s.a]?, bs[s.b]? with
  | some a, some b =>
    let n := min (stop a) (stop b)
    some (⟨s.position, n, a, b⟩, ⟨if stop a ≤ stop b then s.a + 1 else s.a,
      if stop b ≤ stop a then s.b + 1 else s.b, n⟩)
  | _, _ => none

/-- The loop is over when it has cut the pieces, one in each round. -/
inductive Loops (stop : α → Nat) (as bs : List α) : State → List (Piece Nat α) → Prop
  | finish {s : State} (h : round stop as bs s = none) : Loops stop as bs s []
  | next {s t : State} {p : Piece Nat α} {ps : List (Piece Nat α)}
      (h : round stop as bs s = some (p, t)) (hr : Loops stop as bs t ps) :
      Loops stop as bs s (p :: ps)

/-- From the segments `i` and `j` of the two sides to `i'` and `j'`, one side moves on to its next
segment, or both do. -/
def Advances (i j i' j' : Nat) : Prop :=
  i' = i + 1 ∧ j' = j ∨ i' = i ∧ j' = j + 1 ∨ i' = i + 1 ∧ j' = j + 1

/-- The piece `k` is of the segments `i k` and `j k` of the two sides. From piece to piece one side
moves on or both do, and the last piece is of the last segment of a side. -/
structure Walk (as bs : List α) (ps : List (Piece Nat α)) (i j : Nat → Nat) : Prop where
  segments : ∀ k p, ps[k]? = some p → as[i k]? = some p.a ∧ bs[j k]? = some p.b
  advances : ∀ k, k + 1 < ps.length → Advances (i k) (j k) (i (k + 1)) (j (k + 1))
  last : ∀ k, k + 1 = ps.length → i k + 1 = as.length ∨ j k + 1 = bs.length

/-- The loop from the first segments on is over, and what it has cut are the pieces. There are none
if a side has no segments, and otherwise fewer than the sides have segments together. -/
structure Orderly (stop : α → Nat) (start : Nat) (as bs : List α) (ps : List (Piece Nat α)) :
    Prop where
  loops_iff : ∀ qs, Loops stop as bs ⟨0, 0, start⟩ qs ↔ qs = ps
  eq_nil_iff : ps = [] ↔ as = [] ∨ bs = []
  length_le : as ≠ [] → bs ≠ [] → ps.length ≤ as.length + bs.length - 1
  walk : ∃ i j : Nat → Nat, i 0 = 0 ∧ j 0 = 0 ∧ Walk as bs ps i j

variable {stop : α → Nat} {as bs : List α} {s t : State} {p : Piece Nat α}
  {ps qs : List (Piece Nat α)}

/-! ## One round -/

theorem round_cases (h : round stop as bs s = some (p, t)) :
    ∃ a b, as[s.a]? = some a ∧ bs[s.b]? = some b ∧
      p = ⟨s.position, min (stop a) (stop b), a, b⟩ ∧
      t = ⟨if stop a ≤ stop b then s.a + 1 else s.a, if stop b ≤ stop a then s.b + 1 else s.b,
        min (stop a) (stop b)⟩ := by
  unfold round at h
  split at h
  · rename_i a b ha hb
    cases h
    exact ⟨a, b, ha, hb, rfl, rfl⟩
  · cases h

theorem round_eq_none_iff : round stop as bs s = none ↔ as.length ≤ s.a ∨ bs.length ≤ s.b := by
  rw [← List.getElem?_eq_none_iff, ← List.getElem?_eq_none_iff, round]
  cases as[s.a]? <;> cases bs[s.b]? <;> simp

theorem lt_of_round (h : round stop as bs s = some (p, t)) :
    s.a < as.length ∧ s.b < bs.length := by
  obtain ⟨a, b, ha, hb, -⟩ := round_cases h
  exact ⟨(List.getElem?_eq_some_iff.1 ha).1, (List.getElem?_eq_some_iff.1 hb).1⟩

/-- One of two ends is not later than the other, and both are not if they are the same. -/
theorem advances_of_round (h : round stop as bs s = some (p, t)) : Advances s.a s.b t.a t.b := by
  obtain ⟨a, b, -, -, -, rfl⟩ := round_cases h
  unfold Advances
  dsimp only
  split <;> split <;> omega

theorem drop_of_getElem? {n : Nat} {x : α} (h : as[n]? = some x) :
    as.drop n = x :: as.drop (n + 1) := by
  obtain ⟨hlt, rfl⟩ := List.getElem?_eq_some_iff.1 h
  exact List.drop_eq_getElem_cons hlt

theorem past_drop {n m : Nat} {x : α} (h : as[n]? = some x) :
    past stop m (as.drop n) = as.drop (if stop x ≤ m then n + 1 else n) := by
  rw [drop_of_getElem? h, past]
  split
  · rfl
  · exact (drop_of_getElem? h).symm

/-- A round cuts the first piece of a sweep of the segments that are left. -/
theorem sweep_of_round (h : round stop as bs s = some (p, t)) :
    sweep stop s.position (as.drop s.a) (bs.drop s.b) =
      p :: sweep stop t.position (as.drop t.a) (bs.drop t.b) := by
  obtain ⟨a, b, ha, hb, rfl, rfl⟩ := round_cases h
  have hA : stop a ≤ min (stop a) (stop b) ↔ stop a ≤ stop b := by omega
  have hB : stop b ≤ min (stop a) (stop b) ↔ stop b ≤ stop a := by omega
  rw [drop_of_getElem? ha, drop_of_getElem? hb, sweep_cons, ← drop_of_getElem? ha,
    ← drop_of_getElem? hb, past_drop ha, past_drop hb]
  simp only [hA, hB]

/-! ## All rounds -/

/-- By induction on the number of segments that are left, of which every round leaves fewer. -/
theorem loops_sweep (s : State) :
    Loops stop as bs s (sweep stop s.position (as.drop s.a) (bs.drop s.b)) := by
  cases h : round stop as bs s with
  | none =>
    have hnil : sweep stop s.position (as.drop s.a) (bs.drop s.b) = [] :=
      sweep_eq_nil_iff.2 ((round_eq_none_iff.1 h).imp List.drop_eq_nil_of_le
        List.drop_eq_nil_of_le)
    rw [hnil]
    exact .finish h
  | some r =>
    obtain ⟨p, t⟩ := r
    rw [sweep_of_round h]
    exact .next h (loops_sweep t)
termination_by as.length - s.a + (bs.length - s.b)
decreasing_by
  have hlt := lt_of_round h
  have hadvances := advances_of_round h
  unfold Advances at hadvances
  omega

/-- A piece of the segments `m` and `n` in front, from which the walk moves on. -/
theorem Walk.cons {i j : Nat → Nat} {m n : Nat} (h : Walk as bs ps i j) (ha : as[m]? = some p.a)
    (hb : bs[n]? = some p.b) (hadvances : Advances m n (i 0) (j 0))
    (hlast : ps = [] → m + 1 = as.length ∨ n + 1 = bs.length) :
    Walk as bs (p :: ps) (Nat.rec m fun k _ => i k) (Nat.rec n fun k _ => j k) where
  segments k q hq := by
    cases k with
    | zero =>
      cases hq
      exact ⟨ha, hb⟩
    | succ k => exact h.segments k q hq
  advances k hk := by
    cases k with
    | zero => exact hadvances
    | succ k => exact h.advances k (Nat.lt_of_succ_lt_succ hk)
  last k hk := by
    cases k with
    | zero => exact hlast (List.length_eq_zero_iff.1 (Nat.succ.inj hk).symm)
    | succ k => exact h.last k (Nat.succ.inj hk)

namespace Loops

theorem unique (h : Loops stop as bs s ps) (h' : Loops stop as bs s qs) : ps = qs := by
  induction h generalizing qs with
  | finish h =>
    cases h' with
    | finish => rfl
    | next h' _ =>
      rw [h] at h'
      cases h'
  | next h _ ih =>
    cases h' with
    | finish h' =>
      rw [h] at h'
      cases h'
    | next h' hr =>
      rw [h] at h'
      cases h'
      rw [ih hr]

/-- Every round brings the loop nearer to the end of a side. -/
theorem length_lt (h : Loops stop as bs s ps) (hne : ps ≠ []) :
    s.a + s.b + ps.length < as.length + bs.length := by
  induction h with
  | finish => exact absurd rfl hne
  | @next s t p ps h _ ih =>
    have hlt := lt_of_round h
    have hadvances := advances_of_round h
    unfold Advances at hadvances
    cases ps with
    | nil =>
      simp only [List.length_singleton]
      omega
    | cons q qs =>
      have hrest := ih (List.cons_ne_nil q qs)
      simp only [List.length_cons] at hrest ⊢
      omega

/-- The loop cuts no piece only if a side has no segments left. -/
theorem le_of_nil (h : Loops stop as bs s []) : as.length ≤ s.a ∨ bs.length ≤ s.b := by
  cases h with
  | finish h => exact round_eq_none_iff.1 h

/-- By induction on the rounds: the numbers of the first one stand before those of the others. -/
theorem exists_walk (h : Loops stop as bs s ps) :
    ∃ i j : Nat → Nat, i 0 = s.a ∧ j 0 = s.b ∧ Walk as bs ps i j := by
  induction h with
  | @finish s _ => exact ⟨fun _ => s.a, fun _ => s.b, rfl, rfl, nofun, nofun, nofun⟩
  | @next s t p ps h hr ih =>
    obtain ⟨i, j, hi, hj, hwalk⟩ := ih
    obtain ⟨a, b, ha, hb, hp, -⟩ := round_cases h
    have hlt := lt_of_round h
    have hadvances := advances_of_round h
    refine ⟨_, _, rfl, rfl, hwalk.cons (hp ▸ ha) (hp ▸ hb) ?_ ?_⟩
    · rw [hi, hj]
      exact hadvances
    · rintro rfl
      have hend := hr.le_of_nil
      unfold Advances at hadvances
      omega

end Loops

/-- Whatever segments the two lists have, sweeping them is orderly. -/
theorem orderly_sweep (stop : α → Nat) (start : Nat) (as bs : List α) :
    Orderly stop start as bs (sweep stop start as bs) := by
  have hloops : Loops stop as bs ⟨0, 0, start⟩ (sweep stop start as bs) := loops_sweep ⟨0, 0, start⟩
  refine ⟨fun qs => ⟨fun h => h.unique hloops, fun h => h ▸ hloops⟩, sweep_eq_nil_iff,
    fun ha hb => ?_, hloops.exists_walk⟩
  have hlt := hloops.length_lt (sweep_ne_nil stop start ha hb)
  dsimp only at hlt
  omega

end

end Sweep

/-! ## Slots and intervals -/

/-- The piece that a stretch of a slot comes from. -/
def Span.piece (u : Span) : Piece Nat Segment := ⟨u.start, u.stop, u.a, u.b⟩

/-- The piece that a stretch of storage comes from, with positions as numbers. -/
def IntervalPair.piece (v : IntervalPair) : Piece Nat Interval := ⟨v.lo, v.hi, v.a, v.b⟩

theorem Slot.map_piece_pairWith (a b : Slot) : (a.pairWith b).spans.map Span.piece =
    sweep Segment.stop 0 (a.segments (max a.reserved b.reserved))
      (b.segments (max a.reserved b.reserved)) := by
  rw [pairWith, List.map_map]
  exact List.map_id _

theorem map_piece_ofPiece (start : Word) (as bs : List Interval) :
    ((sweep Interval.stop start as bs).map .ofPiece).map IntervalPair.piece =
      sweep Interval.hi start.val as bs := by
  rw [sweep_val, List.map_map]
  rfl

/-- Two slots with one index are aligned by an orderly sweep of their segments, in whatever order
their values are, even where they lie over each other or end behind the claimed bytes. If the ends
of the values are counts, as the claimed bytes are, so is every sum on the way, and every difference
exists. Two lists of intervals that are not empty, whatever is in them, are aligned by an orderly
sweep of the lists with gaps put at their ends. -/
theorem align_orderly :
    (∀ a b : Slot, a.index = b.index → max a.reserved b.reserved < Numeral.countBound →
      (∀ e ∈ a.entries ++ b.entries, e.stop < Numeral.countBound) →
      ∃ p, a.alignWith b = .ok p ∧ a.pairWith? b = some p ∧
        Sweep.Orderly Segment.stop 0 (a.segments (max a.reserved b.reserved))
          (b.segments (max a.reserved b.reserved)) (p.spans.map Span.piece)) ∧
    ∀ (is js : List Interval) (hi : is ≠ []) (hj : js ≠ []),
      ∃ flat, alignIntervals is js = .ok flat ∧
        let start := min (is.head hi).start (js.head hj).start
        let stop := max (is.getLast hi).stop (js.getLast hj).stop
        Sweep.Orderly Interval.hi start.val (padTo start stop (is.head hi) (is.getLast hi) is)
          (padTo start stop (js.head hj) (js.getLast hj) js) (flat.map IntervalPair.piece) := by
  constructor
  · intro a b hindex hreserved hstop
    refine ⟨a.pairWith b, Slot.alignWith_eq_ok_iff.2 ⟨hindex, rfl⟩,
      Slot.pairWith?_eq hreserved hstop, ?_⟩
    rw [Slot.map_piece_pairWith]
    exact Sweep.orderly_sweep ..
  · intro is js hi hj
    refine ⟨_, alignIntervals_eq_ok (bounds_eq .a hi) (bounds_eq .b hj), ?_⟩
    intro start stop
    rw [map_piece_ofPiece]
    exact Sweep.orderly_sweep ..

/-- On one side a value behind the claimed bytes comes before a value that begins below it, on the
other a value lies within another, so that the last of three stretches runs backwards. One of the
intervals ends before it starts. -/
theorem align_orderly_disordered :
    let a : Slot := ⟨.zero, 4, 4, [⟨"x", "t_uint64", "uint64", .inplace, 8, 8⟩,
      ⟨"y", "t_uint24", "uint24", .inplace, 2, 3⟩]⟩
    let b : Slot := ⟨.zero, 10, 12, [⟨"z", "t_bytes12", "bytes12", .inplace, 0, 12⟩,
      ⟨"w", "t_nil", "Nil", .inplace, 4, 0⟩]⟩
    let w (n : Nat) (h : n < wordCount) : Word := ⟨n, h⟩
    let i : Interval := ⟨w 40 (by decide), w 30 (by decide), "i", "uint80"⟩
    let i' : Interval := ⟨w 5 (by decide), w 9 (by decide), "k", "uint32"⟩
    let j : Interval := ⟨w 7 (by decide), w 7 (by decide), "j", "struct E"⟩
    (∃ p, a.alignWith b = .ok p ∧ a.pairWith? b = some p ∧
      p.spans.map (fun u => (u.start, u.stop)) = [(0, 8), (8, 12), (12, 4)] ∧
      Sweep.Orderly Segment.stop 0 [.gap 0 8, ⟨"x", "t_uint64", "uint64", 8, 8⟩,
          ⟨"y", "t_uint24", "uint24", 2, 3⟩]
        [⟨"z", "t_bytes12", "bytes12", 0, 12⟩, ⟨"w", "t_nil", "Nil", 4, 0⟩]
        (p.spans.map Span.piece)) ∧
    ∃ flat, alignIntervals [i, i'] [j] = .ok flat ∧
      flat.map (fun v => (v.lo, v.hi)) = [(7, 7), (7, 9)] ∧
      Sweep.Orderly Interval.hi 7 [.gap j.start i.start, i, i'] [j, .gap j.stop i'.stop]
        (flat.map IntervalPair.piece) := by
  intro a b w i i' j
  obtain ⟨p, hp, hchecked, hslots⟩ := align_orderly.1 a b rfl (by decide) (by decide)
  obtain ⟨flat, hflat, hintervals⟩ := align_orderly.2 [i, i'] [j] (List.cons_ne_nil _ _)
    (List.cons_ne_nil _ _)
  have hpieces := (hslots.loops_iff _).1 (.next rfl (.next rfl (.next rfl (.finish rfl))))
  have hpieces' := (hintervals.loops_iff _).1 (.next rfl (.next rfl (.finish rfl)))
  refine ⟨⟨p, hp, hchecked, ?_, hslots⟩, flat, hflat, ?_, hintervals⟩
  · have hends := congrArg (List.map fun q => (q.start, q.stop)) hpieces
    rw [List.map_map] at hends
    exact hends.symm
  · have hends := congrArg (List.map fun q => (q.start, q.stop)) hpieces'
    rw [List.map_map] at hends
    exact hends.symm

end SlotLayout
