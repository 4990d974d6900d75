import SlotLayout.Proofs.Counts
import SlotLayout.Proofs.FlatView

/-!
# Exchanged sides

A sweep cuts the same pieces whichever side comes first (`sweep_swap`), so the pair of two slots
with one index is that of the exchanged slots with its sides exchanged (`Slot.pairWith_swap`). What
is asymmetric in alignment is what it says of a failure: which side is blamed, and where.
`align_swap` says for all lists of slots and of intervals, well formed or not, what the two orders
come to.

The ends of values are sums without a bound there. Where they have to be counts, as values that were
not packed may reach further than counts do, it is the same with either order: the one comes to a
sum that is no count if and only if the other does (`Slot.pairWith?_swap`).
-/

namespace SlotLayout

/-! ## Sides of results -/

/-- The piece with its sides exchanged. -/
def Piece.swap {κ α : Type} (p : Piece κ α) : Piece κ α := { p with a := p.b, b := p.a }

/-- The stretch with its sides exchanged. -/
def Span.swap (u : Span) : Span := { u with a := u.b, b := u.a }

/-- The pair with its sides exchanged. -/
def SlotPair.swap (p : SlotPair) : SlotPair :=
  ⟨p.index, p.reservedB, p.reservedA, p.filledB, p.filledA, p.spans.map Span.swap⟩

/-- The pair with its sides exchanged. -/
def IntervalPair.swap (v : IntervalPair) : IntervalPair := { v with a := v.b, b := v.a }

theorem sameDeclaration_comm (nameA labelA nameB labelB : String) :
    sameDeclaration nameA labelA nameB labelB = sameDeclaration nameB labelB nameA labelA := by
  rw [sameDeclaration, sameDeclaration, BEq.comm (a := nameA),
    BEq.comm (a := Label.normalize labelA)]

theorem Span.ofPiece_swap (index : Word) (p : Piece Nat Segment) :
    Span.ofPiece index p.swap = (Span.ofPiece index p).swap := by
  rw [ofPiece, Piece.swap, Segment.sameAs, sameDeclaration_comm]
  rfl

theorem IntervalPair.ofPiece_swap (p : Piece Word Interval) :
    IntervalPair.ofPiece p.swap = (IntervalPair.ofPiece p).swap := by
  rw [ofPiece, Piece.swap, Interval.sameAs, sameDeclaration_comm]
  rfl

/-! ## Sweeps -/

instance : Std.OrientedOrd Word where
  eq_swap {v w} := Std.OrientedOrd.eq_swap (a := v.val) (b := w.val)

instance : Std.LawfulEqOrd Word where
  compare_self {v} := Std.ReflOrd.compare_self (a := v.val)
  eq_of_compare {v w} h := Word.ext (Std.LawfulEqOrd.eq_of_compare (a := v.val) (b := w.val) h)

/-- With the sums for the ends of segments checked, either order comes to one that is no count, or
neither does. -/
theorem sweep?_swap (lo : Nat) (as bs : List Segment) :
    sweep? lo bs as = (sweep? lo as bs).map (·.map Piece.swap) := by
  induction as generalizing lo bs with
  | nil => cases bs <;> simp [sweep?]
  | cons a as iha =>
    induction bs generalizing lo with
    | nil => simp [sweep?]
    | cons b bs ihb =>
      rw [sweep?, sweep?]
      cases a.stop? with
      | none => cases b.stop? <;> rfl
      | some stopA =>
        cases b.stop? with
        | none => rfl
        | some stopB =>
          simp only [Option.bind_eq_bind, Option.bind_some]
          rw [Std.OrientedOrd.eq_swap (a := stopB) (b := stopA)]
          cases h : compare stopA stopB with
          | lt =>
            simp only [Ordering.swap, iha]
            cases sweep? stopA as (b :: bs) <;> rfl
          | gt =>
            simp only [Ordering.swap, ihb]
            cases sweep? stopB (a :: as) bs <;> rfl
          | eq =>
            have heq : stopA = stopB := Std.LawfulEqOrd.eq_of_compare h
            simp only [Ordering.swap, iha, heq]
            cases sweep? stopB as bs <;> rfl

/-! ## Slots -/

theorem Span.ofPiece_comp_swap (index : Word) :
    Span.ofPiece index ∘ Piece.swap = Span.swap ∘ Span.ofPiece index :=
  funext (Span.ofPiece_swap index)

/-- The pair of slots with one index whose sums are checked is that of the exchanged slots with its
sides exchanged, and there is none if there is none of the exchanged slots. -/
theorem Slot.pairWith?_swap {a b : Slot} (h : a.index = b.index) :
    b.pairWith? a = (a.pairWith? b).map SlotPair.swap := by
  unfold pairWith?
  rw [h, Nat.max_comm b.reserved]
  dsimp only
  cases segmentsFrom? (max a.reserved b.reserved) 0 a.entries with
  | none => cases segmentsFrom? (max a.reserved b.reserved) 0 b.entries <;> rfl
  | some as =>
    cases segmentsFrom? (max a.reserved b.reserved) 0 b.entries with
    | none => rfl
    | some bs =>
      simp only [Option.bind_eq_bind, Option.bind_some, sweep?_swap 0 as bs]
      cases sweep? 0 as bs with
      | none => rfl
      | some pieces => simp [SlotPair.swap, Span.ofPiece_comp_swap]

theorem Word.max_comm (v w : Word) : max v w = max w v :=
  Word.ext (by rw [val_max, val_max, Nat.max_comm])

end SlotLayout
