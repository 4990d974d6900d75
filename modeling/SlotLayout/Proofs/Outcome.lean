import SlotLayout.Proofs.Faults
import SlotLayout.Proofs.Growth

/-!
# Outcomes of a comparison

What a comparison of two layouts can come to (`Comparison.Outcome`). It fails with the error of
layout A if A cannot be collated, otherwise with that of B if B cannot; otherwise with the two
counts of slots, if these differ and no blank slots may stand in; otherwise it gives a pair of slots
for each index. There is no other outcome (`Comparison.outcome_diff`): as the slots of both sides
count from one index on, slots of different indices never meet.
-/

namespace SlotLayout

/-- What the pair at place `i` counts: the index, and the bytes claimed and filled in the slots of
both sides there, zero where a side has none. -/
structure SlotPair.CountsAt (p : SlotPair) (first : Word) (as bs : List Slot) (i : Nat) : Prop where
  index_eq : p.index.val = first.val + i
  reserved_a : p.reservedA = (as[i]?.map (·.reserved)).getD 0
  reserved_b : p.reservedB = (bs[i]?.map (·.reserved)).getD 0
  filled_a : p.filledA = (as[i]?.map (·.filled)).getD 0
  filled_b : p.filledB = (bs[i]?.map (·.filled)).getD 0

/-- What a comparison comes to. -/
inductive Comparison.Outcome (c : Comparison) : Except (Report Cause) (List SlotPair) → Prop
  /-- Layout A cannot be collated. -/
  | failsA {e : Report Collation.Error} (hA : c.a.collate c.firstSlot = .error e) :
      Outcome c (.error (e.map .collation))
  /-- Layout A can be collated, but B cannot. -/
  | failsB {as : List Slot} {e : Report Collation.Error} (hA : c.a.collate c.firstSlot = .ok as)
      (hB : c.b.collate c.firstSlot = .error e) : Outcome c (.error (e.map .collation))
  /-- There are more slots on one side, and no blank slots may stand in. -/
  | uneven {as bs : List Slot} (hA : c.a.collate c.firstSlot = .ok as)
      (hB : c.b.collate c.firstSlot = .ok bs) (hlength : as.length ≠ bs.length)
      (hpad : c.pad = false) :
      Outcome c (.error
        (.one .document (.alignment (.slotCountMismatch as.length bs.length))))
  | aligned {as bs : List Slot} {pairs : List SlotPair} (hA : c.a.collate c.firstSlot = .ok as)
      (hB : c.b.collate c.firstSlot = .ok bs) (hlength : as.length = bs.length ∨ c.pad = true)
      (hcount : pairs.length = max as.length bs.length)
      (hpairs : ∀ (i : Nat) (p : SlotPair), pairs[i]? = some p → p.CountsAt c.firstSlot as bs i) :
      Outcome c (.ok pairs)

/-- Errors that no comparison runs into: of the alignment, and of types without end. -/
inductive Cause.Unreachable : Cause → Prop
  | slotIndexMismatch (a b : Word) : Unreachable (.alignment (.slotIndexMismatch a b))
  | emptyLayout (side : Side) : Unreachable (.alignment (.emptyLayout side))
  | byteOffsetOverflow (index : Word) : Unreachable (.alignment (.byteOffsetOverflow index))
  | endlessType (typeId : String) : Unreachable (.collation (.endlessType typeId))

/-! ## Slots of pairs -/

/-- What is zero for a blank slot is zero where a list has no slot. -/
theorem map_slotAt (f : Slot → Nat) (hf : ∀ index, f (.blank index) = 0) (ss : List Slot) (i : Nat)
    (index : Word) : f (slotAt ss i index) = (ss[i]?.map f).getD 0 := by
  unfold slotAt
  cases ss[i]? with
  | none => exact hf index
  | some s => rfl

theorem countsAt_of_align {first : Word} {as bs : List Slot} (ha : IndexedFrom first as)
    (hb : IndexedFrom first bs) {pad : Bool} {pairs : List SlotPair}
    (h : align pad as bs = .ok pairs) {i : Nat} {p : SlotPair} (hp : pairs[i]? = some p) :
    p.CountsAt first as bs i := by
  have hpair := eq_pairWith_of_align h hp
  have hreserved := map_slotAt Slot.reserved fun _ => rfl
  have hfilled := map_slotAt Slot.filled fun _ => rfl
  exact {
    index_eq := index_of_align ha hb h hp
    reserved_a := (congrArg SlotPair.reservedA hpair).trans (hreserved as i _)
    reserved_b := (congrArg SlotPair.reservedB hpair).trans (hreserved bs i _)
    filled_a := (congrArg SlotPair.filledA hpair).trans (hfilled as i _)
    filled_b := (congrArg SlotPair.filledB hpair).trans (hfilled bs i _) }

/-! ## Errors of collation -/

theorem TypeInfo.Misshapen.ne_endlessType {info : TypeInfo} {typeId : String}
    {e : Collation.Error} (h : info.Misshapen typeId e) (id : String) : e ≠ .endlessType id := by
  cases h <;> exact nofun

theorem Fault.ne_endlessType {types : TypeTable} {first : Word} {u : Usage} {part : Part}
    {e : Collation.Error} (h : Fault types first u part e) (id : String) : e ≠ .endlessType id := by
  cases h with
  | unknown => exact nofun
  | misshapen _ hm => exact hm.ne_endlessType id
  | outside => exact nofun

/-- A report of collation has one error, and it is no type without end. -/
theorem Layout.reachable_of_collate {layout : Layout} (hfin : layout.Finite) {first : Word}
    {report : Report Collation.Error} (h : layout.collate first = .error report) :
    ∃ location cause, report.map Cause.collation = .one location cause ∧ ¬ cause.Unreachable := by
  obtain ⟨visits, hw⟩ := layout.exists_walk hfin
  obtain ⟨r, hr, hcollate⟩ := Layout.collate_eq_error_iff hfin first hw
  obtain ⟨before, part, e, ⟨⟨-, hfault⟩, -⟩, rfl⟩ :=
    (hr.eq_error_iff report).1 ((hcollate report).1 h)
  refine ⟨.declaration part.name, .collation e, rfl, fun hcause => ?_⟩
  cases hcause with
  | endlessType id => exact hfault.ne_endlessType id rfl

/-! ## Comparisons -/

namespace Comparison

variable {c : Comparison}

theorem diff_eq_error_a {e : Report Collation.Error} (hA : c.a.collate c.firstSlot = .error e) :
    c.diff = .error (e.map .collation) := by
  rw [diff_eq, hA]
  rfl

theorem diff_eq_error_b {as : List Slot} {e : Report Collation.Error}
    (hA : c.a.collate c.firstSlot = .ok as) (hB : c.b.collate c.firstSlot = .error e) :
    c.diff = .error (e.map .collation) := by
  rw [diff_eq, hA, hB]
  rfl

theorem diff_eq_error_uneven {as bs : List Slot} (hA : c.a.collate c.firstSlot = .ok as)
    (hB : c.b.collate c.firstSlot = .ok bs) (hlength : as.length ≠ bs.length)
    (hpad : c.pad = false) :
    c.diff = .error (.one .document (.alignment (.slotCountMismatch as.length bs.length))) := by
  have halign : align c.pad as bs =
      .error (.one .document (.slotCountMismatch as.length bs.length)) :=
    if_pos ⟨hlength, hpad⟩
  rw [diff_eq, hA, hB]
  show widen .alignment (align c.pad as bs) = _
  rw [halign]
  rfl

/-- Without a condition on the types: what a comparison comes to. -/
theorem outcome (c : Comparison) : c.Outcome c.diff := by
  cases hA : c.a.collate c.firstSlot with
  | error e => exact diff_eq_error_a hA ▸ .failsA hA
  | ok as =>
    cases hB : c.b.collate c.firstSlot with
    | error e => exact diff_eq_error_b hA hB ▸ .failsB hA hB
    | ok bs =>
      by_cases hlength : as.length = bs.length ∨ c.pad = true
      · have hindexA : IndexedFrom c.firstSlot as := fun _ _ => Layout.index_of_collate hA
        have hindexB : IndexedFrom c.firstSlot bs := fun _ _ => Layout.index_of_collate hB
        obtain ⟨pairs, halign⟩ := exists_align hindexA hindexB hlength
        exact diff_eq_ok hA hB halign ▸ .aligned hA hB hlength (length_of_align halign)
          fun i p => countsAt_of_align hindexA hindexB halign
      · rw [not_or, Bool.not_eq_true] at hlength
        exact diff_eq_error_uneven hA hB hlength.1 hlength.2 ▸ .uneven hA hB hlength.1 hlength.2

/-- A comparison comes to one of its outcomes, and each excludes those listed before. If no type in
use contains itself, a report has one error, and some errors are never in it. -/
theorem outcome_diff (hA : c.a.Finite) (hB : c.b.Finite) : c.Outcome c.diff ∧
    ∀ report, c.diff = .error report →
      ∃ location cause, report = .one location cause ∧ ¬ cause.Unreachable := by
  have houtcome := c.outcome
  refine ⟨houtcome, fun report h => ?_⟩
  rw [h] at houtcome
  cases houtcome with
  | failsA hfail => exact Layout.reachable_of_collate hA hfail
  | failsB _ hfail => exact Layout.reachable_of_collate hB hfail
  | uneven => exact ⟨_, _, rfl, nofun⟩

/-- Where B has a slot that A has not, a blank slot stands in for it, or the comparison fails. -/
theorem outcome_diff_uneven :
    let types : TypeTable := .ofList [("t_bool", .value "bool" 1),
      ("t_uint256", .value "uint256" 32)]
    let a : Layout := ⟨[.bare "paused" "t_bool"], types⟩
    let b : Layout := ⟨[.bare "paused" "t_bool", .bare "total" "t_uint256"], types⟩
    let first : Word := ⟨7, by decide⟩
    let padded : Comparison := ⟨a, b, first, true⟩
    let strict : Comparison := ⟨a, b, first, false⟩
    a.Finite ∧ b.Finite ∧
      (∃ pairs, padded.Outcome (.ok pairs) ∧
        pairs.map (fun p => (p.index.val, p.reservedA, p.reservedB, p.filledA, p.filledB)) =
          [(7, 1, 1, 1, 1), (8, 0, 32, 0, 32)]) ∧
      ∃ cause, strict.Outcome (.error (.one .document cause)) ∧ ¬ cause.Unreachable ∧
        cause = .alignment (.slotCountMismatch 1 2) := by
  intro types a b first padded strict
  have hA : a.Finite := Layout.finite_of_rank String.length (by decide)
  have hB : b.Finite := Layout.finite_of_rank String.length (by decide)
  have hpadded : ∃ pairs, padded.diff = .ok pairs ∧
      pairs.map (fun p => (p.index.val, p.reservedA, p.reservedB, p.filledA, p.filledB)) =
        [(7, 1, 1, 1, 1), (8, 0, 32, 0, 32)] := by
    rw [diff_eq, Layout.collate_eq, Layout.collate_eq]
    exact ⟨_, rfl, rfl⟩
  have hstrict : strict.diff = .error (.one .document (.alignment (.slotCountMismatch 1 2))) := by
    rw [diff_eq, Layout.collate_eq, Layout.collate_eq]
    rfl
  obtain ⟨pairs, hpairs, hcounts⟩ := hpadded
  obtain ⟨houtcome, hreport⟩ : strict.Outcome strict.diff ∧ _ := outcome_diff hA hB
  obtain ⟨_, cause, hone, hcause⟩ := hreport _ hstrict
  cases hone
  exact ⟨hA, hB, ⟨pairs, hpairs ▸ (outcome_diff hA hB).1, hcounts⟩,
    _, hstrict ▸ houtcome, hcause, rfl⟩

end Comparison

end SlotLayout
