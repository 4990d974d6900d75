import SlotLayout.Proofs.FlatView

/-!
# Chains of intervals side by side

Intervals form a chain if each starts where the one before it ends (`Chain`). Two chains can always
be laid side by side, wherever they start and end: the side that starts later and the side that ends
earlier are padded with gaps, so that both are chains over the same stretch (`Chain.padTo`). The
result says of every byte that either chain reaches over what the two have there
(`alignIntervals_exact`).
-/

namespace SlotLayout

/-- The interval has the byte `g` of storage in it. -/
def Interval.Holds (i : Interval) (g : Nat) : Prop := i.lo ≤ g ∧ g < i.hi

/-- There are intervals, and they follow one another without a break from `lo` to `hi`. -/
structure Chain (lo hi : Nat) (is : List Interval) : Prop where
  ne_nil : is ≠ []
  tiles : Tiles Interval.lo Interval.hi lo hi is

/-- A side of the stretch `v`, which has the byte `g` in it: the interval of the side that has the
byte or, if none has, a gap. Either has the whole stretch in it. -/
def Interval.Shows (i : Interval) (is : List Interval) (v : IntervalPair) (g : Nat) : Prop :=
  i.lo ≤ v.lo ∧ v.hi ≤ i.hi ∧
    ((i ∈ is ∧ i.Holds g) ∨ (∀ j ∈ is, ¬ j.Holds g) ∧ i = .gap i.start i.stop)

/-- The stretches tile the bytes from `lo` to `hi`, show for each of them what the two sides have
there, and are changed where the sides differ in label or in normalized type label. -/
structure IntervalPair.Exact (as bs : List Interval) (lo hi : Nat) (pairs : List IntervalPair) :
    Prop where
  ne_nil : pairs ≠ []
  tiles : Tiles IntervalPair.lo IntervalPair.hi lo hi pairs
  shows : ∀ g, lo ≤ g → g < hi → ∃ v, covering IntervalPair.lo IntervalPair.hi g pairs = [v] ∧
    v.a.Shows as v g ∧ v.b.Shows bs v g
  changed_iff : ∀ v ∈ pairs, v.changed = true ↔
    v.a.label ≠ v.b.label ∨ Label.normalize v.a.typeLabel ≠ Label.normalize v.b.typeLabel

theorem Interval.sameAs_iff (i j : Interval) :
    i.sameAs j = true ↔
      i.label = j.label ∧ Label.normalize i.typeLabel = Label.normalize j.typeLabel := by
  simp [Interval.sameAs, sameDeclaration]

theorem sweep_ne_nil {κ α : Type} [Ord κ] (stop : α → κ) (lo : κ) {as bs : List α} (ha : as ≠ [])
    (hb : bs ≠ []) : sweep stop lo as bs ≠ [] :=
  mt sweep_eq_nil_iff.1 (not_or.2 ⟨ha, hb⟩)

namespace Chain

variable {lo hi : Nat} {is : List Interval} {start stop : Word} {first last : Interval}

/-- A padded side reaches over the same stretch as the other one. -/
theorem padTo (h : Chain lo hi is) (hfirst : is.head? = some first)
    (hlast : is.getLast? = some last)
    (hstart : start ≤ first.start) (hstop : last.stop ≤ stop) :
    Chain start.val stop.val (padTo start stop first last is) := by
  have elo : first.start.val = lo := h.tiles.head hfirst
  have ehi : last.stop.val = hi := h.tiles.last hlast
  subst elo ehi
  refine ⟨?_, ((Flattened.gap hstart).tiles.append h.tiles).append (Flattened.gap hstop).tiles⟩
  exact List.append_ne_nil_of_left_ne_nil (List.append_ne_nil_of_right_ne_nil _ h.ne_nil) _

/-- Only gaps are added to a side. -/
theorem mem_padTo {i : Interval} :
    i ∈ SlotLayout.padTo start stop first last is →
      i ∈ is ∨ i = .gap i.start i.stop := by
  have hgap (v w : Word) (h : i ∈ if v < w then [Interval.gap v w] else []) :
      i = .gap i.start i.stop := by
    split at h
    · rw [List.mem_singleton.1 h]
      rfl
    · exact absurd h List.not_mem_nil
  intro h
  rcases List.mem_append.1 h with h | h
  · rcases List.mem_append.1 h with h | h
    · exact .inr (hgap _ _ h)
    · exact .inl h
  · exact .inr (hgap _ _ h)

theorem subset_padTo : is ⊆ SlotLayout.padTo start stop first last is := fun _ h =>
  List.mem_append_left _ (List.mem_append_right _ h)

/-- An interval of the padded side with a byte's stretch in it shows the byte. -/
theorem shows_of_mem {lo' hi' g : Nat} {i : Interval} {v : IntervalPair}
    (hp : Chain lo' hi' (SlotLayout.padTo start stop first last is))
    (hi : i ∈ SlotLayout.padTo start stop first last is) (hv : v.lo ≤ g ∧ g < v.hi)
    (h₁ : i.lo ≤ v.lo) (h₂ : v.hi ≤ i.hi) : i.Shows is v g := by
  have hg : i.Holds g := ⟨by omega, by omega⟩
  refine ⟨h₁, h₂, ?_⟩
  by_cases hcov : ∃ j ∈ is, j.Holds g
  · obtain ⟨j, hj, hjg⟩ := hcov
    have hij : i = j := hp.tiles.unique hi hg (subset_padTo hj) hjg
    exact .inl ⟨hij ▸ hj, hg⟩
  · have hnone : ∀ j ∈ is, ¬ j.Holds g := fun j hj hjg => hcov ⟨j, hj, hjg⟩
    rcases mem_padTo hi with hmem | hgap
    · exact absurd hg (hnone i hmem)
    · exact .inr ⟨hnone, hgap⟩

end Chain

/-- Two chains are aligned wherever they lie, over all bytes from where the first of them starts to
where the last one ends. -/
theorem alignIntervals_exact {loA hiA loB hiB : Nat} {as bs : List Interval}
    (ha : Chain loA hiA as) (hb : Chain loB hiB bs) :
    ∃ pairs, alignIntervals as bs = .ok pairs ∧
      IntervalPair.Exact as bs (min loA loB) (max hiA hiB) pairs := by
  obtain ⟨firstA, lastA, hfirstA, hlastA, hboundsA⟩ := bounds_eq_ok .a ha.ne_nil
  obtain ⟨firstB, lastB, hfirstB, hlastB, hboundsB⟩ := bounds_eq_ok .b hb.ne_nil
  have hA := ha.padTo hfirstA hlastA (Word.min_le_left _ firstB.start)
    (Word.le_max_left _ lastB.stop)
  have hB := hb.padTo hfirstB hlastB (Word.min_le_right firstA.start _)
    (Word.le_max_right lastA.stop _)
  have elo : (min firstA.start firstB.start).val = min loA loB := by
    rw [Word.val_min, ← ha.tiles.head hfirstA, ← hb.tiles.head hfirstB]
  have ehi : (max lastA.stop lastB.stop).val = max hiA hiB := by
    rw [Word.val_max, ← ha.tiles.last hlastA, ← hb.tiles.last hlastB]
  have htiles := tiles_sweep_ofPiece hA.tiles hB.tiles
  refine ⟨_, alignIntervals_eq_ok hboundsA hboundsB, ?_⟩
  rw [← elo, ← ehi]
  refine ⟨?_, htiles, ?_, ?_⟩
  · exact mt List.map_eq_nil_iff.1 (sweep_ne_nil _ _ hA.ne_nil hB.ne_nil)
  · intro g hlo hhi
    obtain ⟨v, hv⟩ := htiles.covering_eq_singleton hlo hhi
    obtain ⟨hmem, hin⟩ := of_covering_eq_singleton hv
    obtain ⟨hw, -⟩ := within_sweep_ofPiece hA.tiles hB.tiles hmem
    exact ⟨v, hv, hA.shows_of_mem hw.mem_a hin hw.start_a hw.stop_a,
      hB.shows_of_mem hw.mem_b hin hw.start_b hw.stop_b⟩
  · intro v hv
    obtain ⟨-, hchanged⟩ := within_sweep_ofPiece hA.tiles hB.tiles hv
    rw [hchanged, Bool.not_eq_true', ← Bool.not_eq_true, Interval.sameAs_iff,
      Classical.not_and_iff_not_or_not]

/-- One side starts later, with an interval of no bytes, and goes on after the other side's end. -/
theorem alignIntervals_exact_of_later_start :
    let w (n : Nat) (h : n < wordCount) : Word := ⟨n, h⟩
    let as : List Interval := [⟨w 0 (by decide), w 20 (by decide), "a", "address"⟩]
    let bs : List Interval := [⟨w 8 (by decide), w 8 (by decide), "e", "struct E"⟩,
      ⟨w 8 (by decide), w 40 (by decide), "b", "uint256"⟩]
    ∃ pairs, alignIntervals as bs = .ok pairs ∧ IntervalPair.Exact as bs 0 40 pairs := by
  intro w as bs
  have ha : Chain 0 20 as := ⟨List.cons_ne_nil _ _, rfl, by decide, rfl⟩
  have hb : Chain 8 40 bs := ⟨List.cons_ne_nil _ _, rfl, by decide, rfl, by decide, rfl⟩
  exact alignIntervals_exact ha hb

end SlotLayout
