import Mathlib.Data.List.Basic
import SlotLayout.Sweep

/-!
# Sweeps of tilings

The ranges of a list tile a stretch if they follow one another without a break (`Tiles`). A byte of
the stretch is then in one range only (`Tiles.covering_eq_singleton`, `Tiles.unique`). The pieces of
a sweep of two tilings tile the same stretch (`tiles_sweep`), each lies within the segments it names
(`sweep_within`), and they end where a segment of either side ends (`cut_sweep`).

While a sweep goes on, the current segment of a side may have begun before the byte that the sweep
has reached. `Covers` is the invariant that allows for that, and `sweep_induction` the induction
along a sweep that keeps it on both sides.
-/

namespace SlotLayout

section Tiles

variable {α β : Type} {start stop : α → Nat}

/-- The ranges of a list follow one another without a break from `lo` to `hi`. -/
def Tiles (start stop : α → Nat) : Nat → Nat → List α → Prop
  | lo, hi, [] => lo = hi
  | lo, hi, x :: xs => start x = lo ∧ lo ≤ stop x ∧ Tiles start stop (stop x) hi xs

/-- The members of a list that have the byte `n` in their range. -/
def covering (start stop : α → Nat) (n : Nat) (xs : List α) : List α :=
  xs.filter fun x => start x ≤ n ∧ n < stop x

theorem mem_covering {n : Nat} {xs : List α} {x : α} :
    x ∈ covering start stop n xs ↔ x ∈ xs ∧ start x ≤ n ∧ n < stop x := by
  simp [covering]

theorem of_covering_eq_singleton {n : Nat} {xs : List α} {x : α}
    (h : covering start stop n xs = [x]) : x ∈ xs ∧ start x ≤ n ∧ n < stop x :=
  mem_covering.1 (h ▸ List.mem_singleton_self x)

theorem eq_of_covering_eq_singleton {n : Nat} {xs : List α} {x y : α}
    (h : covering start stop n xs = [x]) (hy : y ∈ xs) (hyn : start y ≤ n ∧ n < stop y) : y = x :=
  List.mem_singleton.1 (h ▸ mem_covering.2 ⟨hy, hyn⟩)

theorem Tiles.le : ∀ {lo hi : Nat} {xs : List α}, Tiles start stop lo hi xs → lo ≤ hi
  | _, _, [], h => Nat.le_of_eq h
  | _, _, _ :: _, ⟨_, h, hs⟩ => Nat.le_trans h hs.le

theorem Tiles.range_le : ∀ {lo hi : Nat} {xs : List α}, Tiles start stop lo hi xs →
    ∀ x ∈ xs, lo ≤ start x ∧ start x ≤ stop x ∧ stop x ≤ hi
  | _, _, y :: ys, ⟨h₁, h₂, hs⟩, x, hx => by
    have := hs.le
    rcases List.mem_cons.1 hx with rfl | hx
    · omega
    · have := hs.range_le x hx
      omega

theorem Tiles.append : ∀ {lo mid hi : Nat} {xs ys : List α}, Tiles start stop lo mid xs →
    Tiles start stop mid hi ys → Tiles start stop lo hi (xs ++ ys)
  | _, _, _, [], _, rfl, h => h
  | _, _, _, _ :: _, _, ⟨h₁, h₂, hs⟩, h => ⟨h₁, h₂, hs.append h⟩

theorem Tiles.head {lo hi : Nat} {xs : List α} {x : α}
    (h : Tiles start stop lo hi xs) (hx : xs.head? = some x) : start x = lo := by
  cases xs with
  | nil => cases hx
  | cons y ys =>
    cases hx
    exact h.1

theorem Tiles.last {lo hi : Nat} {xs : List α} {x : α}
    (h : Tiles start stop lo hi xs) (hx : xs.getLast? = some x) : stop x = hi := by
  induction xs generalizing lo with
  | nil => cases hx
  | cons y ys ih =>
    cases ys with
    | nil =>
      cases hx
      exact h.2.2
    | cons z zs => exact ih h.2.2 (by rwa [List.getLast?_cons_cons] at hx)

theorem tiles_map (f : β → α) : ∀ {lo hi : Nat} {xs : List β},
    Tiles start stop lo hi (xs.map f) ↔
      Tiles (fun x => start (f x)) (fun x => stop (f x)) lo hi xs
  | _, _, [] => Iff.rfl
  | _, _, _ :: _ => and_congr_right fun _ => and_congr_right fun _ => tiles_map f

theorem tiles_of_getElem? {f : α → Nat} {lo : Nat} {xs : List α}
    (h : ∀ i x, xs[i]? = some x → f x = lo + i) :
    Tiles f (fun x => f x + 1) lo (lo + xs.length) xs := by
  induction xs generalizing lo with
  | nil => exact rfl
  | cons x xs ih =>
    have hx : f x = lo := h 0 x rfl
    have hxs : ∀ i y, xs[i]? = some y → f y = lo + 1 + i := by
      intro i y hi
      rw [h (i + 1) y hi]
      omega
    have hlen : lo + (x :: xs).length = lo + 1 + xs.length := by
      rw [List.length_cons]
      omega
    refine ⟨hx, by show lo ≤ f x + 1; omega, ?_⟩
    show Tiles f (fun x => f x + 1) (f x + 1) _ xs
    rw [hx, hlen]
    exact ih hxs

/-- Nothing after a byte's range has the byte in it. -/
theorem Tiles.covering_eq_nil {lo hi n : Nat} {xs : List α} (h : Tiles start stop lo hi xs)
    (hn : n < lo) : covering start stop n xs = [] := by
  refine List.filter_eq_nil_iff.2 fun x hx => ?_
  have := h.range_le x hx
  simp only [decide_eq_true_eq]
  omega

/-- A byte of a tiled stretch is in exactly one range. -/
theorem Tiles.covering_eq_singleton : ∀ {lo hi n : Nat} {xs : List α}, Tiles start stop lo hi xs →
    lo ≤ n → n < hi → ∃ x, covering start stop n xs = [x]
  | lo, hi, n, [], h, hlo, hhi => by
    simp only [Tiles] at h
    omega
  | lo, hi, n, x :: xs, ⟨h₁, h₂, hs⟩, hlo, hhi => by
    by_cases hn : n < stop x
    · refine ⟨x, ?_⟩
      rw [covering, List.filter_cons_of_pos (by simp only [decide_eq_true_eq]; omega)]
      exact congrArg (x :: ·) (hs.covering_eq_nil hn)
    · obtain ⟨y, hy⟩ := hs.covering_eq_singleton (n := n) (by omega) hhi
      refine ⟨y, ?_⟩
      rwa [covering, List.filter_cons_of_neg (by simp [hn])]

/-- Two ranges of a tiling with a byte in common are one. -/
theorem Tiles.unique {lo hi n : Nat} {xs : List α} (h : Tiles start stop lo hi xs) {x y : α}
    (hx : x ∈ xs) (hxn : start x ≤ n ∧ n < stop x) (hy : y ∈ xs) (hyn : start y ≤ n ∧ n < stop y) :
    x = y := by
  have hle := h.range_le x hx
  obtain ⟨z, hz⟩ := h.covering_eq_singleton (n := n) (by omega) (by omega)
  rw [eq_of_covering_eq_singleton hz hx hxn, eq_of_covering_eq_singleton hz hy hyn]

end Tiles

/-! ## Sweeps -/

section Sweep

variable {α : Type} {start stop : α → Nat}

/-- The segments cover all from `lo` to `hi`; the first may begin before `lo`. -/
def Covers (start stop : α → Nat) (lo hi : Nat) : List α → Prop
  | [] => lo = hi
  | x :: xs => start x ≤ lo ∧ lo ≤ stop x ∧ Tiles start stop (stop x) hi xs

theorem Tiles.covers {lo hi : Nat} : ∀ {xs : List α}, Tiles start stop lo hi xs →
    Covers start stop lo hi xs
  | [], h => h
  | _ :: _, ⟨h₁, h₂, hs⟩ => ⟨Nat.le_of_eq h₁, h₂, hs⟩

/-- A side's first segment goes on where the other side's ends earlier. -/
theorem Covers.advance {lo hi n : Nat} {x : α} {xs : List α}
    (h : Covers start stop lo hi (x :: xs)) (hlo : lo ≤ n) (hn : n ≤ stop x) :
    Covers start stop n hi (x :: xs) :=
  ⟨Nat.le_trans h.1 hlo, hn, h.2.2⟩

theorem Covers.stop_le {lo hi : Nat} : ∀ {xs : List α}, Covers start stop lo hi xs →
    ∀ x ∈ xs, lo ≤ stop x ∧ stop x ≤ hi
  | y :: ys, ⟨_, h, hs⟩, x, hx => by
    rcases List.mem_cons.1 hx with rfl | hx
    · exact ⟨h, hs.le⟩
    · have := hs.range_le x hx
      omega

/-- What a side has left once the sweep is at `n`: its first segment only if that goes on. -/
def past (stop : α → Nat) (n : Nat) : List α → List α
  | [] => []
  | x :: xs => if stop x ≤ n then xs else x :: xs

theorem past_of_le {n : Nat} {x : α} {xs : List α} (h : stop x ≤ n) : past stop n (x :: xs) = xs :=
  if_pos h

theorem past_of_lt {n : Nat} {x : α} {xs : List α} (h : n < stop x) :
    past stop n (x :: xs) = x :: xs :=
  if_neg (Nat.not_le.2 h)

theorem past_subset (n : Nat) (x : α) (xs : List α) : past stop n (x :: xs) ⊆ x :: xs := by
  rcases Nat.lt_or_ge n (stop x) with h | h
  · rw [past_of_lt h]
    exact List.Subset.refl _
  · rw [past_of_le h]
    exact List.subset_cons_self _ _

/-- Only an end at `n` may be gone. -/
theorem exists_mem_past {n m : Nat} {x : α} {xs : List α} (h : n ≤ stop x) :
    (m = n ∨ ∃ y ∈ past stop n (x :: xs), stop y = m) ↔ m = n ∨ ∃ y ∈ x :: xs, stop y = m := by
  rcases Nat.eq_or_lt_of_le h with rfl | hlt
  · rw [past_of_le (Nat.le_refl _), List.exists_mem_cons_iff, ← or_assoc, eq_comm, or_self]
  · rw [past_of_lt hlt]

/-- A sweep cuts off a piece up to the nearer end and goes on with what is left. -/
theorem sweep_cons (lo : Nat) (a : α) (as : List α) (b : α) (bs : List α) :
    sweep stop lo (a :: as) (b :: bs) = ⟨lo, min (stop a) (stop b), a, b⟩ ::
      sweep stop (min (stop a) (stop b)) (past stop (min (stop a) (stop b)) (a :: as))
        (past stop (min (stop a) (stop b)) (b :: bs)) := by
  rw [sweep]
  split
  · rename_i h
    have hlt := Nat.compare_eq_lt.1 h
    rw [Nat.min_eq_left (Nat.le_of_lt hlt), past_of_le (Nat.le_refl _), past_of_lt hlt]
  · rename_i h
    have hlt := Nat.compare_eq_gt.1 h
    rw [Nat.min_eq_right (Nat.le_of_lt hlt), past_of_le (Nat.le_refl _), past_of_lt hlt]
  · rename_i h
    have heq := Nat.compare_eq_eq.1 h
    rw [heq, Nat.min_self, past_of_le (Nat.le_of_eq heq), past_of_le (Nat.le_refl _)]

/-- Induction along the sweep of two covers, whose next piece ends at `n`. A side can only run out
at the end of the stretch, as both end there. -/
theorem sweep_induction {hi : Nat} {motive : Nat → List α → List α → Prop}
    (done : ∀ as bs, Covers start stop hi hi as → Covers start stop hi hi bs →
      sweep stop hi as bs = [] → motive hi as bs)
    (piece : ∀ lo a as b bs n, n = min (stop a) (stop b) → Covers start stop lo hi (a :: as) →
      Covers start stop lo hi (b :: bs) →
        motive n (past stop n (a :: as)) (past stop n (b :: bs)) → motive lo (a :: as) (b :: bs))
    {lo : Nat} {as bs : List α} (ha : Covers start stop lo hi as)
    (hb : Covers start stop lo hi bs) : motive lo as bs := by
  induction lo, as, bs using sweep.induct stop with
  | case1 lo a as b bs h ih =>
    have hlt := Nat.compare_eq_lt.1 h
    refine piece lo a as b bs (stop a) (Nat.min_eq_left (Nat.le_of_lt hlt)).symm ha hb ?_
    rw [past_of_le (Nat.le_refl _), past_of_lt hlt]
    exact ih ha.2.2.covers (hb.advance ha.2.1 (Nat.le_of_lt hlt))
  | case2 lo a as b bs h ih =>
    have hlt := Nat.compare_eq_gt.1 h
    refine piece lo a as b bs (stop b) (Nat.min_eq_right (Nat.le_of_lt hlt)).symm ha hb ?_
    rw [past_of_lt hlt, past_of_le (Nat.le_refl _)]
    exact ih (ha.advance hb.2.1 (Nat.le_of_lt hlt)) hb.2.2.covers
  | case3 lo a as b bs h ih =>
    have heq := Nat.compare_eq_eq.1 h
    refine piece lo a as b bs (stop a) (Nat.min_eq_left (Nat.le_of_eq heq)).symm ha hb ?_
    rw [past_of_le (Nat.le_refl _), past_of_le (Nat.le_of_eq heq.symm)]
    exact ih ha.2.2.covers (heq ▸ hb.2.2.covers)
  | case4 lo bs =>
    have hlo : lo = hi := ha
    subst hlo
    exact done [] bs ha hb (sweep.eq_2 ..)
  | case5 lo a as =>
    have hlo : lo = hi := hb
    subst hlo
    exact done (a :: as) [] ha hb (sweep.eq_3 ..)

/-- The pieces of two covers tile what the covers have before them. -/
theorem tiles_sweep {lo hi : Nat} {as bs : List α} (ha : Covers start stop lo hi as)
    (hb : Covers start stop lo hi bs) :
    Tiles Piece.start Piece.stop lo hi (sweep stop lo as bs) := by
  refine sweep_induction (motive := fun lo as bs =>
    Tiles Piece.start Piece.stop lo hi (sweep stop lo as bs)) ?_ ?_ ha hb
  · intro as bs _ _ h
    rw [h]
    exact rfl
  · intro lo a as b bs n hn ha hb ih
    rw [sweep_cons, ← hn]
    exact ⟨rfl, hn ▸ Nat.le_min.2 ⟨ha.2.1, hb.2.1⟩, ih⟩

/-- A piece lies within the two segments it names, which are segments of the two sides. -/
structure Piece.Within (start stop : α → Nat) (as bs : List α) (p : Piece Nat α) : Prop where
  mem_a : p.a ∈ as
  start_a : start p.a ≤ p.start
  stop_a : p.stop ≤ stop p.a
  mem_b : p.b ∈ bs
  start_b : start p.b ≤ p.start
  stop_b : p.stop ≤ stop p.b

theorem Piece.Within.mono {as as' bs bs' : List α} {p : Piece Nat α}
    (h : p.Within start stop as bs) (ha : as ⊆ as') (hb : bs ⊆ bs') :
    p.Within start stop as' bs' :=
  { h with mem_a := ha h.mem_a, mem_b := hb h.mem_b }

theorem sweep_within {lo hi : Nat} {as bs : List α} (ha : Covers start stop lo hi as)
    (hb : Covers start stop lo hi bs) :
    ∀ p ∈ sweep stop lo as bs, p.Within start stop as bs := by
  refine sweep_induction (motive := fun lo as bs =>
    ∀ p ∈ sweep stop lo as bs, p.Within start stop as bs) ?_ ?_ ha hb
  · intro as bs _ _ h
    simp [h]
  · intro lo a as b bs n hn ha hb ih p hp
    rw [sweep_cons, ← hn] at hp
    rcases List.mem_cons.1 hp with rfl | hp
    · exact ⟨List.mem_cons_self, ha.1, hn ▸ Nat.min_le_left .., List.mem_cons_self, hb.1,
        hn ▸ Nat.min_le_right ..⟩
    · exact (ih p hp).mono (past_subset n a as) (past_subset n b bs)

/-- The segments are not empty and end after `n`. -/
def Ahead (start stop : α → Nat) (n : Nat) (xs : List α) : Prop :=
  ∀ x ∈ xs, start x < stop x ∧ n < stop x

theorem Ahead.past {lo hi n : Nat} {x : α} {xs : List α} (h : Ahead start stop lo (x :: xs))
    (hs : Tiles start stop (stop x) hi xs) (hn : n ≤ stop x) :
    Ahead start stop n (past stop n (x :: xs)) := by
  have hlater : ∀ y ∈ xs, start y < stop y ∧ n < stop y := by
    intro y hy
    have := hs.range_le y hy
    have := h y (List.mem_cons_of_mem _ hy)
    omega
  rcases Nat.eq_or_lt_of_le hn with rfl | hlt
  · rw [past_of_le (Nat.le_refl _)]
    exact hlater
  · rw [past_of_lt hlt]
    exact List.forall_mem_cons.2 ⟨⟨(h x List.mem_cons_self).1, hlt⟩, hlater⟩

/-- If no segment is empty, no piece is. -/
theorem sweep_proper {lo hi : Nat} {as bs : List α} (ha : Covers start stop lo hi as)
    (hb : Covers start stop lo hi bs) (hpa : Ahead start stop lo as)
    (hpb : Ahead start stop lo bs) : ∀ p ∈ sweep stop lo as bs, p.start < p.stop := by
  refine sweep_induction (motive := fun lo as bs => Ahead start stop lo as →
    Ahead start stop lo bs → ∀ p ∈ sweep stop lo as bs, p.start < p.stop) ?_ ?_ ha hb hpa hpb
  · intro as bs _ _ h _ _
    simp [h]
  · intro lo a as b bs n hn ha hb ih hpa hpb p hp
    rw [sweep_cons, ← hn] at hp
    rcases List.mem_cons.1 hp with rfl | hp
    · exact hn ▸ Nat.lt_min.2 ⟨(hpa a List.mem_cons_self).2, (hpb b List.mem_cons_self).2⟩
    · exact ih (hpa.past ha.2.2 (hn ▸ Nat.min_le_left ..))
        (hpb.past hb.2.2 (hn ▸ Nat.min_le_right ..)) p hp

/-- The pieces end where a segment of either side ends, and nowhere else. -/
theorem cut_sweep {lo hi : Nat} {as bs : List α} (ha : Covers start stop lo hi as)
    (hb : Covers start stop lo hi bs) (m : Nat) :
    (m = lo ∨ ∃ p ∈ sweep stop lo as bs, p.stop = m) ↔
      m = lo ∨ (∃ a ∈ as, stop a = m) ∨ ∃ b ∈ bs, stop b = m := by
  refine sweep_induction (motive := fun lo as bs =>
    (m = lo ∨ ∃ p ∈ sweep stop lo as bs, p.stop = m) ↔
      m = lo ∨ (∃ a ∈ as, stop a = m) ∨ ∃ b ∈ bs, stop b = m) ?_ ?_ ha hb
  · intro as bs ha hb h
    simp only [h, List.not_mem_nil, false_and, exists_false, or_false]
    refine ⟨.inl, fun hm => hm.elim id ?_⟩
    rintro (⟨a, hmem, rfl⟩ | ⟨b, hmem, rfl⟩)
    · have := ha.stop_le a hmem
      omega
    · have := hb.stop_le b hmem
      omega
  · intro lo a as b bs n hn ha hb ih
    have hnA : n ≤ stop a := hn ▸ Nat.min_le_left ..
    have hnB : n ≤ stop b := hn ▸ Nat.min_le_right ..
    have hend : m = n → (∃ x ∈ a :: as, stop x = m) ∨ ∃ x ∈ b :: bs, stop x = m := by
      rintro rfl
      rcases Nat.le_total (stop a) (stop b) with h | h
      · exact .inl ⟨a, List.mem_cons_self, by rw [hn, Nat.min_eq_left h]⟩
      · exact .inr ⟨b, List.mem_cons_self, by rw [hn, Nat.min_eq_right h]⟩
    rw [sweep_cons, ← hn, List.exists_mem_cons_iff, eq_comm (a := n), ih,
      or_or_distrib_left (a := m = n), exists_mem_past hnA, exists_mem_past hnB,
      ← or_or_distrib_left (a := m = n), or_iff_right_of_imp hend]

/-- There are pieces as soon as both sides have segments. -/
theorem sweep_eq_nil_iff {κ : Type} [Ord κ] {stop : α → κ} {lo : κ} {as bs : List α} :
    sweep stop lo as bs = [] ↔ as = [] ∨ bs = [] := by
  cases as with
  | nil => simp [sweep]
  | cons a as =>
    cases bs with
    | nil => simp [sweep]
    | cons b bs =>
      rw [sweep]
      split <;> simp

/-- Whatever the two lists are, a piece names a segment of each. -/
theorem mem_of_mem_sweep {κ : Type} [Ord κ] {stop : α → κ} {lo : κ} {as bs : List α}
    {p : Piece κ α} (h : p ∈ sweep stop lo as bs) : p.a ∈ as ∧ p.b ∈ bs := by
  induction lo, as, bs using sweep.induct stop with
  | case1 lo a as b bs hlt ih =>
    simp only [sweep, hlt] at h
    rcases List.mem_cons.1 h with rfl | h
    · exact ⟨List.mem_cons_self, List.mem_cons_self⟩
    · exact ⟨List.mem_cons_of_mem _ (ih h).1, (ih h).2⟩
  | case2 lo a as b bs hgt ih =>
    simp only [sweep, hgt] at h
    rcases List.mem_cons.1 h with rfl | h
    · exact ⟨List.mem_cons_self, List.mem_cons_self⟩
    · exact ⟨(ih h).1, List.mem_cons_of_mem _ (ih h).2⟩
  | case3 lo a as b bs heq ih =>
    simp only [sweep, heq] at h
    rcases List.mem_cons.1 h with rfl | h
    · exact ⟨List.mem_cons_self, List.mem_cons_self⟩
    · exact ⟨List.mem_cons_of_mem _ (ih h).1, List.mem_cons_of_mem _ (ih h).2⟩
  | case4 lo bs =>
    rw [sweep] at h
    cases h
  | case5 lo a as =>
    rw [sweep] at h
    cases h

/-- Segments that both sides begin with are swept side by side, each with itself. -/
theorem sweep_append (stop : α → Nat) (front as bs : List α) (lo : Nat) :
    ∃ pieces lo', (∀ p ∈ pieces, p.a = p.b) ∧
      sweep stop lo (front ++ as) (front ++ bs) = pieces ++ sweep stop lo' as bs := by
  induction front generalizing lo with
  | nil => exact ⟨[], lo, nofun, rfl⟩
  | cons x front ih =>
    obtain ⟨pieces, lo', hsame, h⟩ := ih (stop x)
    refine ⟨⟨lo, stop x, x, x⟩ :: pieces, lo', List.forall_mem_cons.2 ⟨rfl, hsame⟩, ?_⟩
    rw [List.cons_append, List.cons_append, sweep_cons, Nat.min_self, past_of_le (Nat.le_refl _),
      past_of_le (Nat.le_refl _), h]
    rfl

/-- Sweeping is the same in any numbering of the positions that keeps their order. -/
theorem sweep_map {κ μ : Type} [Ord κ] [Ord μ] (f : κ → μ) (stop : α → κ)
    (hf : ∀ x y, compare (f x) (f y) = compare x y) (lo : κ) (as bs : List α) :
    sweep (fun a => f (stop a)) (f lo) as bs =
      (sweep stop lo as bs).map fun p => ⟨f p.start, f p.stop, p.a, p.b⟩ := by
  induction lo, as, bs using sweep.induct stop with
  | case1 lo a as b bs h ih => simp only [sweep, hf, h, ih, List.map_cons]
  | case2 lo a as b bs h ih => simp only [sweep, hf, h, ih, List.map_cons]
  | case3 lo a as b bs h ih => simp only [sweep, hf, h, ih, List.map_cons]
  | case4 lo bs => simp only [sweep, List.map_nil]
  | case5 lo a as => simp only [sweep, List.map_nil]

end Sweep

end SlotLayout
