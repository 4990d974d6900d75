import SlotLayout.Alignment
import SlotLayout.Proofs.Sweep

/-!
# Segments of well-formed slots

A slot is well formed if its values follow one another and none ends after the claimed bytes
(`Slot.WellFormed`). The segments of such a slot tile it (`tiles_segments`): every value is one of
them, and the others are gaps that no value reaches into (`mem_segments`).
-/

namespace SlotLayout

/-- The values follow one another within the bytes from `lo` to `hi`. -/
def Laid : Nat → Nat → List Entry → Prop
  | lo, hi, [] => lo ≤ hi
  | lo, hi, e :: es => lo ≤ e.offset ∧ Laid e.stop hi es

instance instDecidableLaid : ∀ (lo hi : Nat) (es : List Entry), Decidable (Laid lo hi es)
  | lo, hi, [] => inferInstanceAs (Decidable (lo ≤ hi))
  | lo, hi, e :: es =>
    have := instDecidableLaid e.stop hi es
    inferInstanceAs (Decidable (lo ≤ e.offset ∧ Laid e.stop hi es))

theorem Entry.offset_le_stop (e : Entry) : e.offset ≤ e.stop := Nat.le_add_right ..

theorem Laid.le : ∀ {lo hi : Nat} {es : List Entry}, Laid lo hi es → lo ≤ hi
  | _, _, [], h => h
  | _, _, e :: _, ⟨h, hs⟩ => Nat.le_trans (Nat.le_trans h e.offset_le_stop) hs.le

theorem Laid.entry_le : ∀ {lo hi : Nat} {es : List Entry}, Laid lo hi es →
    ∀ e ∈ es, lo ≤ e.offset ∧ e.stop ≤ hi
  | _, _, f :: fs, ⟨h, hs⟩, e, he => by
    have := f.offset_le_stop
    rcases List.mem_cons.1 he with rfl | he
    · exact ⟨h, hs.le⟩
    · have := hs.entry_le e he
      omega

theorem Laid.append_singleton : ∀ {lo mid hi : Nat} {es : List Entry} {e : Entry},
    Laid lo mid es → mid ≤ e.offset → e.stop ≤ hi → Laid lo hi (es ++ [e])
  | _, _, _, [], _, h, he, hs => ⟨Nat.le_trans h he, hs⟩
  | _, _, _, _ :: _, _, ⟨h, hl⟩, he, hs => ⟨h, hl.append_singleton he hs⟩

theorem Laid.mono : ∀ {lo hi hi' : Nat} {es : List Entry}, Laid lo hi es → hi ≤ hi' → Laid lo hi' es
  | _, _, _, [], h, hh => Nat.le_trans h hh
  | _, _, _, _ :: _, ⟨h, hs⟩, hh => ⟨h, hs.mono hh⟩

/-- The values follow one another, and none ends after the claimed bytes. -/
def Slot.WellFormed (s : Slot) : Prop := Laid 0 s.reserved s.entries

instance (s : Slot) : Decidable s.WellFormed := instDecidableLaid ..

theorem Slot.wellFormed_blank (index : Word) : (Slot.blank index).WellFormed := Nat.le_refl 0

/-- The value lies over the byte. -/
def Entry.Covers (e : Entry) (byte : Nat) : Prop := e.offset ≤ byte ∧ byte < e.stop

/-! ## Segments -/

theorem Segment.stop_gap {lo hi : Nat} (h : lo ≤ hi) : (Segment.gap lo (hi - lo)).stop = hi :=
  Nat.add_sub_of_le h

/-- On values that follow one another, the byte dealt with is the end of the last value. -/
theorem segmentsFrom_cons {span covered : Nat} {e : Entry} {es : List Entry}
    (h : covered ≤ e.offset) : segmentsFrom span covered (e :: es) =
      (if covered < e.offset then [.gap covered (e.offset - covered)] else []) ++
        .ofEntry e :: segmentsFrom span e.stop es := by
  rw [segmentsFrom, Nat.max_eq_right (Nat.le_trans h e.offset_le_stop)]

theorem tiles_segmentsFrom {span : Nat} : ∀ {covered hi : Nat} {es : List Entry},
    Laid covered hi es → hi ≤ span →
      Tiles Segment.offset Segment.stop covered span (segmentsFrom span covered es)
  | covered, hi, [], h, hs => by
    have hle : covered ≤ span := Nat.le_trans h hs
    rw [segmentsFrom]
    split
    · exact ⟨rfl, Nat.le_add_right .., Segment.stop_gap hle⟩
    · show covered = span
      omega
  | covered, hi, e :: es, ⟨h, hl⟩, hs => by
    have ih := tiles_segmentsFrom hl hs
    rw [segmentsFrom_cons h]
    split
    · have hstop := Segment.stop_gap h
      refine ⟨rfl, by omega, ?_⟩
      rw [hstop]
      exact ⟨rfl, e.offset_le_stop, ih⟩
    · exact ⟨by show e.offset = covered; omega, Nat.le_trans h e.offset_le_stop, ih⟩

/-- A gap of some bytes with none of a value's bytes among them. -/
def Segment.Free (g : Segment) (es : List Entry) : Prop :=
  g = .gap g.offset g.size ∧ 0 < g.size ∧ ∀ e ∈ es, e.stop ≤ g.offset ∨ g.stop ≤ e.offset

theorem mem_segmentsFrom {span : Nat} {g : Segment} : ∀ {covered hi : Nat} {es : List Entry},
    Laid covered hi es → hi ≤ span → g ∈ segmentsFrom span covered es →
      (∃ e ∈ es, g = .ofEntry e) ∨ covered ≤ g.offset ∧ g.Free es
  | covered, hi, [], _, _, hg => by
    rw [segmentsFrom] at hg
    split at hg
    · rename_i hlt
      rw [List.mem_singleton.1 hg]
      exact .inr ⟨Nat.le_refl _, rfl, by show 0 < span - covered; omega, by simp⟩
    · cases hg
  | covered, hi, e :: es, ⟨h, hl⟩, hs, hg => by
    rw [segmentsFrom_cons h] at hg
    rcases List.mem_append.1 hg with hg | hg
    · split at hg
      · rename_i hlt
        have hstop := Segment.stop_gap h
        rw [List.mem_singleton.1 hg]
        refine .inr ⟨Nat.le_refl _, rfl, by show 0 < e.offset - covered; omega, fun f hf => ?_⟩
        rw [hstop]
        rcases List.mem_cons.1 hf with rfl | hf
        · exact .inr (Nat.le_refl _)
        · exact .inr (Nat.le_trans e.offset_le_stop (hl.entry_le f hf).1)
      · cases hg
    · rcases List.mem_cons.1 hg with rfl | hg
      · exact .inl ⟨e, List.mem_cons_self, rfl⟩
      · rcases mem_segmentsFrom hl hs hg with ⟨f, hf, rfl⟩ | ⟨hle, hgap, hpos, hfree⟩
        · exact .inl ⟨f, List.mem_cons_of_mem _ hf, rfl⟩
        · have := e.offset_le_stop
          refine .inr ⟨by omega, hgap, hpos, fun f hf => ?_⟩
          rcases List.mem_cons.1 hf with rfl | hf
          · exact .inl hle
          · exact hfree f hf

theorem ofEntry_mem_segmentsFrom {span : Nat} {e : Entry} : ∀ {covered : Nat} {es : List Entry},
    e ∈ es → Segment.ofEntry e ∈ segmentsFrom span covered es
  | _, _ :: _, he => by
    rw [segmentsFrom]
    refine List.mem_append_right _ ?_
    rcases List.mem_cons.1 he with rfl | he
    · exact List.mem_cons_self
    · exact List.mem_cons_of_mem _ (ofEntry_mem_segmentsFrom he)

/-- Whatever the values are, their segments are values and gaps. -/
theorem ofEntry_or_gap_of_mem {span : Nat} {g : Segment} : ∀ {covered : Nat} {es : List Entry},
    g ∈ segmentsFrom span covered es → (∃ e ∈ es, g = .ofEntry e) ∨ g = .gap g.offset g.size
  | covered, [], hg => by
    rw [segmentsFrom] at hg
    split at hg
    · rw [List.mem_singleton.1 hg]
      exact .inr rfl
    · cases hg
  | covered, e :: es, hg => by
    rw [segmentsFrom] at hg
    rcases List.mem_append.1 hg with hg | hg
    · split at hg
      · rw [List.mem_singleton.1 hg]
        exact .inr rfl
      · cases hg
    · rcases List.mem_cons.1 hg with rfl | hg
      · exact .inl ⟨e, List.mem_cons_self, rfl⟩
      · exact (ofEntry_or_gap_of_mem hg).imp_left fun ⟨f, hf, hgf⟩ =>
          ⟨f, List.mem_cons_of_mem _ hf, hgf⟩

/-- The segments of values do not depend on the values that come after them, and the segments of
those start after the last byte of the values before them. -/
theorem segmentsFrom_append : ∀ (covered : Nat) (es : List Entry), ∃ front reach, covered ≤ reach ∧
    (∀ e ∈ es, e.stop ≤ reach) ∧
      ∀ span fs, segmentsFrom span covered (es ++ fs) = front ++ segmentsFrom span reach fs
  | covered, [] => ⟨[], covered, Nat.le_refl _, nofun, fun _ _ => rfl⟩
  | covered, e :: es => by
    obtain ⟨front, reach, hle, hes, happ⟩ := segmentsFrom_append (max covered e.stop) es
    refine ⟨(if covered < e.offset then [.gap covered (e.offset - covered)] else []) ++
      .ofEntry e :: front, reach, by omega, List.forall_mem_cons.2 ⟨by omega, hes⟩, ?_⟩
    intro span fs
    rw [List.cons_append, segmentsFrom, happ, List.append_assoc, List.cons_append]

/-- Segments end where a value begins or ends, and at the end of the span. -/
theorem cut_segmentsFrom {span : Nat} (n : Nat) : ∀ {covered hi : Nat} {es : List Entry},
    Laid covered hi es → hi ≤ span →
      ((n = covered ∨ ∃ g ∈ segmentsFrom span covered es, g.stop = n) ↔
        n = covered ∨ n = span ∨ ∃ e ∈ es, e.offset = n ∨ e.stop = n)
  | covered, hi, [], h, hs => by
    have hle : covered ≤ span := Nat.le_trans h hs
    rw [segmentsFrom]
    split
    · have hstop := Segment.stop_gap hle
      simp [hstop, eq_comm]
    · simp
      omega
  | covered, hi, e :: es, ⟨h, hl⟩, hs => by
    have ih := cut_segmentsFrom n hl hs
    have hentry : (Segment.ofEntry e).stop = e.stop := rfl
    rw [segmentsFrom_cons h]
    split
    · have hstop := Segment.stop_gap h
      simp only [List.cons_append, List.nil_append, List.exists_mem_cons_iff, hstop, hentry]
      grind
    · simp only [List.nil_append, List.exists_mem_cons_iff, hentry]
      grind

namespace Slot

variable {s : Slot} {span : Nat}

theorem tiles_segments (h : s.WellFormed) (hs : s.reserved ≤ span) :
    Tiles Segment.offset Segment.stop 0 span (s.segments span) :=
  tiles_segmentsFrom h hs

theorem mem_segments {g : Segment} (h : s.WellFormed) (hs : s.reserved ≤ span)
    (hg : g ∈ s.segments span) : (∃ e ∈ s.entries, g = .ofEntry e) ∨ g.Free s.entries :=
  (mem_segmentsFrom h hs hg).imp_right And.right

theorem cut_segments (h : s.WellFormed) (hs : s.reserved ≤ span) (n : Nat) :
    (n = 0 ∨ ∃ g ∈ s.segments span, g.stop = n) ↔
      n = 0 ∨ n = span ∨ ∃ e ∈ s.entries, e.offset = n ∨ e.stop = n :=
  cut_segmentsFrom n h hs

end Slot

end SlotLayout
