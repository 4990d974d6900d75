import Mathlib.Data.List.Sort
import SlotLayout.Proofs.Alignment

/-!
# No changes

Two slots are aligned without a change if and only if they have the same to show at every byte
(`Slot.unchanged_iff_seen`): the same name and normalised label, or nothing. Sizes are never
compared. Still, if no two values of a slot look alike and none looks like a gap, such slots have
the same values at the same offsets and of the same sizes (`Slot.outlines_eq_iff_seen`), and so do
lists of slots that are aligned without a change (`align_unchanged_iff`).
-/

namespace SlotLayout

/-- What a comparison looks at in a value: its name, and its type label without lengths. -/
def Entry.key (e : Entry) : String × String := (e.name, Label.normalize e.typeLabel)

/-- What a comparison looks at in a segment. -/
def Segment.key (g : Segment) : String × String := (g.name, Label.normalize g.typeLabel)

/-- What a comparison looks at in a value, and where the value lies. -/
structure Outline where
  key : String × String
  offset : Nat
  size : Nat
  deriving DecidableEq

/-- The outline of a value. -/
def Entry.outline (e : Entry) : Outline := ⟨e.key, e.offset, e.size⟩

/-- The slot is well formed, its values have bytes, and each can be told from the others and from a
gap by what a comparison looks at. -/
structure Slot.Distinct (s : Slot) : Prop where
  wellFormed : s.WellFormed
  size_pos : ∀ e ∈ s.entries, 0 < e.size
  nodup : (s.entries.map Entry.key).Nodup
  key_ne : ∀ e ∈ s.entries, e.key ≠ ("", "")

/-- What there is to see at a byte: the value over it, or nothing. -/
def Seen (es : List Entry) (byte : Nat) (key : String × String) : Prop :=
  (∃ e ∈ es, e.Covers byte ∧ e.key = key) ∨ (∀ e ∈ es, ¬ e.Covers byte) ∧ key = ("", "")

/-! ## Pairs of slots -/

theorem Segment.sameAs_iff_key (s t : Segment) : s.sameAs t = true ↔ s.key = t.key := by
  rw [Segment.sameAs_iff, Segment.key, Segment.key, Prod.mk.injEq]

theorem Segment.Shows.seen {g : Segment} {es : List Entry} {u : Span} {byte : Nat}
    (h : g.Shows es u byte) : Seen es byte g.key := by
  obtain ⟨-, -, ⟨e, he, hcov, rfl⟩ | ⟨hnone, hgap, -⟩⟩ := h
  · exact .inl ⟨e, he, hcov, rfl⟩
  · exact .inr ⟨hnone, by rw [hgap]; rfl⟩

namespace Slot

variable {a b s : Slot}

theorem WellFormed.key_eq_of_covers (h : s.WellFormed) {e f : Entry} (he : e ∈ s.entries)
    (hf : f ∈ s.entries) {byte : Nat} (hce : e.Covers byte) (hcf : f.Covers byte) :
    e.key = f.key :=
  congrArg Segment.key ((tiles_segments h (Nat.le_refl _)).unique (ofEntry_mem_segmentsFrom he) hce
    (ofEntry_mem_segmentsFrom hf) hcf)

theorem WellFormed.seen_unique (h : s.WellFormed) {byte : Nat} {k l : String × String}
    (hk : Seen s.entries byte k) (hl : Seen s.entries byte l) : k = l := by
  rcases hk with ⟨e, he, hce, rfl⟩ | ⟨hnone, rfl⟩
  · rcases hl with ⟨f, hf, hcf, rfl⟩ | ⟨hnone, -⟩
    · exact h.key_eq_of_covers he hf hce hcf
    · exact absurd hce (hnone e he)
  · rcases hl with ⟨f, hf, hcf, -⟩ | ⟨-, rfl⟩
    · exact absurd hcf (hnone f hf)
    · rfl

/-- There is nothing to see behind the claimed bytes. -/
theorem WellFormed.seen_of_le (h : s.WellFormed) {byte : Nat} (hle : s.reserved ≤ byte) :
    Seen s.entries byte ("", "") := by
  refine .inr ⟨fun e he hcov => ?_, rfl⟩
  have := (Laid.entry_le h e he).2
  have := hcov.2
  omega

theorem unchanged_iff : (a.pairWith b).hasChanges = false ↔
    ∀ u ∈ (a.pairWith b).spans, u.a.key = u.b.key := by
  rw [SlotPair.hasChanges, List.any_eq_false]
  refine forall₂_congr fun u hu => ?_
  rw [changed_pairWith hu, Bool.not_eq_true', Bool.not_eq_false, Segment.sameAs_iff_key]

/-- Slots whose values have bytes are aligned without a change if and only if both have the same to
show at every byte. -/
theorem unchanged_iff_seen (ha : a.WellFormed) (hb : b.WellFormed)
    (hsize : ∀ e ∈ a.entries ++ b.entries, 0 < e.size) : (a.pairWith b).hasChanges = false ↔
      ∀ byte, ∃ key, Seen a.entries byte key ∧ Seen b.entries byte key := by
  rw [unchanged_iff]
  constructor
  · intro hsame byte
    rcases Nat.lt_or_ge byte (max a.reserved b.reserved) with hlt | hge
    · obtain ⟨u, hu, hA, hB⟩ := (pairWith_exact ha hb).shows byte hlt
      exact ⟨u.a.key, hA.seen, hsame u (of_covering_eq_singleton hu).1 ▸ hB.seen⟩
    · exact ⟨("", ""), ha.seen_of_le (by omega), hb.seen_of_le (by omega)⟩
  · intro hseen u hu
    -- A stretch has a first byte, and its sides are what there is to see at that byte.
    have hproper := (pairWith_coarsest ha hb hsize).proper u hu
    have hw := within_pairWith ha hb hu
    have hA := Segment.shows_of_mem ha (Nat.le_max_left ..) hw.mem_a ⟨Nat.le_refl _, hproper⟩
      hw.start_a hw.stop_a
    have hB := Segment.shows_of_mem hb (Nat.le_max_right ..) hw.mem_b ⟨Nat.le_refl _, hproper⟩
      hw.start_b hw.stop_b
    obtain ⟨key, hkA, hkB⟩ := hseen u.start
    rw [ha.seen_unique hA.seen hkA, hb.seen_unique hB.seen hkB]

/-! ## Values and what they show -/

/-- Where both slots have the same to show, a value of one lies within one of the other that looks
alike. -/
theorem exists_around (ha : a.Distinct) (hb : b.Distinct)
    (hseen : ∀ byte, ∃ key, Seen a.entries byte key ∧ Seen b.entries byte key) {e : Entry}
    (he : e ∈ a.entries) :
    ∃ f ∈ b.entries, f.key = e.key ∧ f.offset ≤ e.offset ∧ e.stop ≤ f.stop := by
  have hover : ∀ byte, e.Covers byte → ∃ f ∈ b.entries, f.Covers byte ∧ f.key = e.key := by
    intro byte hcov
    obtain ⟨key, hA, hB⟩ := hseen byte
    have hkey := ha.wellFormed.seen_unique hA (.inl ⟨e, he, hcov, rfl⟩)
    rcases hB with ⟨f, hf, hcf, hfkey⟩ | ⟨-, hgap⟩
    · exact ⟨f, hf, hcf, hfkey.trans hkey⟩
    · exact absurd (hkey.symm.trans hgap) (ha.key_ne e he)
  have hpos : e.offset < e.stop := Nat.lt_add_of_pos_right (ha.size_pos e he)
  obtain ⟨f, hf, hfirst, hkey⟩ := hover e.offset ⟨Nat.le_refl _, hpos⟩
  obtain ⟨g, hg, hlast, hkey'⟩ := hover (e.stop - 1) ⟨by omega, by omega⟩
  -- The values over the first and over the last byte look alike, so they are one.
  cases List.inj_on_of_nodup_map hb.nodup hf hg (hkey.trans hkey'.symm)
  have := hlast.2
  exact ⟨f, hf, hkey, hfirst.1, by omega⟩

theorem mem_outlines (ha : a.Distinct) (hb : b.Distinct)
    (hseen : ∀ byte, ∃ key, Seen a.entries byte key ∧ Seen b.entries byte key) {o : Outline}
    (ho : o ∈ a.entries.map Entry.outline) : o ∈ b.entries.map Entry.outline := by
  obtain ⟨e, he, rfl⟩ := List.mem_map.1 ho
  obtain ⟨f, hf, hkey, hoff, hstop⟩ := exists_around ha hb hseen he
  obtain ⟨g, hg, hkey', hoff', hstop'⟩ :=
    exists_around hb ha (fun byte => (hseen byte).imp fun _ => And.symm) hf
  cases List.inj_on_of_nodup_map ha.nodup hg he (hkey'.trans hkey)
  have hstart : f.offset = e.offset := Nat.le_antisymm hoff hoff'
  have hend : f.offset + f.size = e.offset + e.size := Nat.le_antisymm hstop' hstop
  have hsize : f.size = e.size := by omega
  refine List.mem_map.2 ⟨f, hf, ?_⟩
  rw [Entry.outline, Entry.outline, hkey, hstart, hsize]

end Slot

/-- The values begin one after the other. -/
def Outline.Before (o p : Outline) : Prop := o.offset < p.offset

instance : Std.Antisymm Outline.Before := ⟨fun _ _ h h' => absurd h (Nat.lt_asymm h')⟩

instance : Std.Irrefl Outline.Before := ⟨fun _ => Nat.lt_irrefl _⟩

theorem Laid.pairwise_before : ∀ {lo hi : Nat} {es : List Entry}, Laid lo hi es →
    (∀ e ∈ es, 0 < e.size) → (es.map Entry.outline).Pairwise Outline.Before
  | _, _, [], _, _ => .nil
  | _, _, e :: _, ⟨_, hs⟩, hsize => by
    obtain ⟨hpos, hsize⟩ := List.forall_mem_cons.1 hsize
    refine .cons (fun o ho => ?_) (hs.pairwise_before hsize)
    obtain ⟨f, hf, rfl⟩ := List.mem_map.1 ho
    exact Nat.lt_of_lt_of_le (Nat.lt_add_of_pos_right hpos) (hs.entry_le f hf).1

theorem exists_seen (es : List Entry) (byte : Nat) : ∃ key, Seen es byte key := by
  by_cases h : ∃ e ∈ es, e.Covers byte
  · obtain ⟨e, he, hcov⟩ := h
    exact ⟨e.key, .inl ⟨e, he, hcov, rfl⟩⟩
  · exact ⟨("", ""), .inr ⟨fun e he hcov => h ⟨e, he, hcov⟩, rfl⟩⟩

/-- What there is to see at a byte is known from the outlines. -/
theorem Seen.of_outlines {es fs : List Entry} (h : es.map Entry.outline = fs.map Entry.outline)
    {byte : Nat} {key : String × String} (hseen : Seen es byte key) : Seen fs byte key := by
  have hover : ∀ {es fs : List Entry}, es.map Entry.outline = fs.map Entry.outline → ∀ e ∈ es,
      e.Covers byte → ∃ f ∈ fs, f.Covers byte ∧ f.key = e.key := by
    intro es fs h e he hcov
    obtain ⟨f, hf, hfe⟩ := List.mem_map.1 (h ▸ List.mem_map_of_mem he)
    obtain ⟨hkey, hoff, hsize⟩ := Outline.mk.injEq .. ▸ hfe
    refine ⟨f, hf, ?_, hkey⟩
    rwa [Entry.Covers, Entry.stop, hoff, hsize]
  rcases hseen with ⟨e, he, hcov, rfl⟩ | ⟨hnone, rfl⟩
  · exact .inl (hover h e he hcov)
  · refine .inr ⟨fun f hf hcov => ?_, rfl⟩
    obtain ⟨e, he, hcov, -⟩ := hover h.symm f hf hcov
    exact hnone e he hcov

/-- Slots whose values can be told apart show the same everywhere if and only if they have the same
values but for what a comparison does not look at. -/
theorem Slot.outlines_eq_iff_seen {a b : Slot} (ha : a.Distinct) (hb : b.Distinct) :
    (∀ byte, ∃ key, Seen a.entries byte key ∧ Seen b.entries byte key) ↔
      a.entries.map Entry.outline = b.entries.map Entry.outline := by
  constructor
  · intro hseen
    refine List.Pairwise.eq_of_mem_iff (ha.wellFormed.pairwise_before ha.size_pos)
      (hb.wellFormed.pairwise_before hb.size_pos) fun o => ⟨mem_outlines ha hb hseen, ?_⟩
    exact mem_outlines hb ha fun byte => (hseen byte).imp fun _ => And.symm
  · intro hsame byte
    obtain ⟨key, hkey⟩ := exists_seen a.entries byte
    exact ⟨key, hkey, hkey.of_outlines hsame⟩

/-! ## Lists of slots -/

/-- The values of the slot at a position, of which there are none behind the last slot. -/
def valuesAt (ss : List Slot) (k : Nat) : List Entry := (ss[k]?.map Slot.entries).getD []

theorem entries_slotAt (ss : List Slot) (k : Nat) (index : Word) :
    (slotAt ss k index).entries = valuesAt ss k := by
  unfold slotAt valuesAt
  cases ss[k]? <;> rfl

theorem Slot.distinct_blank (index : Word) : (Slot.blank index).Distinct where
  wellFormed := wellFormed_blank index
  size_pos := nofun
  nodup := .nil
  key_ne := nofun

theorem distinct_slotAt {ss : List Slot} (hs : ∀ s ∈ ss, s.Distinct) (k : Nat) (index : Word) :
    (slotAt ss k index).Distinct :=
  holds_slotAt Slot.distinct_blank hs k index

/-- Lists of slots whose values can be told apart are aligned without a change if and only if at
every position they have the same values: as many, which agree in turn in name, in normalised label,
in offset and in size. -/
theorem align_unchanged_iff {pad : Bool} {as bs : List Slot} {pairs : List SlotPair}
    (ha : ∀ s ∈ as, s.Distinct) (hb : ∀ s ∈ bs, s.Distinct) (h : align pad as bs = .ok pairs) :
    (∀ p ∈ pairs, p.hasChanges = false) ↔
      ∀ k, (valuesAt as k).map Entry.outline = (valuesAt bs k).map Entry.outline := by
  have hpair : ∀ (k : Nat) (p : SlotPair), pairs[k]? = some p → (p.hasChanges = false ↔
      (valuesAt as k).map Entry.outline = (valuesAt bs k).map Entry.outline) := by
    intro k p hp
    have hA := distinct_slotAt ha k p.index
    have hB := distinct_slotAt hb k p.index
    have hsize : ∀ e ∈ (slotAt as k p.index).entries ++ (slotAt bs k p.index).entries, 0 < e.size :=
      fun e he => (List.mem_append.1 he).elim (hA.size_pos e) (hB.size_pos e)
    have hiff := (Slot.unchanged_iff_seen hA.wellFormed hB.wellFormed hsize).trans
      (Slot.outlines_eq_iff_seen hA hB)
    rwa [← eq_pairWith_of_align h hp, entries_slotAt, entries_slotAt] at hiff
  constructor
  · intro hsame k
    cases hp : pairs[k]? with
    | some p => exact (hpair k p hp).1 (hsame p (List.mem_of_getElem? hp))
    | none =>
      have hle : max as.length bs.length ≤ k := length_of_align h ▸ List.getElem?_eq_none_iff.1 hp
      rw [valuesAt, valuesAt, List.getElem?_eq_none (by omega), List.getElem?_eq_none (by omega)]
  · intro hsame p hp
    obtain ⟨k, hk⟩ := List.mem_iff_getElem?.1 hp
    exact (hpair k p hk).2 (hsame k)

/-- An array that has grown within its bytes and a slot that is claimed but has no values. -/
theorem align_unchanged_iff_array :
    let s : Slot := ⟨.zero, 6, 6, [⟨"n", "t_bool", "bool", .inplace, 0, 1⟩,
      ⟨"xs", "t_xs3", "bytes1[3]", .inplace, 2, 4⟩]⟩
    let t : Slot := ⟨.zero, 32, 5, [⟨"n", "t_flag", "bool", .inplace, 0, 1⟩,
      ⟨"xs", "t_xs4", "bytes1[4]", .inplace, 2, 4⟩]⟩
    let t' : Slot := ⟨⟨1, by decide⟩, 32, 0, []⟩
    ∃ pairs, align true [s] [t, t'] = .ok pairs ∧
      (∀ s' ∈ [s], s'.Distinct) ∧ (∀ s' ∈ [t, t'], s'.Distinct) ∧
      (∀ k, (valuesAt [s] k).map Entry.outline = (valuesAt [t, t'] k).map Entry.outline) ∧
        ∀ p ∈ pairs, p.hasChanges = false := by
  intro s t t'
  have h : align true [s] [t, t'] = .ok [s.pairWith t, (Slot.blank t'.index).pairWith t'] :=
    align_eq_ok_iff.2 ⟨.inr rfl, by decide, rfl⟩
  have hA : ∀ s' ∈ [s], s'.Distinct := List.forall_mem_singleton.2
    ⟨by decide, by decide, by decide +kernel, by decide +kernel⟩
  have hB : ∀ s' ∈ [t, t'], s'.Distinct := List.forall_mem_cons.2
    ⟨⟨by decide, by decide, by decide +kernel, by decide +kernel⟩,
      List.forall_mem_singleton.2 ⟨by decide, nofun, .nil, nofun⟩⟩
  have hvalues : ∀ k, (valuesAt [s] k).map Entry.outline = (valuesAt [t, t'] k).map Entry.outline
    | 0 => by decide +kernel
    | 1 => rfl
    | _ + 2 => rfl
  exact ⟨_, h, hA, hB, hvalues, (align_unchanged_iff hA hB h).2 hvalues⟩

end SlotLayout
