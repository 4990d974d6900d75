import SlotLayout.Proofs.Tilings

/-!
# What flattening gives

Slots flatten unless one of them reaches beyond the end of storage, and the report names the first
one that does (`flattenFrom_eq_error_iff`). What they flatten to is built up from their values, each
strung behind the others with a gap before it where bytes are left out (`Strung`), first within a
slot (`strung_of_flattenEntries`) and then over all slots (`strung_of_flattenFrom`); `flatten_exact`
says it of the whole.
-/

namespace SlotLayout

/-! ## The end of storage -/

/-- The slot starts beyond the end of storage, or one of its values does not end before it. -/
def Slot.Beyond (s : Slot) : Prop :=
  wordCount ≤ slotSize * s.index.val ∨ ∃ e ∈ s.entries, wordCount ≤ slotSize * s.index.val + e.stop

instance (s : Slot) : Decidable s.Beyond := inferInstanceAs (Decidable (_ ∨ _))

theorem Word.add?_eq_none_iff {w : Word} {n : Nat} : w.add? n = none ↔ wordCount ≤ w.val + n :=
  ofNat?_eq_none_iff

theorem Word.scale?_eq_none_iff {w : Word} {n : Nat} : w.scale? n = none ↔ wordCount ≤ n * w.val :=
  ofNat?_eq_none_iff

theorem inStorage_eq_error_iff {index : Word} {w? : Option Word} {r : Report Alignment.Error} :
    inStorage index w? = .error r ↔ w? = none ∧ r = byteOffsetOverflow index := by
  cases w? with
  | none => simp [inStorage, eq_comm]
  | some v => simp [inStorage]

/-- Values flatten unless one of them does not end in storage. -/
theorem flattenEntries_eq_error_iff {index base covered : Word} {es : List Entry}
    {r : Report Alignment.Error} : flattenEntries index base covered es = .error r ↔
      r = byteOffsetOverflow index ∧ ∃ e ∈ es, wordCount ≤ base.val + e.stop := by
  induction es generalizing covered with
  | nil => simp [flattenEntries]
  | cons e es ih =>
    have hend : e.stop = e.offset + e.size := rfl
    simp only [flattenEntries, bind_eq_error_iff, inStorage_eq_error_iff, inStorage_eq_ok_iff, ih,
      List.exists_mem_cons_iff]
    constructor
    · rintro (⟨hs, rfl⟩ | ⟨start, hs, ⟨hs', rfl⟩ | ⟨stop, -, ⟨rfl, h⟩ | ⟨_, -, h⟩⟩⟩)
      · have := Word.add?_eq_none_iff.1 hs
        exact ⟨rfl, .inl (by omega)⟩
      · have := Word.val_add? hs
        have := Word.add?_eq_none_iff.1 hs'
        exact ⟨rfl, .inl (by omega)⟩
      · exact ⟨rfl, .inr h⟩
      · cases h
    · rintro ⟨rfl, h⟩
      cases hs : base.add? e.offset with
      | none => exact .inl ⟨rfl, rfl⟩
      | some start =>
        refine .inr ⟨start, rfl, ?_⟩
        cases hs' : start.add? e.size with
        | none => exact .inl ⟨rfl, rfl⟩
        | some stop =>
          have := Word.val_add? hs
          have := Word.val_add? hs'
          have := stop.isLt
          exact .inr ⟨stop, rfl, .inl ⟨rfl, h.resolve_left (by omega)⟩⟩

theorem flattenFrom_cons_of_beyond {covered : Option Word} {s : Slot} {ss : List Slot}
    (h : s.Beyond) : flattenFrom covered (s :: ss) = .error (byteOffsetOverflow s.index) := by
  rw [flattenFrom, bind_eq_error_iff, slotBase, inStorage_eq_error_iff]
  cases hb : s.index.scale? slotSize with
  | none => exact .inl ⟨rfl, rfl⟩
  | some base =>
    have hval := Word.val_scale? hb
    have hlt := base.isLt
    have he : ∃ e ∈ s.entries, wordCount ≤ base.val + e.stop :=
      hval ▸ h.resolve_left (by omega)
    refine .inr ⟨base, rfl, ?_⟩
    rw [flattenEntries_eq_error_iff.2 ⟨rfl, he⟩]
    rfl

theorem flattenFrom_cons_of_not_beyond {s : Slot} (h : ¬ s.Beyond) (covered : Option Word)
    (ss : List Slot) : ∃ base is covered', base.val = slotSize * s.index.val ∧
      flattenEntries s.index base (covered.getD base) s.entries = .ok (is, covered') ∧
        flattenFrom covered (s :: ss) = (flattenFrom (some covered') ss).map (is ++ ·) := by
  obtain ⟨hbase, hentries⟩ := not_or.1 h
  cases hb : s.index.scale? slotSize with
  | none => exact absurd (Word.scale?_eq_none_iff.1 hb) hbase
  | some base =>
    have hval := Word.val_scale? hb
    cases hf : flattenEntries s.index base (covered.getD base) s.entries with
    | error r =>
      obtain ⟨-, e, he, hend⟩ := flattenEntries_eq_error_iff.1 hf
      exact absurd ⟨e, he, hval ▸ hend⟩ hentries
    | ok r =>
      refine ⟨base, r.1, r.2, hval, hf, ?_⟩
      rw [flattenFrom, slotBase, inStorage_eq_ok_iff.2 hb]
      simp only [bind, Except.bind, hf]
      cases flattenFrom (some r.2) ss <;> rfl

/-- Slots flatten unless one of them reaches beyond the end of storage. -/
theorem flattenFrom_eq_error_iff {covered : Option Word} {ss : List Slot}
    {r : Report Alignment.Error} : flattenFrom covered ss = .error r ↔
      ∃ s, ss.find? (·.Beyond) = some s ∧ r = byteOffsetOverflow s.index := by
  induction ss generalizing covered with
  | nil => simp [flattenFrom]
  | cons s ss ih =>
    by_cases hs : s.Beyond
    · rw [flattenFrom_cons_of_beyond hs]
      simp [hs, eq_comm]
    · obtain ⟨base, is, covered', -, -, h⟩ := flattenFrom_cons_of_not_beyond hs covered ss
      rw [h, map_eq_error_iff, ih]
      simp [hs]

/-! ## Values on a string -/

/-- A value of storage: an entry of a slot, and the position that its offset counts from. -/
structure Placed where
  base : Nat
  entry : Entry

namespace Placed

/-- The position of the first byte. -/
def lo (v : Placed) : Nat := v.base + v.entry.offset

/-- The position after the last byte. -/
def hi (v : Placed) : Nat := v.base + v.entry.stop

end Placed

/-- The values of slots in order. -/
def placedValues (slots : List Slot) : List Placed :=
  slots.flatMap fun s => s.entries.map (⟨slotSize * s.index.val, ·⟩)

/-- An interval with the value that it stands for; none if it is a gap that was put in. -/
structure Sourced where
  interval : Interval
  source : Option Placed

/-- The interval is that of its value or, if it has none, a gap with bytes in it that meets none of
the values `vs`. -/
def Sourced.Fits (vs : List Placed) (p : Sourced) : Prop :=
  match p.source with
  | some v => p.interval.Of v.base v.entry
  | none => p.interval = .gap p.interval.start p.interval.stop ∧ p.interval.lo < p.interval.hi ∧
      ∀ v ∈ vs, v.hi ≤ p.interval.lo ∨ p.interval.hi ≤ v.lo

/-- The intervals are those of the values `vs` in order, with gaps put in. -/
def Interspersed (vs : List Placed) (is : List Interval) : Prop :=
  ∃ ps : List Sourced, ps.map (·.interval) = is ∧ ps.filterMap (·.source) = vs ∧
    ∀ p ∈ ps, p.Fits vs

/-- The intervals tile what lies between `lo` and the end of the last of the values `vs`, with gaps
put in between the values only. -/
structure Strung (lo hi : Nat) (vs : List Placed) (is : List Interval) : Prop where
  tiles : Tiles Interval.lo Interval.hi lo hi is
  hi_eq : hi = (vs.getLast?.map Placed.hi).getD lo
  nil : vs = [] → is = []
  interspersed : Interspersed vs is

namespace Interspersed

variable {vs : List Placed} {is : List Interval}

/-- Every value has its interval. -/
theorem exists_of (h : Interspersed vs is) {v : Placed} (hv : v ∈ vs) :
    ∃ i ∈ is, i.Of v.base v.entry := by
  obtain ⟨ps, rfl, rfl, hfits⟩ := h
  obtain ⟨p, hp, hsource⟩ := List.mem_filterMap.1 hv
  have hof := hfits p hp
  rw [Sourced.Fits, hsource] at hof
  exact ⟨p.interval, List.mem_map_of_mem hp, hof⟩

/-- Every interval is a gap or that of a value. -/
theorem gap_or_of (h : Interspersed vs is) {i : Interval} (hi : i ∈ is) :
    i = .gap i.start i.stop ∨ ∃ v ∈ vs, i.Of v.base v.entry := by
  obtain ⟨ps, rfl, rfl, hfits⟩ := h
  obtain ⟨p, hp, rfl⟩ := List.mem_map.1 hi
  have hp' := hfits p hp
  unfold Sourced.Fits at hp'
  split at hp'
  · rename_i v hsource
    exact .inr ⟨v, List.mem_filterMap.2 ⟨p, hp, hsource⟩, hp'⟩
  · exact .inl hp'.1

end Interspersed

/-- There may be more values around a gap. -/
theorem Sourced.Fits.mono {vs ws : List Placed} {p : Sourced} (h : p.Fits vs)
    (hws : ∀ w ∈ ws, w ∈ vs ∨ w.hi ≤ p.interval.lo ∨ p.interval.hi ≤ w.lo) : p.Fits ws := by
  unfold Sourced.Fits at *
  split
  · rename_i v hsource
    rw [hsource] at h
    exact h
  · rename_i hsource
    rw [hsource] at h
    obtain ⟨hgap, hlt, hvs⟩ := h
    exact ⟨hgap, hlt, fun w hw => (hws w hw).elim (hvs w) id⟩

namespace Strung

variable {lo mid hi : Nat} {vs ws : List Placed} {is js : List Interval}

theorem range_le (h : Strung lo hi vs is) {v : Placed} (hv : v ∈ vs) : lo ≤ v.lo ∧ v.hi ≤ hi := by
  obtain ⟨i, hi, hof⟩ := h.interspersed.exists_of hv
  have hrange := h.tiles.range_le i hi
  rw [hof.lo_eq, hof.hi_eq] at hrange
  exact ⟨hrange.1, hrange.2.2⟩

theorem empty (lo : Nat) : Strung lo lo [] [] := ⟨rfl, rfl, fun _ => rfl, [], rfl, rfl, nofun⟩

/-- One value, and a gap before it if it starts later than where all is dealt with. -/
theorem value {base covered start stop : Word} {e : Entry} (hgap : covered ≤ start)
    (hstart : start.val = base.val + e.offset) (hstop : stop.val = start.val + e.size) :
    Strung covered.val stop.val [⟨base.val, e⟩]
      ((if covered < start then [.gap covered start] else []) ++
        [⟨start, stop, e.name, e.typeLabel⟩]) where
  tiles := (Flattened.gap hgap).tiles.append
    ⟨rfl, by show start.val ≤ stop.val; omega, rfl⟩
  hi_eq := by
    show stop.val = base.val + (e.offset + e.size)
    omega
  nil := nofun
  interspersed := by
    have hof : Interval.Of ⟨start, stop, e.name, e.typeLabel⟩ base.val e :=
      ⟨hstart, by show stop.val = base.val + (e.offset + e.size); omega, rfl, rfl⟩
    split
    · rename_i hlt
      refine ⟨[⟨.gap covered start, none⟩, ⟨_, some ⟨base.val, e⟩⟩], rfl, rfl, ?_⟩
      have hbefore : ∀ v ∈ [(⟨base.val, e⟩ : Placed)], v.hi ≤ covered.val ∨ start.val ≤ v.lo := by
        intro v hv
        rw [List.mem_singleton.1 hv]
        exact .inr (Nat.le_of_eq hstart)
      exact List.forall_mem_cons.2 ⟨⟨rfl, hlt, hbefore⟩, List.forall_mem_singleton.2 hof⟩
    · exact ⟨[⟨_, some ⟨base.val, e⟩⟩], rfl, rfl, List.forall_mem_singleton.2 hof⟩

theorem append (h : Strung lo mid vs is) (h' : Strung mid hi ws js) :
    Strung lo hi (vs ++ ws) (is ++ js) where
  tiles := h.tiles.append h'.tiles
  hi_eq := by
    rw [h'.hi_eq, List.getLast?_append]
    cases ws.getLast? with
    | none => exact h.hi_eq
    | some v => rfl
  nil hnil := by
    obtain ⟨hvs, hws⟩ := List.append_eq_nil_iff.1 hnil
    rw [h.nil hvs, h'.nil hws]
    rfl
  interspersed := by
    obtain ⟨ps, hps, hvs, hfits⟩ := h.interspersed
    obtain ⟨qs, hqs, hws, hfits'⟩ := h'.interspersed
    refine ⟨ps ++ qs, by rw [List.map_append, hps, hqs],
      by rw [List.filterMap_append, hvs, hws], ?_⟩
    -- The values of the other part lie on the far side of the position where the two meet.
    refine List.forall_mem_append.2 ⟨fun p hp => (hfits p hp).mono fun w hw => ?_,
      fun q hq => (hfits' q hq).mono fun w hw => ?_⟩
    · refine (List.mem_append.1 hw).imp_right fun hw => .inr ?_
      have hmid := h.tiles.range_le p.interval (hps ▸ List.mem_map_of_mem hp)
      exact Nat.le_trans hmid.2.2 (h'.range_le hw).1
    · refine (List.mem_append.1 hw).symm.imp_right fun hw => .inl ?_
      have hmid := h'.tiles.range_le q.interval (hqs ▸ List.mem_map_of_mem hq)
      exact Nat.le_trans (h.range_le hw).2 hmid.1

end Strung

theorem strung_of_flattenEntries {index base : Word} : ∀ {lo hi : Nat} {es : List Entry}
    {covered covered' : Word} {is : List Interval}, Laid lo hi es → covered.val ≤ base.val + lo →
      flattenEntries index base covered es = .ok (is, covered') →
        Strung covered.val covered'.val (es.map (⟨base.val, ·⟩)) is ∧ covered'.val ≤ base.val + hi
  | lo, hi, [], covered, covered', is, hl, hc, h => by
    cases h
    have hle : lo ≤ hi := hl
    exact ⟨.empty _, by omega⟩
  | lo, hi, e :: es, covered, covered', is, ⟨hlo, hl⟩, hc, h => by
    obtain ⟨start, stop, rest, hstart, hstop, hrest, rfl⟩ := flattenEntries_cons h
    have hend : e.stop = e.offset + e.size := rfl
    have hmax : max covered stop = stop := by
      refine Word.ext ?_
      rw [Word.val_max]
      omega
    rw [hmax] at hrest
    obtain ⟨ih, hle⟩ := strung_of_flattenEntries hl (by omega) hrest
    have hgap : covered ≤ start := by
      show covered.val ≤ start.val
      omega
    rw [List.append_cons]
    exact ⟨(Strung.value hgap hstart hstop).append ih, hle⟩

theorem strung_of_flattenFrom : ∀ {ss : List Slot} {lo : Nat} {covered : Word}
    {is : List Interval}, Rising lo ss → covered.val ≤ lo →
      flattenFrom (some covered) ss = .ok is → ∃ hi, Strung covered.val hi (placedValues ss) is
  | [], lo, covered, is, _, _, h => by
    cases h
    exact ⟨_, .empty _⟩
  | s :: ss, lo, covered, is, ⟨hlo, hl, hr⟩, hc, h => by
    rw [flattenFrom] at h
    simp only [bind_eq_ok_iff, pure_eq_ok_iff, slotBase, inStorage_eq_ok_iff] at h
    obtain ⟨base, hbase, ⟨js, covered'⟩, hjs, rest, hrest, rfl⟩ := h
    have hval := Word.val_scale? hbase
    obtain ⟨hfirst, hle⟩ := strung_of_flattenEntries hl (by
      show covered.val ≤ base.val + 0
      omega) hjs
    obtain ⟨hi, ih⟩ := strung_of_flattenFrom hr (by rw [← hval]; exact hle) hrest
    rw [hval] at hfirst
    exact ⟨hi, hfirst.append ih⟩

/-- Before the first slot, all bytes up to its base are taken to have been dealt with. -/
theorem strung_of_flatten {s : Slot} {ss : List Slot} {is : List Interval} (hr : Rising 0 (s :: ss))
    (h : flatten (s :: ss) = .ok is) :
    ∃ hi, Strung (slotSize * s.index.val) hi (placedValues (s :: ss)) is := by
  have hsome : ∃ base : Word, base.val = slotSize * s.index.val ∧
      flattenFrom (some base) (s :: ss) = .ok is := by
    rw [flatten, flattenFrom] at h
    rw [bind_eq_ok_iff] at h
    obtain ⟨base, hbase, h⟩ := h
    refine ⟨base, Word.val_scale? (inStorage_eq_ok_iff.1 hbase), ?_⟩
    rw [flattenFrom, bind_eq_ok_iff]
    exact ⟨base, hbase, h⟩
  obtain ⟨base, hbase, h⟩ := hsome
  have hrising : Rising (slotSize * s.index.val) (s :: ss) := ⟨Nat.le_refl _, hr.2⟩
  rw [← hbase]
  exact strung_of_flattenFrom hrising (Nat.le_of_eq hbase) h

theorem mem_placedValues {slots : List Slot} {v : Placed} :
    v ∈ placedValues slots ↔ ValueAt slots v.base v.entry := by
  simp only [placedValues, List.mem_flatMap, List.mem_map, ValueAt]
  refine exists_congr fun s => and_congr_right fun _ => ⟨?_, fun ⟨hbase, he⟩ => ⟨_, he, ?_⟩⟩
  · rintro ⟨e, he, rfl⟩
    exact ⟨rfl, he⟩
  · rw [← hbase]

theorem Strung.flattened {lo hi : Nat} {slots : List Slot} {is : List Interval}
    (h : Strung lo hi (placedValues slots) is) : Flattened (ValueAt slots) lo hi is where
  tiles := h.tiles
  sound _ hi := (h.interspersed.gap_or_of hi).imp_right fun ⟨v, hv, hof⟩ =>
    ⟨v.base, v.entry, mem_placedValues.1 hv, hof⟩
  complete base e hv := h.interspersed.exists_of (v := ⟨base, e⟩) (mem_placedValues.2 hv)

/-- The intervals that slots flatten to, up to where the values of the slots lie. -/
theorem flattened_of_flatten {slots : List Slot} {is : List Interval} (hr : Rising 0 slots)
    (h : flatten slots = .ok is) : ∃ lo hi, Flattened (ValueAt slots) lo hi is := by
  cases slots with
  | nil =>
    cases h
    have hempty : Strung 0 0 (placedValues []) [] := .empty 0
    exact ⟨0, 0, hempty.flattened⟩
  | cons s ss =>
    obtain ⟨hi, hstrung⟩ := strung_of_flatten hr h
    exact ⟨_, hi, hstrung.flattened⟩

/-- There are intervals only if there are values. They tile the bytes from the first slot's base to
the end of the last value, and they are those of the values, in order, with gaps put in. -/
structure FlatExact (slots : List Slot) (is : List Interval) : Prop where
  eq_nil_iff : is = [] ↔ ∀ s ∈ slots, s.entries = []
  tiles : ∀ first last, slots.head? = some first → (placedValues slots).getLast? = some last →
    Tiles Interval.lo Interval.hi (slotSize * first.index.val) last.hi is
  interspersed : Interspersed (placedValues slots) is

theorem placedValues_eq_nil_iff {slots : List Slot} :
    placedValues slots = [] ↔ ∀ s ∈ slots, s.entries = [] := by
  simp [placedValues]

theorem flatExact_of_flatten {slots : List Slot} {is : List Interval} (hr : Rising 0 slots)
    (h : flatten slots = .ok is) : FlatExact slots is := by
  cases slots with
  | nil =>
    cases h
    exact ⟨by simp, nofun, (Strung.empty 0).interspersed⟩
  | cons s ss =>
    obtain ⟨hi, hstrung⟩ := strung_of_flatten hr h
    refine ⟨?_, ?_, hstrung.interspersed⟩
    · rw [← placedValues_eq_nil_iff]
      refine ⟨?_, hstrung.nil⟩
      rintro rfl
      obtain ⟨ps, hps, hvs, -⟩ := hstrung.interspersed
      rw [← hvs, List.map_eq_nil_iff.1 hps]
      rfl
    · intro first last hfirst hlast
      cases hfirst
      have hend : hi = last.hi := by
        rw [hstrung.hi_eq, hlast]
        rfl
      rw [← hend]
      exact hstrung.tiles

/-- Slots flatten unless one of them reaches beyond the end of storage, which the only error says of
the first such slot. The intervals of slots with rising indices whose values follow one another
within the slots are exact. -/
theorem flatten_exact (slots : List Slot) :
    ((∃ r, flatten slots = .error r) ↔ ∃ s ∈ slots, s.Beyond) ∧
      (∀ r, flatten slots = .error r → ∃ s, slots.find? (·.Beyond) = some s ∧
        r = .one (.slot s.index) (.byteOffsetOverflow s.index)) ∧
        ∀ is, flatten slots = .ok is → (slots.Pairwise fun s t => s.index < t.index) →
          (∀ s ∈ slots, Laid 0 slotSize s.entries) → FlatExact slots is := by
  have herror : ∀ r, flatten slots = .error r ↔ ∃ s, slots.find? (·.Beyond) = some s ∧
      r = .one (.slot s.index) (.byteOffsetOverflow s.index) := fun _ => flattenFrom_eq_error_iff
  refine ⟨?_, fun r => (herror r).1, fun is h hindex hl => ?_⟩
  · have hfound : (slots.find? (·.Beyond)).isSome ↔ ∃ s ∈ slots, s.Beyond := by
      simp only [List.find?_isSome, decide_eq_true_eq]
    rw [← hfound, Option.isSome_iff_exists]
    constructor
    · rintro ⟨r, hr⟩
      obtain ⟨s, hs, -⟩ := (herror r).1 hr
      exact ⟨s, hs⟩
    · rintro ⟨s, hs⟩
      exact ⟨_, (herror _).2 ⟨s, hs, rfl⟩⟩
  · exact flatExact_of_flatten (rising_of_pairwise (fun _ _ => Nat.zero_le _) hindex hl) h

/-- The first slot has no values, and an empty value lies behind the last byte of the second one. -/
theorem flatten_exact_of_sparse :
    let w (n : Nat) (h : n < wordCount) : Word := ⟨n, h⟩
    let slots : List Slot := [⟨w 1 (by decide), 32, 0, []⟩,
      ⟨w 2 (by decide), 32, 28, [⟨"a", "t_bytes28", "bytes28", .inplace, 4, 28⟩,
        ⟨"e", "t_struct(E)", "struct E", .inplace, 32, 0⟩]⟩,
      ⟨w 4 (by decide), 32, 32, [⟨"b", "t_uint256", "uint256", .inplace, 0, 32⟩]⟩]
    ∃ is, flatten slots = .ok is ∧ FlatExact slots is := by
  intro w slots
  exact ⟨_, rfl, (flatten_exact slots).2.2 _ rfl (by decide) (by decide)⟩

end SlotLayout
