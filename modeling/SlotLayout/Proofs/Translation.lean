import SlotLayout.Proofs.Outcome

/-!
# Packing from another slot on

A layout is packed alike from any slot on: from `first` on its slots are those from slot zero on,
`first` slots further (`Slot.Onward`, `Packing.Onward`). Only at the end of storage there is a
difference. As long as all slots lie in storage nothing fails, not even where the last of them is
used; where one more is needed, packing is over with this one error (`Packing.Further`,
`Collation.further_of_placeNested`). So a comparison does not depend on the first slot either, but
for the indices that it reports (`collate_translated`).
-/

namespace SlotLayout

/-- The slot `t` is the slot `s`, `n` slots further on. -/
structure Slot.Onward (n : Nat) (s t : Slot) : Prop where
  index_eq : t.index.val = n + s.index.val
  same : { s with index := t.index } = t

/-- The stretch `v` is the stretch `u`, `n` slots further on. -/
structure Span.Onward (n : Nat) (u v : Span) : Prop where
  slot_eq : v.slot.val = n + u.slot.val
  same : { u with slot := v.slot } = v

/-- The pair `q` is the pair `p`, `n` slots further on. -/
structure SlotPair.Onward (n : Nat) (p q : SlotPair) : Prop where
  index_eq : q.index.val = n + p.index.val
  spans : List.Forall₂ (Span.Onward n) p.spans q.spans
  same : { p with index := q.index, spans := q.spans } = q

/-! ## Slots and packings -/

namespace Slot.Onward

variable {n : Nat} {s t : Slot}

theorem reserved_eq (h : s.Onward n t) : s.reserved = t.reserved := by rw [← h.same]

theorem blank {i j : Word} (h : j.val = n + i.val) : (Slot.blank i).Onward n (.blank j) := ⟨h, rfl⟩

theorem close (h : s.Onward n t) : s.close.Onward n t.close :=
  ⟨h.index_eq, congrArg Slot.close h.same⟩

theorem place (h : s.Onward n t) (part : Part) (info : TypeInfo) :
    (s.place part info).Onward n (t.place part info) :=
  ⟨h.index_eq, congrArg (Slot.place · part info) h.same⟩

end Slot.Onward

namespace Packing

/-- The packing `p`, from slot zero on, and the packing `q`, from `first` on, have the same slots
but for their indices. -/
structure Onward (first : Word) (p q : Packing) : Prop where
  numbered : p.Numbered .zero
  first_eq : q.first = first
  slots : List.Forall₂ (Slot.Onward first.val) p.slots q.slots

/-- What becomes of the packing `p`, from slot zero on, if it is made from `first` on: the same
slots further on, or the report that they reach beyond the end of storage. -/
inductive Further (first : Word) (p : Packing) : Except (Report Collation.Error) Packing → Prop
  | moved {q : Packing} (h : p.Onward first q) : Further first p (.ok q)
  | beyond {path : String} (h : wordCount < first.val + p.slots.length) :
      Further first p (.error (.one (.declaration path) .slotIndexOverflow))

variable {first : Word} {types : TypeTable} {part : Part} {p p' q : Packing}

theorem onward_start (first : Word) : (start .zero).Onward first (start first) :=
  ⟨numbered_start .zero, rfl, .nil⟩

theorem Onward.modifyNewest {f : Slot → Slot} (h : p.Onward first q)
    (hindex : ∀ s, (f s).index = s.index)
    (hf : ∀ s t, s.Onward first.val t → (f s).Onward first.val (f t)) :
    (p.modifyNewest f).Onward first (q.modifyNewest f) := by
  refine ⟨h.numbered.modifyNewest hindex, (first_modifyNewest ..).trans h.first_eq, ?_⟩
  rw [slots_modifyNewest, slots_modifyNewest]
  exact forall₂_modifyHead hf h.slots

theorem Onward.close (h : p.Onward first q) : p.close.Onward first q.close :=
  h.modifyNewest (fun _ => rfl) fun _ _ hst => hst.close

/-- Further on, a slot can be opened as well, unless it lies beyond the end of storage. -/
theorem Onward.openFor {size : Nat} (h : p.Onward first q) (ho : p.openFor size = .ok p') :
    (∃ q', q.openFor size = .ok q' ∧ p'.Onward first q') ∨
      q.openFor size = .error .slotIndexOverflow ∧ wordCount < first.val + p'.slots.length := by
  have hnumbered := h.numbered.openFor ho
  rcases openFor_cases ho with ⟨hp, rfl⟩ | ⟨s, older, index, hp, h0, hfull, hi, rfl⟩ |
    ⟨s, older, hp, hroom, rfl⟩
  · have hq : q.slots = [] := List.forall₂_nil_left_iff.1 (hp ▸ h.slots)
    refine .inl ⟨_, openFor_first hq, hnumbered, h.first_eq, .cons (.blank ?_) .nil⟩
    rw [h.first_eq, h.numbered.first_eq]
    rfl
  · obtain ⟨t, ts, hst, -, hq⟩ := List.forall₂_cons_left_iff.1 (hp ▸ h.slots)
    have hnext : s.index.val + 1 = index.val := Word.ofNat?_eq_some_iff.1 hi
    have hindex := hst.index_eq
    have hres := hst.reserved_eq
    rw [Slot.remaining, hres] at hfull
    rw [hres] at h0
    cases hj : t.index.successor? with
    | some j =>
      have hval : t.index.val + 1 = j.val := Word.ofNat?_eq_some_iff.1 hj
      refine .inl ⟨_, openFor_next hq h0 hfull hj, hnumbered, h.first_eq, .cons (.blank ?_) ?_⟩
      · omega
      · exact hp ▸ hq ▸ h.slots
    | none =>
      -- The next slot would be the one after the last.
      have hlast : wordCount ≤ t.index.val + 1 := Word.ofNat?_eq_none_iff.1 hj
      have hlength : s.index.val = Word.zero.val + older.length :=
        (hp ▸ h.numbered.consecutive : Consecutive .zero (s :: older)).1
      have hzero : Word.zero.val = 0 := rfl
      refine .inr ⟨openFor_last hq h0 hfull hj, ?_⟩
      show wordCount < first.val + (older.length + 1 + 1)
      omega
  · obtain ⟨t, ts, hst, -, hq⟩ := List.forall₂_cons_left_iff.1 (hp ▸ h.slots)
    refine .inl ⟨q, openFor_newest hq ?_, h⟩
    rwa [Slot.remaining, ← hst.reserved_eq]

theorem length_modifyNewest (p : Packing) (f : Slot → Slot) :
    (p.modifyNewest f).slots.length = p.slots.length := by
  rw [slots_modifyNewest, List.length_modifyHead]

/-- Further on, a value is taken in as well, unless it needs a slot beyond the end of storage. -/
theorem Onward.arrive {parts? : Option (List Part)} (h : p.Onward first q)
    (ha : p.arrive types part = .ok (p', parts?)) :
    (∃ q', q.arrive types part = .ok (q', parts?) ∧ p'.Onward first q') ∨
      q.arrive types part = .error .slotIndexOverflow ∧
        wordCount < first.val + p'.slots.length := by
  obtain ⟨info, shape, r, hi, hs, ho, hparts, rfl⟩ := arrive_eq_ok_iff.1 ha
  rcases h.openFor ho with ⟨r', ho', hr⟩ | ⟨ho', hbeyond⟩
  · refine .inl ⟨_, arrive_eq_ok_iff.2 ⟨info, shape, r', hi, hs, ho', hparts, rfl⟩, ?_⟩
    split
    · exact hr
    · exact hr.modifyNewest (fun _ => rfl) fun _ _ hst => hst.place part info
  · refine .inr ⟨(Arrives.past hi hs (openFor_eq_iff.1 ho')).arrive_eq, ?_⟩
    split
    · exact hbeyond
    · rwa [place, length_modifyNewest]

end Packing

/-! ## Runs -/

namespace Collation

variable {first : Word} {types : TypeTable} {room : Nat} {part : Part} {p p' q : Packing}

theorem placeNested_stuck {e : Error} (h : p.arrive types part = .error e) :
    placeNested types room part p = .error (.one (.declaration part.name) e) := by
  unfold placeNested
  rw [h]

theorem placeNested_inside {parts : List Part} {r : Packing} {e : Report Error}
    (h : p.arrive types part = .ok (r, some parts))
    (hr : parts.foldlM (fun q part => placeNested types room part q) r = .error e) :
    placeNested types (room + 1) part p = .error e := by
  unfold placeNested
  rw [h]
  dsimp only
  rw [hr]
  rfl

/-- Packing takes no slots away. -/
theorem length_le_of_placeNested (h : placeNested types room part p = .ok p') :
    p.slots.length ≤ p'.slots.length := by
  refine placeNested_keeps (P := fun r => p.slots.length ≤ r.slots.length) (U := fun _ => True)
    (fun _ _ _ _ => trivial) (fun part r r' parts? _ hr ha => ?_) (fun r hr => ?_) trivial
    (Nat.le_refl _) h
  · obtain ⟨info, shape, t, -, -, ho, -, rfl⟩ := Packing.arrive_eq_ok_iff.1 ha
    have hopen : r.slots.length ≤ t.slots.length := by
      rcases Packing.eq_or_blank_of_openFor ho with rfl | ⟨index, ht⟩
      · exact Nat.le_refl _
      · rw [ht]
        exact Nat.le_succ _
    split
    · exact Nat.le_trans hr hopen
    · rw [Packing.place, Packing.length_modifyNewest]
      exact Nat.le_trans hr hopen
  · rwa [Packing.close, Packing.length_modifyNewest]

theorem length_le_of_foldlM {α : Type} {f : Packing → α → Except (Report Error) Packing}
    {xs : List α} (hf : ∀ x ∈ xs, ∀ p p', f p x = .ok p' → p.slots.length ≤ p'.slots.length)
    (h : xs.foldlM f p = .ok p') : p.slots.length ≤ p'.slots.length :=
  foldlM_keeps (P := fun r => p.slots.length ≤ r.slots.length)
    (fun x hx r r' hr hr' => Nat.le_trans hr (hf x hx r r' hr')) (Nat.le_refl _) h

/-- If each of several steps comes to the same further on or to the end of storage, so do all of
them. What lies beyond the end already does so after the other steps. -/
theorem further_foldlM {α : Type} {f : Packing → α → Except (Report Error) Packing} {xs : List α}
    (hlength : ∀ x ∈ xs, ∀ p p', f p x = .ok p' → p.slots.length ≤ p'.slots.length)
    (hf : ∀ x ∈ xs, ∀ p p' q, p.Onward first q → f p x = .ok p' → p'.Further first (f q x))
    (h : p.Onward first q) (hp : xs.foldlM f p = .ok p') : p'.Further first (xs.foldlM f q) := by
  induction xs generalizing p q with
  | nil =>
    rw [List.foldlM_nil, pure_eq_ok_iff] at hp
    exact .moved (hp ▸ h)
  | cons x xs ih =>
    rw [List.foldlM_cons, bind_eq_ok_iff] at hp
    obtain ⟨r, hr, hp⟩ := hp
    have hx := hf x List.mem_cons_self p r q h hr
    obtain ⟨-, hlength⟩ := List.forall_mem_cons.1 hlength
    rw [List.foldlM_cons]
    generalize f q x = result at hx
    cases hx with
    | moved hmoved => exact ih hlength (fun y hy => hf y (List.mem_cons_of_mem _ hy)) hmoved hp
    | beyond hbeyond =>
      have hle := length_le_of_foldlM hlength hp
      exact .beyond (Nat.lt_of_lt_of_le hbeyond (Nat.add_le_add_left hle _))

theorem further_of_whole (h : p.Onward first q) (ha : p.arrive types part = .ok (p', none)) :
    p'.Further first (placeNested types room part q) := by
  rcases h.arrive ha with ⟨q', ha', hq'⟩ | ⟨ha', hbeyond⟩
  · exact placeNested_whole ha' ▸ .moved hq'
  · exact placeNested_stuck ha' ▸ .beyond hbeyond

/-- A value that can be packed from slot zero on, with all its parts, is packed alike further on, or
reaches beyond the end of storage. -/
theorem further_of_placeNested (h : p.Onward first q)
    (hp : placeNested types room part p = .ok p') :
    p'.Further first (placeNested types room part q) := by
  induction room generalizing part p p' q with
  | zero =>
    rcases placeNested_cases hp with ha | ⟨n, parts, r, r', hn, -⟩
    · exact further_of_whole h ha
    · cases hn
  | succ room ih =>
    rcases placeNested_cases hp with ha | ⟨n, parts, r, r', hn, ha, hfold, rfl⟩
    · exact further_of_whole h ha
    · cases hn
      have hlength : r'.close.slots.length = r'.slots.length := r'.length_modifyNewest Slot.close
      rcases h.arrive ha with ⟨q', ha', hq'⟩ | ⟨ha', hbeyond⟩
      · have hparts := further_foldlM (f := fun q part => placeNested types room part q)
          (fun _ _ _ _ hx => length_le_of_placeNested hx)
          (fun _ _ _ _ _ hc hx => ih hc hx) hq' hfold
        cases hresult : parts.foldlM (fun q part => placeNested types room part q) q' with
        | ok t =>
          rw [hresult] at hparts
          cases hparts with
          | moved hmoved => exact placeNested_apart ha' hresult ▸ .moved hmoved.close
        | error e =>
          rw [hresult] at hparts
          cases hparts with
          | beyond hbeyond =>
            exact placeNested_inside ha' hresult ▸ .beyond (hlength ▸ hbeyond)
      · have hle := length_le_of_foldlM (fun _ _ _ _ hx => length_le_of_placeNested hx) hfold
        exact placeNested_stuck ha' ▸ .beyond (by omega)

end Collation

/-! ## Layouts -/

namespace Layout

variable {layout : Layout} {first : Word} {slots : List Slot}

/-- The slots of a layout lie in storage. -/
theorem length_le_of_collate (h : layout.collate first = .ok slots) :
    first.val + slots.length ≤ wordCount := by
  rcases List.eq_nil_or_concat slots with rfl | ⟨front, s, rfl⟩
  · exact Nat.le_of_lt first.isLt
  · have hlast := index_of_collate h (k := front.length) (s := s) (by simp)
    have := s.index.isLt
    rw [List.length_concat]
    omega

/-- Further on, a layout has the same slots, or more than there are up to the end of storage. -/
theorem further_of_collate (h : layout.collate .zero = .ok slots) (first : Word) :
    (∃ moved, layout.collate first = .ok moved ∧
      List.Forall₂ (Slot.Onward first.val) slots moved) ∨
    wordCount < first.val + slots.length ∧
      ∃ path, layout.collate first = .error (.one (.declaration path) .slotIndexOverflow) := by
  rw [collate_eq, map_eq_ok_iff] at h
  obtain ⟨p, hp, rfl⟩ := h
  have hfurther := Collation.further_foldlM
    (f := fun p (d : Declaration) => Collation.placeNested layout.types layout.types.size d.part p)
    (fun _ _ _ _ hd => Collation.length_le_of_placeNested hd)
    (fun _ _ _ _ _ hc hd => Collation.further_of_placeNested hc hd)
    (Packing.onward_start first) hp
  rw [collate_eq]
  generalize layout.storage.foldlM
    (fun p d => Collation.placeNested layout.types layout.types.size d.part p)
    (.start first) = result at hfurther
  cases hfurther with
  | moved hmoved => exact .inl ⟨_, rfl, List.rel_reverse hmoved.slots⟩
  | beyond hbeyond => exact .inr ⟨by rwa [List.length_reverse], _, rfl⟩

theorem onward_of_collate {moved : List Slot} (h : layout.collate .zero = .ok slots)
    (hmoved : layout.collate first = .ok moved) :
    List.Forall₂ (Slot.Onward first.val) slots moved := by
  rcases further_of_collate h first with ⟨moved', hmoved', hall⟩ | ⟨-, path, herror⟩
  · cases hmoved.symm.trans hmoved'
    exact hall
  · cases hmoved.symm.trans herror

end Layout

/-! ## Comparisons -/

theorem Slot.onward_pairWith {n : Nat} {a b a' b' : Slot} (ha : a.Onward n a')
    (hb : b.Onward n b') : (a.pairWith b).Onward n (a'.pairWith b') := by
  obtain ⟨i, r, f, es⟩ := a'
  obtain ⟨j, r', f', es'⟩ := b'
  cases ha.same
  cases hb.same
  refine ⟨ha.index_eq, ?_, rfl⟩
  rw [pairWith, pairWith, List.forall₂_map_left_iff, List.forall₂_map_right_iff]
  exact List.forall₂_same.2 fun _ _ => ⟨ha.index_eq, rfl⟩

/-- Slots further on are paired as the slots are. -/
theorem onward_pairUp {n : Nat} {as bs as' bs' : List Slot}
    (ha : List.Forall₂ (Slot.Onward n) as as') (hb : List.Forall₂ (Slot.Onward n) bs bs') :
    List.Forall₂ (fun p q => p.1.Onward n q.1 ∧ p.2.Onward n q.2) (pairUp as bs)
      (pairUp as' bs') := by
  induction ha generalizing bs bs' with
  | nil =>
    cases hb with
    | nil => exact .nil
    | cons hst hall =>
      exact .cons ⟨.blank hst.index_eq, hst⟩
        (List.rel_map (fun _ _ h => ⟨.blank h.index_eq, h⟩) hall)
  | cons hst hall ih =>
    cases hb with
    | nil =>
      exact .cons ⟨hst, .blank hst.index_eq⟩
        (List.rel_map (fun _ _ h => ⟨h, .blank h.index_eq⟩) hall)
    | cons hst' hall' => exact .cons ⟨hst, hst'⟩ (ih hall')

/-- Layouts that have slots from slot zero on and from `first` on are compared alike. -/
theorem Comparison.onward_of_diff {a b : Layout} {first : Word} {as bs as' bs' : List Slot}
    (hA : a.collate .zero = .ok as) (hB : b.collate .zero = .ok bs)
    (hA' : a.collate first = .ok as') (hB' : b.collate first = .ok bs') (pad : Bool) :
    (∃ pairs pairs', Comparison.diff ⟨a, b, .zero, pad⟩ = .ok pairs ∧
      Comparison.diff ⟨a, b, first, pad⟩ = .ok pairs' ∧
        List.Forall₂ (SlotPair.Onward first.val) pairs pairs') ∨
    ∃ e, Comparison.diff ⟨a, b, .zero, pad⟩ = .error e ∧
      Comparison.diff ⟨a, b, first, pad⟩ = .error e := by
  have hmovedA := Layout.onward_of_collate hA hA'
  have hmovedB := Layout.onward_of_collate hB hB'
  by_cases hlength : as.length = bs.length ∨ pad = true
  · have hlength' : as'.length = bs'.length ∨ pad = true := by
      rwa [← hmovedA.length_eq, ← hmovedB.length_eq]
    obtain ⟨pairs, halign⟩ := exists_align (fun _ _ => Layout.index_of_collate hA)
      (fun _ _ => Layout.index_of_collate hB) hlength
    obtain ⟨pairs', halign'⟩ := exists_align (fun _ _ => Layout.index_of_collate hA')
      (fun _ _ => Layout.index_of_collate hB') hlength'
    refine .inl ⟨pairs, pairs', diff_eq_ok hA hB halign, diff_eq_ok hA' hB' halign', ?_⟩
    obtain ⟨-, -, rfl⟩ := align_eq_ok_iff.1 halign
    obtain ⟨-, -, rfl⟩ := align_eq_ok_iff.1 halign'
    exact List.rel_map (fun _ _ h => Slot.onward_pairWith h.1 h.2) (onward_pairUp hmovedA hmovedB)
  · rw [not_or, Bool.not_eq_true] at hlength
    obtain ⟨hne, hpad⟩ := hlength
    have herror := diff_eq_error_uneven (c := ⟨a, b, .zero, pad⟩) hA hB hne hpad
    have herror' := diff_eq_error_uneven (c := ⟨a, b, first, pad⟩) hA' hB'
      (by rwa [← hmovedA.length_eq, ← hmovedB.length_eq]) hpad
    rw [← hmovedA.length_eq, ← hmovedB.length_eq] at herror'
    exact .inr ⟨_, herror, herror'⟩

/-- Packing from `first` on gives the slots that packing from slot zero on gives, `first` slots
further on, if they all lie in storage, and otherwise fails for the slot after the last. Two layouts
that can be packed from both have the same comparison from both, but for the indices in it. -/
theorem collate_translated {a : Layout} {as : List Slot} (hA : a.collate .zero = .ok as)
    (first : Word) :
    (first.val + as.length ≤ wordCount → ∃ moved, a.collate first = .ok moved ∧
      List.Forall₂ (Slot.Onward first.val) as moved) ∧
    (wordCount < first.val + as.length →
      ∃ path, a.collate first = .error (.one (.declaration path) .slotIndexOverflow)) ∧
    ∀ (b : Layout) (bs as' bs' : List Slot), b.collate .zero = .ok bs → a.collate first = .ok as' →
      b.collate first = .ok bs' → ∀ pad,
        (∃ pairs pairs', Comparison.diff ⟨a, b, .zero, pad⟩ = .ok pairs ∧
          Comparison.diff ⟨a, b, first, pad⟩ = .ok pairs' ∧
            List.Forall₂ (SlotPair.Onward first.val) pairs pairs') ∨
        ∃ e, Comparison.diff ⟨a, b, .zero, pad⟩ = .error e ∧
          Comparison.diff ⟨a, b, first, pad⟩ = .error e := by
  have hfurther := Layout.further_of_collate hA first
  refine ⟨fun hfit => ?_, fun hbeyond => ?_, fun b bs as' bs' hB hA' hB' pad => ?_⟩
  · exact hfurther.resolve_right fun h => Nat.not_lt.2 hfit h.1
  · rcases hfurther with ⟨moved, hmoved, hall⟩ | ⟨-, hover⟩
    · have := Layout.length_le_of_collate hmoved
      rw [← hall.length_eq] at this
      omega
    · exact hover
  · exact Comparison.onward_of_diff hA hB hA' hB' pad

/-- Two slots may be the last two of storage; a third is beyond its end. -/
theorem collate_translated_last :
    let types : TypeTable := .ofList [("t_uint256", .value "uint256" 32)]
    let a : Layout := ⟨[.bare "x" "t_uint256", .bare "y" "t_uint256"], types⟩
    let b : Layout := ⟨[.bare "x" "t_uint256", .bare "z" "t_uint256"], types⟩
    let c : Layout := ⟨[.bare "x" "t_uint256", .bare "y" "t_uint256", .bare "z" "t_uint256"], types⟩
    let first : Word := ⟨wordCount - 2, by decide⟩
    ∃ as bs cs as' bs', a.collate .zero = .ok as ∧ b.collate .zero = .ok bs ∧
      c.collate .zero = .ok cs ∧ as.length = 2 ∧ bs.length = 2 ∧ cs.length = 3 ∧
      a.collate first = .ok as' ∧ List.Forall₂ (Slot.Onward first.val) as as' ∧
      b.collate first = .ok bs' ∧ List.Forall₂ (Slot.Onward first.val) bs bs' ∧
      (∃ path, c.collate first = .error (.one (.declaration path) .slotIndexOverflow)) ∧
      ∃ pairs pairs', Comparison.diff ⟨a, b, .zero, false⟩ = .ok pairs ∧
        pairs.map (·.index.val) = [0, 1] ∧
          Comparison.diff ⟨a, b, first, false⟩ = .ok pairs' ∧
            List.Forall₂ (SlotPair.Onward first.val) pairs pairs' := by
  intro types a b c first
  have hA : ∃ as, a.collate .zero = .ok as ∧ as.length = 2 := by
    rw [Layout.collate_eq]
    exact ⟨_, rfl, rfl⟩
  have hB : ∃ bs, b.collate .zero = .ok bs ∧ bs.length = 2 := by
    rw [Layout.collate_eq]
    exact ⟨_, rfl, rfl⟩
  have hC : ∃ cs, c.collate .zero = .ok cs ∧ cs.length = 3 := by
    rw [Layout.collate_eq]
    exact ⟨_, rfl, rfl⟩
  have hdiff : ∃ pairs, Comparison.diff ⟨a, b, .zero, false⟩ = .ok pairs ∧
      pairs.map (·.index.val) = [0, 1] := by
    rw [Comparison.diff_eq, Layout.collate_eq, Layout.collate_eq]
    exact ⟨_, rfl, rfl⟩
  obtain ⟨as, hA, hlengthA⟩ := hA
  obtain ⟨bs, hB, hlengthB⟩ := hB
  obtain ⟨cs, hC, hlengthC⟩ := hC
  obtain ⟨pairs, hdiff, hindices⟩ := hdiff
  obtain ⟨hfitA, -, hcompare⟩ := collate_translated hA first
  obtain ⟨as', hA', hmovedA⟩ := hfitA (by rw [hlengthA]; decide)
  obtain ⟨bs', hB', hmovedB⟩ := (collate_translated hB first).1 (by rw [hlengthB]; decide)
  have hover := (collate_translated hC first).2.1 (by rw [hlengthC]; decide)
  refine ⟨as, bs, cs, as', bs', hA, hB, hC, hlengthA, hlengthB, hlengthC, hA', hmovedA, hB',
    hmovedB, hover, pairs, ?_⟩
  rcases hcompare b bs as' bs' hB hA' hB' false with ⟨ps, pairs', hps, hpairs', hall⟩ | ⟨e, he, -⟩
  · cases hdiff.symm.trans hps
    exact ⟨pairs', hdiff, hindices, hpairs', hall⟩
  · cases hdiff.symm.trans he

end SlotLayout
