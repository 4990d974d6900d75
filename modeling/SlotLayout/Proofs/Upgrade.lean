import SlotLayout.Proofs.Consistency
import SlotLayout.Proofs.Growth

/-!
# Members added to a struct

If a struct gets further members behind those that it has and still takes as many slots, they go
where its last slot was claimed for nothing, in each value of the struct, at whatever depth
(`Packing.Gains`, `Collation.gains_of_placeNested`). No other value moves, so a comparison of the
layouts before and after reports bytes of the new members only, which were a gap before
(`collate_extended`).
-/

namespace SlotLayout

/-- One struct of a table has got further members, behind those that it had. Nothing else of it has
changed, and neither have other types. -/
structure TypeTable.Extended (types types' : TypeTable) (id : String) (extra : List Declaration) :
    Prop where
  struct : ∃ info members, types.get? id = some info ∧ info.members? = some members ∧
    types'.get? id = some { info with members? := some (members ++ extra) }
  same : ∀ other, other ≠ id → types'.get? other = types.get? other

theorem TypeTable.extended_insert {types : TypeTable} {id : String} {info : TypeInfo}
    {members : List Declaration} (hi : types.get? id = some info)
    (hm : info.members? = some members) (extra : List Declaration) : types.Extended
      (types.insert id { info with members? := some (members ++ extra) }) id extra where
  struct := ⟨info, members, hi, hm, by rw [get?_insert, if_pos rfl]⟩
  same other hne := by rw [get?_insert, if_neg hne]

/-- The value is one of the members `extra` of a value of the struct that the layout has at some
depth, or a part of such a member. -/
def Layout.HoldsExtra (layout : Layout) (id : String) (extra : List Declaration) (part : Part) :
    Prop :=
  ∃ whole : Part, layout.Holds whole ∧ whole.typeId = id ∧
    ∃ m ∈ extra, layout.types.Inside (m.partOf whole.name) part

theorem Layout.HoldsExtra.falls {layout : Layout} {id : String} {extra : List Declaration}
    {whole inner : Part} (h : layout.HoldsExtra id extra whole)
    (hp : layout.types.FallsInto whole inner) : layout.HoldsExtra id extra inner :=
  let ⟨struct, hs, hid, m, hm, hi⟩ := h
  ⟨struct, hs, hid, m, hm, hi.tail hp⟩

/-! ## Slots that gain values where they were claimed -/

/-- The slots claim as many bytes. The second has the values of the first and, if all bytes are
claimed, may have others behind them, placed for parts with the property. -/
structure Slot.Gains (U : Part → Prop) (s t : Slot) : Prop where
  index_eq : s.index = t.index
  reserved_eq : s.reserved = t.reserved
  blank : t.reserved = 0 → t.entries = []
  entries : ∃ xs, t.entries = s.entries ++ xs ∧ (∀ x ∈ xs, U x.part) ∧
    (xs ≠ [] → t.reserved = slotSize)

namespace Slot.Gains

variable {U : Part → Prop} {s t : Slot}

theorem of_blank (U : Part → Prop) (index : Word) : (Slot.blank index).Gains U (.blank index) where
  index_eq := rfl
  reserved_eq := rfl
  blank _ := rfl
  entries := ⟨[], rfl, nofun, fun h => absurd rfl h⟩

/-- Once a slot is claimed in full it may have gained values of any size. -/
theorem close {t' : Slot} (h : s.Gains U t) {xs : List Entry} (hindex : t'.index = t.index)
    (hentries : t'.entries = t.entries ++ xs) (hxs : ∀ x ∈ xs, U x.part) :
    s.close.Gains U t'.close where
  index_eq := h.index_eq.trans hindex.symm
  reserved_eq := rfl
  blank := nofun
  entries := by
    obtain ⟨ys, ht, hys, -⟩ := h.entries
    refine ⟨ys ++ xs, ?_, fun x hx => (List.mem_append.1 hx).elim (hys x) (hxs x), fun _ => rfl⟩
    rw [entries_close, entries_close, hentries, ht, List.append_assoc]

/-- A value with some bytes goes only into slots that have not gained any values. -/
theorem place {part : Part} {info : TypeInfo} (h : s.Gains U t) (hpos : 1 ≤ info.size)
    (hroom : s.reserved = 0 ∨ info.size ≤ s.remaining) :
    (s.place part info).Gains U (t.place part info) where
  index_eq := h.index_eq
  reserved_eq := congrArg (· + info.size) h.reserved_eq
  blank h0 := absurd h0 (Nat.ne_of_gt (Nat.add_pos_right _ hpos))
  entries := by
    obtain ⟨xs, ht, -, hfull⟩ := h.entries
    have hnone : xs = [] := by
      refine Classical.byContradiction fun hne => ?_
      have hslot : slotSize = 32 := rfl
      have hres := h.reserved_eq
      have := hfull hne
      unfold Slot.remaining at hroom
      omega
    subst hnone
    refine ⟨[], ?_, nofun, fun h => absurd rfl h⟩
    rw [Slot.place, Slot.place, ht, h.reserved_eq, List.append_nil, List.append_nil]

end Slot.Gains

namespace Packing

/-- The packings have as many slots, and those of the second have gained values. -/
structure Gains (U : Part → Prop) (p p' : Packing) : Prop where
  first_eq : p.first = p'.first
  slots : List.Forall₂ (Slot.Gains U) p.slots p'.slots

variable {U : Part → Prop} {p p' q q' : Packing}

theorem Gains.openFor {size : Nat} (h : p.Gains U p') (ho : p.openFor size = .ok q)
    (ho' : p'.openFor size = .ok q') : q.Gains U q' := by
  obtain ⟨hfirst, hall⟩ := h
  rcases (List.forall₂_iff ..).1 hall with
    ⟨hp, hp'⟩ | ⟨s, t, older, older', hst, -, hp, hp'⟩
  · rw [openFor_first hp] at ho
    rw [openFor_first hp'] at ho'
    cases ho
    cases ho'
    exact ⟨hfirst, .cons (hfirst ▸ Slot.Gains.of_blank ..) .nil⟩
  · rcases openFor_alike hp hp' hst.reserved_eq (Nat.le_of_eq (hst.index_eq ▸ rfl)) ho with
      ⟨i, j, hi, hj, rfl, hq'⟩ | ⟨rfl, hq'⟩
    · rw [hq'] at ho'
      cases ho'
      rw [hp, hp'] at hall
      have hij : i = j := Word.ext (by rw [hi, hj, hst.index_eq])
      exact ⟨hfirst, .cons (hij ▸ Slot.Gains.of_blank ..) hall⟩
    · rw [hq'] at ho'
      cases ho'
      exact ⟨hfirst, hall⟩

theorem Gains.place {part : Part} {info : TypeInfo} (h : p.Gains U p') (hpos : 1 ≤ info.size)
    (hroom : ∀ s ∈ p.slots.head?, s.reserved = 0 ∨ info.size ≤ s.remaining) :
    (p.place part info).Gains U (p'.place part info) := by
  obtain ⟨hfirst, hall⟩ := h
  refine ⟨(first_modifyNewest ..).trans (hfirst.trans (first_modifyNewest ..).symm), ?_⟩
  rw [slots_place, slots_place]
  rcases (List.forall₂_iff ..).1 hall with
    ⟨hp, hp'⟩ | ⟨s, t, older, older', hst, hall, hp, hp'⟩
  · rw [hp, hp']
    exact .nil
  · rw [hp, hp']
    exact .cons (hst.place hpos (hroom s (by rw [hp]; rfl))) hall

/-- The second packing may gain values once more before the newest slots are claimed in full. -/
theorem Gains.close {p'' : Packing} (h : p.Gains U p') (hgrows : p'.Grows U p'')
    (hlength : p''.slots.length = p'.slots.length) : p.close.Gains U p''.close := by
  obtain ⟨hfirst, hall⟩ := h
  refine ⟨(first_modifyNewest ..).trans
    ((hfirst.trans hgrows.first_eq.symm).trans (first_modifyNewest ..).symm), ?_⟩
  rw [slots_close, slots_close]
  rcases (List.forall₂_iff ..).1 hall with
    ⟨hp, hp'⟩ | ⟨s, t, older, older', hst, hall, hp, hp'⟩
  · rw [hp'] at hlength
    rw [hp, List.eq_nil_of_length_eq_zero hlength]
    exact .nil
  · obtain ⟨newer, t', xs, hp'', hindex, hentries, hxs⟩ := hgrows.slots t older' hp'
    have hnewer : newer = [] := by
      rw [hp'', hp', List.length_append, List.length_cons, List.length_cons] at hlength
      exact List.eq_nil_of_length_eq_zero (by omega)
    rw [hp, hp'', hnewer]
    exact .cons (hst.close hindex hentries hxs) hall

theorem Gains.blank (h : p.Gains U p') :
    (∀ s ∈ p.slots.head?, s.reserved = 0 → s.entries = []) ∧
      ∀ t ∈ p'.slots.head?, t.reserved = 0 → t.entries = [] := by
  rcases (List.forall₂_iff ..).1 h.slots with ⟨hp, hp'⟩ | ⟨s, t, older, older', hst, -, hp, hp'⟩
  · rw [hp, hp']
    exact ⟨nofun, nofun⟩
  · rw [hp, hp']
    constructor
    · rintro _ ⟨⟩ h0
      obtain ⟨xs, ht, -⟩ := hst.entries
      rw [hst.blank (hst.reserved_eq ▸ h0)] at ht
      exact (List.append_eq_nil_iff.1 ht.symm).1
    · rintro _ ⟨⟩ h0
      exact hst.blank h0

end Packing

/-! ## Packing before and after -/

/-- The parts that a value has got in addition. -/
def extraParts (id : String) (extra : List Declaration) (part : Part) : List Part :=
  if part.typeId = id then extra.map (·.partOf part.name) else []

section

variable {layoutA layoutB : Layout} {id : String} {extra : List Declaration}

theorem Layout.Holds.holdsExtra {part x : Part} (h : layoutB.Holds part)
    (hx : x ∈ extraParts id extra part) : layoutB.HoldsExtra id extra x := by
  unfold extraParts at hx
  split at hx
  · rename_i hid
    obtain ⟨m, hm, rfl⟩ := List.mem_map.1 hx
    exact ⟨part, h, hid, m, hm, .refl⟩
  · cases hx

theorem TypeTable.Extended.byteCount_eq {types types' : TypeTable}
    (h : types.Extended types' id extra) {typeId : String} {info info' : TypeInfo}
    (hi : types.get? typeId = some info) (hi' : types'.get? typeId = some info') :
    info'.byteCount = info.byteCount := by
  by_cases hid : typeId = id
  · obtain ⟨_, members, hs, -, hs'⟩ := h.struct
    rw [hid, hs] at hi
    rw [hid, hs'] at hi'
    cases hi
    cases hi'
    rfl
  · rw [h.same typeId hid, hi] at hi'
    cases hi'
    rfl

/-- Values of a type with members fall into these or are refused. -/
theorem TypeInfo.shape_of_members {info : TypeInfo} {typeId : String} {shape : Shape}
    {members : List Declaration} (hm : info.members? = some members)
    (hs : info.shape typeId = .ok shape) : shape = .struct members := by
  cases he : info.encoding <;> cases hb : info.base? <;>
    simp_all [TypeInfo.shape]

theorem Packing.Gains.arrive {U : Part → Prop} {part : Part} {p p' q q' : Packing}
    {parts? parts?' : Option (List Part)} (hc : layoutA.CompilerConsistent)
    (hext : layoutA.types.Extended layoutB.types id extra) (hu : layoutA.Uses part.typeId)
    (h : p.Gains U p') (ha : p.arrive layoutA.types part = .ok (q, parts?))
    (ha' : p'.arrive layoutB.types part = .ok (q', parts?')) :
    q.Gains U q' ∧ parts?' = parts?.map (· ++ extraParts id extra part) := by
  obtain ⟨info, shape, r, hi, hs, ho, rfl, rfl⟩ := arrive_eq_ok_iff.1 ha
  obtain ⟨info', shape', r', hi', hs', ho', rfl, rfl⟩ := arrive_eq_ok_iff.1 ha'
  unfold extraParts
  by_cases hid : part.typeId = id
  · obtain ⟨_, members, hstruct, hmembers, hstruct'⟩ := hext.struct
    rw [hid, hstruct] at hi
    rw [hid, hstruct'] at hi'
    cases hi
    cases hi'
    cases TypeInfo.shape_of_members hmembers hs
    cases TypeInfo.shape_of_members rfl hs'
    refine ⟨h.openFor ho ho', ?_⟩
    rw [if_pos hid, Shape.parts?, Shape.parts?, Option.map_some, List.map_append]
  · rw [hext.same _ hid, hi] at hi'
    cases hi'
    rw [hs] at hs'
    cases hs'
    have hr := h.openFor ho ho'
    rw [if_neg hid]
    refine ⟨?_, by simp⟩
    cases hparts : shape.parts? part.name with
    | some parts => exact hr
    | none =>
      refine hr.place (hc.size_of_whole hu hi hs hparts).1 fun s hs => ?_
      obtain ⟨t, older, ht, hroom⟩ := room_of_openFor ho
      rw [ht] at hs
      cases hs
      exact hroom

namespace Collation

variable (hcA : layoutA.CompilerConsistent) (hcB : layoutB.CompilerConsistent)
  (hext : layoutA.types.Extended layoutB.types id extra) {U : Part → Prop} {room room' : Nat}
  {part : Part} {p p' q q' r r' : Packing} {parts parts' : List Part}

include hcA hext in
theorem gains_of_whole (hu : layoutA.Uses part.typeId) (h : p.Gains U p')
    (ha : p.arrive layoutA.types part = .ok (q, none))
    (hq' : placeNested layoutB.types room' part p' = .ok q') : q.Gains U q' := by
  rcases placeNested_cases hq' with ha' | ⟨-, _, _, -, -, ha', -, -⟩
  · exact (h.arrive hcA hext hu ha ha').1
  · exact absurd (h.arrive hcA hext hu ha ha').2 nofun

include hcA hcB hext in
/-- The new members of a value take no slots, as its type counts no more bytes than before. -/
theorem length_eq_of_placeNested (hroom : room ≤ layoutA.types.size)
    (hroom' : room' ≤ layoutB.types.size) (hu : layoutA.Uses part.typeId)
    (hv : layoutB.Uses part.typeId) (h : r.Gains U r')
    (ha : p.arrive layoutA.types part = .ok (r, some parts))
    (ha' : p'.arrive layoutB.types part = .ok (r', some parts'))
    (hq : placeNested layoutA.types room part p = .ok q)
    (hq' : placeNested layoutB.types room' part p' = .ok q') :
    q.slots.length = q'.slots.length := by
  obtain ⟨info, k, hi, hk, hlength⟩ := hcA.length_of_placeNested hroom hu ha h.blank.1 hq
  obtain ⟨info', k', hi', hk', hlength'⟩ := hcB.length_of_placeNested hroom' hv ha' h.blank.2 hq'
  have hkk : k = k' := by
    refine Nat.eq_of_mul_eq_mul_left (show 0 < slotSize by decide) ?_
    rw [← hk, ← hk', hext.byteCount_eq hi hi']
  have := h.slots.length_eq
  omega

include hcA hcB hext in
/-- A value that is packed before and after leaves the same slots but for values of new members. -/
theorem gains_of_placeNested (hroom : room ≤ layoutA.types.size)
    (hroom' : room' ≤ layoutB.types.size) (hu : layoutA.Uses part.typeId)
    (hv : layoutB.Holds part) (h : p.Gains (layoutB.HoldsExtra id extra) p')
    (hq : placeNested layoutA.types room part p = .ok q)
    (hq' : placeNested layoutB.types room' part p' = .ok q') :
    q.Gains (layoutB.HoldsExtra id extra) q' := by
  induction room generalizing room' part p p' q q' with
  | zero =>
    rcases placeNested_cases hq with ha | ⟨room, -, -, -, hzero, -⟩
    · exact gains_of_whole hcA hext hu h ha hq'
    · cases hzero
  | succ room ih =>
    rcases placeNested_cases hq with ha | ⟨n, parts, r, s, hn, ha, hfold, rfl⟩
    · exact gains_of_whole hcA hext hu h ha hq'
    · cases hn
      rcases placeNested_cases hq' with ha' | ⟨room', parts', r', s', rfl, ha', hfold', rfl⟩
      · exact absurd (h.arrive hcA hext hu ha ha').2 nofun
      · obtain ⟨hgains, hparts⟩ := h.arrive hcA hext hu ha ha'
        have hlength := length_eq_of_placeNested hcA hcB hext hroom hroom' hu hv.uses hgains ha ha'
          hq hq'
        cases hparts
        -- The parts that the value had before are packed on both sides, the new ones on one.
        rw [List.foldlM_append, bind_eq_ok_iff] at hfold'
        obtain ⟨t', ht', hmore⟩ := hfold'
        have hstep : ∀ x ∈ parts, ∀ b c b' c', b.Gains (layoutB.HoldsExtra id extra) b' →
            placeNested layoutA.types room x b = .ok c →
              placeNested layoutB.types room' x b' = .ok c' →
                c.Gains (layoutB.HoldsExtra id extra) c' := fun x hx _ _ _ _ hb hc hc' =>
          ih (Nat.le_of_succ_le hroom) (Nat.le_of_succ_le hroom')
            (hu.part (Packing.fallsInto_of_arrive ha hx).hasPart)
            (hv.falls (Packing.fallsInto_of_arrive ha' (List.mem_append_left _ hx))) hb hc hc'
        have hst : s.Gains (layoutB.HoldsExtra id extra) t' :=
          foldlM_related hstep hgains hfold ht'
        have hgrows : t'.Grows (layoutB.HoldsExtra id extra) s' :=
          foldlM_keeps (fun x hx _ _ hb hc => grows_of_placeNested
            (fun _ _ => Layout.HoldsExtra.falls) (hv.holdsExtra hx) hb hc)
            (t'.grows_refl _) hmore
        refine hst.close hgrows ?_
        rw [Packing.slots_close, Packing.slots_close, List.length_modifyHead,
          List.length_modifyHead] at hlength
        rw [← hlength, hst.slots.length_eq]

end Collation

/-- Before and after a struct has got further members, a layout has as many slots, and they gain
values of the new members where they were claimed in full. -/
theorem Layout.gains_of_collate {first : Word} {as bs : List Slot}
    (hstorage : layoutB.storage = layoutA.storage)
    (hext : layoutA.types.Extended layoutB.types id extra) (hcA : layoutA.CompilerConsistent)
    (hcB : layoutB.CompilerConsistent) (hA : layoutA.collate first = .ok as)
    (hB : layoutB.collate first = .ok bs) :
    List.Forall₂ (Slot.Gains (layoutB.HoldsExtra id extra)) as bs := by
  rw [collate_eq, map_eq_ok_iff] at hA hB
  obtain ⟨p, hp, rfl⟩ := hA
  obtain ⟨q, hq, rfl⟩ := hB
  rw [hstorage] at hq
  have hholds : ∀ d ∈ layoutA.storage, layoutB.Holds d.part :=
    hstorage ▸ fun _ => holds_part
  have hgains : p.Gains (layoutB.HoldsExtra id extra) q :=
    foldlM_related (fun d hd _ _ _ _ hb hc hc' => Collation.gains_of_placeNested hcA hcB hext
      (Nat.le_refl _) (Nat.le_refl _) (uses_typeId hd) (hholds d hd) hb hc hc')
      ⟨rfl, .nil⟩ hp hq
  exact List.rel_reverse hgains.slots

end

/-- Two layouts with the same declarations, in the second of which one struct has got further
members but takes as many slots as before: they have as many slots and can be compared, and where
they differ the first has a gap and the second a value that lies in a new member. -/
theorem collate_extended {layoutA layoutB : Layout} {id : String} {extra : List Declaration}
    {first : Word} {as bs : List Slot} (hstorage : layoutB.storage = layoutA.storage)
    (hext : layoutA.types.Extended layoutB.types id extra) (hcA : layoutA.CompilerConsistent)
    (hcB : layoutB.CompilerConsistent) (hA : layoutA.collate first = .ok as)
    (hB : layoutB.collate first = .ok bs) :
    as.length = bs.length ∧ ∃ pairs : List SlotPair,
      Comparison.diff ⟨layoutA, layoutB, first, false⟩ = .ok pairs ∧ pairs.length = bs.length ∧
        ∀ (k : Nat) (p : SlotPair), pairs[k]? = some p → ∀ u ∈ p.spans, u.changed = true →
          u.a.Free (slotAt as k p.index).entries ∧
            ∃ e ∈ (slotAt bs k p.index).entries,
              layoutB.HoldsExtra id extra e.part ∧ u.b = .ofEntry e := by
  have hgains := Layout.gains_of_collate hstorage hext hcA hcB hA hB
  have hlength := hgains.length_eq
  obtain ⟨pairs, hdiff, hpairs, hspans⟩ :=
    Comparison.diff_of_grown (c := ⟨layoutA, layoutB, first, false⟩)
      (V := fun e => layoutB.HoldsExtra id extra e.part) hA hB (.inl hlength) fun p hp =>
        let hst := forall_mem_pairUp hgains p hp
        let ⟨xs, hxs, hextra, _⟩ := hst.entries
        ⟨hst.index_eq, xs, hxs, hextra⟩
  exact ⟨hlength, pairs, hdiff, by rw [hpairs, hlength, Nat.max_self], hspans⟩

/-- A struct that occurs in an array of structs, and once more next to it, gets two members. -/
theorem collate_extended_nested :
    let storage : List Declaration := [.bare "on" "t_bool", .bare "ps" "t_array", .bare "p" "t_P"]
    let types : TypeTable := .ofList [("t_bool", .value "bool" 1),
      ("t_uint128", .value "uint128" 16), ("t_P", .struct "struct P" 32 [.bare "x" "t_uint128"]),
      ("t_Q", .struct "struct Q" 64 [.bare "n" "t_bool", .bare "p" "t_P"]),
      ("t_array", .fixedArray "struct Q[2]" 128 "t_Q")]
    let extra : List Declaration := [.bare "y" "t_bool", .bare "z" "t_bool"]
    let types' : TypeTable :=
      types.insert "t_P" (.struct "struct P" 32 (.bare "x" "t_uint128" :: extra))
    let layoutA : Layout := ⟨storage, types⟩
    let layoutB : Layout := ⟨storage, types'⟩
    ∃ as bs, layoutA.CompilerConsistent ∧ layoutB.CompilerConsistent ∧
      layoutA.collate .zero = .ok as ∧ layoutB.collate .zero = .ok bs ∧
      as.map (·.entries.length) = [1, 1, 1, 1, 1, 1] ∧
      bs.map (·.entries.length) = [1, 1, 3, 1, 3, 3] ∧
      as.length = bs.length ∧ ∃ pairs : List SlotPair,
        Comparison.diff ⟨layoutA, layoutB, .zero, false⟩ = .ok pairs ∧ pairs.length = bs.length ∧
          ∀ (k : Nat) (p : SlotPair), pairs[k]? = some p → ∀ u ∈ p.spans, u.changed = true →
            u.a.Free (slotAt as k p.index).entries ∧
              ∃ e ∈ (slotAt bs k p.index).entries,
                layoutB.HoldsExtra "t_P" extra e.part ∧ u.b = .ofEntry e := by
  intro storage types extra types' layoutA layoutB
  have hP : types.get? "t_P" = some (.struct "struct P" 32 [.bare "x" "t_uint128"]) := rfl
  have hext : types.Extended types' "t_P" extra := TypeTable.extended_insert hP rfl extra
  have hcA : layoutA.CompilerConsistent := .of_entries (by decide) (by decide)
  have hcB : layoutB.CompilerConsistent := .of_entries (by decide) (by decide)
  have hA : ∃ as, layoutA.collate .zero = .ok as ∧
      as.map (·.entries.length) = [1, 1, 1, 1, 1, 1] := by
    rw [Layout.collate_eq]
    exact ⟨_, rfl, rfl⟩
  have hB : ∃ bs, layoutB.collate .zero = .ok bs ∧
      bs.map (·.entries.length) = [1, 1, 3, 1, 3, 3] := by
    rw [Layout.collate_eq]
    exact ⟨_, rfl, rfl⟩
  obtain ⟨as, hA, hentriesA⟩ := hA
  obtain ⟨bs, hB, hentriesB⟩ := hB
  exact ⟨as, bs, hcA, hcB, hA, hB, hentriesA, hentriesB,
    collate_extended rfl hext hcA hcB hA hB⟩

end SlotLayout
