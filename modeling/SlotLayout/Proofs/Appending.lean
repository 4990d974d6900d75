import SlotLayout.Proofs.Growth
import SlotLayout.Proofs.Simulation

/-!
# Appending declarations

A layout that goes on where another ends keeps what the other has in storage (`collate_append`). All
slots but the last stay the same, the last keeps its values (`Continues`), and a comparison of the
two layouts reports no byte of an old value as changed. Nothing is assumed of sizes: values may be
empty or larger than a slot.
-/

namespace SlotLayout

/-- All slots of `as` but the last stand unchanged at the same positions in `bs`. At the position of
the last, `bs` has a slot of the same index whose values begin with those of the last. -/
def Continues (as bs : List Slot) : Prop :=
  ∀ front s, as = front ++ [s] →
    ∃ t rest, bs = front ++ t :: rest ∧ t.index = s.index ∧ s.entries <+: t.entries

namespace Continues

variable {as bs : List Slot}

theorem length_le (h : Continues as bs) : as.length ≤ bs.length := by
  rcases List.eq_nil_or_concat as with rfl | ⟨front, s, hs⟩
  · exact Nat.zero_le _
  · obtain ⟨t, rest, rfl, -⟩ := h front s (by rw [hs, List.concat_eq_append])
    rw [hs]
    simp

/-- Slots are paired with slots that have the same index and at least their values. -/
theorem pairUp (h : Continues as bs) :
    ∀ p ∈ pairUp as bs, p.1.index = p.2.index ∧ p.1.entries <+: p.2.entries := by
  have hblank : ∀ ss : List Slot, ∀ p ∈ SlotLayout.pairUp [] ss,
      p.1.index = p.2.index ∧ p.1.entries <+: p.2.entries := by
    intro ss p hp
    cases ss with
    | nil => cases hp
    | cons b ss =>
      obtain ⟨c, -, rfl⟩ := List.mem_map.1 hp
      exact ⟨rfl, List.nil_prefix⟩
  rcases List.eq_nil_or_concat as with rfl | ⟨front, s, hs⟩
  · exact hblank bs
  · obtain ⟨t, rest, rfl, hindex, hentries⟩ := h front s (by rw [hs, List.concat_eq_append])
    rw [hs, List.concat_eq_append]
    clear h hs
    induction front with
    | nil => exact List.forall_mem_cons.2 ⟨⟨hindex.symm, hentries⟩, hblank rest⟩
    | cons x front ih => exact List.forall_mem_cons.2 ⟨⟨rfl, List.prefix_refl _⟩, ih⟩

end Continues

/-- Packing goes on from where it stood before the declarations that were appended. -/
theorem Layout.continues_of_append {layoutA layoutB : Layout} {more : List Declaration}
    {first : Word} {as bs : List Slot} (hstorage : layoutB.storage = layoutA.storage ++ more)
    (htypes : ∀ id info, layoutA.types.get? id = some info → layoutB.types.get? id = some info)
    (hA : layoutA.collate first = .ok as) (hB : layoutB.collate first = .ok bs) :
    Continues as bs := by
  rw [collate_eq, map_eq_ok_iff] at hA hB
  obtain ⟨p, hp, rfl⟩ := hA
  obtain ⟨q, hq, rfl⟩ := hB
  rw [hstorage, List.foldlM_append, foldlM_of_agree htypes hp] at hq
  have hgrows : p.Grows (fun _ => True) q := foldlM_keeps (fun d _ _ _ hr hr' =>
    Collation.grows_of_placeNested (fun _ _ _ _ => trivial) trivial hr hr') (p.grows_refl _) hq
  intro front s hs
  have hslots : p.slots = s :: front.reverse := by
    rw [← List.reverse_reverse p.slots, hs, List.reverse_append]
    rfl
  obtain ⟨newer, t, xs, hq, hindex, hentries, -⟩ := hgrows.slots s front.reverse hslots
  exact ⟨t, newer.reverse, by simp [hq], hindex, hentries ▸ List.prefix_append ..⟩

/-- The slots of a layout and of one with more declarations behind: all slots but the last are the
same, and the last has no other values in front. The two layouts can be compared, and where they
differ the smaller one has a gap that none of its values reaches into. -/
theorem collate_append {layoutA layoutB : Layout} {more : List Declaration} {first : Word}
    {as bs : List Slot} (hstorage : layoutB.storage = layoutA.storage ++ more)
    (htypes : ∀ id info, layoutA.types.get? id = some info → layoutB.types.get? id = some info)
    (hA : layoutA.collate first = .ok as) (hB : layoutB.collate first = .ok bs) :
    Continues as bs ∧ ∃ pairs : List SlotPair,
      Comparison.diff ⟨layoutA, layoutB, first, true⟩ = .ok pairs ∧ pairs.length = bs.length ∧
        ∀ (k : Nat) (p : SlotPair), pairs[k]? = some p → ∀ u ∈ p.spans, u.changed = true →
          u.a.Free (slotAt as k p.index).entries := by
  have hcont := Layout.continues_of_append hstorage htypes hA hB
  obtain ⟨pairs, hdiff, hlength, hspans⟩ :=
    Comparison.diff_of_grown (c := ⟨layoutA, layoutB, first, true⟩) (V := fun _ => True) hA hB
      (.inr rfl) fun p hp =>
        let ⟨hindex, xs, hxs⟩ := hcont.pairUp p hp
        ⟨hindex, xs, hxs.symm, fun _ _ => trivial⟩
  refine ⟨hcont, pairs, hdiff, ?_, fun k p hk u hu hchanged => (hspans k p hk u hu hchanged).1⟩
  rw [hlength, Nat.max_eq_right hcont.length_le]

/-- An empty struct closes the slot of a value that is larger than a slot, which claims fewer bytes
from then on. A value without bytes still goes into that slot, and the next one opens another. -/
theorem collate_append_oversize :
    let types : TypeTable := .ofList [("t_big", .value "Big" 40), ("t_nil", .value "Nil" 0),
      ("t_bool", .value "bool" 1)]
    let types' : TypeTable := types.insert "t_struct(E)" (.struct "struct E" 0 [])
    let layoutA : Layout := ⟨[.bare "a" "t_big"], types⟩
    let layoutB : Layout := ⟨[.bare "a" "t_big", .bare "e" "t_struct(E)", .bare "n" "t_nil",
      .bare "b" "t_bool"], types'⟩
    ∃ as bs pairs, layoutA.collate .zero = .ok as ∧ layoutB.collate .zero = .ok bs ∧
      as.map (·.reserved) = [40] ∧ bs.map (·.reserved) = [32, 1] ∧ Continues as bs ∧
        Comparison.diff ⟨layoutA, layoutB, .zero, true⟩ = .ok pairs ∧ pairs.length = bs.length ∧
          ∀ (k : Nat) (p : SlotPair), pairs[k]? = some p → ∀ u ∈ p.spans, u.changed = true →
            u.a.Free (slotAt as k p.index).entries := by
  intro types types' layoutA layoutB
  have hA : ∃ as, layoutA.collate .zero = .ok as ∧ as.map (·.reserved) = [40] := by
    rw [Layout.collate_eq]
    exact ⟨_, rfl, rfl⟩
  have hB : ∃ bs, layoutB.collate .zero = .ok bs ∧ bs.map (·.reserved) = [32, 1] := by
    rw [Layout.collate_eq]
    exact ⟨_, rfl, rfl⟩
  have hall : ∀ e ∈ types.entries, types'.get? e.1 = some e.2 := by decide
  have htypes : ∀ id info, types.get? id = some info → types'.get? id = some info :=
    fun id info h => hall (id, info) (TypeTable.mem_of_get? h)
  obtain ⟨as, hA, hreservedA⟩ := hA
  obtain ⟨bs, hB, hreservedB⟩ := hB
  obtain ⟨hcont, pairs, hdiff, hlen, hfree⟩ := collate_append rfl htypes hA hB
  exact ⟨as, bs, pairs, hA, hB, hreservedA, hreservedB, hcont, hdiff, hlen, hfree⟩

end SlotLayout
