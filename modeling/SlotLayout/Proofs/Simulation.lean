import Mathlib.Data.List.Nodup
import SlotLayout.Proofs.Packing

/-!
# Packings side by side

Two packings that take in matching values stay related if each single step keeps them so
(`Collation.placeNested_follows`). What decides whether a step opens a slot is only how many bytes
are claimed in the newest one (`Packing.openFor_alike`). The first use is a table of types to which
others are added: what could be packed with the smaller table is packed alike with the larger one
(`Layout.foldlM_of_agree`).
-/

namespace SlotLayout

namespace Collation

variable {types types' : TypeTable}

/-- If taking in a value that succeeds for a packing succeeds, for a matching value, for all related
packings, and leaves related packings and matching parts, so does packing values with all their
parts. The second packing may have more room to fall apart. -/
theorem placeNested_follows {S : Part → Part → Prop} {R : Packing → Packing → Prop}
    (harrive : ∀ part part' p p' q parts?, S part part' → R p p' →
      p.arrive types part = .ok (q, parts?) → ∃ q' parts?',
        p'.arrive types' part' = .ok (q', parts?') ∧ R q q' ∧
          Option.Rel (List.Forall₂ S) parts? parts?')
    (hclose : ∀ p p', R p p' → R p.close p'.close) {room room' : Nat} (hroom : room ≤ room')
    {part part' : Part} {p p' q : Packing} (hs : S part part') (hR : R p p')
    (h : placeNested types room part p = .ok q) :
    ∃ q', placeNested types' room' part' p' = .ok q' ∧ R q q' := by
  induction room generalizing room' part part' p p' q with
  | zero =>
    rcases placeNested_cases h with ha | ⟨room, parts, r, r', hzero, -⟩
    · obtain ⟨q', parts?', ha', hR', hparts⟩ := harrive part part' p p' q none hs hR ha
      cases hparts
      exact ⟨q', placeNested_whole ha', hR'⟩
    · cases hzero
  | succ room ih =>
    rcases placeNested_cases h with ha | ⟨n, parts, r, s, hn, ha, hfold, rfl⟩
    · obtain ⟨q', parts?', ha', hR', hparts⟩ := harrive part part' p p' q none hs hR ha
      cases hparts
      exact ⟨q', placeNested_whole ha', hR'⟩
    · cases hn
      obtain ⟨r', parts?', ha', hR', hparts⟩ := harrive part part' p p' r _ hs hR ha
      cases hparts with
      | some hparts =>
        obtain ⟨room', rfl⟩ : ∃ n, room' = n + 1 := ⟨room' - 1, by omega⟩
        have hstep : ∀ x y, S x y → ∀ b c b', R b b' → placeNested types room x b = .ok c →
            ∃ c', placeNested types' room' y b' = .ok c' ∧ R c c' :=
          fun x y hxy b c b' hb hc => ih (Nat.le_of_succ_le_succ hroom) hxy hb hc
        obtain ⟨s', hfold', hs'⟩ := foldlM_follows hstep hparts hR' hfold
        exact ⟨s'.close, placeNested_apart ha' hfold', hclose s s' hs'⟩

end Collation

/-- Of two packings whose newest slots have the same bytes claimed, and the second of which is not
further on, both open a slot or neither does. -/
theorem Packing.openFor_alike {p q p' : Packing} {s t : Slot} {older ts : List Slot} {size : Nat}
    (hp : p.slots = s :: older) (hq : q.slots = t :: ts) (hres : s.reserved = t.reserved)
    (hindex : t.index.val ≤ s.index.val) (ho : p.openFor size = .ok p') :
    (∃ i j : Word, i.val = s.index.val + 1 ∧ j.val = t.index.val + 1 ∧
      p' = { p with slots := .blank i :: s :: older } ∧
        q.openFor size = .ok { q with slots := .blank j :: t :: ts }) ∨
    p' = p ∧ q.openFor size = .ok q := by
  rcases openFor_cases ho with ⟨hnil, -⟩ | ⟨u, us, i, hu, h0, hfull, hi, rfl⟩ |
    ⟨u, us, hu, hroom, rfl⟩
  · rw [hnil] at hp
    cases hp
  · rw [hp] at hu
    cases hu
    have hval : s.index.val + 1 = i.val := Word.ofNat?_eq_some_iff.1 hi
    have hlt : t.index.val + 1 < wordCount := by
      have := i.isLt
      omega
    have hnext : t.index.successor? = some ⟨t.index.val + 1, hlt⟩ :=
      Word.ofNat?_eq_some_iff.2 rfl
    unfold Slot.remaining at hfull
    rw [hres] at h0 hfull
    exact .inl ⟨i, ⟨t.index.val + 1, hlt⟩, hval.symm, rfl, rfl, openFor_next hq h0 hfull hnext⟩
  · rw [hp] at hu
    cases hu
    refine .inr ⟨rfl, openFor_newest hq ?_⟩
    unfold Slot.remaining at hroom ⊢
    rwa [← hres]

/-! ## Larger tables -/

namespace TypeTable

variable {types types' : TypeTable}

/-- A table with all types of another is no smaller. -/
theorem size_le_of_agree (h : ∀ id info, types.get? id = some info → types'.get? id = some info) :
    types.size ≤ types'.size := by
  have hsub : types.entries.map (·.1) ⊆ types'.entries.map (·.1) := by
    intro id hid
    obtain ⟨info, hi⟩ := get?_of_mem_ids hid
    exact List.mem_map_of_mem (mem_of_get? (h id info hi))
  have hle := types.nodup_ids.length_le_of_subset hsub
  rwa [List.length_map, List.length_map] at hle

end TypeTable

/-- A value is taken in alike with a table that has more types. -/
theorem Packing.arrive_of_agree {types types' : TypeTable}
    (h : ∀ id info, types.get? id = some info → types'.get? id = some info) {part : Part}
    {p q : Packing} {parts? : Option (List Part)} (ha : p.arrive types part = .ok (q, parts?)) :
    p.arrive types' part = .ok (q, parts?) := by
  obtain ⟨info, shape, r, hi, hrest⟩ := arrive_eq_ok_iff.1 ha
  exact arrive_eq_ok_iff.2 ⟨info, shape, r, h _ _ hi, hrest⟩

/-- Declarations that can be packed are packed alike with a table that has more types. -/
theorem Layout.foldlM_of_agree {types types' : TypeTable}
    (h : ∀ id info, types.get? id = some info → types'.get? id = some info)
    {ds : List Declaration} {p q : Packing}
    (hfold : ds.foldlM (fun p d => Collation.placeNested types types.size d.part p) p = .ok q) :
    ds.foldlM (fun p d => Collation.placeNested types' types'.size d.part p) p = .ok q := by
  have hall (d d' : Declaration) (hd : d = d') (b c b' : Packing) (hb : b = b')
      (hc : Collation.placeNested types types.size d.part b = .ok c) :
      ∃ c', Collation.placeNested types' types'.size d'.part b' = .ok c' ∧ c = c' := by
    refine Collation.placeNested_follows (S := Eq) (R := Eq) ?_ ?_ (TypeTable.size_le_of_agree h)
      (congrArg Declaration.part hd) hb hc
    · rintro part _ p _ q parts? rfl rfl ha
      refine ⟨q, parts?, Packing.arrive_of_agree h ha, rfl, ?_⟩
      cases parts? with
      | none => exact .none
      | some parts => exact .some (List.forall₂_same.2 fun _ _ => rfl)
    · rintro p _ rfl
      rfl
  obtain ⟨_, hfold', rfl⟩ := foldlM_follows hall (List.forall₂_same.2 fun _ _ => rfl) rfl hfold
  exact hfold'

end SlotLayout
