import SlotLayout.Proofs.Simulation

/-!
# Packing elsewhere

A value that falls into parts is packed the same way wherever it begins and whatever it is called:
its parts take the same places, counted from the slot it begins in, and under the same paths,
counted from its name (`Collation.placeNested_relocate`). The relation that both packings keep is
`Packing.Above`; it only looks at the slots from there on.
-/

namespace SlotLayout

/-- The parts are of one type, and they are called alike but for `b` in place of `a` in front. -/
def Part.Renamed (a b : String) (x y : Part) : Prop :=
  x.typeId = y.typeId ∧ ∃ path, x.name = a ++ path ∧ y.name = b ++ path

theorem Part.renamed_names {x y : Part} (h : x.typeId = y.typeId) : x.Renamed x.name y.name y :=
  ⟨h, "", String.append_empty.symm, String.append_empty.symm⟩

/-- Values whose names differ in front fall into the same parts, whose names differ in front. -/
theorem Shape.renamed_parts? (shape : Shape) {a b : String} {x y : Part} (h : x.Renamed a b y) :
    Option.Rel (List.Forall₂ (Part.Renamed a b)) (shape.parts? x.name) (shape.parts? y.name) := by
  obtain ⟨-, path, hx, hy⟩ := h
  cases shape with
  | value => exact .none
  | indirect => exact .none
  | struct members =>
    refine .some (List.forall₂_map_left_iff.2 (List.forall₂_map_right_iff.2 ?_))
    refine List.forall₂_same.2 fun m _ => ⟨rfl, path ++ "." ++ m.label, ?_, ?_⟩
    · simp only [Declaration.partOf, hx, String.append_assoc]
    · simp only [Declaration.partOf, hy, String.append_assoc]
  | fixedArray base length =>
    refine .some (List.forall₂_map_left_iff.2 (List.forall₂_map_right_iff.2 ?_))
    refine List.forall₂_same.2 fun i _ => ⟨rfl, path ++ "[" ++ toString i ++ "]", ?_, ?_⟩
    · simp only [Part.element, hx, String.append_assoc]
    · simp only [Part.element, hy, String.append_assoc]

/-- The values are the same but for their names, which differ in front. -/
structure Entry.Renamed (a b : String) (e f : Entry) : Prop where
  name : ∃ path, e.name = a ++ path ∧ f.name = b ++ path
  same : { e with name := f.name } = f

theorem Entry.eq_of_renamed {a : String} {e f : Entry} (h : e.Renamed a a f) : e = f := by
  obtain ⟨path, he, hf⟩ := h.name
  rw [← h.same, hf, ← he]

/-- The slot has the values of another, `n` slots further on. -/
structure Slot.Moved (a b : String) (n : Nat) (s t : Slot) : Prop where
  index_eq : s.index.val = n + t.index.val
  reserved_eq : s.reserved = t.reserved
  entries : List.Forall₂ (Entry.Renamed a b) s.entries t.entries

namespace Slot.Moved

variable {a b : String} {n : Nat} {s t : Slot}

theorem close (h : s.Moved a b n t) : s.close.Moved a b n t.close where
  index_eq := h.index_eq
  reserved_eq := rfl
  entries := h.entries

theorem place {x y : Part} (info : TypeInfo) (h : s.Moved a b n t) (hxy : x.Renamed a b y) :
    (s.place x info).Moved a b n (t.place y info) where
  index_eq := h.index_eq
  reserved_eq := congrArg (· + info.size) h.reserved_eq
  entries := by
    refine List.rel_append h.entries (.cons ⟨hxy.2, ?_⟩ .nil)
    rw [hxy.1, h.reserved_eq]

end Slot.Moved

namespace Packing

variable {a b : String} {n : Nat} {older : List Slot} {p q p' : Packing}

/-- The slots of `p` are those of `q`, of which there are some, `n` slots further on and on top of
`older` ones. -/
def Above (a b : String) (n : Nat) (older : List Slot) (p q : Packing) : Prop :=
  q.slots ≠ [] ∧
    ∃ newer, p.slots = newer ++ older ∧ List.Forall₂ (Slot.Moved a b n) newer q.slots

theorem Above.modifyNewest {f g : Slot → Slot} (h : p.Above a b n older q)
    (hfg : ∀ s t, s.Moved a b n t → (f s).Moved a b n (g t)) :
    (p.modifyNewest f).Above a b n older (q.modifyNewest g) := by
  obtain ⟨hne, newer, hp, hall⟩ := h
  unfold Above
  rw [slots_modifyNewest, slots_modifyNewest, hp]
  rcases (List.forall₂_iff ..).1 hall with ⟨-, hq⟩ | ⟨s, t, ss, ts, hst, htail, rfl, hq⟩
  · exact absurd hq hne
  · rw [hq]
    exact ⟨nofun, f s :: ss, rfl, .cons (hfg s t hst) htail⟩

theorem Above.openFor {size : Nat} (h : p.Above a b n older q) (ho : p.openFor size = .ok p') :
    ∃ q', q.openFor size = .ok q' ∧ p'.Above a b n older q' := by
  obtain ⟨hne, newer, hp, hall⟩ := h
  rcases (List.forall₂_iff ..).1 hall with ⟨-, hq⟩ | ⟨s, t, ss, ts, hst, -, rfl, hq⟩
  · exact absurd hq hne
  · have hindex := hst.index_eq
    rcases openFor_alike hp hq hst.reserved_eq (by omega) ho with
      ⟨i, j, hi, hj, rfl, hq'⟩ | ⟨rfl, hq'⟩
    · rw [hq] at hall
      refine ⟨_, hq', nofun, .blank i :: s :: ss, rfl, .cons ⟨?_, rfl, .nil⟩ hall⟩
      show i.val = n + j.val
      omega
    · exact ⟨q, hq', hne, s :: ss, hp, hall⟩

theorem Above.arrive {types : TypeTable} {x y : Part} {parts? : Option (List Part)}
    (hxy : x.Renamed a b y) (h : p.Above a b n older q) (ha : p.arrive types x = .ok (p', parts?)) :
    ∃ q' parts?', q.arrive types y = .ok (q', parts?') ∧ p'.Above a b n older q' ∧
      Option.Rel (List.Forall₂ (Part.Renamed a b)) parts? parts?' := by
  obtain ⟨info, shape, r, hi, hs, ho, rfl, rfl⟩ := arrive_eq_ok_iff.1 ha
  obtain ⟨r', ho', hr⟩ := h.openFor ho
  have hparts := shape.renamed_parts? hxy
  rw [hxy.1] at hi hs
  refine ⟨_, _, arrive_eq_ok_iff.2 ⟨info, shape, r', hi, hs, ho', rfl, rfl⟩, ?_, hparts⟩
  rw [Shape.isSome_parts?, Shape.isSome_parts?]
  split
  · exact hr
  · exact hr.modifyNewest fun s t hst => hst.place info hxy

end Packing

/-- A value that falls into parts has begun a slot with nothing in it. Packed as the only value from
the first slot of storage on, under another name, it has the same slots. -/
theorem Collation.placeNested_relocate {types : TypeTable} {room room' : Nat} (hroom : room ≤ room')
    {x y : Part} (htype : x.typeId = y.typeId) {p q r : Packing} {parts : List Part} {s : Slot}
    {older : List Slot} (ha : p.arrive types x = .ok (r, some parts)) (hr : r.slots = s :: older)
    (h0 : s.reserved = 0) (hnone : s.entries = []) (h : placeNested types room x p = .ok q) :
    ∃ q', placeNested types room' y (.start .zero) = .ok q' ∧
      q.Above x.name y.name s.index.val older q' := by
  rcases placeNested_cases h with ha' | ⟨room, _, _, t, rfl, ha', hfold, rfl⟩
  · rw [ha] at ha'
    cases ha'
  · rw [ha] at ha'
    cases ha'
    have hxy := Part.renamed_names htype
    obtain ⟨info, shape, -, hi, hs, -, hparts, -⟩ := Packing.arrive_eq_ok_iff.1 ha
    obtain ⟨parts', hparts', hrenamed⟩ : ∃ parts', shape.parts? y.name = some parts' ∧
        List.Forall₂ (Part.Renamed x.name y.name) parts parts' := by
      have hrel := hparts ▸ shape.renamed_parts? hxy
      cases hy : shape.parts? y.name with
      | none => rw [hy] at hrel; cases hrel
      | some parts' => rw [hy] at hrel; cases hrel with | some hrel => exact ⟨parts', rfl, hrel⟩
    rw [htype] at hi hs
    have hstart : (Packing.start .zero).arrive types y =
        .ok (⟨.zero, [.blank .zero]⟩, some parts') :=
      Packing.arrive_eq_ok_iff.2 ⟨info, shape, _, hi, hs, Packing.openFor_first rfl, hparts', rfl⟩
    have habove : r.Above x.name y.name s.index.val older ⟨.zero, [.blank .zero]⟩ :=
      ⟨nofun, [s], hr, .cons ⟨rfl, h0, hnone ▸ .nil⟩ .nil⟩
    obtain ⟨room', rfl⟩ : ∃ m, room' = m + 1 := ⟨room' - 1, by omega⟩
    have hstep : ∀ z w, Part.Renamed x.name y.name z w → ∀ b c b',
        b.Above x.name y.name s.index.val older b' → placeNested types room z b = .ok c →
          ∃ c', placeNested types room' w b' = .ok c' ∧
            c.Above x.name y.name s.index.val older c' := fun z w hzw b c b' hb hc =>
      placeNested_follows (fun _ _ _ _ _ _ hzw hb hc => hb.arrive hzw hc)
        (fun _ _ hb => hb.modifyNewest fun _ _ hst => hst.close)
        (Nat.le_of_succ_le_succ hroom) hzw hb hc
    obtain ⟨t', hfold', ht⟩ := foldlM_follows hstep hrenamed habove hfold
    exact ⟨t'.close, placeNested_apart hstart hfold', ht.modifyNewest fun _ _ hst => hst.close⟩

end SlotLayout
