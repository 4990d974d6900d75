import SlotLayout.Proofs.Growth
import SlotLayout.Proofs.Places

/-!
# Neighbours in a slot

Which values share a slot. The values of all slots are the ones that stay whole, in the order of
their places (`Layout.Placed`). If no plain value is empty and no type whose values fall apart
counts fewer bytes than a slot, those of one slot are parts of one value, or all of them
declarations, with nothing that falls apart between them (`Layout.Beside`), and the first begins at
the first byte (`collate_separated`).

What is kept from step to step is said of the place that packing has come to (`Layout.Arranged`).
There are two ways in which a slot is left behind. A value that falls apart does not fit behind
others, so its first part begins a slot; and the slot of its last part is closed.
-/

namespace SlotLayout

namespace Layout

/-- The two places are of parts of one value, or of declarations, and nothing that falls into parts
is between them. -/
def Beside (layout : Layout) (x y : Place) : Prop :=
  x.parent = y.parent ∧ ∀ i, x.index < i → i < y.index → ∀ part,
    layout.partAt ⟨x.parent, i⟩ = some part → layout.types.below part = none

/-- The slots have the values at the places, each place in the order of places, and these are all
places of values that do not fall into parts. -/
structure Placed (layout : Layout) (slots : List Slot) (places : List (List Place)) : Prop where
  entries : List.Forall₂ (fun s xs => List.Forall₂ (fun e x => layout.Stays x e.part) s.entries xs)
    slots places
  sorted : places.flatten.Pairwise fun x y => x.path < y.path
  complete : ∀ x part, layout.Stays x part → x ∈ places.flatten

/-- The byte counts of all types in use whose values fall into parts have the property. -/
def CompositeSizes (layout : Layout) (P : Nat → Prop) : Prop :=
  ∀ typeId info shape, layout.Uses typeId → layout.types.get? typeId = some info →
    info.shape typeId = .ok shape → shape.isComposite = true → P info.byteCount

theorem CompositeSizes.of_entries {layout : Layout} {P : Nat → Prop}
    (h : ∀ e ∈ layout.types.entries, ∀ shape ∈ (e.2.shape e.1).toOption,
      shape.isComposite = true → P e.2.byteCount) : layout.CompositeSizes P :=
  fun _ _ shape _ hi hs => h _ (TypeTable.mem_of_get? hi) shape (toOption_eq_some_iff.2 hs)

variable {layout : Layout} {x y : Place} {part : Part}

/-! ## Places side by side -/

/-- The place `y` is before `x`, beside it. -/
def Before (layout : Layout) (y x : Place) : Prop := y.index < x.index ∧ layout.Beside y x

theorem before_next (layout : Layout) (x : Place) : layout.Before x x.next := by
  refine ⟨Nat.lt_succ_self _, rfl, fun i hlt hlt' => ?_⟩
  exact absurd hlt' (Nat.not_lt.2 hlt)

theorem Before.next (h : layout.Before y x) (hx : layout.Stays x part) :
    layout.Before y x.next := by
  obtain ⟨hlt, hparent, hbetween⟩ := h
  refine ⟨Nat.lt_succ_of_lt hlt, hparent, fun i hi hi' value hvalue => ?_⟩
  rcases Nat.lt_succ_iff_lt_or_eq.1 hi' with hi' | rfl
  · exact hbetween i hi hi' value hvalue
  · rw [hparent] at hvalue
    cases hx.1.symm.trans hvalue
    exact hx.2

theorem beside_self (layout : Layout) (x : Place) : layout.Beside x x :=
  ⟨rfl, fun _ hlt hlt' => absurd hlt' (Nat.lt_asymm hlt)⟩

theorem Before.beside_symm (h : layout.Before y x) : layout.Beside x y :=
  ⟨h.2.1.symm, fun _ hlt hlt' => absurd (Nat.lt_trans hlt hlt') (Nat.lt_asymm h.1)⟩

/-! ## Slots -/

/-- The slot has the values at the places `xs`, which are beside each other, and the first of them
is at the first byte. It has none where no byte is claimed; where it has none, no byte is claimed,
or, if it has been closed, all are. -/
structure Shares (layout : Layout) (s : Slot) (xs : List Place) : Prop where
  entries : List.Forall₂ (fun e x => layout.Stays x e.part) s.entries xs
  beside : ∀ x ∈ xs, ∀ y ∈ xs, layout.Beside x y
  offset_eq : ∀ e ∈ s.entries.head?, e.offset = 0
  untouched : s.reserved = 0 → xs = []
  unused : xs = [] → s.reserved = 0 ∨ slotSize ≤ s.reserved

theorem shares_blank (layout : Layout) (index : Word) : layout.Shares (.blank index) [] where
  entries := .nil
  beside := nofun
  offset_eq := nofun
  untouched _ := rfl
  unused _ := .inl rfl

variable {s : Slot} {xs : List Place}

theorem Shares.close (h : layout.Shares s xs) : layout.Shares s.close xs where
  entries := h.entries
  beside := h.beside
  offset_eq := h.offset_eq
  untouched := nofun
  unused _ := .inr (Nat.le_refl _)

/-- A value with bytes may be put into a slot that has room for it if all values there are before
it, beside it. -/
theorem Shares.place {info : TypeInfo} (h : layout.Shares s xs) (hx : layout.Stays x part)
    (hsize : 1 ≤ info.size) (hroom : s.reserved = 0 ∨ info.size ≤ s.remaining)
    (hbefore : ∀ y ∈ xs, layout.Before y x) : layout.Shares (s.place part info) (xs ++ [x]) where
  entries := List.rel_append h.entries (.cons hx .nil)
  beside y hy z hz := by
    rcases List.mem_append.1 hy with hy | hy <;> rcases List.mem_append.1 hz with hz | hz
    · exact h.beside y hy z hz
    · rw [List.mem_singleton.1 hz]
      exact (hbefore y hy).2
    · rw [List.mem_singleton.1 hy]
      exact (hbefore z hz).beside_symm
    · rw [List.mem_singleton.1 hy, List.mem_singleton.1 hz]
      exact layout.beside_self x
  offset_eq e he := by
    have hentries := h.entries
    have hhead := h.offset_eq
    cases hs : s.entries with
    | nil =>
      rw [hs, List.forall₂_nil_left_iff] at hentries
      have hunused := h.unused hentries
      have hslot : 0 < slotSize := by decide
      rw [Slot.place, hs] at he
      cases he
      show s.reserved = 0
      unfold Slot.remaining at hroom
      omega
    | cons f fs =>
      rw [hs] at hhead
      rw [Slot.place, hs] at he
      exact hhead e he
  untouched h0 := by
    have h0 : s.reserved + info.size = 0 := h0
    omega
  unused hnil := absurd hnil (by simp)

/-! ## Steps -/

/-- Packing that has come to the place `x` has put the values at the places before it, grouped by
slots. In the newest slot, unless it is full, are values before `x`, beside it. -/
structure Arranged (layout : Layout) (x : Place) (p : Packing) (groups : List (List Place)) :
    Prop where
  slots : List.Forall₂ layout.Shares p.slots groups
  sorted : groups.reverse.flatten.Pairwise fun y z => y.path < z.path
  mem_iff : ∀ y, (∃ xs ∈ groups, y ∈ xs) ↔ (∃ value, layout.Stays y value) ∧ y.path < x.path
  newest : ∀ s ∈ p.slots.head?, s.reserved < slotSize → ∀ xs ∈ groups.head?, ∀ y ∈ xs,
    layout.Before y x

variable {p q : Packing} {groups : List (List Place)} {inner : List Part} {a b : Stage}

theorem arranged_start (layout : Layout) (first : Word) :
    layout.Arranged .start (.start first) [] where
  slots := .nil
  sorted := .nil
  mem_iff y := by
    have hnone : ¬ y.path < Place.start.path := by
      show ¬ y.path < [] ++ [0]
      rw [lt_concat_iff]
      rintro (hlt | hnil | ⟨k, hk, -⟩)
      · exact List.not_lt_nil _ hlt
      · exact y.path_ne_nil hnil
      · exact Nat.not_lt_zero k hk
    simp [hnone]
  newest := nofun

namespace Arranged

theorem blank (h : layout.Arranged x p groups) {index : Word}
    (hq : q.slots = .blank index :: p.slots) : layout.Arranged x q ([] :: groups) where
  slots := hq ▸ .cons (layout.shares_blank index) h.slots
  sorted := by simpa using h.sorted
  mem_iff y := by simpa using h.mem_iff y
  newest _ _ _ xs hxs y hy := by
    cases hxs
    cases hy

theorem openFor {size : Nat} (h : layout.Arranged x p groups) (ho : p.openFor size = .ok q) :
    ∃ groups', layout.Arranged x q groups' := by
  rcases Packing.eq_or_blank_of_openFor ho with rfl | ⟨index, hq⟩
  · exact ⟨groups, h⟩
  · exact ⟨_, h.blank hq⟩

/-- A value with bytes joins those in the newest slot. -/
theorem place {info : TypeInfo} {older : List Slot} (h : layout.Arranged x p groups)
    (hx : layout.Stays x part) (hsize : 1 ≤ info.size) (hs : p.slots = s :: older)
    (hroom : s.reserved = 0 ∨ info.size ≤ s.remaining) :
    ∃ groups', layout.Arranged x.next (p.place part info) groups' := by
  obtain ⟨xs, gs, hshares, hall, rfl⟩ := List.forall₂_cons_left_iff.1 (hs ▸ h.slots)
  have hslot : 0 < slotSize := by decide
  have hopen : s.reserved < slotSize := by
    unfold Slot.remaining at hroom
    omega
  have hbefore : ∀ y ∈ xs, layout.Before y x := h.newest s (by rw [hs]; rfl) hopen xs rfl
  have hflat : ((xs ++ [x]) :: gs).reverse.flatten = (xs :: gs).reverse.flatten ++ [x] := by
    simp [List.append_assoc]
  refine ⟨(xs ++ [x]) :: gs, ?_, ?_, fun y => ?_, ?_⟩
  · rw [Packing.slots_place, hs]
    exact .cons (hshares.place hx hsize hroom hbefore) hall
  · rw [hflat, List.pairwise_append]
    refine ⟨h.sorted, List.pairwise_singleton _ _, fun y hy z hz => ?_⟩
    rw [List.mem_singleton.1 hz]
    rw [List.mem_flatten] at hy
    simp only [List.mem_reverse] at hy
    exact ((h.mem_iff y).1 hy).2
  · have hmem : (∃ ys ∈ (xs ++ [x]) :: gs, y ∈ ys) ↔ (∃ ys ∈ xs :: gs, y ∈ ys) ∨ y = x := by
      simp only [List.exists_mem_cons_iff, List.mem_append, List.mem_singleton]
      grind
    rw [hmem, h.mem_iff, Place.path_lt_next_iff]
    constructor
    · rintro (⟨hy, hlt⟩ | rfl)
      · exact ⟨hy, .inl hlt⟩
      · exact ⟨⟨part, hx⟩, .inr (.inl rfl)⟩
    · rintro ⟨⟨value, hy⟩, hlt | rfl | ⟨k, hk⟩⟩
      · exact .inl ⟨⟨value, hy⟩, hlt⟩
      · exact .inr rfl
      · exact absurd hk (hx.not_prefix hy.1 k)
  · rintro t - - _ ⟨⟩ y hy
    rcases List.mem_append.1 hy with hy | hy
    · exact (hbefore y hy).next hx
    · rw [List.mem_singleton.1 hy]
      exact layout.before_next x

/-- A value that falls apart begins a slot, with its first part. -/
theorem enter (h : layout.Arranged x p groups) (hx : layout.partAt x = some part)
    (hb : layout.types.below part = some inner) (hnew : ∀ s ∈ p.slots.head?, s.reserved = 0) :
    layout.Arranged (x.inner 0) p groups where
  slots := h.slots
  sorted := h.sorted
  mem_iff y := by
    rw [h.mem_iff, Place.path_lt_inner_iff]
    refine and_congr_right fun ⟨value, hy⟩ => ⟨.inl, ?_⟩
    rintro (hlt | rfl | ⟨k, hk, -⟩)
    · exact hlt
    · cases hx.symm.trans hy.1
      cases hb.symm.trans hy.2
    · exact absurd hk (Nat.not_lt_zero k)
  newest s hs _ xs hxs y hy := by
    have hall := h.slots
    cases hp : p.slots with
    | nil =>
      rw [hp] at hs
      cases hs
    | cons t older =>
      rw [hp] at hs hall
      cases hs
      obtain ⟨ys, gs, hshares, -, rfl⟩ := List.forall₂_cons_left_iff.1 hall
      cases hxs
      rw [hshares.untouched (hnew s (by rw [hp]; rfl))] at hy
      cases hy

theorem leave (h : layout.Arranged (x.inner inner.length) p groups)
    (hx : layout.partAt x = some part) (hb : layout.types.below part = some inner) :
    layout.Arranged x.next p.close groups where
  slots := by
    have hclosed := forall₂_modifyHead (g := id) (fun _ _ hs => hs.close) h.slots
    rwa [List.modifyHead_id, ← Packing.slots_close] at hclosed
  sorted := h.sorted
  mem_iff y := by
    rw [h.mem_iff, Place.path_lt_inner_iff, Place.path_lt_next_iff]
    refine and_congr_right fun ⟨value, hy⟩ => or_congr_right (or_congr_right ?_)
    exact ⟨fun ⟨k, _, hk⟩ => ⟨k, hk⟩, fun ⟨k, hk⟩ => ⟨k, lt_length_of_prefix hx hb hy.1 hk, hk⟩⟩
  newest s hs hlt := by
    rw [Packing.slots_close, List.head?_modifyHead] at hs
    obtain ⟨t, -, rfl⟩ := Option.map_eq_some_iff.1 hs
    exact absurd hlt (Nat.lt_irrefl _)

theorem step (hplain : layout.PlainSizes (1 ≤ ·))
    (hcomposite : layout.CompositeSizes (slotSize ≤ ·))
    (h : layout.Arranged a.place a.packing groups) (hstep : layout.Step a b) :
    ∃ groups', layout.Arranged b.place b.packing groups' := by
  cases hstep with
  | whole hx ha =>
    have hb := TypeTable.below_of_arrive ha
    obtain ⟨info, shape, r, hi, hs, ho, hparts, rfl⟩ := Packing.arrive_eq_ok_iff.1 ha
    have hsize : 1 ≤ info.size := hplain.whole (by decide) (holds_of_partAt hx).uses hi hs hparts
    obtain ⟨groups', hopen⟩ := h.openFor ho
    obtain ⟨s, older, hslots, hroom⟩ := Packing.room_of_openFor ho
    exact hopen.place ⟨hx, hb⟩ hsize hslots hroom
  | enter hx ha =>
    have hb := TypeTable.below_of_arrive ha
    obtain ⟨info, shape, r, hi, hs, ho, hparts, rfl⟩ := Packing.arrive_eq_ok_iff.1 ha
    have hcomp := Shape.isComposite_of_parts? hparts
    have hsize : slotSize ≤ info.size := by
      rw [TypeInfo.size_of_composite hs hcomp]
      exact hcomposite _ info shape (holds_of_partAt hx).uses hi hs hcomp
    obtain ⟨groups', hopen⟩ := h.openFor ho
    obtain ⟨s, older, hslots, hroom⟩ := Packing.room_of_openFor ho
    refine ⟨groups', hopen.enter hx hb fun t ht => ?_⟩
    rw [hslots] at ht
    cases ht
    have hslot : 0 < slotSize := by decide
    unfold Slot.remaining at hroom
    omega
  | leave hx hb => exact ⟨groups, h.leave hx hb⟩

theorem run (hplain : layout.PlainSizes (1 ≤ ·))
    (hcomposite : layout.CompositeSizes (slotSize ≤ ·))
    (h : layout.Arranged a.place a.packing groups) (hrun : layout.Run a b) :
    ∃ groups', layout.Arranged b.place b.packing groups' := by
  induction hrun with
  | refl => exact ⟨groups, h⟩
  | tail _ hstep ih =>
    obtain ⟨groups', h'⟩ := ih
    exact h'.step hplain hcomposite hstep

end Arranged

end Layout

/-- The slots of a layout without empty plain values and without types that fall apart and count
fewer bytes than a slot. Their values are at the places of all values that stay whole, in order.
Those in one slot are parts of one value, or all of them declarations, and nothing that falls apart
is between them; and the first of them is at the first byte. -/
theorem collate_separated {layout : Layout} {first : Word} {slots : List Slot}
    (hplain : layout.PlainSizes (1 ≤ ·)) (hcomposite : layout.CompositeSizes (slotSize ≤ ·))
    (h : layout.collate first = .ok slots) : ∃ places : List (List Place),
      layout.Placed slots places ∧ (∀ xs ∈ places, ∀ x ∈ xs, ∀ y ∈ xs, layout.Beside x y) ∧
        ∀ s ∈ slots, ∀ e ∈ s.entries.head?, e.offset = 0 := by
  obtain ⟨p, hrun, rfl⟩ := Layout.comes_of_collate h
  obtain ⟨groups, harranged⟩ := (layout.arranged_start first).run hplain hcomposite hrun
  have hshares : List.Forall₂ layout.Shares p.slots.reverse groups.reverse :=
    List.rel_reverse harranged.slots
  refine ⟨groups.reverse, ⟨hshares.imp fun _ _ hs => hs.entries, harranged.sorted, ?_⟩, ?_, ?_⟩
  · intro x part hx
    have hmem := (harranged.mem_iff x).2 ⟨⟨part, hx⟩, Layout.path_lt_last hx.1⟩
    simpa [List.mem_flatten] using hmem
  · intro xs hxs
    obtain ⟨s, -, hs⟩ := exists_of_forall₂ hshares.flip hxs
    exact hs.beside
  · intro s hs
    obtain ⟨xs, -, hxs⟩ := exists_of_forall₂ hshares hs
    exact hxs.offset_eq

/-- A struct without members between two members of another: it takes a slot of its own, and the
member behind it begins the next. -/
theorem collate_separated_empty :
    let layout : Layout := ⟨[.bare "a" "t_bool", .bare "s" "t_struct(S)", .bare "b" "t_bool"],
      .ofList [("t_bool", .value "bool" 1), ("t_struct(E)", .struct "struct E" 32 []),
        ("t_struct(S)", .struct "struct S" 96 [.bare "x" "t_bool", .bare "y" "t_bool",
          .bare "e" "t_struct(E)", .bare "z" "t_bool"])]⟩
    ∃ slots places, layout.collate .zero = .ok slots ∧
      slots.map (fun s => s.entries.map (·.name)) = [["a"], ["s.x", "s.y"], [], ["s.z"], ["b"]] ∧
        layout.Placed slots places ∧ (∀ xs ∈ places, ∀ x ∈ xs, ∀ y ∈ xs, layout.Beside x y) ∧
          ∀ s ∈ slots, ∀ e ∈ s.entries.head?, e.offset = 0 := by
  intro layout
  have hslots : ∃ slots, layout.collate .zero = .ok slots ∧
      slots.map (fun s => s.entries.map (·.name)) =
        [["a"], ["s.x", "s.y"], [], ["s.z"], ["b"]] := by
    rw [Layout.collate_eq]
    exact ⟨_, rfl, rfl⟩
  obtain ⟨slots, hslots, hnames⟩ := hslots
  obtain ⟨places, hplaced⟩ :=
    collate_separated (.of_entries (by decide)) (.of_entries (by decide)) hslots
  exact ⟨slots, places, hslots, hnames, hplaced⟩

end SlotLayout
