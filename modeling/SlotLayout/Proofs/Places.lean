import Mathlib.Data.List.Induction
import SlotLayout.Proofs.Faults

/-!
# Places in the expansion

Where a value stands among the declarations of a layout and what they fall into: a declaration by
its position, and a part at any depth by the positions on the way to it (`Place`). Two parts of one
name and type are told apart by their places.

Packing goes through the places depth first (`Layout.Step`), and what it has packed when it comes to
a place is one packing (`Layout.Comes`). For a layout with slots it goes through all places to the
end (`Layout.comes_of_collate`): it comes to every value (`Layout.exists_comes_of_partAt`), and to
the end of the parts of every value that falls apart (`Layout.exists_comes_of_below`). For any
layout, packing comes to an end where collation has its result (`Layout.ends_collate`). What the
steps keep is kept all the way (`Layout.Run.keeps`, `Layout.Comes.slots`).
-/

namespace SlotLayout

/-- A place: the positions on the way to the value whose part is meant, and the position among its
parts. Nothing is on the way to a declaration. -/
structure Place where
  parent : List Nat
  index : Nat
  deriving DecidableEq

namespace Place

/-- The positions on the way to the parts of the value at the place. -/
def path (x : Place) : List Nat := x.parent ++ [x.index]

/-- The place behind. -/
def next (x : Place) : Place := ⟨x.parent, x.index + 1⟩

/-- The place of a part of the value. -/
def inner (x : Place) (i : Nat) : Place := ⟨x.path, i⟩

/-- The place of the first declaration. -/
def start : Place := ⟨[], 0⟩

variable {x y : Place}

theorem path_inner (x : Place) (i : Nat) : (x.inner i).path = x.path ++ [i] := rfl

theorem path_ne_nil (x : Place) : x.path ≠ [] := List.append_ne_nil_of_right_ne_nil _ (by simp)

theorem path_injective (h : x.path = y.path) : x = y := by
  obtain ⟨parent, index⟩ := x
  obtain ⟨hparent, hindex⟩ := List.append_inj' h rfl
  cases hparent
  cases hindex
  rfl

/-- A place is that of a declaration, or of a part of what is at a place. -/
@[elab_as_elim]
theorem induct {P : Place → Prop} (declaration : ∀ i, P ⟨[], i⟩)
    (inner : ∀ x i, P x → P (x.inner i)) (x : Place) : P x := by
  obtain ⟨parent, index⟩ := x
  induction parent using List.reverseRecOn generalizing index with
  | nil => exact declaration index
  | append_singleton parent i ih => exact inner ⟨parent, i⟩ index (ih i)

theorem inner_injective {i j : Nat} (h : x.inner i = y.inner j) : x = y ∧ i = j :=
  ⟨path_injective (congrArg Place.parent h), congrArg Place.index h⟩

end Place

/-! ## The order of places -/

/-- The lists before `path ++ [n]`: those before `path`, `path` itself, and those that go on from it
with a smaller element. -/
theorem lt_concat_iff {path ns : List Nat} {n : Nat} : ns < path ++ [n] ↔
    ns < path ∨ ns = path ∨ ∃ k < n, path ++ [k] <+: ns := by
  induction path generalizing ns with
  | nil =>
    cases ns with
    | nil => simp
    | cons m ms => simp [List.cons_lt_cons_iff]
  | cons a path ih =>
    cases ns with
    | nil => simp
    | cons m ms =>
      simp only [List.cons_append, List.cons_lt_cons_iff, ih, List.cons_prefix_cons,
        List.cons.injEq]
      grind

theorem prefix_iff_eq_or_concat {path ns : List Nat} :
    path <+: ns ↔ ns = path ∨ ∃ k, path ++ [k] <+: ns := by
  constructor
  · rintro ⟨rest, rfl⟩
    cases rest with
    | nil => exact .inl (List.append_nil _)
    | cons k rest => exact .inr ⟨k, rest, by simp⟩
  · rintro (rfl | ⟨k, h⟩)
    · exact List.prefix_rfl
    · exact (List.prefix_append ..).trans h

namespace Place

variable {x y : Place}

/-- Before a part of a value are the places before the value, the value, and what is at and below
the parts before. -/
theorem path_lt_inner_iff {n : Nat} : y.path < (x.inner n).path ↔
    y.path < x.path ∨ y = x ∨ ∃ k < n, (x.inner k).path <+: y.path := by
  rw [path_inner, lt_concat_iff]
  exact or_congr_right (or_congr_left ⟨path_injective, congrArg path⟩)

/-- Before the place behind a value are the places before the value, the value, and what is below
it. -/
theorem path_lt_next_iff : y.path < x.next.path ↔
    y.path < x.path ∨ y = x ∨ ∃ k, (x.inner k).path <+: y.path := by
  have hbelow : x.path <+: y.path ↔ y = x ∨ ∃ k, (x.inner k).path <+: y.path := by
    rw [prefix_iff_eq_or_concat]
    exact or_congr_left ⟨path_injective, congrArg path⟩
  rw [← hbelow]
  show y.path < x.parent ++ [x.index + 1] ↔ y.path < x.parent ++ [x.index] ∨ x.path <+: y.path
  simp only [lt_concat_iff, Nat.lt_succ_iff_lt_or_eq, or_and_right, exists_or, exists_eq_left,
    or_assoc]
  rfl

end Place

/-! ## Values at places -/

namespace Layout

/-- The parts of the value to which the positions lead; the declarations, without any position. -/
def partsAt (layout : Layout) (path : List Nat) : Option (List Part) :=
  path.foldl (fun parts? i => (parts?.bind (·[i]?)).bind layout.types.below)
    (some (layout.storage.map (·.part)))

/-- The value at a place. -/
def partAt (layout : Layout) (x : Place) : Option Part :=
  (layout.partsAt x.parent).bind (·[x.index]?)

/-- The value at the place does not fall into parts. -/
def Stays (layout : Layout) (x : Place) (part : Part) : Prop :=
  layout.partAt x = some part ∧ layout.types.below part = none

variable {layout : Layout} {x y : Place} {part : Part} {inner : List Part}

theorem partsAt_path (layout : Layout) (x : Place) :
    layout.partsAt x.path = (layout.partAt x).bind layout.types.below := by
  rw [Place.path, partsAt, List.foldl_append]
  rfl

theorem partAt_inner_eq_some_iff {i : Nat} : layout.partAt (x.inner i) = some part ↔
    ∃ whole parts, layout.partAt x = some whole ∧ layout.types.below whole = some parts ∧
      parts[i]? = some part := by
  show (layout.partsAt x.path).bind (·[i]?) = some part ↔ _
  rw [partsAt_path]
  constructor
  · intro h
    obtain ⟨parts, hparts, hi⟩ := Option.bind_eq_some_iff.1 h
    obtain ⟨whole, hwhole, hb⟩ := Option.bind_eq_some_iff.1 hparts
    exact ⟨whole, parts, hwhole, hb, hi⟩
  · rintro ⟨whole, parts, hwhole, hb, hi⟩
    rw [hwhole, Option.bind_some, hb]
    exact hi

theorem partAt_inner (hx : layout.partAt x = some part)
    (hb : layout.types.below part = some inner) (i : Nat) :
    layout.partAt (x.inner i) = inner[i]? := by
  show (layout.partsAt x.path).bind (·[i]?) = inner[i]?
  rw [partsAt_path, hx, Option.bind_some, hb]
  rfl

/-- Positions that lead nowhere lead nowhere with others behind them. -/
theorem partsAt_append_of_none {path : List Nat} (h : layout.partsAt path = none)
    (rest : List Nat) : layout.partsAt (path ++ rest) = none := by
  induction rest using List.reverseRecOn with
  | nil => rwa [List.append_nil]
  | append_singleton rest i ih =>
    rw [← List.append_assoc]
    show layout.partsAt (Place.path ⟨path ++ rest, i⟩) = none
    rw [partsAt_path, partAt, ih]
    rfl

/-- What lies on the way to a value is there. -/
theorem exists_partAt_of_prefix (hy : layout.partAt y = some part) (h : x.path <+: y.path) :
    ∃ whole, layout.partAt x = some whole := by
  rcases List.prefix_concat_iff.1 h with heq | ⟨rest, hrest⟩
  · exact ⟨part, Place.path_injective heq ▸ hy⟩
  · obtain ⟨parts, hparts, -⟩ := Option.bind_eq_some_iff.1 hy
    cases hx : layout.partAt x with
    | some whole => exact ⟨whole, rfl⟩
    | none =>
      have hpath : layout.partsAt x.path = none := by rw [partsAt_path, hx]; rfl
      rw [← hrest, partsAt_append_of_none hpath] at hparts
      cases hparts

/-- The part of a value that is on the way to another is one of its parts. -/
theorem lt_length_of_prefix {value : Part} (hx : layout.partAt x = some part)
    (hb : layout.types.below part = some inner) (hy : layout.partAt y = some value) {k : Nat}
    (h : (x.inner k).path <+: y.path) : k < inner.length := by
  obtain ⟨_, hk⟩ := exists_partAt_of_prefix hy h
  rw [partAt_inner hx hb] at hk
  exact (List.getElem?_eq_some_iff.1 hk).1

/-- Below a value that does not fall into parts there is none. -/
theorem Stays.not_prefix {value : Part} (hx : layout.Stays x part)
    (hy : layout.partAt y = some value) (k : Nat) : ¬ (x.inner k).path <+: y.path := by
  intro h
  obtain ⟨_, hk⟩ := exists_partAt_of_prefix hy h
  obtain ⟨whole, parts, hwhole, hb, -⟩ := partAt_inner_eq_some_iff.1 hk
  cases hx.1.symm.trans hwhole
  cases hx.2.symm.trans hb

/-- The values at places are the declarations and their parts at any depth. -/
theorem holds_of_partAt (hx : layout.partAt x = some part) : layout.Holds part := by
  induction x using Place.induct generalizing part with
  | declaration i =>
    obtain ⟨d, hd, rfl⟩ := List.mem_map.1 (List.mem_of_getElem? hx)
    exact holds_part hd
  | inner x i ih =>
    obtain ⟨whole, parts, hwhole, hb, hi⟩ := partAt_inner_eq_some_iff.1 hx
    exact (ih hwhole).falls (TypeTable.fallsInto_of_below hb (List.mem_of_getElem? hi))

end Layout

/-! ## Steps of packing -/

/-- How far packing has come: to a place, with what has been packed before. -/
structure Stage where
  place : Place
  packing : Packing

namespace Layout

variable (layout : Layout)

/-- Packing goes from place to place. A value that falls into parts is followed by these, and the
end of its parts by the closing of the newest slot. -/
inductive Step : Stage → Stage → Prop
  | whole {x : Place} {p q : Packing} {part : Part} (hx : layout.partAt x = some part)
      (ha : p.arrive layout.types part = .ok (q, none)) : Step ⟨x, p⟩ ⟨x.next, q⟩
  | enter {x : Place} {p q : Packing} {part : Part} {inner : List Part}
      (hx : layout.partAt x = some part) (ha : p.arrive layout.types part = .ok (q, some inner)) :
      Step ⟨x, p⟩ ⟨x.inner 0, q⟩
  | leave {x : Place} {p : Packing} {part : Part} {inner : List Part}
      (hx : layout.partAt x = some part) (hb : layout.types.below part = some inner) :
      Step ⟨x.inner inner.length, p⟩ ⟨x.next, p.close⟩

/-- Packing goes on from one stage to another. -/
def Run : Stage → Stage → Prop := Relation.ReflTransGen layout.Step

/-- Packing from `first` on comes to the place with the slots of `p`. -/
def Comes (first : Word) (x : Place) (p : Packing) : Prop :=
  layout.Run ⟨.start, .start first⟩ ⟨x, p⟩

/-- The place behind the last declaration. -/
def last : Place := ⟨[], layout.storage.length⟩

end Layout

theorem TypeTable.below_of_arrive {types : TypeTable} {part : Part} {p q : Packing}
    {parts? : Option (List Part)} (h : p.arrive types part = .ok (q, parts?)) :
    types.below part = parts? := by
  obtain ⟨info, shape, -, hi, hs, -, hparts, -⟩ := Packing.arrive_eq_ok_iff.1 h
  rw [below_eq hi hs, hparts]

namespace Layout

variable {layout : Layout} {first : Word} {x y : Place} {part : Part} {inner : List Part}
  {p q : Packing} {a b c : Stage}

/-- Behind the last part of a value there is none. -/
theorem partAt_inner_length (hx : layout.partAt x = some part)
    (hb : layout.types.below part = some inner) : layout.partAt (x.inner inner.length) = none := by
  rw [partAt_inner hx hb]
  exact List.getElem?_eq_none (Nat.le_refl _)

/-- There is one way to go on. -/
theorem Step.unique (h : layout.Step a b) (h' : layout.Step a c) : b = c := by
  cases h with
  | whole hx ha =>
    cases h' with
    | whole hx' ha' =>
      cases hx.symm.trans hx'
      cases ha.symm.trans ha'
      rfl
    | enter hx' ha' =>
      cases hx.symm.trans hx'
      cases ha.symm.trans ha'
    | leave hx' hb' => cases hx.symm.trans (partAt_inner_length hx' hb')
  | enter hx ha =>
    cases h' with
    | whole hx' ha' =>
      cases hx.symm.trans hx'
      cases ha.symm.trans ha'
    | enter hx' ha' =>
      cases hx.symm.trans hx'
      cases ha.symm.trans ha'
      rfl
    | leave hx' hb' => cases hx.symm.trans (partAt_inner_length hx' hb')
  | leave hx hb =>
    generalize hy : Place.inner _ _ = y at h'
    cases h' with
    | whole hx' ha' => cases hx'.symm.trans (hy ▸ partAt_inner_length hx hb)
    | enter hx' ha' => cases hx'.symm.trans (hy ▸ partAt_inner_length hx hb)
    | leave hx' hb' =>
      obtain ⟨rfl, -⟩ := Place.inner_injective hy
      rfl

/-! ## Runs -/

/-- Values that are packed one after another take packing from place to place. -/
theorem run_from_foldlM {f : Packing → Part → Except (Report Collation.Error) Packing}
    {path : List Nat} {n : Nat} {parts : List Part}
    (hf : ∀ i part, parts[i]? = some part → ∀ p q, f p part = .ok q →
      layout.Run ⟨⟨path, n + i⟩, p⟩ ⟨⟨path, n + i + 1⟩, q⟩)
    (h : parts.foldlM f p = .ok q) : layout.Run ⟨⟨path, n⟩, p⟩ ⟨⟨path, n + parts.length⟩, q⟩ := by
  induction parts generalizing n p with
  | nil =>
    rw [List.foldlM_nil, pure_eq_ok_iff] at h
    exact h ▸ .refl
  | cons part parts ih =>
    rw [List.foldlM_cons, bind_eq_ok_iff] at h
    obtain ⟨r, hr, h⟩ := h
    have hrest := ih (n := n + 1) (fun i part hi p q hq => by
      rw [Nat.add_right_comm n 1 i]
      exact hf (i + 1) part hi p q hq) h
    rw [Nat.add_right_comm n 1, Nat.add_assoc] at hrest
    exact (hf 0 part rfl p r hr).trans hrest

theorem run_of_foldlM {f : Packing → Part → Except (Report Collation.Error) Packing}
    (path : List Nat) {parts : List Part}
    (hf : ∀ i part, parts[i]? = some part → ∀ p q, f p part = .ok q →
      layout.Run ⟨⟨path, i⟩, p⟩ ⟨⟨path, i + 1⟩, q⟩)
    (h : parts.foldlM f p = .ok q) : layout.Run ⟨⟨path, 0⟩, p⟩ ⟨⟨path, parts.length⟩, q⟩ := by
  rw [← Nat.zero_add parts.length]
  refine run_from_foldlM (fun i part hi p q hq => ?_) h
  rw [Nat.zero_add]
  exact hf i part hi p q hq

/-- Packing a value with all its parts takes packing to the place behind it. -/
theorem run_of_placeNested {room : Nat} (hx : layout.partAt x = some part)
    (h : Collation.placeNested layout.types room part p = .ok q) :
    layout.Run ⟨x, p⟩ ⟨x.next, q⟩ := by
  induction room generalizing x part p q with
  | zero =>
    rcases Collation.placeNested_cases h with ha | ⟨n, parts, r, r', hn, -⟩
    · exact .single (.whole hx ha)
    · cases hn
  | succ room ih =>
    rcases Collation.placeNested_cases h with ha | ⟨n, parts, r, r', hn, ha, hfold, rfl⟩
    · exact .single (.whole hx ha)
    · cases hn
      have hb := TypeTable.below_of_arrive ha
      have hparts : layout.Run ⟨x.inner 0, r⟩ ⟨x.inner parts.length, r'⟩ :=
        run_of_foldlM _ (fun i _ hi _ _ hq => ih ((partAt_inner hx hb i).trans hi) hq) hfold
      exact .head (.enter hx ha) (hparts.tail (.leave hx hb))

/-- Values up to one of them take packing to that one. -/
theorem run_of_foldlM_take {f : Packing → Part → Except (Report Collation.Error) Packing}
    (path : List Nat) {parts : List Part}
    (hf : ∀ i part, parts[i]? = some part → ∀ p q, f p part = .ok q →
      layout.Run ⟨⟨path, i⟩, p⟩ ⟨⟨path, i + 1⟩, q⟩)
    {i : Nat} (hi : i ≤ parts.length) (h : (parts.take i).foldlM f p = .ok q) :
    layout.Run ⟨⟨path, 0⟩, p⟩ ⟨⟨path, i⟩, q⟩ := by
  have hrun : layout.Run ⟨⟨path, 0⟩, p⟩ ⟨⟨path, (parts.take i).length⟩, q⟩ := by
    refine run_of_foldlM path (fun k x hk p q hq => ?_) h
    rw [List.getElem?_take] at hk
    split at hk
    · exact hf k x hk p q hq
    · cases hk
  rwa [List.length_take, Nat.min_eq_left hi] at hrun

/-- On the way packing comes to each of the values. -/
theorem run_to_foldlM {f : Packing → Part → Except (Report Collation.Error) Packing}
    (path : List Nat) {parts : List Part}
    (hf : ∀ i part, parts[i]? = some part → ∀ p q, f p part = .ok q →
      layout.Run ⟨⟨path, i⟩, p⟩ ⟨⟨path, i + 1⟩, q⟩)
    (h : parts.foldlM f p = .ok q) {i : Nat} (hi : parts[i]? = some part) :
    ∃ r r', layout.Run ⟨⟨path, 0⟩, p⟩ ⟨⟨path, i⟩, r⟩ ∧ f r part = .ok r' := by
  have hlt : i < parts.length := (List.getElem?_eq_some_iff.1 hi).1
  obtain ⟨r, r', hr, hr'⟩ := exists_of_foldlM_ok h hi
  exact ⟨r, r', run_of_foldlM_take path hf (Nat.le_of_lt hlt) hr, hr'⟩

section

variable {slots : List Slot}

theorem foldlM_of_collate (h : layout.collate first = .ok slots) :
    ∃ p, (layout.storage.map (·.part)).foldlM
      (fun p part => Collation.placeNested layout.types layout.types.size part p)
      (.start first) = .ok p ∧ slots = p.slots.reverse := by
  rw [collate_eq, map_eq_ok_iff] at h
  obtain ⟨p, hp, rfl⟩ := h
  exact ⟨p, by rwa [List.foldlM_map], rfl⟩

/-- The slots of a layout are packed by going through all places. -/
theorem comes_of_collate (h : layout.collate first = .ok slots) :
    ∃ p, layout.Comes first layout.last p ∧ slots = p.slots.reverse := by
  obtain ⟨p, hp, hslots⟩ := foldlM_of_collate h
  have hrun := run_of_foldlM []
    (fun i part hi p q hq => run_of_placeNested (x := ⟨[], i⟩) hi hq) hp
  rw [List.length_map] at hrun
  exact ⟨p, hrun, hslots⟩

/-- Packing comes to every value, and packs it. -/
theorem exists_comes_of_partAt (h : layout.collate first = .ok slots)
    (hx : layout.partAt x = some part) :
    ∃ room p q, layout.Comes first x p ∧
      Collation.placeNested layout.types room part p = .ok q := by
  induction x using Place.induct generalizing part with
  | declaration i =>
    obtain ⟨p, hp, -⟩ := foldlM_of_collate h
    obtain ⟨r, r', hrun, hr⟩ := run_to_foldlM []
      (fun i part hi p q hq => run_of_placeNested (x := ⟨[], i⟩) hi hq) hp hx
    exact ⟨_, r, r', hrun, hr⟩
  | inner x i ih =>
    obtain ⟨whole, parts, hwhole, hb, hi⟩ := partAt_inner_eq_some_iff.1 hx
    obtain ⟨room, p, q, hcomes, hq⟩ := ih hwhole
    rcases Collation.placeNested_cases hq with ha | ⟨room, inner, r, r', rfl, ha, hfold, rfl⟩
    · cases hb.symm.trans (TypeTable.below_of_arrive ha)
    · cases hb.symm.trans (TypeTable.below_of_arrive ha)
      obtain ⟨t, t', hrun, ht⟩ := run_to_foldlM x.path
        (fun k x hk p q hq => run_of_placeNested ((partAt_inner hwhole hb k).trans hk) hq) hfold hi
      exact ⟨room, t, t', (hcomes.tail (.enter hwhole ha)).trans hrun, ht⟩

/-- Packing comes to the end of the parts of every value that falls apart. -/
theorem exists_comes_of_below (h : layout.collate first = .ok slots)
    (hx : layout.partAt x = some part) (hb : layout.types.below part = some inner) :
    ∃ p, layout.Comes first (x.inner inner.length) p := by
  obtain ⟨room, p, q, hcomes, hq⟩ := exists_comes_of_partAt h hx
  rcases Collation.placeNested_cases hq with ha | ⟨room, parts, r, r', rfl, ha, hfold, rfl⟩
  · cases hb.symm.trans (TypeTable.below_of_arrive ha)
  · cases hb.symm.trans (TypeTable.below_of_arrive ha)
    have hparts : layout.Run ⟨x.inner 0, r⟩ ⟨x.inner inner.length, r'⟩ :=
      run_of_foldlM _
        (fun i _ hi _ _ hq => run_of_placeNested ((partAt_inner hx hb i).trans hi) hq) hfold
    exact ⟨r', (hcomes.tail (.enter hx ha)).trans hparts⟩

/-- Behind the last declaration packing is over. -/
theorem Step.ne_last (h : layout.Step a b) : a.place ≠ layout.last := by
  have hnone : layout.partAt layout.last = none :=
    List.getElem?_eq_none (Nat.le_of_eq (List.length_map ..))
  intro heq
  cases h with
  | whole hx | enter hx =>
    cases heq
    cases hx.symm.trans hnone
  | leave => exact absurd (congrArg Place.parent heq) (Place.path_ne_nil _)

/-- All values are before the place behind the last declaration. -/
theorem path_lt_last (hx : layout.partAt x = some part) : x.path < layout.last.path := by
  obtain ⟨k, rest, hk⟩ := List.exists_cons_of_ne_nil x.path_ne_nil
  have hprefix : [k] <+: x.path := ⟨rest, hk.symm⟩
  obtain ⟨d, hd⟩ := exists_partAt_of_prefix (x := ⟨[], k⟩) hx hprefix
  have hlt : k < (layout.storage.map (·.part)).length := (List.getElem?_eq_some_iff.1 hd).1
  rw [List.length_map] at hlt
  show x.path < [] ++ [layout.storage.length]
  exact lt_concat_iff.2 (.inr (.inr ⟨k, hlt, hprefix⟩))

/-- From wherever packing comes to, it goes on to the slots of the layout. -/
theorem Comes.run_last (hx : layout.Comes first x p) (h : layout.collate first = .ok slots) :
    ∃ q, layout.Run ⟨x, p⟩ ⟨layout.last, q⟩ ∧ slots = q.slots.reverse := by
  obtain ⟨q, hq, hslots⟩ := comes_of_collate h
  refine ⟨q, ?_, hslots⟩
  have hunique : Relator.RightUnique layout.Step := fun _ _ _ => Step.unique
  rcases Relation.ReflTransGen.total_of_right_unique hunique hx hq with hrun | hrun
  · exact hrun
  · rcases Relation.ReflTransGen.cases_head hrun with heq | ⟨b, hb, -⟩
    · exact heq ▸ .refl
    · exact absurd rfl hb.ne_last

end

/-! ## What steps keep -/

/-- What taking in a value keeps, and closing a slot keeps, is kept on the way. -/
theorem Run.keeps {P : Packing → Prop}
    (harrive : ∀ p q part parts?, P p → p.arrive layout.types part = .ok (q, parts?) → P q)
    (hclose : ∀ p, P p → P p.close) (h : layout.Run a b) (ha : P a.packing) : P b.packing := by
  induction h with
  | refl => exact ha
  | tail _ hstep ih =>
    cases hstep with
    | whole _ harr | enter _ harr => exact harrive _ _ _ _ ih harr
    | leave => exact hclose _ ih

/-- Wherever packing comes to, the slots have the indices from the first one on. -/
theorem Comes.numbered (h : layout.Comes first x p) : p.Numbered first :=
  h.keeps (fun _ _ _ _ hp ha => hp.arrive ha) (fun _ hp => hp.close)
    (Packing.numbered_start first)

/-- What holds of blank slots, and is kept by placing a value where it has room and by closing,
holds of all slots wherever packing comes to. -/
theorem Comes.slots {P : Slot → Prop} (hblank : ∀ index, P (.blank index))
    (hplace : ∀ s part info, layout.types.get? part.typeId = some info →
      (s.reserved = 0 ∨ info.size ≤ s.remaining) → P s → P (s.place part info))
    (hclose : ∀ s, P s → P s.close) (h : layout.Comes first x p) : ∀ s ∈ p.slots, P s := by
  have hnewest : ∀ (f : Slot → Slot) (p : Packing), (∀ s ∈ p.slots, P s) →
      (∀ s ∈ p.slots.head?, P (f s)) → ∀ s ∈ (p.modifyNewest f).slots, P s := by
    intro f p hp hf
    rw [Packing.slots_modifyNewest]
    cases hs : p.slots with
    | nil => exact nofun
    | cons t older =>
      rw [hs] at hp hf
      exact List.forall_mem_cons.2 ⟨hf t rfl, (List.forall_mem_cons.1 hp).2⟩
  refine Run.keeps (P := fun p => ∀ s ∈ p.slots, P s) ?_ ?_ h nofun
  · intro p q part parts? hp ha
    obtain ⟨info, shape, r, hi, -, ho, -, rfl⟩ := Packing.arrive_eq_ok_iff.1 ha
    have hr : ∀ s ∈ r.slots, P s := by
      rcases Packing.eq_or_blank_of_openFor ho with rfl | ⟨index, hslots⟩
      · exact hp
      · rw [hslots]
        exact List.forall_mem_cons.2 ⟨hblank index, hp⟩
    obtain ⟨t, older, ht, hroom⟩ := Packing.room_of_openFor ho
    split
    · exact hr
    · refine hnewest _ r hr fun s hs => ?_
      rw [ht] at hs
      cases hs
      exact hplace t part info hi hroom (hr t (by rw [ht]; exact List.mem_cons_self))
  · exact fun p hp => hnewest _ p hp fun s hs => hclose s (hp s (List.mem_of_mem_head? hs))

/-! ## The end of packing -/

variable (layout first) in
/-- Where packing comes to its end: behind the last declaration, or at a value that is not taken in,
or that falls into parts deeper than types without end do. -/
inductive Ends : Except (Report Collation.Error) (List Slot) → Prop
  | slots {p : Packing} (h : layout.Comes first layout.last p) : Ends (.ok p.slots.reverse)
  | refused {x : Place} {p : Packing} {part : Part} {e : Collation.Error}
      (h : layout.Comes first x p) (hx : layout.partAt x = some part)
      (ha : p.arrive layout.types part = .error e) :
      Ends (.error (.one (.declaration part.name) e))
  | endless {x : Place} {p q : Packing} {part : Part} {inner : List Part}
      (h : layout.Comes first x p) (hx : layout.partAt x = some part)
      (ha : p.arrive layout.types part = .ok (q, some inner)) :
      Ends (.error (.one (.declaration part.name) (.endlessType part.typeId)))

/-- A value that cannot be packed with all its parts is one that packing ends at, or one of its
parts is. -/
theorem ends_of_placeNested {room : Nat} {e : Report Collation.Error}
    (hx : layout.partAt x = some part) (hp : layout.Comes first x p)
    (h : Collation.placeNested layout.types room part p = .error e) :
    layout.Ends first (.error e) := by
  induction room generalizing x part p e with
  | zero =>
    unfold Collation.placeNested at h
    split at h <;> cases h
    · exact .refused hp hx ‹_›
    · exact .endless hp hx ‹_›
  | succ room ih =>
    unfold Collation.placeNested at h
    split at h
    · cases h
      exact .refused hp hx ‹_›
    · cases h
    · rename_i q parts ha
      have hb := TypeTable.below_of_arrive ha
      have hfold : parts.foldlM (fun q part => Collation.placeNested layout.types room part q) q =
          .error e := map_eq_error_iff.1 h
      obtain ⟨i, inner, r, hi, hr, he⟩ := exists_of_foldlM_error hfold
      have hrun := run_of_foldlM_take x.path
        (fun k _ hk _ _ hq => run_of_placeNested ((partAt_inner hx hb k).trans hk) hq)
        (Nat.le_of_lt (List.getElem?_eq_some_iff.1 hi).1) hr
      exact ih ((partAt_inner hx hb i).trans hi) ((hp.tail (.enter hx ha)).trans hrun) he

/-- Collation has its result where packing comes to its end. -/
theorem ends_collate (layout : Layout) (first : Word) :
    layout.Ends first (layout.collate first) := by
  cases h : layout.collate first with
  | ok slots =>
    obtain ⟨p, hp, rfl⟩ := comes_of_collate h
    exact .slots hp
  | error e =>
    rw [collate_eq, map_eq_error_iff, ← List.foldlM_map (f := Declaration.part)
      (g := fun p part => Collation.placeNested layout.types layout.types.size part p)] at h
    obtain ⟨i, part, p, hi, hp, he⟩ := exists_of_foldlM_error h
    have hrun := run_of_foldlM_take []
      (fun k _ hk _ _ hq => run_of_placeNested (x := ⟨[], k⟩) hk hq)
      (Nat.le_of_lt (List.getElem?_eq_some_iff.1 hi).1) hp
    exact ends_of_placeNested (x := ⟨[], i⟩) hi hrun he

end Layout

end SlotLayout
