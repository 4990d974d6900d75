import SlotLayout.Proofs.Recursion

/-!
# Faults

When collation fails, and with which error. The declarations are walked through depth first and in
order, into the members of structs and the elements of fixed-size arrays and into nothing else
(`Walk`). On the way it is counted how many slots are needed, as if there were slots without end
(`Usage`). A value is at fault if its type is unknown or has no shape, or if the slot for it lies
outside the storage space (`Fault`). Collation fails if and only if the walk meets a value at fault,
and it reports the first of these, by its full path (`collate_fails_iff`).

Packing is compared with the walk visit by visit. As long as nothing is at fault its slots are those
that have been counted (`Usage.Counts`), and it gets stuck at the first fault
(`Usage.Counts.arrive`). What a walk predicts of the visits of one part and of the next is put
together by `Predicts.append`, along the recursion (`Collation.Packs.predicts`).
-/

namespace SlotLayout

/-! ## Types without a shape -/

/-- What is wrong with a type that has no shape. -/
inductive TypeInfo.Misshapen (info : TypeInfo) (typeId : String) : Collation.Error → Prop
  | mixed (he : info.encoding = .inplace) (hm : info.members? ≠ none) (hb : info.base? ≠ none) :
      Misshapen info typeId (.invalidShape typeId "both struct members and an element type")
  | label (he : info.encoding = .inplace) (hm : info.members? = none) (hb : info.base? ≠ none)
      (hl : Label.length? info.label = none) :
      Misshapen info typeId (.malformedArrayLabel info.label)
  | mapping (he : info.encoding = .mapping) (h : info.members? ≠ none ∨ info.base? ≠ none) :
      Misshapen info typeId
        (.invalidShape typeId "a mapping with struct members or an element type")
  | dynamic (he : info.encoding = .dynamicArray ∨ info.encoding = .bytes)
      (hm : info.members? ≠ none) :
      Misshapen info typeId (.invalidShape typeId "a dynamically-sized type with struct members")

theorem TypeInfo.shape_eq_error_iff {info : TypeInfo} {typeId : String} {e : Collation.Error} :
    info.shape typeId = .error e ↔ info.Misshapen typeId e := by
  constructor
  · intro h
    unfold shape at h
    split at h
    · rename_i he hm hb
      cases h
      exact .mixed he (by simp [hm]) (by simp [hb])
    · cases h
    · rename_i he hm hb
      split at h
      · cases h
      · rename_i hl
        cases h
        exact .label he hm (by simp [hb]) hl
    · cases h
    · cases h
    · rename_i he hnone
      cases h
      refine .mapping he ?_
      by_cases hm : info.members? = none
      · exact .inr fun hb => hnone hm hb
      · exact .inl hm
    · cases h
    · cases h
    · rename_i he hm
      cases h
      exact .dynamic (.inl he) (by simp [hm])
    · rename_i he hm
      cases h
      exact .dynamic (.inr he) (by simp [hm])
  · intro h
    unfold shape
    cases h with
    | mixed he hm hb =>
      obtain ⟨members, hm⟩ := Option.ne_none_iff_exists'.1 hm
      obtain ⟨base, hb⟩ := Option.ne_none_iff_exists'.1 hb
      rw [he, hm, hb]
    | label he hm hb hl =>
      obtain ⟨base, hb⟩ := Option.ne_none_iff_exists'.1 hb
      rw [he, hm, hb, hl]
    | mapping he h =>
      rw [he]
      split <;> simp_all
    | dynamic he hm =>
      obtain ⟨members, hm⟩ := Option.ne_none_iff_exists'.1 hm
      rcases he with he | he <;> rw [he, hm]

/-! ## The walk -/

/-- What a walk through declarations comes to: a value, or the end of one that falls into parts. -/
inductive Visit where
  | enter (part : Part)
  | leave
  deriving DecidableEq

/-- The parts that a walk goes into below a value: the members of a struct, or the elements of a
fixed-size array. There are none below any other value. -/
def TypeTable.below (types : TypeTable) (part : Part) : Option (List Part) :=
  match types.get? part.typeId with
  | none => none
  | some info =>
    match info.shape part.typeId with
    | .ok (.struct members) => some (members.map fun d => ⟨part.name ++ "." ++ d.label, d.typeId⟩)
    | .ok (.fixedArray base length) =>
      some ((List.range length).map fun i => ⟨part.name ++ "[" ++ toString i ++ "]", base⟩)
    | _ => none

/-- The visits of a walk through parts, in order. -/
inductive Walk (types : TypeTable) : List Part → List Visit → Prop
  | nil : Walk types [] []
  | whole {part : Part} {parts : List Part} {vs : List Visit} (hb : types.below part = none)
      (hr : Walk types parts vs) : Walk types (part :: parts) (.enter part :: vs)
  | apart {part : Part} {parts inner : List Part} {us vs : List Visit}
      (hb : types.below part = some inner) (hi : Walk types inner us)
      (hr : Walk types parts vs) : Walk types (part :: parts) (.enter part :: (us ++ .leave :: vs))

section

variable {types : TypeTable} {part : Part} {parts : List Part} {us vs ws : List Visit}

theorem TypeTable.below_eq {info : TypeInfo} {shape : Shape}
    (hi : types.get? part.typeId = some info) (hs : info.shape part.typeId = .ok shape) :
    types.below part = shape.parts? part.name := by
  rw [below, hi]
  dsimp only
  rw [hs]
  cases shape <;> rfl

theorem TypeTable.fallsInto_of_below {inner : Part} (h : types.below part = some parts)
    (hx : inner ∈ parts) : types.FallsInto part inner := by
  cases hi : types.get? part.typeId with
  | none =>
    rw [below, hi] at h
    cases h
  | some info =>
    cases hs : info.shape part.typeId with
    | error e =>
      rw [below, hi] at h
      dsimp only at h
      rw [hs] at h
      cases h
    | ok shape =>
      rw [below_eq hi hs] at h
      exact ⟨info, shape, parts, hi, hs, h, hx⟩

namespace Walk

theorem cons (h : Walk types [part] us) (hr : Walk types parts vs) :
    Walk types (part :: parts) (us ++ vs) := by
  cases h with
  | whole hb h =>
    cases h
    exact .whole hb hr
  | apart hb hi h =>
    cases h
    rw [List.cons_append, List.append_assoc]
    exact .apart hb hi hr

theorem exists_of_forall (h : ∀ x ∈ parts, ∃ vs, Walk types [x] vs) :
    ∃ vs, Walk types parts vs := by
  induction parts with
  | nil => exact ⟨[], .nil⟩
  | cons x parts ih =>
    obtain ⟨⟨us, hx⟩, hparts⟩ := List.forall_mem_cons.1 h
    obtain ⟨vs, hvs⟩ := ih hparts
    exact ⟨us ++ vs, hx.cons hvs⟩

theorem unique (h : Walk types parts vs) (h' : Walk types parts ws) : vs = ws := by
  induction h generalizing ws with
  | nil =>
    cases h'
    rfl
  | whole hb _ ih =>
    cases h' with
    | whole _ hr => rw [ih hr]
    | apart hb' => cases hb.symm.trans hb'
  | apart hb _ _ ihi ihr =>
    cases h' with
    | whole hb' => cases hb.symm.trans hb'
    | apart hb' hi hr =>
      cases hb.symm.trans hb'
      rw [ihi hi, ihr hr]

end Walk

end

/-- The walk through the declarations of a layout comes to an end if no type in use contains
itself. -/
theorem Layout.exists_walk {layout : Layout} (hfin : layout.Finite) :
    ∃ vs, Walk layout.types (layout.storage.map (·.part)) vs := by
  refine Walk.exists_of_forall fun part hpart => ?_
  obtain ⟨d, hd, rfl⟩ := List.mem_map.1 hpart
  refine Collation.Path.induct (P := fun part => ∃ vs, Walk layout.types [part] vs) hfin
    (fun part ih => ?_) (.start hd) (Nat.zero_add _)
  cases hb : layout.types.below part with
  | none => exact ⟨_, .whole hb .nil⟩
  | some inner =>
    obtain ⟨us, hus⟩ := Walk.exists_of_forall fun x hx => ih x (TypeTable.fallsInto_of_below hb hx)
    exact ⟨_, .apart hb hus .nil⟩

/-! ## Slots that are needed -/

/-- How many slots a walk has come to need, and how many bytes are claimed in the last of them. -/
structure Usage where
  slots : Nat
  reserved : Nat
  deriving DecidableEq

namespace Usage

/-- Nothing is needed yet. -/
def start : Usage := ⟨0, 0⟩

/-- The usage with a slot for a value of some bytes: one more if there is none yet, or if bytes are
claimed in the last one and too few are left. -/
def opened (u : Usage) (size : Nat) : Usage :=
  if u.slots = 0 ∨ (u.reserved ≠ 0 ∧ slotSize - u.reserved < size) then ⟨u.slots + 1, 0⟩ else u

/-- The usage after a visit. A value claims its bytes, unless it falls into parts, at the end of
which the rest of the last slot is claimed. -/
def visit (types : TypeTable) (u : Usage) : Visit → Usage
  | .leave => ⟨u.slots, slotSize⟩
  | .enter part =>
    match types.get? part.typeId with
    | none => u
    | some info =>
      match types.below part with
      | none => ⟨(u.opened info.size).slots, (u.opened info.size).reserved + info.size⟩
      | some _ => u.opened info.size

/-- The usage after visits. -/
def after (types : TypeTable) (u : Usage) (vs : List Visit) : Usage := vs.foldl (visit types) u

end Usage

/-- What is at fault with a value that the walk comes to when `u` of the slots from `first` on are
needed: its type is not known, or has no shape, or the slot for it is not in the storage space. -/
inductive Fault (types : TypeTable) (first : Word) (u : Usage) (part : Part) :
    Collation.Error → Prop
  | unknown (h : types.get? part.typeId = none) :
      Fault types first u part (.unknownType part.typeId)
  | misshapen {info : TypeInfo} {e : Collation.Error} (hi : types.get? part.typeId = some info)
      (hm : info.Misshapen part.typeId e) : Fault types first u part e
  | outside {info : TypeInfo} {shape : Shape} (hi : types.get? part.typeId = some info)
      (hs : info.shape part.typeId = .ok shape)
      (h : wordCount < first.val + (u.opened info.size).slots) :
      Fault types first u part .slotIndexOverflow

/-- After the visits `before` of a walk that starts with `u` slots needed comes a value at fault. -/
def Meets (types : TypeTable) (first : Word) (u : Usage) (visits before : List Visit) (part : Part)
    (e : Collation.Error) : Prop :=
  before ++ [.enter part] <+: visits ∧ Fault types first (u.after types before) part e

/-- After the visits `before` comes the first value at fault. -/
def MeetsFirst (types : TypeTable) (first : Word) (u : Usage) (visits before : List Visit)
    (part : Part) (e : Collation.Error) : Prop :=
  Meets types first u visits before part e ∧ ∀ before' part' e',
    Meets types first u visits before' part' e' → before.length ≤ before'.length

section

variable {types : TypeTable} {first : Word} {u : Usage} {vs ws before : List Visit} {part : Part}
  {e e' : Collation.Error}

theorem Fault.unique (h : Fault types first u part e) (h' : Fault types first u part e') :
    e = e' := by
  cases h with
  | unknown h =>
    cases h' with
    | unknown => rfl
    | misshapen hi => cases h.symm.trans hi
    | outside hi => cases h.symm.trans hi
  | misshapen hi hm =>
    have hs := TypeInfo.shape_eq_error_iff.2 hm
    cases h' with
    | unknown h => cases hi.symm.trans h
    | misshapen hi' hm' =>
      cases hi.symm.trans hi'
      exact Except.error.inj (hs.symm.trans (TypeInfo.shape_eq_error_iff.2 hm'))
    | outside hi' hs' =>
      cases hi.symm.trans hi'
      cases hs.symm.trans hs'
  | outside hi hs =>
    cases h' with
    | unknown h => cases hi.symm.trans h
    | misshapen hi' hm' =>
      cases hi.symm.trans hi'
      cases hs.symm.trans (TypeInfo.shape_eq_error_iff.2 hm')
    | outside => rfl

/-- Only one fault can be the first. -/
theorem MeetsFirst.unique {before' : List Visit} {part' : Part}
    (h : MeetsFirst types first u vs before part e)
    (h' : MeetsFirst types first u vs before' part' e') : part = part' ∧ e = e' := by
  obtain ⟨⟨hp, hf⟩, hmin⟩ := h
  obtain ⟨⟨hp', hf'⟩, hmin'⟩ := h'
  have hlength : before.length = before'.length :=
    Nat.le_antisymm (hmin _ _ _ ⟨hp', hf'⟩) (hmin' _ _ _ ⟨hp, hf⟩)
  have hsame : before ++ [Visit.enter part] = before' ++ [.enter part'] :=
    (List.prefix_of_prefix_length_le hp hp' (by simp [hlength])).eq_of_length (by simp [hlength])
  obtain ⟨rfl, hpart⟩ := List.append_inj hsame hlength
  cases hpart
  exact ⟨rfl, hf.unique hf'⟩

/-- A fault in visits one after another is in the first of them or in those behind. -/
theorem meets_append : Meets types first u (vs ++ ws) before part e ↔
    Meets types first u vs before part e ∨
      ∃ rest, before = vs ++ rest ∧ Meets types first (u.after types vs) ws rest part e := by
  unfold Meets
  constructor
  · rintro ⟨hp, hf⟩
    rcases List.prefix_or_prefix_of_prefix hp (List.prefix_append vs ws) with hin | hover
    · exact .inl ⟨hin, hf⟩
    · rcases List.prefix_concat_iff.1 hover with heq | ⟨rest, rfl⟩
      · exact .inl ⟨heq ▸ List.prefix_rfl, hf⟩
      · rw [List.append_assoc, List.prefix_append_right_inj] at hp
        rw [Usage.after, List.foldl_append] at hf
        exact .inr ⟨rest, rfl, hp, hf⟩
  · rintro (⟨hp, hf⟩ | ⟨rest, rfl, hp, hf⟩)
    · exact ⟨hp.trans (List.prefix_append vs ws), hf⟩
    · rw [List.append_assoc, List.prefix_append_right_inj, Usage.after, List.foldl_append]
      exact ⟨hp, hf⟩

theorem of_meets_singleton {v : Visit} (h : Meets types first u [v] before part e) :
    v = .enter part ∧ Fault types first u part e := by
  obtain ⟨hp, hf⟩ := h
  have hnil : before = [] := by
    have := hp.length_le
    rw [List.length_append] at this
    exact List.eq_nil_of_length_eq_zero (by simpa using this)
  subst hnil
  exact ⟨(List.head_eq_of_cons_eq (hp.eq_of_length rfl)).symm, hf⟩

end

/-! ## Packing along the walk -/

/-- The slots of a packing are those that are needed, from `first` on. -/
structure Usage.Counts (first : Word) (u : Usage) (p : Packing) : Prop where
  numbered : p.Numbered first
  slots_eq : p.slots.length = u.slots
  reserved_eq : ∀ s ∈ p.slots.head?, s.reserved = u.reserved

section

variable {types : TypeTable} {first : Word} {u : Usage} {vs ws before : List Visit} {part : Part}
  {p q : Packing} {e : Collation.Error} {r : Except (Report Collation.Error) Packing}

namespace Usage.Counts

theorem close (h : u.Counts first p) (types : TypeTable) :
    (u.visit types .leave).Counts first p.close := by
  refine ⟨h.numbered.close, ?_, ?_⟩
  · rw [Packing.slots_close, List.length_modifyHead]
    exact h.slots_eq
  · rw [Packing.slots_close]
    cases p.slots with
    | nil => exact nofun
    | cons s older => simp [visit]

/-- A slot can be opened for a value if the slot that it needs is in the storage space. -/
theorem openFor (h : u.Counts first p) (size : Nat) :
    (∃ q, p.openFor size = .ok q ∧ (u.opened size).Counts first q ∧
      first.val + (u.opened size).slots ≤ wordCount) ∨
    (p.openFor size = .error .slotIndexOverflow ∧
      wordCount < first.val + (u.opened size).slots) := by
  have hslots := h.slots_eq
  unfold opened
  cases hs : p.slots with
  | nil =>
    rw [hs] at hslots
    have hfirst := first.isLt
    have ho : p.openFor size = .ok _ := Packing.openFor_first hs
    rw [if_pos (.inl hslots.symm), ← hslots]
    exact .inl ⟨_, ho, ⟨h.numbered.openFor ho, rfl, by simp [Slot.blank]⟩, hfirst⟩
  | cons s older =>
    obtain ⟨hindex, -⟩ : Consecutive first (s :: older) := hs ▸ h.numbered.consecutive
    have hres : s.reserved = u.reserved := h.reserved_eq s (by rw [hs]; rfl)
    have hword := s.index.isLt
    rw [hs, List.length_cons] at hslots
    -- The newest slot is the last that is needed, so one more is needed where packing opens one.
    by_cases hfull : s.reserved ≠ 0 ∧ s.remaining < size
    · rw [if_pos (.inr (hres ▸ hfull))]
      cases hi : s.index.successor? with
      | none =>
        have hlast : wordCount ≤ s.index.val + 1 := Word.ofNat?_eq_none_iff.1 hi
        refine .inr ⟨Packing.openFor_last hs hfull.1 hfull.2 hi, ?_⟩
        show wordCount < first.val + (u.slots + 1)
        omega
      | some index =>
        have hnext : s.index.val + 1 = index.val := Word.ofNat?_eq_some_iff.1 hi
        have hindex' := index.isLt
        have ho := Packing.openFor_next hs hfull.1 hfull.2 hi
        refine .inl ⟨_, ho, ⟨h.numbered.openFor ho, ?_, by simp [Slot.blank]⟩, ?_⟩
        · show older.length + 1 + 1 = u.slots + 1
          omega
        · show first.val + (u.slots + 1) ≤ wordCount
          omega
    · have hroom : s.reserved = 0 ∨ size ≤ s.remaining := by omega
      have hsame : ¬ (u.slots = 0 ∨ u.reserved ≠ 0 ∧ slotSize - u.reserved < size) := by
        rw [← hres]
        rintro (h0 | hfull')
        · omega
        · exact hfull hfull'
      rw [if_neg hsame]
      exact .inl ⟨p, Packing.openFor_newest hs hroom, h, by omega⟩

theorem place {info : TypeInfo} (h : u.Counts first p) :
    (⟨u.slots, u.reserved + info.size⟩ : Usage).Counts first (p.place part info) := by
  refine ⟨h.numbered.modifyNewest fun _ => rfl, ?_, ?_⟩
  · rw [Packing.slots_place, List.length_modifyHead]
    exact h.slots_eq
  · have hres := h.reserved_eq
    rw [Packing.slots_place]
    cases hp : p.slots with
    | nil => exact nofun
    | cons s older =>
      rw [hp] at hres
      simpa [Slot.place] using hres

/-- A value is taken in if it is not at fault, and its parts are those below it. -/
theorem arrive (h : u.Counts first p) (types : TypeTable) (part : Part) :
    (∃ q, p.arrive types part = .ok (q, types.below part) ∧
      (u.visit types (.enter part)).Counts first q ∧ ∀ e, ¬ Fault types first u part e) ∨
    ∃ e, p.arrive types part = .error e ∧ Fault types first u part e := by
  cases hi : types.get? part.typeId with
  | none => exact .inr ⟨_, (Packing.Arrives.unknown hi).arrive_eq, .unknown hi⟩
  | some info =>
    cases hs : info.shape part.typeId with
    | error e =>
      have ha : p.arrive types part = .error e := (Packing.Arrives.misshapen hi hs).arrive_eq
      exact .inr ⟨e, ha, .misshapen hi (TypeInfo.shape_eq_error_iff.1 hs)⟩
    | ok shape =>
      rcases h.openFor info.size with ⟨r, ho, hr, hin⟩ | ⟨ho, hout⟩
      · have hb := TypeTable.below_eq hi hs
        have ha := Packing.arrive_eq_ok_iff.2 ⟨info, shape, r, hi, hs, ho, hb.symm, rfl⟩
        refine .inl ⟨_, ha, ?_, ?_⟩
        · rw [visit, hi]
          dsimp only
          cases types.below part with
          | none => exact hr.place
          | some inner => exact hr
        · intro e hf
          cases hf with
          | unknown h => cases h.symm.trans hi
          | misshapen hi' hm =>
            cases hi.symm.trans hi'
            cases hs.symm.trans (TypeInfo.shape_eq_error_iff.2 hm)
          | outside hi' _ hout =>
            cases hi.symm.trans hi'
            omega
      · have ha := (Packing.Arrives.past hi hs (Packing.openFor_eq_iff.1 ho)).arrive_eq
        exact .inr ⟨_, ha, .outside hi hs hout⟩

end Usage.Counts

/-- The result of packing the values of a walk: slots if none of them is at fault, otherwise the
report of the first that is. -/
inductive Predicts (types : TypeTable) (first : Word) (u : Usage) (vs : List Visit) :
    Except (Report Collation.Error) Packing → Prop
  | ok {q : Packing} (hnone : ∀ before part e, ¬ Meets types first u vs before part e)
      (hq : (u.after types vs).Counts first q) : Predicts types first u vs (.ok q)
  | error {before : List Visit} {part : Part} {e : Collation.Error}
      (h : MeetsFirst types first u vs before part e) :
      Predicts types first u vs (.error (.one (.declaration part.name) e))

namespace Predicts

theorem nil (h : u.Counts first p) : Predicts types first u [] (.ok p) :=
  .ok (fun before part e hm => by simpa using hm.1.length_le) h

/-- Without a fault in front, what follows decides. -/
theorem append (h : Predicts types first u vs (.ok q))
    (hr : Predicts types first (u.after types vs) ws r) : Predicts types first u (vs ++ ws) r := by
  cases h with
  | ok hnone _ =>
    cases hr with
    | ok hnone' hq =>
      refine .ok (fun before part e hm => ?_) (by rwa [Usage.after, List.foldl_append])
      rcases meets_append.1 hm with hm | ⟨rest, -, hm⟩
      · exact hnone before part e hm
      · exact hnone' rest part e hm
    | error h =>
      obtain ⟨hm, hmin⟩ := h
      refine .error ⟨meets_append.2 (.inr ⟨_, rfl, hm⟩), fun before' part' e' hm' => ?_⟩
      rcases meets_append.1 hm' with hfront | ⟨rest, rfl, hrest⟩
      · exact absurd hfront (hnone before' part' e')
      · rw [List.length_append, List.length_append]
        exact Nat.add_le_add_left (hmin rest part' e' hrest) _

/-- A fault in front decides, whatever follows. -/
theorem append_error {e : Report Collation.Error}
    (h : Predicts types first u vs (.error e)) (ws : List Visit) :
    Predicts types first u (vs ++ ws) (.error e) := by
  cases h with
  | error h =>
    obtain ⟨hm, hmin⟩ := h
    refine .error ⟨meets_append.2 (.inl hm), fun before' part' e' hm' => ?_⟩
    rcases meets_append.1 hm' with hfront | ⟨rest, rfl, -⟩
    · exact hmin before' part' e' hfront
    · have := hm.1.length_le
      rw [List.length_append] at this ⊢
      omega

theorem counts (h : Predicts types first u vs (.ok q)) : (u.after types vs).Counts first q := by
  cases h with
  | ok _ hq => exact hq

/-- There is an error if and only if there is a fault. -/
theorem error_iff_meets (h : Predicts types first u vs r) :
    (∃ e, r = .error e) ↔ ∃ before part e, Meets types first u vs before part e := by
  cases h with
  | ok hnone _ => exact ⟨nofun, fun ⟨before, part, e, hm⟩ => absurd hm (hnone before part e)⟩
  | error h => exact ⟨fun _ => ⟨_, _, _, h.1⟩, fun _ => ⟨_, rfl⟩⟩

/-- The error is that of the first fault. -/
theorem eq_error_iff (h : Predicts types first u vs r) (report : Report Collation.Error) :
    r = .error report ↔ ∃ before part e, MeetsFirst types first u vs before part e ∧
      report = .one (.declaration part.name) e := by
  cases h with
  | ok hnone _ => exact ⟨nofun, fun ⟨_, _, _, hm, _⟩ => absurd hm.1 (hnone _ _ _)⟩
  | error h =>
    constructor
    · rintro ⟨⟩
      exact ⟨_, _, _, h, rfl⟩
    · rintro ⟨before, part, e, h', rfl⟩
      obtain ⟨rfl, rfl⟩ := h.unique h'
      rfl

theorem leave (h : u.Counts first p) (types : TypeTable) :
    Predicts types first u [.leave] (.ok p.close) :=
  .ok (fun _ _ _ hm => nomatch (of_meets_singleton hm).1) (h.close types)

theorem enter {parts? : Option (List Part)} (h : u.Counts first p)
    (ha : p.arrive types part = .ok (q, parts?)) :
    types.below part = parts? ∧ Predicts types first u [.enter part] (.ok q) := by
  rcases h.arrive types part with ⟨q', ha', hq, hnone⟩ | ⟨e, ha', -⟩
  · cases ha.symm.trans ha'
    refine ⟨rfl, .ok (fun before part' e hm => ?_) hq⟩
    obtain ⟨hpart, hfault⟩ := of_meets_singleton hm
    cases hpart
    exact hnone e hfault
  · cases ha.symm.trans ha'

theorem enter_error (h : u.Counts first p) (ha : p.arrive types part = .error e) :
    Predicts types first u [.enter part] (.error (.one (.declaration part.name) e)) := by
  rcases h.arrive types part with ⟨q', ha', -⟩ | ⟨e', ha', hf⟩
  · cases ha.symm.trans ha'
  · cases ha.symm.trans ha'
    have hmeets : Meets types first u [.enter part] [] part e := ⟨List.prefix_rfl, hf⟩
    exact .error ⟨hmeets, fun _ _ _ _ => Nat.zero_le _⟩

end Predicts

/-- Packing parts gives what the walk through them predicts. -/
theorem Collation.Packs.predicts {parts : List Part} (h : Packs types parts p r)
    (hw : Walk types parts vs) (hu : u.Counts first p) : Predicts types first u vs r := by
  induction h generalizing u vs with
  | done =>
    cases hw
    exact .nil hu
  | stuck ha =>
    have hfail := Predicts.enter_error hu ha
    cases hw with
    | whole hb hr => exact hfail.append_error _
    | apart hb hi hr => exact hfail.append_error _
  | whole ha _ ih =>
    obtain ⟨hb, henter⟩ := Predicts.enter hu ha
    cases hw with
    | whole _ hr => exact henter.append (ih hr henter.counts)
    | apart hb' => cases hb.symm.trans hb'
  | apart ha _ _ ihi ihr =>
    obtain ⟨hb, henter⟩ := Predicts.enter hu ha
    cases hw with
    | whole hb' => cases hb.symm.trans hb'
    | apart hb' hi hr =>
      cases hb.symm.trans hb'
      have hinner := ihi hi henter.counts
      have hleave := Predicts.leave hinner.counts types
      -- The visits are those of the value, of its own parts, of its end, and of the parts behind it.
      exact henter.append (hinner.append (hleave.append (ihr hr hleave.counts)))
  | inside ha _ ih =>
    obtain ⟨hb, henter⟩ := Predicts.enter hu ha
    cases hw with
    | whole hb' => cases hb.symm.trans hb'
    | apart hb' hi hr =>
      cases hb.symm.trans hb'
      exact henter.append ((ih hi henter.counts).append_error _)

end

/-- Collation fails with the error that the walk through the declarations predicts. -/
theorem Layout.collate_eq_error_iff {layout : Layout} (hfin : layout.Finite) (first : Word)
    {vs : List Visit} (hw : Walk layout.types (layout.storage.map (·.part)) vs) :
    ∃ r, Predicts layout.types first .start vs r ∧
      ∀ e, layout.collate first = .error e ↔ r = .error e := by
  have hpacks := Collation.packs_foldlM Declaration.part
    (fun d hd p => Collation.packs_placeNested hfin (.start hd) (Nat.zero_add _) p) (.start first)
  refine ⟨_, hpacks.predicts hw ⟨Packing.numbered_start first, rfl, nofun⟩, fun e => ?_⟩
  rw [collate_eq]
  exact map_eq_error_iff

/-- A layout cannot be collated if and only if the walk through its declarations, into structs and
fixed-size arrays only, meets a value at fault. There is one such walk, and the first value at fault
is the one that is reported, and nothing else: its error, and its full path. -/
theorem collate_fails_iff {layout : Layout} (hfin : layout.Finite) (first : Word) :
    ∃ visits, (∀ vs, Walk layout.types (layout.storage.map (·.part)) vs ↔ vs = visits) ∧
      ((∃ r, layout.collate first = .error r) ↔
        ∃ before part e, Meets layout.types first .start visits before part e) ∧
      ∀ r, layout.collate first = .error r ↔ ∃ before part e,
        MeetsFirst layout.types first .start visits before part e ∧
          r = .one (.declaration part.name) e := by
  obtain ⟨visits, hw⟩ := layout.exists_walk hfin
  obtain ⟨r, hr, hcollate⟩ := Layout.collate_eq_error_iff hfin first hw
  refine ⟨visits, fun vs => ⟨fun h => h.unique hw, fun h => h ▸ hw⟩, ?_, fun report => ?_⟩
  · simp only [hcollate]
    exact hr.error_iff_meets
  · rw [hcollate]
    exact hr.eq_error_iff report

/-- Unknown types of keys, values and elements do no harm where the walk does not come to them. From
the first slot on, a member of a struct is the first fault; from the last slot on, the second value
that needs a slot. -/
theorem collate_fails_iff_unreached :
    let layout : Layout := ⟨[.bare "m" "t_mapping", .bare "z" "t_none", .bare "l" "t_list",
      .bare "s" "t_struct(S)"],
      .ofList [("t_bool", .value "bool" 1), ("t_list", .dynamicArray "A[]" "t_lost"),
        ("t_mapping", .mapping "mapping(A => A)" "t_lost" "t_lost"),
        ("t_none", .fixedArray "A[0]" 0 "t_lost"),
        ("t_struct(S)", .struct "struct S" 64 [.bare "x" "t_bool", .bare "y" "t_lost"])]⟩
    let visits : List Visit := [.enter ⟨"m", "t_mapping"⟩, .enter ⟨"z", "t_none"⟩, .leave,
      .enter ⟨"l", "t_list"⟩, .enter ⟨"s", "t_struct(S)"⟩, .enter ⟨"s.x", "t_bool"⟩,
      .enter ⟨"s.y", "t_lost"⟩, .leave]
    let last : Word := ⟨wordCount - 1, by decide⟩
    layout.Finite ∧ Walk layout.types (layout.storage.map (·.part)) visits ∧
      layout.collate .zero = .error (.one (.declaration "s.y") (.unknownType "t_lost")) ∧
      layout.collate last = .error (.one (.declaration "l") .slotIndexOverflow) ∧
      (∃ before part, MeetsFirst layout.types .zero .start visits before part
        (.unknownType "t_lost") ∧ part.name = "s.y") ∧
      ∃ before part, MeetsFirst layout.types last .start visits before part
        .slotIndexOverflow ∧ part.name = "l" := by
  intro layout visits last
  have hfin : layout.Finite := Layout.finite_of_rank String.length (by decide)
  have hw : Walk layout.types (layout.storage.map (·.part)) visits :=
    .whole rfl (.apart rfl .nil (.whole rfl (.apart rfl (.whole rfl (.whole rfl .nil)) .nil)))
  have hzero : layout.collate .zero =
      .error (.one (.declaration "s.y") (.unknownType "t_lost")) := by
    rw [Layout.collate_eq]
    rfl
  have hlast : layout.collate last = .error (.one (.declaration "l") .slotIndexOverflow) := by
    rw [Layout.collate_eq]
    rfl
  refine ⟨hfin, hw, hzero, hlast, ?_, ?_⟩
  · obtain ⟨_, hwalk, -, hreport⟩ := collate_fails_iff hfin .zero
    cases (hwalk _).1 hw
    obtain ⟨before, ⟨_, _⟩, _, hm, he⟩ := (hreport _).1 hzero
    cases he
    exact ⟨before, _, hm, rfl⟩
  · obtain ⟨_, hwalk, -, hreport⟩ := collate_fails_iff hfin last
    cases (hwalk _).1 hw
    obtain ⟨before, ⟨_, _⟩, _, hm, he⟩ := (hreport _).1 hlast
    cases he
    exact ⟨before, _, hm, rfl⟩

end SlotLayout
