import SlotLayout.Slot

/-!
# Packings

The slots filled so far while declarations are packed one after another. Only the newest slot still
changes. `Packing.arrive` is the step for one value: it finds its type and shape, opens a slot if
the newest one cannot take it, and either puts it there or hands back its parts.
-/

namespace SlotLayout

/-- Slots in the making, the newest first, from the slot `first` on. -/
structure Packing where
  first : Word
  slots : List Slot
  deriving DecidableEq

namespace Packing

/-- The packing without slots. -/
def start (first : Word) : Packing := ⟨first, []⟩

/-- Opens a slot for a value of some bytes, if there is none or the newest has bytes claimed and too
few left. -/
def openFor (p : Packing) (size : Nat) : Except Collation.Error Packing :=
  match p.slots with
  | [] => .ok { p with slots := [.blank p.first] }
  | s :: older =>
    if !s.isEmpty && s.remaining < size then
      match s.index.successor? with
      | some index => .ok { p with slots := .blank index :: s :: older }
      | none => .error .slotIndexOverflow
    else .ok p

/-- Changes the newest slot. -/
def modifyNewest (p : Packing) (f : Slot → Slot) : Packing :=
  match p.slots with
  | [] => p
  | s :: older => { p with slots := f s :: older }

/-- Puts a value into the newest slot. -/
def place (p : Packing) (part : Part) (info : TypeInfo) : Packing :=
  p.modifyNewest (·.place part info)

/-- Claims the rest of the newest slot. -/
def close (p : Packing) : Packing := p.modifyNewest Slot.close

/-- Takes a value in: either places it, or gives the parts to be taken in its stead. -/
def arrive (types : TypeTable) (part : Part) (p : Packing) :
    Except Collation.Error (Packing × Option (List Part)) := do
  let info ← types.resolve part.typeId
  let shape ← info.shape part.typeId
  let p ← p.openFor info.size
  match shape.parts? part.name with
  | none => return (p.place part info, none)
  | some parts => return (p, some parts)

/-- The parts that a value falls into have the types that its type says. -/
theorem typeIds_of_arrive {types : TypeTable} {part : Part} {p q : Packing} {parts : List Part}
    (h : p.arrive types part = .ok (q, some parts)) :
    parts.map (·.typeId) = types.partTypes part.typeId := by
  unfold arrive TypeTable.resolve at h
  unfold TypeTable.partTypes
  cases hi : types.get? part.typeId with
  | none => simp [hi, bind, Except.bind] at h
  | some info =>
    simp only [hi, bind, Except.bind] at h
    cases hs : info.shape part.typeId with
    | error e => simp [hs] at h
    | ok shape =>
      simp only [hs] at h
      split at h
      · cases h
      · cases shape with
        | value => simp [Shape.parts?, pure, Except.pure] at h
        | indirect => simp [Shape.parts?, pure, Except.pure] at h
        | struct members =>
          simp only [Shape.parts?, pure, Except.pure, Except.ok.injEq, Prod.mk.injEq,
            Option.some.injEq] at h
          simp [← h.2, hs, Declaration.partOf, Function.comp_def]
        | fixedArray base length =>
          simp only [Shape.parts?, pure, Except.pure, Except.ok.injEq, Prod.mk.injEq,
            Option.some.injEq] at h
          simp [← h.2, hs, Part.element, Function.comp_def, List.map_const']

end Packing

end SlotLayout
