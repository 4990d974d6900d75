import SlotLayout.Collation.Packing
import SlotLayout.Report

/-!
# Collation

Packing the declarations of a layout into slots, depth first and in order. A value goes to the first
free byte of the newest slot if it fits there. A struct or fixed-size array falls into its parts,
which are packed in its place; after the last of them its last slot is claimed in full.

Two forms of the same packing stand side by side. `Collation.run` works through a list of tasks,
which grows by the parts of a value when it falls apart. `Collation.placeNested` is the plain
recursion. Both are given how deep values may fall apart; as a type whose parts do not repeat it
cannot nest deeper than there are types in the table, that depth stops endless types only.

Stopping there is a deviation. Packing as such has no limit to its depth and no error
`endlessType`: a value of a type that contains itself is taken apart again and again, until memory
is used up, or until the slots are, if bytes are claimed each time around. From a first slot near
the end of storage the latter comes soon, and the error of packing without a limit is
`slotIndexOverflow`, where it is `endlessType` here if the limit is reached before. For a type that
does not contain itself the limit makes no difference (`Collation.packs_placeNested`).
-/

namespace SlotLayout

namespace Collation

/-- A step of packing that is still to be done. -/
inductive Task where
  /-- Take in a value, which may fall apart `room` levels deep. -/
  | place (room : Nat) (part : Part)
  /-- Claim the rest of the newest slot. -/
  | close
  deriving DecidableEq

/-- The sum of counts. -/
def total : List Nat → Nat
  | [] => 0
  | n :: ns => n + total ns

theorem total_append (ms ns : List Nat) : total (ms ++ ns) = total ms + total ns := by
  induction ms with
  | nil => exact (Nat.zero_add _).symm
  | cons m ms ih => rw [List.cons_append, total, total, ih, Nat.add_assoc]

/-- A bound for the number of steps that a value of a type takes. -/
def steps (types : TypeTable) : Nat → String → Nat
  | 0, _ => 1
  | room + 1, typeId => 2 + total ((types.partTypes typeId).map (steps types room))

theorem steps_pos (types : TypeTable) (room : Nat) (typeId : String) :
    0 < steps types room typeId := by
  cases room <;> simp only [steps] <;> omega

/-- A bound for the number of steps that a task takes. -/
def Task.steps (types : TypeTable) : Task → Nat
  | .place room part => Collation.steps types room part.typeId
  | .close => 1

/-- The tasks for the parts of a value. -/
def tasksFor (room : Nat) (parts : List Part) : List Task := parts.map (.place room) ++ [.close]

theorem total_steps_tasksFor (types : TypeTable) (room : Nat) (parts : List Part) :
    total ((tasksFor room parts).map (Task.steps types)) =
      total ((parts.map (·.typeId)).map (steps types room)) + 1 := by
  rw [tasksFor, List.map_append, total_append, List.map_map, List.map_map]
  rfl

/-- Does the tasks in order. -/
def run (types : TypeTable) : List Task → Packing → Except (Report Error) Packing
  | [], p => .ok p
  | .close :: tasks, p => run types tasks p.close
  | .place room part :: tasks, p =>
    match _h : p.arrive types part with
    | .error e => .error (.one (.declaration part.name) e)
    | .ok (q, none) => run types tasks q
    | .ok (q, some parts) =>
      match room with
      | 0 => .error (.one (.declaration part.name) (.endlessType part.typeId))
      | room + 1 => run types (tasksFor room parts ++ tasks) q
termination_by tasks => total (tasks.map (Task.steps types))
decreasing_by
  · rw [List.map_cons, total, Task.steps]
    omega
  · have := steps_pos types room part.typeId
    rw [List.map_cons, total, Task.steps]
    omega
  · rw [List.map_append, total_append, total_steps_tasksFor, List.map_cons, total, Task.steps,
      steps, Packing.typeIds_of_arrive _h]
    omega

/-- Packs a value with all its parts, which may fall apart `room` levels deep. -/
def placeNested (types : TypeTable) (room : Nat) (part : Part) (p : Packing) :
    Except (Report Error) Packing :=
  match p.arrive types part with
  | .error e => .error (.one (.declaration part.name) e)
  | .ok (q, none) => .ok q
  | .ok (q, some parts) =>
    match room with
    | 0 => .error (.one (.declaration part.name) (.endlessType part.typeId))
    | room + 1 => Packing.close <$> parts.foldlM (fun q part => placeNested types room part q) q
termination_by structural room

/-- Working through the tasks for a value comes to the same as packing it by recursion and going on
with the other tasks. -/
theorem run_place (types : TypeTable) (room : Nat) (part : Part) (tasks : List Task) (p : Packing) :
    run types (.place room part :: tasks) p =
      (placeNested types room part p).bind (run types tasks) := by
  induction room generalizing part tasks p with
  | zero =>
    unfold run placeNested
    match p.arrive types part with
    | .error e => rfl
    | .ok (q, none) => rfl
    | .ok (q, some parts) => rfl
  | succ room ih =>
    have parts_eq (parts : List Part) (q : Packing) :
        run types (tasksFor room parts ++ tasks) q =
          (parts.foldlM (fun q part => placeNested types room part q) q).bind
            fun q => run types tasks q.close := by
      induction parts generalizing q with
      | nil => exact run.eq_2 ..
      | cons part parts ihp =>
        refine (ih part (tasksFor room parts ++ tasks) q).trans ?_
        rw [List.foldlM_cons]
        cases placeNested types room part q with
        | error e => rfl
        | ok q => exact ihp q
    unfold run placeNested
    match p.arrive types part with
    | .error e => rfl
    | .ok (q, none) => rfl
    | .ok (q, some parts) =>
      refine (parts_eq parts q).trans ?_
      dsimp only
      cases parts.foldlM (fun q part => placeNested types room part q) q with
      | error e => rfl
      | ok q => rfl

/-- Packs a top-level declaration. -/
def declare (types : TypeTable) (p : Packing) (d : Declaration) :
    Except (Report Error) Packing :=
  run types [.place types.size d.part] p

end Collation

/-- The slots of a layout that starts at the slot `first`, in increasing order. -/
def Layout.collate (layout : Layout) (first : Word) :
    Except (Report Collation.Error) (List Slot) := do
  let p ← layout.storage.foldlM (Collation.declare layout.types) (.start first)
  return p.slots.reverse

end SlotLayout
