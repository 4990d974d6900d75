/-!
# Sweeps

Two lists of segments laid side by side. `sweep` cuts them into pieces, each of which ends where the
nearer of the two current segments ends; the sweep moves on, on every side, past the segments that
end there. It is over when one side has no segments left.
-/

namespace SlotLayout

/-- A stretch covered by one segment of each side. -/
structure Piece (κ α : Type) where
  start : κ
  stop : κ
  a : α
  b : α
  deriving DecidableEq

/-- The pieces of two lists of segments, the first of them from `start` on; `stop` says where a
segment ends. -/
def sweep {κ α : Type} [Ord κ] (stop : α → κ) (start : κ) : List α → List α → List (Piece κ α)
  | a :: as, b :: bs =>
    match compare (stop a) (stop b) with
    | .lt => ⟨start, stop a, a, b⟩ :: sweep stop (stop a) as (b :: bs)
    | .gt => ⟨start, stop b, a, b⟩ :: sweep stop (stop b) (a :: as) bs
    | .eq => ⟨start, stop a, a, b⟩ :: sweep stop (stop a) as bs
  | [], _ => []
  | _ :: _, [] => []
termination_by as bs => as.length + bs.length

end SlotLayout
