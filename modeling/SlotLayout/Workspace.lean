import SlotLayout.Layout
import SlotLayout.Shape

/-!
# Workspaces

A layout is a plain record. Whoever works with layouts adds types to a table and declarations to a
list, empties either of them, reads another layout instead, and keeps several to compare them. A
workspace is the state between such steps, which is what it takes to run a series of them: the
layout at hand, and layouts that were set aside under a name. Packing and alignment know nothing of
it.
-/

namespace SlotLayout

/-- The layout at hand and the layouts set aside, by name, in increasing order of names. -/
structure Workspace where
  current : Layout
  saved : List (String × Layout)
  deriving DecidableEq

namespace Workspace

/-- The workspace at the start. -/
def empty : Workspace := ⟨.empty, []⟩

/-- Adds a type, in place of one with the same identifier. -/
def insertType (w : Workspace) (id : String) (info : TypeInfo) : Workspace :=
  { w with current := { w.current with types := w.current.types.insert id info } }

/-- Removes all types. -/
def clearTypes (w : Workspace) : Workspace :=
  { w with current := { w.current with types := .empty } }

/-- Adds a declaration after the others. -/
def declare (w : Workspace) (d : Declaration) : Workspace :=
  { w with current := { w.current with storage := w.current.storage ++ [d] } }

/-- Removes all declarations. -/
def clearStorage (w : Workspace) : Workspace :=
  { w with current := { w.current with storage := [] } }

/-- Takes up another layout. -/
def load (w : Workspace) (layout : Layout) : Workspace := { w with current := layout }

/-- The saved layouts with one more, in place of one with the same name. -/
def saveAs (name : String) (layout : Layout) : List (String × Layout) → List (String × Layout)
  | [] => [(name, layout)]
  | e :: es =>
    if name < e.1 then (name, layout) :: e :: es
    else if name = e.1 then (name, layout) :: es
    else e :: saveAs name layout es

/-- Sets the layout at hand aside under a name. -/
def save (w : Workspace) (name : String) : Workspace :=
  { w with saved := saveAs name w.current w.saved }

/-- The layout saved under a name; there is nothing in a layout that was never saved. -/
def find (w : Workspace) (name : String) : Layout := (w.saved.lookup name).getD .empty

end Workspace

end SlotLayout
