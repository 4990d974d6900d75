import Mathlib.Data.List.Nodup
import Mathlib.Data.List.Sort
import SlotLayout.Workspace

/-!
# Type tables

A type table is determined by what it has under each identifier (`TypeTable.eq_of_get?`), as its
entries are in order. Of entries that are put into a table one after another, the last one of each
identifier counts (`TypeTable.get?_ofList`), so a table is built again from its own entries
(`TypeTable.ofList_entries`).

In a workspace, any layout is put together from its types and declarations
(`Workspace.current_build`), and a layout is found under the name that it was saved under last
(`Workspace.find_save`).
-/

namespace SlotLayout

namespace TypeTable

variable {types : TypeTable}

theorem mem_of_lookup {es : List (String × TypeInfo)} {id : String} {info : TypeInfo}
    (h : es.lookup id = some info) : (id, info) ∈ es := by
  obtain ⟨_, _, he, -⟩ := List.lookup_eq_some_iff.1 h
  rw [he]
  exact List.mem_append_right _ List.mem_cons_self

theorem mem_of_get? {id : String} {info : TypeInfo} (h : types.get? id = some info) :
    (id, info) ∈ types.entries := mem_of_lookup h

/-- Under different identifiers, every entry is found. -/
theorem lookup_eq_some_iff_mem {es : List (String × TypeInfo)} (h : (es.map (·.1)).Nodup)
    {id : String} {info : TypeInfo} : es.lookup id = some info ↔ (id, info) ∈ es := by
  refine ⟨mem_of_lookup, fun he => ?_⟩
  obtain ⟨info', hlookup⟩ := Option.isSome_iff_exists.1
    (List.lookup_isSome_iff.2 ⟨(id, info), he, beq_self_eq_true id⟩)
  have hsame := List.inj_on_of_nodup_map h (mem_of_lookup hlookup) he rfl
  rw [hlookup, (Prod.mk.inj hsame).2]

theorem nodup_ids (types : TypeTable) : (types.entries.map (·.1)).Nodup := by
  refine List.pairwise_map.2 (types.ordered.imp fun {a b} hlt heq => ?_)
  rw [heq] at hlt
  exact String.lt_irrefl _ hlt

theorem get?_of_mem_ids {id : String} (h : id ∈ types.entries.map (·.1)) :
    ∃ info, types.get? id = some info := by
  obtain ⟨e, he, rfl⟩ := List.mem_map.1 h
  exact ⟨e.2, (lookup_eq_some_iff_mem types.nodup_ids).2 he⟩

/-- Tables that have the same types are equal. -/
theorem eq_of_get? {a b : TypeTable} (h : ∀ id, a.get? id = b.get? id) : a = b := by
  have hmem : ∀ e, e ∈ a.entries ↔ e ∈ b.entries := by
    rintro ⟨id, info⟩
    rw [← lookup_eq_some_iff_mem a.nodup_ids, ← lookup_eq_some_iff_mem b.nodup_ids]
    exact Eq.congr_left (h id)
  have : Std.Irrefl fun x y : String × TypeInfo => x.1 < y.1 := ⟨fun x => String.lt_irrefl x.1⟩
  have hentries := List.Pairwise.eq_of_mem_iff a.ordered b.ordered hmem
  cases a
  cases b
  cases hentries
  rfl

section Lookup

variable {α : Type}

theorem lookup_cons_eq_ite (other id : String) (a : α) (es : List (String × α)) :
    ((id, a) :: es).lookup other = if other = id then some a else es.lookup other := by
  rw [List.lookup_cons]
  by_cases h : other = id
  · rw [if_pos h, beq_iff_eq.2 h]
  · rw [if_neg h, beq_false_of_ne h]

/-- What is found after an entry has been put in its place among others, or in place of one with the
same name. -/
theorem lookup_of_put (f : List (String × α) → List (String × α)) {id : String} {a : α}
    (hnil : f [] = [(id, a)])
    (hcons : ∀ e es, f (e :: es) = if id < e.1 then (id, a) :: e :: es
      else if id = e.1 then (id, a) :: es else e :: f es)
    (es : List (String × α)) (other : String) :
    (f es).lookup other = if other = id then some a else es.lookup other := by
  induction es with
  | nil =>
    rw [hnil]
    exact lookup_cons_eq_ite ..
  | cons e es ih =>
    obtain ⟨key, val⟩ := e
    rw [hcons]
    split
    · exact lookup_cons_eq_ite ..
    · split
      · rename_i hid
        have hid : id = key := hid
        rw [lookup_cons_eq_ite, lookup_cons_eq_ite, hid]
        split <;> rfl
      · rename_i hid
        rw [lookup_cons_eq_ite, lookup_cons_eq_ite, ih]
        by_cases h : other = id
        · rw [h, if_neg hid, if_pos rfl, if_pos rfl]
        · rw [if_neg h, if_neg h]

end Lookup

theorem get?_insert (types : TypeTable) (id : String) (info : TypeInfo) (other : String) :
    (types.insert id info).get? other = if other = id then some info else types.get? other :=
  lookup_of_put (put id info) rfl (fun _ _ => rfl) types.entries other

theorem get?_ofList (entries : List (String × TypeInfo)) (id : String) :
    (ofList entries).get? id = entries.reverse.lookup id := by
  suffices h : ∀ table : TypeTable,
      (entries.foldl (fun table e => table.insert e.1 e.2) table).get? id =
        (entries.reverse.lookup id).or (table.get? id) by
    exact (h empty).trans (Option.or_none ..)
  induction entries with
  | nil => exact fun table => rfl
  | cons e entries ih =>
    intro table
    have hlast : (if id = e.1 then some e.2 else table.get? id) =
        ([e].lookup id).or (table.get? id) := by
      rw [show [e].lookup id = if id = e.1 then some e.2 else none from lookup_cons_eq_ite ..]
      split <;> rfl
    rw [List.foldl_cons, ih, get?_insert, hlast, List.reverse_cons, List.lookup_append,
      Option.or_assoc]

/-- The entries of a table make up the table again. -/
theorem ofList_entries (types : TypeTable) : ofList types.entries = types := by
  refine eq_of_get? fun id => ?_
  have hreverse : (types.entries.reverse.map (·.1)).Nodup := by
    rw [List.map_reverse, List.nodup_reverse]
    exact types.nodup_ids
  rw [get?_ofList]
  refine Option.ext fun info => ?_
  rw [lookup_eq_some_iff_mem hreverse, List.mem_reverse, ← lookup_eq_some_iff_mem types.nodup_ids]
  rfl

end TypeTable

/-! ## Workspaces -/

namespace Workspace

/-- Saving sets the layout at hand aside under one name, and leaves the others as they are. -/
theorem find_save (w : Workspace) (name other : String) :
    (w.save name).find other = if other = name then w.current else w.find other := by
  have hlookup : (w.save name).saved.lookup other =
      if other = name then some w.current else w.saved.lookup other :=
    TypeTable.lookup_of_put (saveAs name w.current) rfl (fun _ _ => rfl) w.saved other
  rw [find, hlookup]
  split <;> rfl

theorem current_insertTypes (es : List (String × TypeInfo)) (w : Workspace) :
    (es.foldl (fun w e => w.insertType e.1 e.2) w).current =
      { w.current with types := es.foldl (fun types e => types.insert e.1 e.2) w.current.types } := by
  induction es generalizing w with
  | nil => rfl
  | cons e es ih => rw [List.foldl_cons, ih, List.foldl_cons, insertType]

theorem current_declareAll (ds : List Declaration) (w : Workspace) :
    (ds.foldl declare w).current = { w.current with storage := w.current.storage ++ ds } := by
  induction ds generalizing w with
  | nil => rw [List.foldl_nil, List.append_nil]
  | cons d ds ih => rw [List.foldl_cons, ih, declare, List.append_assoc, List.singleton_append]

/-- Any layout is put together by adding its types and then its declarations to the empty one. -/
theorem current_build (layout : Layout) : (layout.storage.foldl declare
    (layout.types.entries.foldl (fun w e => w.insertType e.1 e.2) empty)).current = layout := by
  have htypes := layout.types.ofList_entries
  rw [current_declareAll, current_insertTypes]
  exact congrArg (Layout.mk layout.storage) htypes

end Workspace

end SlotLayout
