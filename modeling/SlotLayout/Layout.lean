import SlotLayout.Numeral

/-!
# Storage layouts

A storage layout is the list of a contract's storage declarations, in order, with a table of the
types that they use. The table keeps its types ordered by identifier, so two tables with the same
types are equal.

* `Declaration`: a top-level variable, or a member of a struct type;
* `TypeInfo`: what is known of a type;
* `TypeTable.get?`, `TypeTable.insert`: the types by their identifiers.
-/

namespace SlotLayout

/-- The number of bytes in a slot. -/
def slotSize : Nat := 32

/-- How a value of a type is kept in storage. -/
inductive Encoding where
  /-- In its slot, or in the slots of its parts. -/
  | inplace
  /-- Elsewhere, by key; its slot stays without content. -/
  | mapping
  /-- Elsewhere, in a row; its slot holds the length. -/
  | dynamicArray
  /-- Like a dynamic array of bytes. -/
  | bytes
  deriving DecidableEq, Repr

/-- A storage variable or struct member, with what the compiler says about its position. -/
structure Declaration where
  astId? : Option Nat
  contract? : Option String
  label : String
  offset : Nat
  slot? : Option String
  typeId : String
  deriving DecidableEq, Repr

/-- The declaration of a label and a type without anything about its position. -/
def Declaration.bare (label typeId : String) : Declaration :=
  ⟨none, none, label, 0, none, typeId⟩

/-- What is known of a type. -/
structure TypeInfo where
  encoding : Encoding
  label : String
  byteCount : Nat
  base? : Option String
  key? : Option String
  value? : Option String
  members? : Option (List Declaration)
  deriving DecidableEq, Repr

namespace TypeInfo

/-- A plain value of some bytes. -/
def value (label : String) (byteCount : Nat) : TypeInfo :=
  ⟨.inplace, label, byteCount, none, none, none, none⟩

/-- A struct with its members. -/
def struct (label : String) (byteCount : Nat) (members : List Declaration) : TypeInfo :=
  ⟨.inplace, label, byteCount, none, none, none, some members⟩

/-- An array whose length is part of its label. -/
def fixedArray (label : String) (byteCount : Nat) (base : String) : TypeInfo :=
  ⟨.inplace, label, byteCount, some base, none, none, none⟩

/-- An array of any length. -/
def dynamicArray (label base : String) : TypeInfo :=
  ⟨.dynamicArray, label, slotSize, some base, none, none, none⟩

/-- A mapping from keys to values. -/
def mapping (label key value : String) : TypeInfo :=
  ⟨.mapping, label, slotSize, none, some key, some value, none⟩

/-- A byte string or text of any length. -/
def bytes (label : String) : TypeInfo :=
  ⟨.bytes, label, slotSize, none, none, none, none⟩

end TypeInfo

/-! ## Type tables -/

/-- Types by identifier, in increasing order of identifiers. -/
structure TypeTable where
  entries : List (String × TypeInfo)
  ordered : entries.Pairwise fun a b => a.1 < b.1

instance : DecidableEq TypeTable := fun a b =>
  if h : a.entries = b.entries then
    .isTrue (by cases a; cases b; cases h; rfl)
  else .isFalse fun h' => h (by rw [h'])

namespace TypeTable

/-- The table without types. -/
def empty : TypeTable := ⟨[], .nil⟩

/-- The entries with `info` under `id`, in place of what was there. -/
def put (id : String) (info : TypeInfo) :
    List (String × TypeInfo) → List (String × TypeInfo)
  | [] => [(id, info)]
  | e :: es =>
    if id < e.1 then (id, info) :: e :: es
    else if id = e.1 then (id, info) :: es
    else e :: put id info es

theorem mem_put {id : String} {info : TypeInfo} {e : String × TypeInfo}
    {es : List (String × TypeInfo)} (h : e ∈ put id info es) : e = (id, info) ∨ e ∈ es := by
  induction es with
  | nil => simpa [put] using h
  | cons a as ih =>
    unfold put at h
    split at h
    · simpa using h
    · split at h
      · rcases List.mem_cons.1 h with h | h
        · exact .inl h
        · exact .inr (List.mem_cons_of_mem _ h)
      · rcases List.mem_cons.1 h with h | h
        · exact .inr (h ▸ List.mem_cons_self)
        · exact (ih h).imp_right (List.mem_cons_of_mem _)

theorem pairwise_put {id : String} {info : TypeInfo} {es : List (String × TypeInfo)}
    (h : es.Pairwise fun a b => a.1 < b.1) : (put id info es).Pairwise fun a b => a.1 < b.1 := by
  induction es with
  | nil => exact List.pairwise_singleton _ _
  | cons a as ih =>
    have ha := List.pairwise_cons.1 h
    unfold put
    split
    · rename_i hlt
      refine List.pairwise_cons.2 ⟨fun e he => ?_, h⟩
      rcases List.mem_cons.1 he with rfl | he
      · exact hlt
      · exact String.lt_trans hlt (ha.1 e he)
    · split
      · rename_i heq
        refine List.pairwise_cons.2 ⟨fun e he => ?_, ha.2⟩
        rw [show (id, info).1 = a.1 from heq]
        exact ha.1 e he
      · rename_i hge hne
        refine List.pairwise_cons.2 ⟨fun e he => ?_, ih ha.2⟩
        rcases mem_put he with rfl | he
        · exact Std.lt_of_le_of_ne (Std.not_lt.1 hge) fun h => hne h.symm
        · exact ha.1 e he

/-- The table with `info` under `id`, in place of what was there. -/
def insert (table : TypeTable) (id : String) (info : TypeInfo) : TypeTable :=
  ⟨put id info table.entries, pairwise_put table.ordered⟩

/-- The table of entries of which later ones count. -/
def ofList (entries : List (String × TypeInfo)) : TypeTable :=
  entries.foldl (fun table e => table.insert e.1 e.2) empty

/-- What is known of the type `id`. -/
def get? (table : TypeTable) (id : String) : Option TypeInfo :=
  table.entries.lookup id

/-- The number of types. -/
def size (table : TypeTable) : Nat := table.entries.length

/-- Whether there are no types. -/
def isEmpty (table : TypeTable) : Bool := table.entries.isEmpty

end TypeTable

/-- A storage layout. -/
structure Layout where
  storage : List Declaration
  types : TypeTable
  deriving DecidableEq

/-- The layout without declarations and types. -/
def Layout.empty : Layout := ⟨[], .empty⟩

end SlotLayout
