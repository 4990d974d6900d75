import SlotLayout.Json.Decode

/-!
# Records

Records with named fields, given either as an object or as the list of their values in the order of
declaration. Members that the record does not know are skipped; a field may come once only; fields
that are missing are looked for once the record is complete, in the order of declaration.

* `Fields`: the fields of a record, each with the value read for it so far;
* `Decoder.record`: the decoder of a record.
-/

namespace SlotLayout.Json

/-- A field: its name, how its value is read, and what stands for it if it may be missing. -/
structure Field (α : Type) where
  name : String
  decode : Decoder α
  absent : Option α

/-- A field that has to be there. -/
def Field.required {α : Type} (name : String) (decode : Decoder α) : Field α :=
  ⟨name, decode, none⟩

/-- A field that may be missing or null. -/
def Field.optional {α : Type} (name : String) (decode : Decoder α) : Field (Option α) :=
  ⟨name, decode.optional, some none⟩

/-- The fields of a record and the values read for them so far; the type lists the values. -/
inductive Fields : Type → Type 1 where
  | nil : Fields Unit
  | cons {α ρ : Type} (field : Field α) (value : Option α) (rest : Fields ρ) : Fields (α × ρ)

namespace Fields

/-- Puts a field that has no value yet in front. -/
def add {α ρ : Type} (field : Field α) (rest : Fields ρ) : Fields (α × ρ) := .cons field none rest

/-- The number of fields. -/
def length : {ρ : Type} → Fields ρ → Nat
  | _, .nil => 0
  | _, .cons _ _ rest => rest.length + 1

/-- Takes the member `key` of an object. -/
def feed (key : String) (t : Tree) : {ρ : Type} → Fields ρ → Except Error (Fields ρ)
  | _, .nil =>
    match t.skipError? with
    | none => .ok .nil
    | some e => .error e
  | _, .cons field value rest =>
    if field.name = key then
      match value with
      | some _ => .error (.duplicateField key)
      | none =>
        match field.decode t with
        | .ok a => .ok (.cons field (some a) rest)
        | .error e => .error e
    else
      match rest.feed key t with
      | .ok rest => .ok (.cons field value rest)
      | .error e => .error e

/-- Takes the members of an object. -/
def feedAll {ρ : Type} (fields : Fields ρ) : List (Key × Tree) → Except Error (Fields ρ)
  | [] => .ok fields
  | (.error e, _) :: _ => .error e
  | (.ok key, t) :: members =>
    match fields.feed key t with
    | .ok fields => fields.feedAll members
    | .error e => .error e

/-- The values of all fields. -/
def values : {ρ : Type} → Fields ρ → Except Error ρ
  | _, .nil => .ok ()
  | _, .cons field value rest =>
    match value.or field.absent with
    | none => .error (.missingField field.name)
    | some a => rest.values.map (a, ·)

/-- Reads the values of the fields, from number `index` on, off the items of a list; `wanted` is
what a message calls the record. -/
def ofItems (wanted : String) :
    {ρ : Type} → (index : Nat) → Fields ρ → List Tree → Ending → Except Error ρ
  | _, _, .nil, [], ending => check ending.lastError?
  | _, _, .nil, _ :: _, _ => .error .trailingCharacters
  | _, index, .cons field _ rest, t :: ts, ending => do
    let a ← field.decode t
    let r ← rest.ofItems wanted (index + 1) ts ending
    return (a, r)
  | _, index, .cons field _ rest, [], ending => do
    check ending.listError?
    match field.absent with
    | none => .error (.wrongLength index wanted)
    | some a =>
      let r ← rest.ofItems wanted (index + 1) [] ending
      return (a, r)

end Fields

/-- A record called `name` in messages. -/
def Decoder.record {ρ : Type} (name : String) (fields : Fields ρ) : Decoder ρ
  | .object members ending =>
    match fields.feedAll members with
    | .error e => .error e
    | .ok fields => do
      check ending.objectError?
      fields.values
  | .list items ending =>
    fields.ofItems s!"struct {name} with {fields.length} elements" 0 items ending
  | t => .error (t.refuse ("struct " ++ name))

end SlotLayout.Json
