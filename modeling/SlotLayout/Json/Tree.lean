import SlotLayout.Json.Token

/-!
# Trees of values

The value of a JSON text as far as a lax reader gets. A list or object may end early (`Ending`), and
a value may be broken; either happens at most once in a document, at the very end of what was read.
Errors are not chosen yet: how an early end is blamed depends on what the reader wanted there.

* `document`: the tree of a token list, built by a machine that takes one token at a time (`step`)
  and keeps the containers that are still open;
* `Tree.skipError?`: what stops a reader that only wants to get past a value.
-/

namespace SlotLayout.Json

/-- Where in a list or object something was met: right after it was opened, after an item, or after
a comma. -/
inductive Place where
  | opening
  | item
  | comma
  deriving DecidableEq, Repr

/-- How a list or object ends. -/
inductive Ending where
  | closed
  /-- The token met (none at the end of the input) does not belong there. -/
  | stopped (place : Place) (met : Option Token)
  /-- The last item is not complete; a lax reader stops at this error. -/
  | within (lax : Error)

/-- Why there is no value. -/
inductive Break where
  /-- The input does not get as far as a value. -/
  | absent (e : Error)
  | text (strict lax : Error)
  | word (strict lax : Error)

/-- The name of a member as a strict reader has it. -/
abbrev Key := Except Error String

/-- A value as far as it could be read. -/
inductive Tree where
  | null
  | flag (b : Bool)
  | number (read : Except Error Number)
  | text (read : Except Error String)
  | list (items : List Tree) (ending : Ending)
  | object (members : List (Key × Tree)) (ending : Ending)
  | broken (why : Break)

/-- The error of a strict reader. -/
def Break.strict : Break → Error
  | .absent e => e
  | .text strict _ => strict
  | .word strict _ => strict

/-- The error of a lax reader. -/
def Break.lax : Break → Error
  | .absent e => e
  | .text _ lax => lax
  | .word _ lax => lax

/-! ## Blame for an early end -/

/-- The error where a key or the end of an object was due and the token `met` was not one. -/
def Token.notKey (strict : Bool) : Token → Error
  | .fault reason => .unreadable reason
  | .brokenText strictError laxError => if strict then strictError else laxError
  | _ => .keyNotText

/-- The error of a lax reader at the end of a list. -/
def Ending.listSkipError? : Ending → Option Error
  | .closed => none
  | .within e => some e
  | .stopped _ (some (.fault reason)) => some (.unreadable reason)
  | .stopped .comma none => some (.endOfInput .value)
  | .stopped .comma (some _) => some .expectedValue
  | .stopped _ none => some (.endOfInput .list)
  | .stopped _ (some _) => some .expectedListComma

/-- The error of a lax reader at the end of an object. -/
def Ending.objectSkipError? : Ending → Option Error
  | .closed => none
  | .within e => some e
  | .stopped _ none => some (.endOfInput .object)
  | .stopped _ (some (.fault reason)) => some (.unreadable reason)
  | .stopped .item (some _) => some .expectedObjectComma
  | .stopped _ (some t) => some (t.notKey false)

/-- The error of a reader that wants the next item of a list or its end. -/
def Ending.listError? : Ending → Option Error
  | .closed => none
  | .within e => some e
  | .stopped _ (some (.fault reason)) => some (.unreadable reason)
  | .stopped .comma none => some (.endOfInput .value)
  | .stopped .comma (some _) => some .trailingComma
  | .stopped _ none => some (.endOfInput .list)
  | .stopped _ (some _) => some .expectedListComma

/-- The error of a reader that has all the items it wants and needs the list to end. -/
def Ending.lastError? : Ending → Option Error
  | .closed => none
  | .within _ => some .trailingCharacters
  | .stopped .comma (some .listClose) => some .trailingComma
  | .stopped .comma _ => some .trailingCharacters
  | .stopped _ (some (.fault reason)) => some (.unreadable reason)
  | .stopped _ none => some (.endOfInput .list)
  | .stopped _ (some _) => some .trailingCharacters

/-- The error of a reader that wants the next member of an object or its end. -/
def Ending.objectError? : Ending → Option Error
  | .closed => none
  | .within e => some e
  | .stopped _ (some (.fault reason)) => some (.unreadable reason)
  | .stopped .comma none => some (.endOfInput .value)
  | .stopped .comma (some .objectClose) => some .trailingComma
  | .stopped _ none => some (.endOfInput .object)
  | .stopped .item (some _) => some .expectedObjectComma
  | .stopped _ (some t) => some (t.notKey true)

/-- What stops a reader that only wants to get past a value. -/
def Tree.skipError? : Tree → Option Error
  | .list _ ending => ending.listSkipError?
  | .object _ ending => ending.objectSkipError?
  | .broken why => some why.lax
  | _ => none

/-! ## Building -/

/-- A container that waits for its next value; what it has so far is last one first. -/
inductive Frame where
  | list (items : List Tree)
  | object (members : List (Key × Tree)) (key : Key)

/-- What may come next inside the innermost open container. -/
inductive Due where
  | value
  | listStart
  /-- An item, after a comma. -/
  | listItem (items : List Tree)
  /-- A comma or the end, after an item. -/
  | listComma (items : List Tree)
  | objectStart
  | objectKey (members : List (Key × Tree))
  | objectComma (members : List (Key × Tree))
  | colon (members : List (Key × Tree)) (key : Key)

/-- A whole input: its value, and what is wrong with whatever follows the value. -/
structure Document where
  root : Tree
  trailing : Option Error

/-- The building machine: at work inside the open containers `parents` (innermost first), past a
complete value, or stopped. -/
inductive Builder where
  | at (due : Due) (parents : List Frame)
  | settled (root : Tree)
  | stopped (whole : Document)

namespace Builder

/-- The machine before the first token. -/
def start : Builder := .at .value []

/-- Hands a complete value to the innermost open container. -/
def put (v : Tree) : List Frame → Builder
  | [] => .settled v
  | .list items :: parents => .at (.listComma (v :: items)) parents
  | .object members key :: parents => .at (.objectComma ((key, v) :: members)) parents

/-- Closes all open containers around a value that stops a lax reader with `e`. -/
def abandon (e : Error) (v : Tree) : List Frame → Tree
  | [] => v
  | .list items :: parents =>
    abandon e (.list (v :: items).reverse (.within e)) parents
  | .object members key :: parents =>
    abandon e (.object ((key, v) :: members).reverse (.within e)) parents

/-- Stops at a value that is broken. -/
def breakOff (why : Break) (parents : List Frame) : Document :=
  ⟨abandon why.lax (.broken why) parents, none⟩

/-- Stops inside a list. -/
def stopList (items : List Tree) (place : Place) (met : Option Token) (parents : List Frame) :
    Document :=
  let ending := Ending.stopped place met
  ⟨abandon (ending.listSkipError?.getD .expectedValue) (.list items.reverse ending) parents, none⟩

/-- Stops inside an object. -/
def stopObject (members : List (Key × Tree)) (place : Place) (met : Option Token)
    (parents : List Frame) : Document :=
  let ending := Ending.stopped place met
  ⟨abandon (ending.objectSkipError?.getD .expectedValue) (.object members.reverse ending) parents,
    none⟩

/-- Takes the first token of a value. -/
def value (parents : List Frame) : Token → Builder
  | .null => put .null parents
  | .flag b => put (.flag b) parents
  | .number read => put (.number read) parents
  | .text read => put (.text read) parents
  | .listOpen => .at .listStart parents
  | .objectOpen => .at .objectStart parents
  | .brokenText strict lax => .stopped (breakOff (.text strict lax) parents)
  | .brokenWord strict lax => .stopped (breakOff (.word strict lax) parents)
  | .fault reason => .stopped (breakOff (.absent (.unreadable reason)) parents)
  | _ => .stopped (breakOff (.word .expectedValue .expectedValue) parents)

/-- Takes one token. -/
def step (b : Builder) (t : Token) : Builder :=
  match b with
  | .stopped whole => .stopped whole
  | .settled root =>
    match t with
    | .fault reason => .stopped ⟨root, some (.unreadable reason)⟩
    | _ => .stopped ⟨root, some .trailingCharacters⟩
  | .at due parents =>
    match due, t with
    | .value, t => value parents t
    | .listStart, .listClose => put (.list [] .closed) parents
    | .listStart, .fault reason => .stopped (stopList [] .opening (some (.fault reason)) parents)
    | .listStart, t => value (.list [] :: parents) t
    | .listItem items, .listClose => .stopped (stopList items .comma (some .listClose) parents)
    | .listItem items, .fault reason =>
      .stopped (stopList items .comma (some (.fault reason)) parents)
    | .listItem items, t => value (.list items :: parents) t
    | .listComma items, .comma => .at (.listItem items) parents
    | .listComma items, .listClose => put (.list items.reverse .closed) parents
    | .listComma items, t => .stopped (stopList items .item (some t) parents)
    | .objectStart, .objectClose => put (.object [] .closed) parents
    | .objectStart, .text key => .at (.colon [] key) parents
    | .objectStart, t => .stopped (stopObject [] .opening (some t) parents)
    | .objectKey members, .text key => .at (.colon members key) parents
    | .objectKey members, t => .stopped (stopObject members .comma (some t) parents)
    | .objectComma members, .comma => .at (.objectKey members) parents
    | .objectComma members, .objectClose => put (.object members.reverse .closed) parents
    | .objectComma members, t => .stopped (stopObject members .item (some t) parents)
    | .colon members key, .colon => .at .value (.object members key :: parents)
    | .colon members key, .fault reason =>
      .stopped (breakOff (.absent (.unreadable reason)) (.object members key :: parents))
    | .colon members key, _ =>
      .stopped (breakOff (.absent .expectedColon) (.object members key :: parents))

/-- Takes the end of the input. -/
def finish : Builder → Document
  | .stopped whole => whole
  | .settled root => ⟨root, none⟩
  | .at due parents =>
    match due with
    | .value => breakOff (.absent (.endOfInput .value)) parents
    | .listStart => stopList [] .opening none parents
    | .listItem items => stopList items .comma none parents
    | .listComma items => stopList items .item none parents
    | .objectStart => stopObject [] .opening none parents
    | .objectKey members => stopObject members .comma none parents
    | .objectComma members => stopObject members .item none parents
    | .colon members key =>
      breakOff (.absent (.endOfInput .object)) (.object members key :: parents)

end Builder

/-- The document that a token list holds. -/
def document (ts : List Token) : Document := (ts.foldl Builder.step Builder.start).finish

end SlotLayout.Json
