import SlotLayout.Json.Value
import SlotLayout.Proofs.Reading

/-!
# Written values are read back

A value that is written, in either style, is read as the tree that has its texts, counts and flags
and nothing else (`Value.tree`, `document_write`). Line breaks are blanks, so the items of a written
list and the members of a written object stand in a row (`row_items`, `row_members`).
-/

namespace SlotLayout.Json

/-! ## Trees of values -/

mutual

/-- The tree of a value. -/
def Value.tree : Value → Tree
  | .text s => .text (.ok s)
  | .count n => .number (.ok (.natural n))
  | .flag b => .flag b
  | .list items => .list (itemTrees items) .closed
  | .object members => .object (memberTrees members) .closed

/-- The trees of items. -/
def itemTrees : List Value → List Tree
  | [] => []
  | v :: vs => v.tree :: itemTrees vs

/-- The trees of members. -/
def memberTrees : List (String × Value) → List (Key × Tree)
  | [] => []
  | (key, v) :: ms => (.ok key, v.tree) :: memberTrees ms

end

theorem itemTrees_eq_map (vs : List Value) : itemTrees vs = vs.map Value.tree := by
  induction vs with
  | nil => rfl
  | cons v vs ih => rw [itemTrees, ih, List.map_cons]

theorem memberTrees_eq_map (ms : List (String × Value)) :
    memberTrees ms = ms.map fun m => (.ok m.1, m.2.tree) := by
  induction ms with
  | nil => rfl
  | cons m ms ih => rw [memberTrees, ih, List.map_cons]

/-- The counts in a value have at most 64 bits. -/
inductive Value.Counted : Value → Prop
  | text (s : String) : Counted (.text s)
  | count {n : Nat} (h : n < Numeral.countBound) : Counted (.count n)
  | flag (b : Bool) : Counted (.flag b)
  | list {items : List Value} (h : ∀ v ∈ items, v.Counted) : Counted (.list items)
  | object {members : List (String × Value)} (h : ∀ m ∈ members, m.2.Counted) :
    Counted (.object members)

/-! ## Written values -/

section Style

variable (style : Style) (depth : Nat)

theorem blanks_lineBreak : Blanks (style.lineBreak depth) := by
  cases style with
  | compact => exact blanks_nil
  | indented width =>
    refine List.forall_mem_cons.2 ⟨.inr (.inr (.inl rfl)), fun c hc => ?_⟩
    exact .inl (List.eq_of_mem_replicate hc)

theorem row_items {cs : List Char} (hcs : Blanks cs) (v : Value) (vs : List Value) :
    Row ((v :: vs).map (·.chars style depth)) (style.lineBreak depth ++
      (v.chars style depth ++ (moreItems style depth vs ++ cs))) := by
  have hbreak := blanks_lineBreak style depth
  induction vs generalizing v with
  | nil => exact .last hbreak hcs
  | cons w vs ih =>
    have hrow := Row.more (t := v.chars style depth) (r := []) hbreak blanks_nil (ih w)
    rw [List.map_cons, moreItems]
    simpa only [List.nil_append, List.cons_append, List.append_assoc] using hrow

/-- The text of a member that is written. -/
def memberChars (m : String × Value) : List Char :=
  literal m.1 ++ (style.afterKey ++ m.2.chars style depth)

theorem memberText_memberChars (m : String × Value) :
    MemberText (literal m.1, m.2.chars style depth) (memberChars style depth m) := by
  cases style with
  | compact => exact ⟨[], [], blanks_nil, blanks_nil, rfl⟩
  | indented width => exact ⟨[], [' '], blanks_nil, List.forall_mem_singleton.2 (.inl rfl), rfl⟩

theorem row_members {cs : List Char} (hcs : Blanks cs) (m : String × Value)
    (ms : List (String × Value)) :
    Row ((m :: ms).map (memberChars style depth)) (style.lineBreak depth ++
      (memberChars style depth m ++ (moreMembers style depth ms ++ cs))) := by
  have hbreak := blanks_lineBreak style depth
  induction ms generalizing m with
  | nil => exact .last hbreak hcs
  | cons n ms ih =>
    have hrow := Row.more (t := memberChars style depth m) (r := []) hbreak blanks_nil (ih n)
    rw [List.map_cons, moreMembers]
    simpa only [memberChars, List.nil_append, List.cons_append, List.append_assoc] using hrow

theorem listText_chars (items : List Value) :
    ListText (items.map (·.chars style (depth + 1))) ((Value.list items).chars style depth) := by
  cases items with
  | nil => exact .empty blanks_nil
  | cons v vs =>
    have hrow := row_items style (depth + 1) (blanks_lineBreak style depth) v vs
    have henclosed : ListText _ _ := Enclosed.row hrow
    rw [Value.chars]
    simpa only [List.cons_append, List.append_assoc] using henclosed

theorem objectText_chars (members : List (String × Value)) :
    ObjectText (members.map fun m => (literal m.1, m.2.chars style (depth + 1)))
      ((Value.object members).chars style depth) := by
  refine ⟨members.map (memberChars style (depth + 1)), ?_, ?_⟩
  · rw [List.forall₂_map_left_iff, List.forall₂_map_right_iff]
    exact List.forall₂_same.2 fun m _ => memberText_memberChars style (depth + 1) m
  · cases members with
    | nil => exact .empty blanks_nil
    | cons m ms =>
      obtain ⟨key, v⟩ := m
      have hrow := row_members style (depth + 1) (blanks_lineBreak style depth) (key, v) ms
      have henclosed : Enclosed '\x7b' '\x7d' _ _ := .row hrow
      rw [Value.chars]
      simpa only [memberChars, List.cons_append, List.append_assoc] using henclosed

end Style

/-- By induction on the value: a list or object has the tree of its items or members. -/
theorem Value.Counted.reads {v : Value} (h : v.Counted) (style : Style) (depth : Nat) :
    Reads (v.chars style depth) v.tree := by
  induction h generalizing depth with
  | text s => exact .text (textSpelling_literal s)
  | count hn => exact .count hn
  | flag flag =>
    cases flag with
    | false => exact .flagFalse
    | true => exact .flagTrue
  | @list items _ ih =>
    refine .list ?_ (listText_chars style depth items)
    rw [itemTrees_eq_map, List.forall₂_map_left_iff, List.forall₂_map_right_iff]
    exact List.forall₂_same.2 fun v hv => ih v hv (depth + 1)
  | @object members _ ih =>
    refine .object ?_ (objectText_chars style depth members)
    rw [memberTrees_eq_map, List.forall₂_map_left_iff, List.forall₂_map_right_iff]
    exact List.forall₂_same.2 fun m hm =>
      ⟨(textSpelling_literal m.1).readsLiteral, ih m hm (depth + 1)⟩

/-- A value that is written is read back, and nothing is left behind it. -/
theorem document_write {v : Value} (h : v.Counted) (style : Style) :
    document (tokens (Symbol.ofText (v.write style))) = ⟨v.tree, none⟩ := by
  have hread := (h.reads style 0).document blanks_nil blanks_nil
  rw [List.nil_append, List.append_nil] at hread
  rw [Symbol.ofText, Value.write, String.toList_ofList, hread]

end SlotLayout.Json
