import SlotLayout.Document.Layout
import SlotLayout.Proofs.Reading

/-!
# Sources that fail

A source may fail after some bytes. No layout is read from it then, not even where all of a document
has been read before (`Layout.ofFailingSource_eq_error`). What a reader gets past ends before the
point of failure, so a token comes that it does not get past (`exists_stops`). With that the
document is cut off (`Builder.cut_of_stops`), and a record is not read from a document that is
(`Decoder.record_of_cut`).
-/

namespace SlotLayout

namespace Json

/-! ## Faults and tokens -/

section Fault

variable {reason : String} {input rest : List Symbol}

theorem fault_mem_of_scanText {read : Strict} {s : Except Error String}
    (h : scanText read input = .closed s rest) (hf : .fault reason ∈ input) :
    .fault reason ∈ rest := by
  fun_induction scanText read input <;> simp_all

theorem fault_mem_of_spanDigits {ds : List Nat} (h : spanDigits input = (ds, rest))
    (hf : .fault reason ∈ input) : .fault reason ∈ rest := by
  induction input generalizing ds rest with
  | nil => cases hf
  | cons s input ih =>
    rw [spanDigits] at h
    cases hs : s.digit? with
    | none =>
      rw [hs] at h
      cases h
      exact hf
    | some d =>
      rw [hs] at h
      cases h
      rcases List.mem_cons.1 hf with rfl | hf
      · cases hs
      · exact ih rfl hf

theorem fault_mem_spanSign (hf : .fault reason ∈ input) : .fault reason ∈ (spanSign input).2 := by
  unfold spanSign
  split <;> simp_all

theorem fault_mem_of_scanExponent {l : Literal} {n : Except Error Number}
    (h : scanExponent l input = .done n rest) (hf : .fault reason ∈ input) :
    .fault reason ∈ rest := by
  unfold scanExponent at h
  split at h
  · cases hf
  · rename_i s more
    split at h
    · rename_i hmark
      have hmore : .fault reason ∈ more := by
        rcases List.mem_cons.1 hf with rfl | hf
        · cases hmark
        · exact hf
      split at h
      · exact absurd h missingDigit_ne_done
      · rename_i heq
        rw [complete_eq_done h]
        exact fault_mem_of_spanDigits heq (fault_mem_spanSign hmore)
    · rwa [complete_eq_done h]

theorem fault_mem_of_scanFraction {l : Literal} {n : Except Error Number}
    (h : scanFraction l input = .done n rest) (hf : .fault reason ∈ input) :
    .fault reason ∈ rest := by
  unfold scanFraction at h
  split at h
  · rename_i more
    have hmore : .fault reason ∈ more := by simpa using hf
    split at h
    · exact absurd h missingDigit_ne_done
    · rename_i heq
      exact fault_mem_of_scanExponent h (fault_mem_of_spanDigits heq hmore)
  · exact fault_mem_of_scanExponent h hf

theorem fault_mem_of_scanUnsigned {negative : Bool} {n : Except Error Number}
    (h : scanUnsigned negative input = .done n rest) (hf : .fault reason ∈ input) :
    .fault reason ∈ rest := by
  unfold scanUnsigned at h
  split at h
  · exact absurd h missingDigit_ne_done
  · cases h
  · rename_i heq
    exact fault_mem_of_scanFraction h (fault_mem_of_spanDigits heq hf)

theorem fault_mem_of_scanNumber {n : Except Error Number}
    (h : scanNumber input = .done n rest) (hf : .fault reason ∈ input) :
    .fault reason ∈ rest := by
  unfold scanNumber at h
  split at h
  · exact fault_mem_of_scanUnsigned h (by simpa using hf)
  · exact fault_mem_of_scanUnsigned h hf

/-- Neither kind of reader gets past the token. -/
def Token.Stops : Token → Prop
  | .brokenText _ _ => True
  | .brokenWord _ _ => True
  | .fault _ => True
  | _ => False

/-- The fault has been met, or it is still ahead. -/
def Token.Heeds (reason : String) (x : Token × List Symbol) : Prop :=
  x.1.Stops ∨ .fault reason ∈ x.2

theorem Token.heeds_ofWord {t : Token} {word : List Char} (hf : .fault reason ∈ rest) :
    Heeds reason (ofWord t word rest) := by
  unfold Heeds
  fun_induction ofWord t word rest <;> simp_all [Stops]

theorem Token.heeds_ofTextScan (read : Strict) (hf : .fault reason ∈ rest) :
    Heeds reason (ofTextScan (scanText read rest)) := by
  cases h : scanText read rest with
  | closed s after => exact .inr (fault_mem_of_scanText h hf)
  | broken strict lax => exact .inl trivial

theorem Token.heeds_ofNumberScan (hf : .fault reason ∈ input) :
    Heeds reason (ofNumberScan (scanNumber input)) := by
  cases h : scanNumber input with
  | done n after => exact .inr (fault_mem_of_scanNumber h hf)
  | broken strict lax => exact .inl trivial

/-- No token that a reader gets past takes up a fault. -/
theorem Token.heeds_next {s : Symbol} (hf : .fault reason ∈ s :: rest) :
    Heeds reason (next s rest) := by
  cases s with
  | fault reason => exact .inl trivial
  | stray byte => exact .inl trivial
  | char c =>
    have hrest : .fault reason ∈ rest := by simpa using hf
    have same (t : Token) : Heeds reason (t, rest) := .inr hrest
    have either {p : Prop} [Decidable p] {x y : Token × List Symbol}
        (hx : Heeds reason x) (hy : Heeds reason y) : Heeds reason (if p then x else y) := by
      split
      · exact hx
      · exact hy
    exact either (same _) <| either (same _) <| either (same _) <| either (same _) <|
      either (same _) <| either (same _) <| either (heeds_ofTextScan _ hrest) <|
      either (heeds_ofWord hrest) <| either (heeds_ofWord hrest) <|
      either (heeds_ofWord hrest) <| either (heeds_ofNumberScan hf) (.inl trivial)

/-- Where the source fails there is a token that no reader gets past. -/
theorem exists_stops (hf : .fault reason ∈ input) : ∃ t ∈ tokens input, t.Stops := by
  induction h : input.length using Nat.strongRecOn generalizing input with
  | ind n ih =>
    cases input with
    | nil => cases hf
    | cons s rest =>
      have hnext := Token.length_next_le s rest
      rw [List.length_cons] at h
      rw [tokens, tokensAfter]
      split
      · rename_i hspace
        rcases List.mem_cons.1 hf with rfl | hf
        · cases hspace
        · exact ih rest.length (by omega) hf rfl
      · rw [tokensAfter_eq]
        rcases Token.heeds_next hf with ht | hf
        · exact ⟨_, List.mem_cons_self, ht⟩
        · obtain ⟨t, ht, hstops⟩ := ih _ (by omega) hf rfl
          exact ⟨t, List.mem_cons_of_mem _ ht, hstops⟩

end Fault

/-! ## Documents that are cut off -/

/-- The value is not complete. -/
def Tree.Cut : Tree → Prop
  | .list _ ending => ending ≠ .closed
  | .object _ ending => ending ≠ .closed
  | .broken _ => True
  | _ => False

/-- The value of the document is not complete, or something is wrong with what follows it. -/
def Document.Cut (d : Document) : Prop := d.root.Cut ∨ d.trailing ≠ none

namespace Builder

/-- If the machine has stopped, it has done so because of a document that is cut off. -/
def Sound : Builder → Prop
  | .stopped whole => whole.Cut
  | _ => True

variable {b : Builder} {t : Token} {parents : List Frame}

theorem cut_abandon (e : Error) {v : Tree} (h : v.Cut) (parents : List Frame) :
    (abandon e v parents).Cut := by
  induction parents generalizing v with
  | nil => exact h
  | cons f parents ih => cases f <;> exact ih nofun

theorem cut_breakOff (why : Break) (parents : List Frame) : (breakOff why parents).Cut :=
  .inl (cut_abandon _ (show Tree.Cut (.broken why) from trivial) parents)

theorem cut_stopList (items : List Tree) (place : Place) (met : Option Token)
    (parents : List Frame) : (stopList items place met parents).Cut := by
  have hcut : Tree.Cut (.list items.reverse (.stopped place met)) := nofun
  exact .inl (cut_abandon _ hcut parents)

theorem cut_stopObject (members : List (Key × Tree)) (place : Place) (met : Option Token)
    (parents : List Frame) : (stopObject members place met parents).Cut := by
  have hcut : Tree.Cut (.object members.reverse (.stopped place met)) := nofun
  exact .inl (cut_abandon _ hcut parents)

theorem sound_put (v : Tree) (parents : List Frame) : (put v parents).Sound := by
  cases parents with
  | nil => trivial
  | cons f parents => cases f <;> trivial

theorem sound_value (parents : List Frame) (t : Token) : (value parents t).Sound := by
  unfold value
  split
  all_goals first
    | exact sound_put ..
    | exact cut_breakOff ..
    | trivial

theorem sound_step (h : b.Sound) (t : Token) : (b.step t).Sound := by
  unfold step
  split
  · exact h
  · split <;> exact .inr nofun
  · split
    all_goals first
      | exact sound_put ..
      | exact sound_value ..
      | exact cut_stopList ..
      | exact cut_stopObject ..
      | exact cut_breakOff ..
      | trivial

theorem stopped_step (ht : t.Stops) (b : Builder) : ∃ whole, b.step t = .stopped whole := by
  cases b with
  | stopped whole => exact ⟨whole, rfl⟩
  | settled root => cases t <;> exact ⟨_, rfl⟩
  | «at» due parents =>
    cases t with
    | brokenText strict lax => cases due <;> exact ⟨_, rfl⟩
    | brokenWord strict lax => cases due <;> exact ⟨_, rfl⟩
    | fault reason => cases due <;> exact ⟨_, rfl⟩
    | _ => cases ht

/-- Once the machine has met a token that no reader gets past, the document is cut off. -/
theorem cut_of_stops {ts : List Token} (hb : b.Sound)
    (h : (∃ whole, b = .stopped whole) ∨ ∃ t ∈ ts, t.Stops) : (ts.foldl step b).finish.Cut := by
  induction ts generalizing b with
  | nil =>
    obtain ⟨whole, rfl⟩ | ⟨t, ht, -⟩ := h
    · exact hb
    · cases ht
  | cons t ts ih =>
    refine ih (sound_step hb t) ?_
    rcases h with ⟨whole, rfl⟩ | ⟨u, hu, hstops⟩
    · exact .inl ⟨whole, rfl⟩
    · rcases List.mem_cons.1 hu with rfl | hu
      · exact .inl (stopped_step hstops b)
      · exact .inr ⟨u, hu, hstops⟩

end Builder

/-- Where the source fails, the document is cut off. -/
theorem cut_of_fault {reason : String} {input : List Symbol} (hf : .fault reason ∈ input) :
    (document (tokens input)).Cut :=
  Builder.cut_of_stops trivial (.inr (exists_stops hf))

/-! ## Records that are cut off -/

section Cut

variable {ending : Ending}

theorem Ending.exists_listError (h : ending ≠ .closed) : ∃ e, ending.listError? = some e := by
  unfold listError?
  split <;> first | exact absurd rfl h | exact ⟨_, rfl⟩

theorem Ending.exists_lastError (h : ending ≠ .closed) : ∃ e, ending.lastError? = some e := by
  unfold lastError?
  split <;> first | exact absurd rfl h | exact ⟨_, rfl⟩

theorem Ending.exists_objectError (h : ending ≠ .closed) : ∃ e, ending.objectError? = some e := by
  unfold objectError?
  split <;> first | exact absurd rfl h | exact ⟨_, rfl⟩

theorem Fields.ofItems_of_cut {ρ : Type} (wanted : String) (fields : Fields ρ)
    (h : ending ≠ .closed) (index : Nat) (items : List Tree) :
    ∃ e, fields.ofItems wanted index items ending = .error e := by
  induction fields generalizing index items with
  | nil =>
    cases items with
    | nil =>
      obtain ⟨e, he⟩ := Ending.exists_lastError h
      exact ⟨e, by rw [ofItems, he]; rfl⟩
    | cons t ts => exact ⟨_, rfl⟩
  | cons field value rest ih =>
    cases items with
    | nil =>
      obtain ⟨e, he⟩ := Ending.exists_listError h
      exact ⟨e, by rw [ofItems, he]; rfl⟩
    | cons t ts =>
      obtain ⟨e, he⟩ := ih (index + 1) ts
      rw [ofItems, he]
      cases field.decode t with
      | error e => exact ⟨e, rfl⟩
      | ok a => exact ⟨e, rfl⟩

/-- A record is not read from a value that is cut off. -/
theorem Decoder.record_of_cut {ρ : Type} (name : String) (fields : Fields ρ) {t : Tree}
    (h : t.Cut) : ∃ e, record name fields t = .error e := by
  cases t with
  | list items ending => exact fields.ofItems_of_cut _ h 0 items
  | object members ending =>
    obtain ⟨e, he⟩ := Ending.exists_objectError h
    rw [record]
    cases fields.feedAll members with
    | error e => exact ⟨e, rfl⟩
    | ok fields => exact ⟨e, by rw [he]; rfl⟩
  | broken why => exact ⟨_, rfl⟩
  | _ => cases h

end Cut

end Json

/-- A source that fails does not give a layout, whatever has been read from it before. -/
theorem Layout.ofFailingSource_eq_error (bytes : List UInt8) (reason : String) :
    ∃ e : Json.Error,
      ofFailingSource bytes reason = .error (.one .document (.unreadable e.message)) := by
  have hf : Json.Symbol.fault reason ∈ Json.Symbol.ofBytes bytes ++ [.fault reason] :=
    List.mem_append_right _ List.mem_cons_self
  have hread : ∃ e, decoder.ofSymbols (Json.Symbol.ofBytes bytes ++ [.fault reason]) = .error e := by
    rw [Json.Decoder.ofSymbols, Json.Decoder.run]
    rcases Json.cut_of_fault hf with hroot | htrailing
    · obtain ⟨e, he⟩ := Json.Decoder.record_of_cut "StorageLayout" fields hroot
      exact ⟨e, by rw [decoder, he]; rfl⟩
    · obtain ⟨e, he⟩ := Option.ne_none_iff_exists'.1 htrailing
      rw [he]
      cases decoder (Json.document (Json.tokens _)).root with
      | error e => exact ⟨e, rfl⟩
      | ok layout => exact ⟨e, rfl⟩
  obtain ⟨e, he⟩ := hread
  exact ⟨e, by rw [ofFailingSource, ofSymbols, he]⟩

end SlotLayout
