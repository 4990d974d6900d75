import SlotLayout.Json.Tree
import SlotLayout.Proofs.Literals
import SlotLayout.Proofs.Results

/-!
# Reading on

Reading goes on symbol by symbol from a state of the building machine (`Builder.resume`): blanks
change nothing, and a literal becomes one token. The text of a value takes the machine past one tree,
whatever comes behind it (`Reads`); so do the texts of lists and objects if those of their items and
members do (`Reads.list`, `Reads.object`), with any blanks between.

The text of any value at all has a tree that a reader gets past (`ValueText.reads`).
-/

namespace SlotLayout.Json

/-! ## Texts of values -/

/-- Blanks that may stand around a token. -/
def Blanks (cs : List Char) : Prop := ∀ c ∈ cs, c = ' ' ∨ c = '\t' ∨ c = '\n' ∨ c = '\r'

theorem blanks_nil : Blanks [] := nofun

/-- Texts in a row, each with blanks around it and a comma between two. -/
inductive Row : List (List Char) → List Char → Prop
  | last {t l r : List Char} (hl : Blanks l) (hr : Blanks r) : Row [t] (l ++ (t ++ r))
  | more {t l r cs : List Char} {ts : List (List Char)} (hl : Blanks l) (hr : Blanks r)
    (h : Row ts cs) : Row (t :: ts) (l ++ (t ++ (r ++ ',' :: cs)))

/-- Texts with nothing but commas between them are in a row. -/
theorem row_intercalate {ts : List (List Char)} (h : ts ≠ []) : Row ts ([','].intercalate ts) := by
  induction ts with
  | nil => exact absurd rfl h
  | cons t ts ih =>
    cases ts with
    | nil =>
      have hrow := Row.last (t := t) blanks_nil blanks_nil
      simpa using hrow
    | cons u us =>
      have hrow := Row.more (t := t) blanks_nil blanks_nil (ih nofun)
      simpa using hrow

/-- Texts in a row between brackets, or blanks if there are none. -/
inductive Enclosed (opening closing : Char) : List (List Char) → List Char → Prop
  | empty {cs : List Char} (h : Blanks cs) :
    Enclosed opening closing [] (opening :: (cs ++ [closing]))
  | row {ts : List (List Char)} {cs : List Char} (h : Row ts cs) :
    Enclosed opening closing ts (opening :: (cs ++ [closing]))

/-- A list of items with these texts. -/
def ListText : List (List Char) → List Char → Prop := Enclosed '[' ']'

/-- A member: its key and its value with a colon between them. -/
def MemberText (m : List Char × List Char) (cs : List Char) : Prop :=
  ∃ l r, Blanks l ∧ Blanks r ∧ cs = m.1 ++ (l ++ ':' :: (r ++ m.2))

/-- An object of members whose keys and values have these texts. -/
def ObjectText (ms : List (List Char × List Char)) (cs : List Char) : Prop :=
  ∃ ts, List.Forall₂ MemberText ms ts ∧ Enclosed '\x7b' '\x7d' ts cs

/-- Any value. Texts in it need not be well-formed Unicode, numbers may have any size, and lists and
objects may be nested as deep as one likes. -/
inductive ValueText : List Char → Prop
  | null : ValueText "null".toList
  | flagTrue : ValueText "true".toList
  | flagFalse : ValueText "false".toList
  | number {cs : List Char} (h : NumberSpelling cs) : ValueText cs
  | text {cs : List Char} (h : LooseSpelling cs) : ValueText cs
  | list {ts : List (List Char)} {cs : List Char} (hts : ∀ t ∈ ts, ValueText t)
    (h : ListText ts cs) : ValueText cs
  | object {ms : List (List Char × List Char)} {cs : List Char}
    (hkeys : ∀ m ∈ ms, LooseSpelling m.1) (hvalues : ∀ m ∈ ms, ValueText m.2)
    (h : ObjectText ms cs) : ValueText cs

/-! ## The machine -/

theorem tokensAfter_eq (before : List Token) (input : List Symbol) :
    tokensAfter before input = before.reverse ++ tokens input := by
  induction h : input.length using Nat.strongRecOn generalizing before input with
  | ind n ih =>
    cases input with
    | nil => rw [tokens, tokensAfter, tokensAfter, List.reverse_nil, List.append_nil]
    | cons s rest =>
      have hnext := Token.length_next_le s rest
      rw [List.length_cons] at h
      rw [tokens, tokensAfter, tokensAfter]
      split
      · exact ih rest.length (by omega) before rest rfl
      · rw [ih _ (by omega) _ (Token.next s rest).2 rfl, ih _ (by omega) [_] _ rfl,
          List.reverse_cons, List.append_assoc]
        rfl

namespace Builder

/-- The document that reading on from a state of the machine gives. -/
def resume (b : Builder) (input : List Symbol) : Document := ((tokens input).foldl step b).finish

theorem document_eq_resume (input : List Symbol) : document (tokens input) = start.resume input :=
  rfl

variable {b : Builder} {s : Symbol} {rest : List Symbol}

theorem resume_space (h : s.isSpace = true) : b.resume (s :: rest) = b.resume rest := by
  rw [resume, tokens, tokensAfter, if_pos h]
  rfl

/-- What does not begin with a blank begins with a token. -/
theorem resume_token {t : Token} {after : List Symbol} (hs : s.isSpace = false)
    (h : Token.next s rest = (t, after)) : b.resume (s :: rest) = (b.step t).resume after := by
  rw [resume, tokens, tokensAfter, hs, if_neg Bool.false_ne_true, h, tokensAfter_eq]
  rfl

theorem resume_blanks {cs : List Char} (h : Blanks cs) :
    b.resume (cs.map .char ++ rest) = b.resume rest := by
  induction cs with
  | nil => rfl
  | cons c cs ih =>
    obtain ⟨hc, hcs⟩ := List.forall_mem_cons.1 h
    refine Eq.trans (resume_space ?_) (ih hcs)
    rcases hc with rfl | rfl | rfl | rfl <;> rfl

/-- The machine takes a value next, inside of `parents`. -/
inductive Awaits : Builder → List Frame → Prop
  | value {parents : List Frame} : Awaits (.at .value parents) parents
  | firstItem {parents : List Frame} : Awaits (.at .listStart parents) (.list [] :: parents)
  | nextItem {items : List Tree} {parents : List Frame} :
    Awaits (.at (.listItem items) parents) (.list items :: parents)

/-- The machine takes a key next, after the members `ms` of an object inside of `parents`. -/
inductive AwaitsKey (parents : List Frame) : Builder → List (Key × Tree) → Prop
  | first : AwaitsKey parents (.at .objectStart parents) []
  | next {ms : List (Key × Tree)} : AwaitsKey parents (.at (.objectKey ms) parents) ms

theorem Awaits.listOpen {parents : List Frame} (h : b.Awaits parents) :
    b.resume (.char '[' :: rest) = resume (.at .listStart parents) rest := by
  cases h <;> exact resume_token rfl rfl

theorem Awaits.objectOpen {parents : List Frame} (h : b.Awaits parents) :
    b.resume (.char '\x7b' :: rest) = resume (.at .objectStart parents) rest := by
  cases h <;> exact resume_token rfl rfl

theorem resume_listClose (items : List Tree) (parents : List Frame) :
    resume (.at (.listComma items) parents) (.char ']' :: rest) =
      resume (put (.list items.reverse .closed) parents) rest := resume_token rfl rfl

theorem resume_colon (members : List (Key × Tree)) (key : Key) (parents : List Frame) :
    resume (.at (.colon members key) parents) (.char ':' :: rest) =
      resume (.at .value (.object members key :: parents)) rest := resume_token rfl rfl

theorem resume_objectClose (members : List (Key × Tree)) (parents : List Frame) :
    resume (.at (.objectComma members) parents) (.char '\x7d' :: rest) =
      resume (put (.object members.reverse .closed) parents) rest := resume_token rfl rfl

end Builder

section Separate

variable {rest : List Symbol}

theorem separate_char {c : Char} (h : c ∈ [',', ']', '\x7d', ' ', '\t', '\n', '\r']) :
    Separate (.char c :: rest) := by
  rintro s ⟨⟩
  simp only [List.mem_cons, List.not_mem_nil, or_false] at h
  rcases h with rfl | rfl | rfl | rfl | rfl | rfl | rfl <;> exact ⟨rfl, rfl, by decide, nofun⟩

theorem separate_blanks {cs : List Char} (h : Blanks cs) (hrest : Separate rest) :
    Separate (cs.map .char ++ rest) := by
  cases cs with
  | nil => exact hrest
  | cons c cs =>
    refine separate_char ?_
    rcases h c List.mem_cons_self with rfl | rfl | rfl | rfl <;> decide

end Separate

/-! ## Literals -/

/-- The text takes the machine past a token for a literal. -/
def ReadsLiteral (cs : List Char) (read : Except Error String) : Prop :=
  ∀ (b : Builder) (rest : List Symbol),
    b.resume (cs.map .char ++ rest) = (b.step (.text read)).resume rest

/-- The text takes the machine past a value, whatever comes behind it. -/
def Reads (cs : List Char) (t : Tree) : Prop :=
  ∀ (b : Builder) (parents : List Frame) (rest : List Symbol), b.Awaits parents → Separate rest →
    b.resume (cs.map .char ++ rest) = (Builder.put t parents).resume rest

open Builder

theorem readsLiteral_of_scan {body : List Char} {read : Except Error String}
    (h : ∀ rest, scanText .start (body.map .char ++ rest) = .closed read rest) :
    ReadsLiteral ('"' :: body) read := by
  intro b rest
  refine resume_token rfl ?_
  show Token.ofTextScan (scanText .start (body.map .char ++ rest)) = _
  rw [h]
  rfl

theorem TextSpelling.readsLiteral {s : String} {cs : List Char} (h : TextSpelling s cs) :
    ReadsLiteral cs (.ok s) := by
  obtain ⟨body, rfl, hscan⟩ := scanText_spelling h
  exact readsLiteral_of_scan hscan

theorem LooseSpelling.readsLiteral {cs : List Char} (h : LooseSpelling cs) :
    ∃ read, ReadsLiteral cs read := by
  obtain ⟨body, read, rfl, hscan⟩ := h.scan
  exact ⟨read, readsLiteral_of_scan hscan⟩

namespace Reads

theorem null : Reads "null".toList .null := by
  intro b parents rest hb _
  cases hb <;> exact resume_token rfl rfl

theorem flagTrue : Reads "true".toList (.flag true) := by
  intro b parents rest hb _
  cases hb <;> exact resume_token rfl rfl

theorem flagFalse : Reads "false".toList (.flag false) := by
  intro b parents rest hb _
  cases hb <;> exact resume_token rfl rfl

theorem literal {cs : List Char} {read : Except Error String} (h : ReadsLiteral cs read) :
    Reads cs (.text read) := by
  intro b parents rest hb _
  rw [h]
  cases hb <;> rfl

theorem text {s : String} {cs : List Char} (h : TextSpelling s cs) : Reads cs (.text (.ok s)) :=
  .literal h.readsLiteral

theorem ne_of_number {c : Char} (hc : c = '-' ∨ c.isDigit = true) {d : Char} (hminus : d ≠ '-')
    (hd : d.isDigit = false) : c ≠ d := by
  rintro rfl
  rcases hc with hc | hc
  · exact hminus hc
  · exact absurd (hd.symm.trans hc) Bool.false_ne_true

theorem isSpace_of_number {c : Char} (hc : c = '-' ∨ c.isDigit = true) :
    (Symbol.char c).isSpace = false := by
  simp [Symbol.isSpace, ne_of_number hc]

/-- A token that begins with a minus sign or a digit is a number. -/
theorem next_of_number {c : Char} (hc : c = '-' ∨ c.isDigit = true) (rest : List Symbol) :
    Token.next (.char c) rest = Token.ofNumberScan (scanNumber (.char c :: rest)) := by
  have hnumber : (c = '-' || Numeral.isDigit c) = true := by
    rw [Numeral.isDigit_eq, Bool.or_eq_true, decide_eq_true_eq]
    exact hc
  simp [Token.next, ne_of_number hc, hnumber]

theorem number {c : Char} {cs : List Char} {read : Except Error Number}
    (hc : c = '-' ∨ c.isDigit = true) (h : ∀ rest, Separate rest →
      scanNumber ((c :: cs).map .char ++ rest) = .done read rest) :
    Reads (c :: cs) (.number read) := by
  intro b parents rest hb hrest
  have hnext := next_of_number hc (cs.map .char ++ rest)
  rw [← List.cons_append, ← List.map_cons, h rest hrest] at hnext
  refine (resume_token (isSpace_of_number hc) hnext).trans ?_
  cases hb <;> rfl

/-- A count of at most 64 bits. -/
theorem count {n : Nat} (hn : n < Numeral.countBound) :
    Reads (Nat.toDigits 10 n) (.number (.ok (.natural n))) := by
  obtain ⟨c, cs, hcs⟩ := List.exists_cons_of_ne_nil (Nat.toDigits_ne_nil (b := 10) (n := n))
  have hc : c.isDigit = true := (Numeral.digits_toDigits n).2 c (hcs ▸ List.mem_cons_self)
  have hscan : ∀ rest, Separate rest → scanNumber ((Nat.toDigits 10 n).map .char ++ rest) =
      .done (.ok (.natural n)) rest := fun _ => scanNumber_toDigits hn
  rw [hcs] at hscan ⊢
  exact number (.inr hc) hscan

/-! ## Lists and objects -/

/-- Texts in a row are read one after another, if each is read from a state `due` after a comma. -/
theorem resume_row {α : Type} {due : Builder → List α → Prop} {done : List α → Builder}
    (hcomma : ∀ xs rest, ∃ b, due b xs ∧ (done xs).resume (.char ',' :: rest) = b.resume rest)
    {ts : List (List Char)} {cs : List Char} (h : Row ts cs) {xs : List α}
    (hread : List.Forall₂ (fun t x => ∀ b xs rest, due b xs → Separate rest →
      b.resume (t.map .char ++ rest) = (done (x :: xs)).resume rest) ts xs)
    {b : Builder} {before : List α} {rest : List Symbol} (hb : due b before)
    (hrest : Separate rest) :
    b.resume (cs.map .char ++ rest) = (done (xs.reverse ++ before)).resume rest := by
  induction h generalizing xs b before with
  | @last t l r hl hr =>
    cases hread with
    | cons ht hnil =>
      cases hnil
      rw [List.map_append, List.map_append, List.append_assoc, List.append_assoc,
        resume_blanks hl, ht b before _ hb (separate_blanks hr hrest), resume_blanks hr]
      rfl
  | @more t l r cs ts hl hr _ ih =>
    cases hread with
    | @cons _ x _ xs ht hts =>
      obtain ⟨b', hb', hnext⟩ := hcomma (x :: before) (cs.map .char ++ rest)
      have hsep : Separate (r.map .char ++ (.char ',' :: (cs.map .char ++ rest))) :=
        separate_blanks hr (separate_char (by decide))
      simp only [List.map_append, List.map_cons, List.append_assoc, List.cons_append]
      rw [resume_blanks hl, ht b before _ hb hsep, resume_blanks hr, hnext, ih hts hb',
        List.reverse_cons, List.append_assoc]
      rfl

theorem map_enclosed (opening closing : Char) (cs : List Char) (rest : List Symbol) :
    (opening :: (cs ++ [closing])).map .char ++ rest =
      .char opening :: (cs.map .char ++ .char closing :: rest) := by
  simp

/-- The texts of items make up the text of a list. -/
theorem list {ts : List (List Char)} {trees : List Tree} {cs : List Char}
    (hts : List.Forall₂ Reads ts trees) (h : ListText ts cs) : Reads cs (.list trees .closed) := by
  intro b parents rest hb hrest
  cases h with
  | empty hcs =>
    cases hts
    rw [map_enclosed, hb.listOpen, resume_blanks hcs]
    exact resume_token rfl rfl
  | row hrow =>
    have hcomma : ∀ items rest, ∃ b, Awaits b (.list items :: parents) ∧
        resume (.at (.listComma items) parents) (.char ',' :: rest) = b.resume rest :=
      fun items rest => ⟨_, .nextItem, resume_token rfl rfl⟩
    have hitem := hts.imp fun t tree (ht : Reads t tree) b items rest hb =>
      ht b (.list items :: parents) rest hb
    have hclose : Separate (.char ']' :: rest) := separate_char (by decide)
    rw [map_enclosed, hb.listOpen, resume_row hcomma hrow hitem .firstItem hclose,
      resume_listClose, List.append_nil, List.reverse_reverse]

/-- A key and a value take the machine past a member. -/
theorem resume_member {m : List Char × List Char} {cs : List Char} (h : MemberText m cs)
    {x : Key × Tree} (hkey : ReadsLiteral m.1 x.1) (hvalue : Reads m.2 x.2) (parents : List Frame)
    (b : Builder) (ms : List (Key × Tree)) (rest : List Symbol) (hb : b.AwaitsKey parents ms)
    (hrest : Separate rest) :
    b.resume (cs.map .char ++ rest) = resume (.at (.objectComma (x :: ms)) parents) rest := by
  obtain ⟨l, r, hl, hr, rfl⟩ := h
  have hcolon : b.step (.text x.1) = .at (.colon ms x.1) parents := by
    cases hb <;> rfl
  simp only [List.map_append, List.map_cons, List.append_assoc, List.cons_append]
  rw [hkey, hcolon, resume_blanks hl, resume_colon, resume_blanks hr, hvalue _ _ _ .value hrest,
    put]

/-- The texts of keys and values make up the text of an object. -/
theorem object {ms : List (List Char × List Char)} {xs : List (Key × Tree)} {cs : List Char}
    (hms : List.Forall₂ (fun m x => ReadsLiteral m.1 x.1 ∧ Reads m.2 x.2) ms xs)
    (h : ObjectText ms cs) : Reads cs (.object xs .closed) := by
  intro b parents rest hb hrest
  obtain ⟨ts, hts, h⟩ := h
  have hread := forall₂_through hts hms
  cases h with
  | empty hcs =>
    cases hread
    rw [map_enclosed, hb.objectOpen, resume_blanks hcs]
    exact resume_token rfl rfl
  | row hrow =>
    have hcomma : ∀ ms rest, ∃ b, AwaitsKey parents b ms ∧
        resume (.at (.objectComma ms) parents) (.char ',' :: rest) = b.resume rest :=
      fun ms rest => ⟨_, .next, resume_token rfl rfl⟩
    have hmember := hread.imp fun t x ⟨m, ht, hkey, hvalue⟩ => resume_member ht hkey hvalue parents
    have hclose : Separate (.char '\x7d' :: rest) := separate_char (by decide)
    rw [map_enclosed, hb.objectOpen, resume_row hcomma hrow hmember .first hclose,
      resume_objectClose, List.append_nil, List.reverse_reverse]

/-- A whole input has the tree of its value, if there are only blanks around that. -/
theorem document {l cs r : List Char} {t : Tree} (h : Reads cs t) (hl : Blanks l) (hr : Blanks r) :
    Json.document (tokens ((l ++ (cs ++ r)).map .char)) = ⟨t, none⟩ := by
  have hend : Separate (r.map .char ++ []) := separate_blanks hr nofun
  rw [document_eq_resume, List.map_append, List.map_append, resume_blanks hl,
    ← List.append_nil (r.map _), h .start [] _ .value hend, resume_blanks hr, resume, tokens,
    tokensAfter]
  rfl

end Reads

/-! ## Values that are skipped -/

theorem NumberSpelling.reads {cs : List Char} (h : NumberSpelling cs) :
    ∃ read, Reads cs (.number read) := by
  obtain ⟨l, hl⟩ := h.scan
  obtain ⟨sign, whole, fraction, exponent, hsign, hwhole, -, -, -, rfl⟩ := h
  obtain ⟨c, whole, rfl⟩ := List.exists_cons_of_ne_nil hwhole.1
  rcases hsign with rfl | rfl
  · exact ⟨_, .number (.inr (hwhole.2 c List.mem_cons_self)) hl⟩
  · exact ⟨_, .number (.inl rfl) hl⟩

/-- Any value is read in full, and a reader that only wants to get past it does. -/
theorem ValueText.reads {cs : List Char} (h : ValueText cs) :
    ∃ t, Reads cs t ∧ t.skipError? = none := by
  induction h with
  | null => exact ⟨_, .null, rfl⟩
  | flagTrue => exact ⟨_, .flagTrue, rfl⟩
  | flagFalse => exact ⟨_, .flagFalse, rfl⟩
  | number h =>
    obtain ⟨read, hread⟩ := h.reads
    exact ⟨_, hread, rfl⟩
  | text h =>
    obtain ⟨read, hread⟩ := h.readsLiteral
    exact ⟨_, .literal hread, rfl⟩
  | list _ h ih =>
    obtain ⟨trees, htrees⟩ := exists_forall₂ fun t ht => (ih t ht).imp fun _ h => h.1
    exact ⟨_, .list htrees h, rfl⟩
  | @object ms cs hkeys _ h ih =>
    have hms : ∀ m ∈ ms, ∃ x : Key × Tree, ReadsLiteral m.1 x.1 ∧ Reads m.2 x.2 := by
      intro m hm
      obtain ⟨read, hread⟩ := (hkeys m hm).readsLiteral
      obtain ⟨t, ht, -⟩ := ih m hm
      exact ⟨(read, t), hread, ht⟩
    obtain ⟨xs, hxs⟩ := exists_forall₂ hms
    exact ⟨_, .object hxs h, rfl⟩

end SlotLayout.Json
