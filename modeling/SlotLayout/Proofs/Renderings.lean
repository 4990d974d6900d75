import Mathlib.Data.List.Perm.Basic
import SlotLayout.Proofs.Documents

/-!
# Layout documents in any spelling

A layout can be given by many texts (`Layout.RenderedBy`): members may stand in any order, with
further ones among them that a layout does not know; fields without a value may be left out or null;
texts may be escaped, and there may be blanks between tokens; of several entries for one type, the
last one counts. Each of these texts is read as the layout (`Layout.ofText_of_renderedBy`).

What may stand for a field, and whether it may be left out, is a `FieldText`; the text of a record
is made up of those of its fields (`RecordText`). It is read as the record if the decoder of each
field reads the field's texts as its value (`Fields.Renders`, `RecordText.decodes`).
-/

namespace SlotLayout

namespace Json

/-! ## Texts of records -/

/-- A member of an object: its name, and the text of its value. -/
abbrev Member := String × List Char

/-- An object with these members. The names may be spelled in any way. -/
def MembersText (ms : List Member) (cs : List Char) : Prop :=
  ∃ keys, List.Forall₂ (fun (m : Member) key => TextSpelling m.1 key) ms keys ∧
    ObjectText (keys.zip (ms.map (·.2))) cs

/-- An object with these members and no blanks. -/
def compactObject (ms : List Member) : List Char :=
  '\x7b' :: ([','].intercalate (ms.map fun m => literal m.1 ++ ':' :: m.2) ++ ['\x7d'])

theorem membersText_compactObject {ms : List Member} (h : ms ≠ []) :
    MembersText ms (compactObject ms) := by
  refine ⟨ms.map (literal ·.1), List.forall₂_map_right_iff.2 ?_,
    ms.map fun m => literal m.1 ++ ':' :: m.2, ?_, .row ?_⟩
  · exact List.forall₂_same.2 fun m _ => textSpelling_literal m.1
  · rw [List.zip_map', List.forall₂_map_left_iff, List.forall₂_map_right_iff]
    exact List.forall₂_same.2 fun m _ => ⟨[], [], blanks_nil, blanks_nil, rfl⟩
  · exact row_intercalate (mt List.map_eq_nil_iff.1 h)

/-- What may stand for a field of a record. -/
structure FieldText where
  name : String
  /-- Whether the field may be left out. -/
  Omissible : Prop
  /-- The texts that may be given as its value. -/
  Value : List Char → Prop

namespace FieldText

/-- A field that has to be given. -/
def required (name : String) (value : List Char → Prop) : FieldText := ⟨name, False, value⟩

/-- A field that is given if it has a value, and otherwise left out or null. -/
def optional {α : Type} (name : String) (value : α → List Char → Prop) : Option α → FieldText
  | none => ⟨name, True, (· = "null".toList)⟩
  | some a => ⟨name, False, value a⟩

/-- The members that stand for a field: one with its name, or none. -/
inductive Gives (f : FieldText) : List Member → Prop
  | omitted (h : f.Omissible) : Gives f []
  | given {cs : List Char} (h : f.Value cs) : Gives f [(f.name, cs)]

end FieldText

/-- An object that gives the fields of a record: their members and any others, in any order. -/
def RecordText (fields : List FieldText) (cs : List Char) : Prop :=
  ∃ known further ms, List.Forall₂ FieldText.Gives fields known ∧
    (∀ m ∈ further, m.1 ∉ fields.map FieldText.name ∧ ValueText m.2) ∧
      ms.Perm (further ++ known.flatten) ∧ MembersText ms cs

theorem recordText_compactObject {fields : List FieldText} {ms : List Member}
    (further : List Member) (known : List (List Member))
    (hknown : List.Forall₂ FieldText.Gives fields known)
    (hfurther : ∀ m ∈ further, m.1 ∉ fields.map FieldText.name ∧ ValueText m.2)
    (hperm : ms.Perm (further ++ known.flatten)) (h : ms ≠ []) :
    RecordText fields (compactObject ms) :=
  ⟨known, further, ms, hknown, hfurther, hperm, membersText_compactObject h⟩

/-- A list of values with texts of the given kind. -/
def ListOf {α : Type} (value : α → List Char → Prop) (xs : List α) (cs : List Char) : Prop :=
  ∃ ts, List.Forall₂ value xs ts ∧ ListText ts cs

/-- A count of at most 64 bits. -/
def CountText (n : Nat) (cs : List Char) : Prop :=
  n < Numeral.countBound ∧ cs = Nat.toDigits 10 n

/-- A numeral for a count, maybe with a plus sign or zeros in front and blanks around it. -/
def CountNumeral (n : Nat) (s : String) : Prop :=
  ∃ l sign digits r, (∀ c ∈ l, Text.isBlank c = true) ∧ (∀ c ∈ r, Text.isBlank c = true) ∧
    (sign = [] ∨ sign = ['+']) ∧ Numeral.Digits digits ∧ Nat.ofDigitChars 10 digits 0 = n ∧
      s.toList = l ++ ((sign ++ digits) ++ r)

/-- A count of at most 64 bits, as a number or as a numeral in a text literal. -/
def LooseCountText (n : Nat) (cs : List Char) : Prop :=
  CountText n cs ∨ n < Numeral.countBound ∧ ∃ s, CountNumeral n s ∧ TextSpelling s cs

/-! ## Reading records -/

/-- The decoder reads each text of the given kind as the value `a`. -/
def Decodes {α : Type} (decode : Decoder α) (a : α) (value : List Char → Prop) : Prop :=
  ∀ cs, value cs → ∃ t, Reads cs t ∧ decode t = .ok a

theorem Decodes.map {α β : Type} {decode : Decoder α} {decode' : Decoder β} {a : α} {b : β}
    {value : List Char → Prop} (h : Decodes decode a value)
    (hdecode : ∀ t, decode t = .ok a → decode' t = .ok b) : Decodes decode' b value := by
  intro cs hcs
  obtain ⟨t, ht, hok⟩ := h cs hcs
  exact ⟨t, ht, hdecode t hok⟩

/-- The fields of a record are given by texts for these values. -/
inductive Fields.Renders : {ρ : Type} → Fields ρ → List FieldText → ρ → Prop
  | nil : Renders .nil [] ()
  | add {α ρ : Type} {field : Field α} {rest : Fields ρ} {f : FieldText} {fs : List FieldText}
      {a : α} {r : ρ} (hname : f.name = field.name) (habsent : f.Omissible → field.absent = some a)
      (hvalue : Decodes field.decode a f.Value) (hr : Renders rest fs r) :
      Renders (.add field rest) (f :: fs) (a, r)

/-- What a member is read as. -/
def MemberReads (m : Member) (x : Key × Tree) : Prop := x.1 = .ok m.1 ∧ Reads m.2 x.2

theorem MembersText.reads {ms : List Member} {xs : List (Key × Tree)} {cs : List Char}
    (h : MembersText ms cs) (hxs : List.Forall₂ MemberReads ms xs) :
    Reads cs (.object xs .closed) := by
  obtain ⟨keys, hkeys, hobject⟩ := h
  refine .object ?_ hobject
  clear hobject
  induction hkeys generalizing xs with
  | nil =>
    cases hxs
    exact .nil
  | cons hkey _ ih =>
    cases hxs with
    | cons hx hxs => exact .cons ⟨hx.1 ▸ hkey.readsLiteral, hx.2⟩ (ih hxs)

namespace Fields.Renders

variable {ρ : Type} {fields : Fields ρ} {fs : List FieldText} {r : ρ}

theorem names_eq (h : fields.Renders fs r) : fs.map FieldText.name = fields.names := by
  induction h with
  | nil => rfl
  | add hname _ _ _ ih =>
    rw [List.map_cons, ih, hname]
    rfl

/-- The members for the fields are read as members that give the record. -/
theorem exists_given (h : fields.Renders fs r) {known : List (List Member)}
    (hknown : List.Forall₂ FieldText.Gives fs known) :
    ∃ xs, List.Forall₂ MemberReads known.flatten xs ∧ fields.Given xs r := by
  induction h generalizing known with
  | nil =>
    cases hknown
    exact ⟨[], .nil, .nil⟩
  | add hname habsent hvalue _ ih =>
    cases hknown with
    | cons hgives hknown =>
      obtain ⟨xs, hxs, hgiven⟩ := ih hknown
      cases hgives with
      | omitted homit => exact ⟨xs, hxs, .absent (habsent homit) hgiven⟩
      | given hcs =>
        obtain ⟨t, ht, hok⟩ := hvalue _ hcs
        exact ⟨(.ok _, t) :: xs, .cons ⟨congrArg Except.ok hname.symm, ht⟩ hxs, .present hok hgiven⟩

end Fields.Renders

/-- A record is read from each text of its fields. -/
theorem RecordText.decodes {ρ : Type} {fields : Fields ρ} {fs : List FieldText} {r : ρ}
    (name : String) (h : fields.Renders fs r) (hnames : fields.names.Nodup) :
    Decodes (Decoder.record name fields) r (RecordText fs) := by
  rintro cs ⟨known, further, ms, hknown, hfurther, hperm, hms⟩
  obtain ⟨xs, hxs, hgiven⟩ := h.exists_given hknown
  have hskip : ∀ m ∈ further, ∃ x : Key × Tree,
      MemberReads m x ∧ Fields.Further fields.names x := by
    intro m hm
    obtain ⟨hnew, hvalue⟩ := hfurther m hm
    obtain ⟨t, ht, hskip⟩ := hvalue.reads
    exact ⟨(.ok m.1, t), ⟨rfl, ht⟩, m.1, rfl, h.names_eq ▸ hnew, hskip⟩
  obtain ⟨ys, hys⟩ := exists_forall₂ hskip
  have hall := List.rel_append (hys.imp fun _ _ h => h.1) hxs
  obtain ⟨zs, hzs, hzperm⟩ := List.perm_comp_forall₂ hperm hall
  refine ⟨_, hms.reads hzs, record_of_perm name hnames hgiven (fun y hy => ?_) hzperm⟩
  obtain ⟨m, -, hm⟩ := exists_of_forall₂ hys.flip hy
  exact hm.2

section Values

variable {α : Type} {decode : Decoder α} {value : α → List Char → Prop}

theorem decodes_text (s : String) : Decodes Decoder.text s (TextSpelling s) :=
  fun _ h => ⟨_, .text h, rfl⟩

theorem decodes_count (kind : String) (n : Nat) :
    Decodes (Decoder.natural kind) n (CountText n) := by
  rintro cs ⟨hn, rfl⟩
  exact ⟨_, .count hn, rfl⟩

theorem decodes_list {xs : List α} (h : ∀ x ∈ xs, Decodes decode x (value x)) :
    Decodes decode.list xs (ListOf value xs) := by
  rintro cs ⟨ts, hts, hlist⟩
  obtain ⟨trees, htrees, hok⟩ := exists_mapM h hts
  refine ⟨_, .list htrees hlist, ?_⟩
  rw [Decoder.list, hok]
  rfl

theorem decodes_looseCount (depth n : Nat) :
    Decodes (Decoder.looseCount depth) n (LooseCountText n) := by
  rintro cs (⟨hn, rfl⟩ | ⟨hn, s, ⟨l, sign, digits, r, hl, hr, hsign, hdigits, hval, hs⟩, hcs⟩)
  · exact ⟨_, .count hn, rfl⟩
  · have hread : Numeral.read 10 Numeral.countBound (Text.trim s.toList) = .ok n := by
      rw [hs, Numeral.trim_digits hl hr hsign hdigits,
        Numeral.read_digits hsign hdigits (hval.symm ▸ hn), hval]
    refine ⟨_, .text hcs, ?_⟩
    simp only [Decoder.looseCount, Tree.error?, check, bind, Except.bind, hread]

/-- A field that may be null is read from each text that may stand for it, unless its decoder takes
null for a value. -/
theorem Fields.Renders.optional {ρ : Type} {rest : Fields ρ} {fs : List FieldText} {r : ρ}
    {name : String} {value? : Option α} (h : ∀ a ∈ value?, Decodes decode a (value a))
    (hnull : ∀ a, decode .null ≠ .ok a) (hr : rest.Renders fs r) :
    (Fields.add (.optional name decode) rest).Renders (.optional name value value? :: fs)
      (value?, r) := by
  cases value? with
  | none =>
    refine .add rfl (fun _ => rfl) (fun cs hcs => ⟨.null, ?_, rfl⟩) hr
    rw [show cs = "null".toList from hcs]
    exact .null
  | some a =>
    refine .add rfl False.elim ((h a rfl).map fun t hok => ?_) hr
    have hsome : decode.optional t = some <$> decode t := by
      cases t with
      | null => exact absurd hok (hnull a)
      | _ => rfl
    show decode.optional t = _
    rw [hsome, hok]
    rfl

theorem Fields.Renders.required {ρ : Type} {rest : Fields ρ} {fs : List FieldText} {r : ρ}
    {name : String} {a : α} {value : List Char → Prop} (h : Decodes decode a value)
    (hr : rest.Renders fs r) :
    (Fields.add (.required name decode) rest).Renders (.required name value :: fs) (a, r) :=
  .add rfl False.elim h hr

end Values

end Json

open Json (Decodes FieldText Fields ListOf RecordText TextSpelling CountText LooseCountText)

/-! ## Texts of layouts -/

/-- What may stand for the fields of a declaration. -/
def Declaration.fieldTexts (d : Declaration) : List FieldText :=
  [.optional "astId" CountText d.astId?, .optional "contract" TextSpelling d.contract?,
    .required "label" (TextSpelling d.label), ⟨"offset", d.offset = 0, CountText d.offset⟩,
    .optional "slot" TextSpelling d.slot?, .required "type" (TextSpelling d.typeId)]

/-- The texts that a declaration may have. -/
def Declaration.RenderedBy (d : Declaration) : List Char → Prop := RecordText d.fieldTexts

/-- The texts that what is known of a type may have. -/
def TypeInfo.RenderedBy (info : TypeInfo) : List Char → Prop :=
  RecordText [.required "encoding" (TextSpelling info.encoding.name),
    .required "label" (TextSpelling info.label),
    .required "numberOfBytes" (LooseCountText info.byteCount),
    .optional "base" TextSpelling info.base?, .optional "key" TextSpelling info.key?,
    .optional "value" TextSpelling info.value?,
    .optional "members" (ListOf Declaration.RenderedBy) info.members?]

/-- The texts that a type table may have: an object of entries, of which the last one for each type
gives that type. -/
def TypeTable.RenderedBy (types : TypeTable) (cs : List Char) : Prop :=
  ∃ (entries : List (String × TypeInfo)) (ms : List Json.Member),
    (∀ id, types.get? id = entries.reverse.lookup id) ∧
      List.Forall₂ (fun e m => m.1 = e.1 ∧ e.2.RenderedBy m.2) entries ms ∧ Json.MembersText ms cs

/-- The texts that a layout may have. -/
def Layout.RenderedBy (layout : Layout) (s : String) : Prop :=
  ∃ l cs r, Json.Blanks l ∧ Json.Blanks r ∧ s.toList = l ++ (cs ++ r) ∧
    RecordText [.required "storage" (ListOf Declaration.RenderedBy layout.storage),
      .required "types" layout.types.RenderedBy] cs

/-! ## Reading layouts -/

theorem Declaration.decodes (d : Declaration) : Decodes decoder d d.RenderedBy := by
  have hrenders : fields.Renders d.fieldTexts
      (d.astId?, d.contract?, d.label, d.offset, d.slot?, d.typeId, ()) :=
    .optional (fun n _ => Json.decodes_count _ n) nofun <|
    .optional (fun s _ => Json.decodes_text s) nofun <|
    .required (Json.decodes_text _) <|
    .add rfl (fun h => congrArg some h.symm) (Json.decodes_count _ _) <|
    .optional (fun s _ => Json.decodes_text s) nofun <|
    .required (Json.decodes_text _) .nil
  refine (RecordText.decodes "StorageElement" hrenders (by decide)).map fun t hok => ?_
  rw [decoder, hok]
  rfl

theorem TypeInfo.decodes (info : TypeInfo) (depth : Nat) :
    Decodes (decoder depth) info info.RenderedBy := by
  have hencoding : Decodes Encoding.decoder info.encoding (TextSpelling info.encoding.name) :=
    fun cs h => ⟨_, .text h, Encoding.ofName_name _⟩
  have hrenders : (fields depth).Renders _ (info.encoding, info.label, info.byteCount, info.base?,
      info.key?, info.value?, info.members?, ()) :=
    .required hencoding <|
    .required (Json.decodes_text _) <|
    .required (Json.decodes_looseCount _ _) <|
    .optional (fun s _ => Json.decodes_text s) nofun <|
    .optional (fun s _ => Json.decodes_text s) nofun <|
    .optional (fun s _ => Json.decodes_text s) nofun <|
    .optional (fun ms _ => Json.decodes_list fun d _ => d.decodes) nofun .nil
  have hnames : (fields depth).names.Nodup := show (fields 0).names.Nodup by decide
  refine (RecordText.decodes "TypeDescriptor" hrenders hnames).map fun t hok => ?_
  rw [decoder, hok]
  rfl

theorem TypeTable.decodes (types : TypeTable) (depth : Nat) :
    Decodes (decoder depth) types types.RenderedBy := by
  rintro cs ⟨entries, ms, hlast, hms, hobject⟩
  have hentry : ∀ e ∈ entries, ∀ m : Json.Member, m.1 = e.1 ∧ e.2.RenderedBy m.2 →
      ∃ x, Json.MemberReads m x ∧ entryDecoder (depth + 1) x = .ok e := by
    rintro e - m ⟨hid, hinfo⟩
    obtain ⟨t, ht, hok⟩ := e.2.decodes (depth + 1) m.2 hinfo
    refine ⟨(.ok m.1, t), ⟨rfl, ht⟩, ?_⟩
    rw [entryDecoder]
    simp only [bind, Except.bind, hok, hid]
    rfl
  obtain ⟨xs, hxs, hok⟩ := exists_mapM hentry hms
  have htable : ofList entries = types :=
    eq_of_get? fun id => (get?_ofList entries id).trans (hlast id).symm
  refine ⟨_, hobject.reads hxs, ?_⟩
  rw [decoder, hok]
  exact congrArg Except.ok htable

namespace Layout

/-- A layout is read from each of its texts. -/
theorem ofText_of_renderedBy {layout : Layout} {s : String} (h : layout.RenderedBy s) :
    ofText s = .ok layout := by
  obtain ⟨l, cs, r, hl, hr, hs, hcs⟩ := h
  have hrenders : fields.Renders _ (layout.storage, layout.types, ()) :=
    .required (Json.decodes_list fun d _ => d.decodes) <| .required (layout.types.decodes 1) .nil
  obtain ⟨t, ht, hok⟩ := RecordText.decodes "StorageLayout" hrenders (by decide) cs hcs
  have hread : decoder.ofSymbols (Json.Symbol.ofText s) = .ok layout := by
    rw [Json.Decoder.ofSymbols, Json.Symbol.ofText, hs, ht.document hl hr, Json.Decoder.run,
      decoder, hok]
    rfl
  rw [ofText, ofSymbols, hread]

section Single

open Json (CountNumeral Row ValueText compactObject literal membersText_compactObject
  recordText_compactObject textSpelling_literal)

/-- A text literal that no text has. -/
def loneText : List Char := ['"', '\\', 'u', 'd', '8', '0', '0', '"']

theorem valueText_loneText : ValueText loneText :=
  .text ⟨[['\\', 'u', 'd', '8', '0', '0']], List.forall_mem_singleton.2 (.unit rfl), rfl⟩

/-- The declaration of a value. -/
def single : Declaration := { Declaration.bare "value" "t_uint256" with slot? := some "0" }

/-- The declaration without its offset, its fields in another order and one more among them. -/
def singleText : List Char :=
  compactObject [("type", literal "t_uint256"), ("source", loneText),
    ("contract", "null".toList), ("slot", literal "0"), ("label", literal "value")]

theorem single_renderedBy : single.RenderedBy singleText := by
  refine recordText_compactObject [("source", loneText)]
    [[], [("contract", "null".toList)], [("label", literal "value")], [], [("slot", literal "0")],
      [("type", literal "t_uint256")]] ?_ ?_ ?_ nofun
  · exact .cons (.omitted trivial) <| .cons (.given rfl) <|
      .cons (.given (textSpelling_literal _)) <| .cons (.omitted rfl) <|
      .cons (.given (textSpelling_literal _)) <| .cons (.given (textSpelling_literal _)) .nil
  · exact List.forall_mem_singleton.2 ⟨by decide, valueText_loneText⟩
  · decide

/-- A type whose count of bytes is the numeral `s`. -/
def valueText (s : String) : List Char :=
  compactObject [("base", "null".toList), ("numberOfBytes", literal s),
    ("label", literal "uint256"), ("encoding", literal "inplace")]

theorem value_renderedBy {n : Nat} {s : String} (hn : n < Numeral.countBound)
    (hs : CountNumeral n s) : (TypeInfo.value "uint256" n).RenderedBy (valueText s) := by
  refine recordText_compactObject [] [[("encoding", literal "inplace")],
    [("label", literal "uint256")], [("numberOfBytes", literal s)], [("base", "null".toList)], [],
      [], []] ?_ nofun ?_ nofun
  · exact .cons (.given (textSpelling_literal _)) <| .cons (.given (textSpelling_literal _)) <|
      .cons (.given (.inr ⟨hn, s, hs, textSpelling_literal _⟩)) <| .cons (.given rfl) <|
      .cons (.omitted trivial) <| .cons (.omitted trivial) <| .cons (.omitted trivial) .nil
  · exact List.reverse_perm [("encoding", literal "inplace"), ("label", literal "uint256"),
      ("numberOfBytes", literal s), ("base", "null".toList)]

/-- A layout with that declaration and its type. -/
def singleLayout : Layout :=
  ⟨[single], ⟨[("t_uint256", .value "uint256" 32)], List.pairwise_singleton _ _⟩⟩

/-- A text of the layout that gives its type twice. -/
def singleLayoutText : List Char :=
  compactObject [
    ("types", compactObject [("t_uint256", valueText "7"), ("t_uint256", valueText " +032 ")]),
    ("storage", '[' :: ('\n' :: (singleText ++ [' ']) ++ [']']))]

theorem ofText_of_renderedBy_single :
    singleLayout.RenderedBy (String.ofList singleLayoutText) ∧
      ofText (String.ofList singleLayoutText) = .ok singleLayout := by
  have hearlier : CountNumeral 7 "7" :=
    ⟨[], [], ['7'], [], nofun, nofun, .inl rfl, ⟨nofun, by simp⟩, by decide, rfl⟩
  have hlater : CountNumeral 32 " +032 " :=
    ⟨[' '], ['+'], ['0', '3', '2'], [' '], List.forall_mem_singleton.2 rfl,
      List.forall_mem_singleton.2 rfl, .inr rfl, ⟨nofun, by simp⟩, by decide, rfl⟩
  have htypes : singleLayout.types.RenderedBy (compactObject [("t_uint256", valueText "7"),
      ("t_uint256", valueText " +032 ")]) := by
    refine ⟨[("t_uint256", .value "uint256" 7), ("t_uint256", .value "uint256" 32)], _,
      fun id => ?_, .cons ⟨rfl, value_renderedBy (by decide) hearlier⟩ <|
        .cons ⟨rfl, value_renderedBy (by decide) hlater⟩ .nil, membersText_compactObject nofun⟩
    show List.lookup id [_] = List.lookup id [_, _]
    rw [TypeTable.lookup_cons_eq_ite, TypeTable.lookup_cons_eq_ite, TypeTable.lookup_cons_eq_ite]
    split <;> rfl
  have hstorage : Json.ListOf Declaration.RenderedBy [single]
      ('[' :: ('\n' :: (singleText ++ [' ']) ++ [']'])) :=
    ⟨[singleText], .cons single_renderedBy .nil,
      .row (Row.last (l := ['\n']) (List.forall_mem_singleton.2 (.inr (.inr (.inl rfl))))
        (List.forall_mem_singleton.2 (.inl rfl)))⟩
  have h : singleLayout.RenderedBy (String.ofList singleLayoutText) := by
    refine ⟨[], singleLayoutText, [], nofun, nofun, ?_, ?_⟩
    · rw [String.toList_ofList, List.append_nil, List.nil_append]
    · exact recordText_compactObject [] [[_], [_]]
        (.cons (.given hstorage) <| .cons (.given htypes) .nil) nofun (.swap _ _ _) nofun
  exact ⟨h, ofText_of_renderedBy h⟩

end Single

end Layout

end SlotLayout
