import SlotLayout.Proofs.Leaves

/-!
# Names tell values apart

The name of a value in a slot is the path that leads to it: the label of a declaration, and behind it
a point and a label for each step to a member, and a number between brackets for each step to an
element. Where the labels of declarations differ from each other, and those of the members of each
struct, a path leads to one value only, provided that no label has a character with which a step
begins (`Layout.Labelled`). So the values in the slots of a layout have different names
(`collate_distinct`).

A path is said to lead through a value if it is the value's own or goes on from it with a step
(`Through`). Paths to parts of a value lead through it (`Shape.through_of_parts`), and no path leads
through two declarations, or through two parts of one value (`Shape.apart_of_parts`).
-/

namespace SlotLayout

/-! ## Labels -/

/-- The labels of declarations differ, and none of them has a character with which a step to a part
begins. -/
def DistinctLabels (ds : List Declaration) : Prop :=
  (ds.map (·.label)).Nodup ∧ ∀ d ∈ ds, '.' ∉ d.label.toList ∧ '[' ∉ d.label.toList

instance (ds : List Declaration) : Decidable (DistinctLabels ds) :=
  inferInstanceAs (Decidable (_ ∧ _))

/-- Labels tell the declarations apart, and the members of each struct among the types in use. -/
def Layout.Labelled (layout : Layout) : Prop :=
  DistinctLabels layout.storage ∧ ∀ typeId info members, layout.Uses typeId →
    layout.types.get? typeId = some info → info.shape typeId = .ok (.struct members) →
      DistinctLabels members

/-! ## Paths -/

/-- The path is `name`, or goes on from it with a step to a part. -/
def Through (name path : String) : Prop :=
  ∃ steps, path.toList = name.toList ++ steps ∧ ∀ c ∈ steps.head?, c = '.' ∨ c = '['

theorem through_refl (name : String) : Through name name := ⟨[], (List.append_nil _).symm, nofun⟩

theorem Through.trans {a b path : String} (h : Through a b) (h' : Through b path) :
    Through a path := by
  obtain ⟨steps, hb, hsteps⟩ := h
  obtain ⟨steps', hpath, hsteps'⟩ := h'
  refine ⟨steps ++ steps', by rw [hpath, hb, List.append_assoc], ?_⟩
  cases steps with
  | nil => exact hsteps'
  | cons c steps => exact hsteps

/-- No path leads through both names. -/
def Apart (a b : String) : Prop := ∀ path, Through a path → ¬ Through b path

/-- What stands before the first of some characters is told by the whole. -/
theorem eq_of_append_eq {p : Char → Bool} {front front' back back' : List Char}
    (hf : ∀ c ∈ front, p c = true) (hf' : ∀ c ∈ front', p c = true)
    (hb : ∀ c ∈ back.head?, p c = false) (hb' : ∀ c ∈ back'.head?, p c = false)
    (h : front ++ back = front' ++ back') : front = front' := by
  have htake : ∀ front back : List Char, (∀ c ∈ front, p c = true) →
      (∀ c ∈ back.head?, p c = false) → (front ++ back).takeWhile p = front := by
    intro front back hf hb
    rw [List.takeWhile_append_of_pos hf]
    cases back with
    | nil => exact List.append_nil front
    | cons c back => rw [List.takeWhile_cons_of_neg (by simp [hb c rfl]), List.append_nil]
  rw [← htake front back hf hb, h, htake front' back' hf' hb']

theorem apart_of_labels {a b : String} (ha : '.' ∉ a.toList ∧ '[' ∉ a.toList)
    (hb : '.' ∉ b.toList ∧ '[' ∉ b.toList) (hne : a ≠ b) : Apart a b := by
  rintro path ⟨steps, hpath, hsteps⟩ ⟨steps', hpath', hsteps'⟩
  have hplain : ∀ {s : String}, '.' ∉ s.toList ∧ '[' ∉ s.toList →
      ∀ c ∈ s.toList, (c != '.' && c != '[') = true := by
    intro s hs c hc
    have hdot : c ≠ '.' := fun h => hs.1 (h ▸ hc)
    have hopen : c ≠ '[' := fun h => hs.2 (h ▸ hc)
    simp [hdot, hopen]
  have hstep : ∀ {steps : List Char}, (∀ c ∈ steps.head?, c = '.' ∨ c = '[') →
      ∀ c ∈ steps.head?, (c != '.' && c != '[') = false := by
    intro steps hsteps c hc
    rcases hsteps c hc with rfl | rfl <;> rfl
  exact hne (String.toList_inj.1 (eq_of_append_eq (hplain ha) (hplain hb) (hstep hsteps)
    (hstep hsteps') (hpath.symm.trans hpath')))

/-- What stands before two names has no say in whether they are apart. -/
theorem Apart.append_left {a b : String} (h : Apart a b) (front : String) :
    Apart (front ++ a) (front ++ b) := by
  rintro path ⟨steps, hpath, hsteps⟩ ⟨steps', hpath', hsteps'⟩
  rw [String.toList_append, List.append_assoc] at hpath hpath'
  have hrest : a.toList ++ steps = b.toList ++ steps' :=
    List.append_cancel_left (hpath.symm.trans hpath')
  exact h (String.ofList (a.toList ++ steps)) ⟨steps, String.toList_ofList, hsteps⟩
    ⟨steps', String.toList_ofList.trans hrest, hsteps'⟩

theorem apart_of_indices {i j : Nat} (hne : i ≠ j) :
    Apart (toString i ++ "]") (toString j ++ "]") := by
  rintro path ⟨steps, hpath, -⟩ ⟨steps', hpath', -⟩
  have hdigit : ∀ (n : Nat) (c), c ∈ (toString n).toList → (c != ']') = true := by
    intro n c hc
    rw [Nat.toString_eq_ofList_toDigits, String.toList_ofList] at hc
    have hd : c.isDigit = true := Nat.isDigit_of_mem_toDigits (by decide) (by decide) hc
    have hclose : c ≠ ']' := by
      rintro rfl
      cases hd
    simp [hclose]
  have hclose : ∀ steps : List Char, ∀ c ∈ ("]".toList ++ steps).head?, (c != ']') = false := by
    rintro steps c ⟨⟩
    rfl
  rw [String.toList_append, List.append_assoc] at hpath hpath'
  have heq : (toString i).toList = (toString j).toList :=
    eq_of_append_eq (hdigit i) (hdigit j) (hclose steps) (hclose steps')
      (hpath.symm.trans hpath')
  have hvalue : ∀ n : Nat, Nat.ofDigitChars 10 (toString n).toList 0 = n := by
    intro n
    rw [Nat.toString_eq_ofList_toDigits, String.toList_ofList, Nat.ofDigitChars_ten_toDigits]
  exact hne (by rw [← hvalue i, heq, hvalue j])

/-! ## Parts of values -/

namespace Shape

variable {shape : Shape} {name : String} {parts : List Part}

/-- The path to a part leads through the value. -/
theorem through_of_parts (h : shape.parts? name = some parts) :
    ∀ part ∈ parts, Through name part.name := by
  cases shape with
  | value | indirect => cases h
  | struct members =>
    cases h
    refine List.forall_mem_map.2 fun d _ => ⟨'.' :: d.label.toList, ?_, ?_⟩
    · simp [Declaration.partOf]
    · rintro c ⟨⟩
      exact .inl rfl
  | fixedArray base length =>
    cases h
    refine List.forall_mem_map.2 fun i _ => ⟨'[' :: ((toString i).toList ++ [']']), ?_, ?_⟩
    · simp [Part.element]
    · rintro c ⟨⟩
      exact .inr rfl

/-- No path leads through two parts of a value. -/
theorem apart_of_parts (hlabels : ∀ members, shape = .struct members → DistinctLabels members)
    (h : shape.parts? name = some parts) : parts.Pairwise fun a b => Apart a.name b.name := by
  cases shape with
  | value | indirect => cases h
  | struct members =>
    cases h
    obtain ⟨hnodup, hplain⟩ := hlabels members rfl
    refine List.pairwise_map.2 ((List.pairwise_map.1 hnodup).imp_of_mem fun ha hb hne => ?_)
    exact (apart_of_labels (hplain _ ha) (hplain _ hb) hne).append_left (name ++ ".")
  | fixedArray base length =>
    cases h
    refine List.pairwise_map.2 (List.nodup_range.imp fun {i j} hne => ?_)
    have hapart := (apart_of_indices hne).append_left (name ++ "[")
    rwa [← String.append_assoc, ← String.append_assoc] at hapart

end Shape

theorem DistinctLabels.apart {ds : List Declaration} (h : DistinctLabels ds) :
    (ds.map (·.part)).Pairwise fun a b => Apart a.name b.name :=
  List.pairwise_map.2 ((List.pairwise_map.1 h.1).imp_of_mem fun ha hb hne =>
    apart_of_labels (h.2 _ ha) (h.2 _ hb) hne)

theorem TypeInfo.members?_of_struct {info : TypeInfo} {typeId : String}
    {members : List Declaration} (h : info.shape typeId = .ok (.struct members)) :
    info.members? = some members := by
  unfold shape at h
  split at h
  case h_2 =>
    cases h
    assumption
  case h_3 => split at h <;> cases h
  all_goals cases h

/-- Labels that tell the members of each struct in the table apart do so for those in use. -/
theorem Layout.Labelled.of_entries {layout : Layout} (hstorage : DistinctLabels layout.storage)
    (h : ∀ e ∈ layout.types.entries, ∀ members ∈ e.2.members?, DistinctLabels members) :
    layout.Labelled :=
  ⟨hstorage, fun _ _ _ _ hi hs => h _ (TypeTable.mem_of_get? hi) _ (TypeInfo.members?_of_struct hs)⟩

/-! ## Leaves -/

namespace Leaves

variable {types : TypeTable} {parts : List Part} {ls : List Leaf}

/-- Induction on leaves that does not ask what kind of parts a value falls into. -/
theorem induct {P : List Part → List Leaf → Prop} (nil : P [] [])
    (whole : ∀ (part : Part) (parts : List Part) (info : TypeInfo) (ls : List Leaf),
      Leaves types parts ls → P parts ls →
      P (part :: parts) (⟨part.name, part.typeId, info.label, info.encoding, info.size⟩ :: ls))
    (apart : ∀ (part : Part) (parts inner : List Part) (info : TypeInfo) (shape : Shape)
      (front ls : List Leaf), types.get? part.typeId = some info →
      info.shape part.typeId = .ok shape → shape.parts? part.name = some inner →
      Leaves types inner front → P inner front → Leaves types parts ls → P parts ls →
      P (part :: parts) (front ++ ls))
    (h : Leaves types parts ls) : P parts ls := by
  induction h with
  | nil => exact nil
  | whole hi hs hw hr ih => exact whole _ _ _ _ hr ih
  | struct hi hs hm hr ihm ihr => exact apart _ _ _ _ _ _ _ hi hs rfl hm ihm hr ihr
  | fixedArray hi hs hm hr ihm ihr => exact apart _ _ _ _ _ _ _ hi hs rfl hm ihm hr ihr

/-- The path to a leaf leads through the value that it is in. -/
theorem through (h : Leaves types parts ls) :
    ∀ l ∈ ls, ∃ part ∈ parts, Through part.name l.name := by
  refine h.induct (P := fun parts ls => ∀ l ∈ ls, ∃ part ∈ parts, Through part.name l.name)
    nofun ?whole ?apart
  case whole =>
    intro part parts info ls _ ih
    refine List.forall_mem_cons.2 ⟨⟨part, List.mem_cons_self, through_refl _⟩, fun l hl => ?_⟩
    obtain ⟨other, hother, hthrough⟩ := ih l hl
    exact ⟨other, List.mem_cons_of_mem part hother, hthrough⟩
  case apart =>
    intro part parts inner info shape front ls _ _ hp _ ihm _ ihr
    refine List.forall_mem_append.2 ⟨fun l hl => ?_, fun l hl => ?_⟩
    · obtain ⟨member, hmember, hthrough⟩ := ihm l hl
      exact ⟨part, List.mem_cons_self, (Shape.through_of_parts hp member hmember).trans hthrough⟩
    · obtain ⟨other, hother, hthrough⟩ := ihr l hl
      exact ⟨other, List.mem_cons_of_mem part hother, hthrough⟩

/-- Leaves of one value, and leaves of values that it is apart from, have different names. -/
theorem nodup_append {part : Part} {front : List Leaf} (h : Leaves types parts ls)
    (hapart : ∀ other ∈ parts, Apart part.name other.name)
    (hfront : ∀ l ∈ front, Through part.name l.name) (hnodup : (front.map (·.name)).Nodup)
    (hnodup' : (ls.map (·.name)).Nodup) : ((front ++ ls).map (·.name)).Nodup := by
  rw [List.map_append]
  refine hnodup.append hnodup' fun name hname hname' => ?_
  obtain ⟨l, hl, rfl⟩ := List.mem_map.1 hname
  obtain ⟨l', hl', heq⟩ := List.mem_map.1 hname'
  obtain ⟨other, hother, hthrough⟩ := h.through l' hl'
  exact hapart other hother l.name (hfront l hl) (heq ▸ hthrough)

/-- By induction on the leaves: those of one value differ from those of the others, because no path
leads through it and another. -/
theorem nodup_names {layout : Layout} (hlabels : layout.Labelled)
    (h : Leaves layout.types parts ls) (huses : ∀ part ∈ parts, layout.Uses part.typeId)
    (hapart : parts.Pairwise fun a b => Apart a.name b.name) : (ls.map (·.name)).Nodup := by
  revert huses hapart
  refine h.induct (P := fun parts ls => (∀ part ∈ parts, layout.Uses part.typeId) →
    (parts.Pairwise fun a b => Apart a.name b.name) → (ls.map (·.name)).Nodup)
    (fun _ _ => List.nodup_nil) ?whole ?apart
  case whole =>
    intro part parts info ls hr ih huses hapart
    obtain ⟨hpart, hapart⟩ := List.pairwise_cons.1 hapart
    have hfront : ∀ l ∈ [Leaf.mk part.name part.typeId info.label info.encoding info.size],
        Through part.name l.name := List.forall_mem_singleton.2 (through_refl part.name)
    exact hr.nodup_append hpart hfront (List.nodup_singleton _)
      (ih (List.forall_mem_cons.1 huses).2 hapart)
  case apart =>
    intro part parts inner info shape front ls hi hs hp hm ihm hr ihr huses hapart
    obtain ⟨hpart, hapart⟩ := List.pairwise_cons.1 hapart
    obtain ⟨hused, huses⟩ := List.forall_mem_cons.1 huses
    have hinner : ∀ member ∈ inner, layout.Uses member.typeId := by
      intro member hmember
      have hfalls : layout.types.FallsInto part member := ⟨info, shape, inner, hi, hs, hp, hmember⟩
      exact hused.part hfalls.hasPart
    have hnodup := ihm hinner (Shape.apart_of_parts
      (fun members hstruct => hlabels.2 _ info members hused hi (hstruct ▸ hs)) hp)
    refine hr.nodup_append hpart (fun l hl => ?_) hnodup (ihr huses hapart)
    obtain ⟨member, hmember, hthrough⟩ := hm.through l hl
    exact (Shape.through_of_parts hp member hmember).trans hthrough

end Leaves

/-! ## Slots -/

/-- No two values in the slots of a layout have the same name if labels tell its declarations apart,
and the members of each struct. -/
theorem collate_distinct {layout : Layout} {first : Word} {slots : List Slot}
    (h : layout.collate first = .ok slots) (hlabels : layout.Labelled) :
    ((slots.flatMap (·.entries)).map (·.name)).Nodup := by
  rw [Layout.collate_eq, map_eq_ok_iff] at h
  obtain ⟨p, hp, rfl⟩ := h
  obtain ⟨ls, hls, hleaves⟩ := leaves_of_foldlM Declaration.part
    (fun _ _ _ _ => Collation.leaves_of_placeNested) hp
  have hentries : (p.slots.reverse.flatMap (·.entries)).map Entry.leaf = ls := hleaves
  have huses : ∀ part ∈ layout.storage.map (·.part), layout.Uses part.typeId :=
    List.forall_mem_map.2 fun d hd => Layout.uses_typeId hd
  have hnodup := hls.nodup_names hlabels huses hlabels.1.apart
  rwa [← hentries, List.map_map] at hnodup

/-- A struct with an array of structs in it, and labels that look like parts of paths. -/
theorem collate_distinct_nested :
    let layout : Layout := ⟨[.bare "s" "t_struct(S)", .bare "s]" "t_array(2)", .bare "" "t_bool"],
      .ofList [("t_array(2)", .fixedArray "bool[2]" 32 "t_bool"), ("t_bool", .value "bool" 1),
        ("t_array(S)", .fixedArray "struct P[11]" 32 "t_struct(P)"),
        ("t_struct(P)", .struct "struct P" 32 [.bare "1]" "t_bool", .bare "" "t_array(2)"]),
        ("t_struct(S)", .struct "struct S" 64 [.bare "xs" "t_array(S)", .bare "xs]" "t_bool"])]⟩
    ∃ slots, layout.collate .zero = .ok slots ∧ layout.Labelled ∧
      ((slots.flatMap (·.entries)).map (·.name)).take 3 =
        ["s.xs[0].1]", "s.xs[0].[0]", "s.xs[0].[1]"] ∧
      ((slots.flatMap (·.entries)).map (·.name)).Nodup := by
  intro layout
  have hslots : ∃ slots, layout.collate .zero = .ok slots ∧
      ((slots.flatMap (·.entries)).map (·.name)).take 3 =
        ["s.xs[0].1]", "s.xs[0].[0]", "s.xs[0].[1]"] := by
    rw [Layout.collate_eq]
    exact ⟨_, rfl, rfl⟩
  obtain ⟨slots, hslots, hnames⟩ := hslots
  have hlabels : layout.Labelled := .of_entries (by decide) (by decide)
  exact ⟨slots, hslots, hlabels, hnames, collate_distinct hslots hlabels⟩

end SlotLayout
