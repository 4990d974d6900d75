import SlotLayout.Json.Record
import SlotLayout.Proofs.Results
import SlotLayout.Proofs.Written

/-!
# Records

A record is read from an object that gives each of its fields once, except that fields that may be
missing can be left out (`Fields.Given`). What is read last has no say in what was read before, as
each field is looked up by its name and no two have the same. So the order of the members does not
matter: two members can change places (`Fields.feed_comm`), hence all of them can be put in any order
(`Fields.feedAll_perm`). Members that the record does not know are left alone, whatever their values
(`Fields.feedAll_further`). Together, this is `record_of_perm`.

The decoders of single values and lists give back what was written: `optional_tree`, `list_tree`.
-/

namespace SlotLayout.Json

namespace Fields

/-- The names of the fields. -/
def names : {ρ : Type} → Fields ρ → List String
  | _, .nil => []
  | _, .cons field _ rest => field.name :: rest.names

/-- The members of an object give the fields, in order, these values. -/
inductive Given : {ρ : Type} → Fields ρ → List (Key × Tree) → ρ → Prop
  | nil : Given .nil [] ()
  | present {α ρ : Type} {field : Field α} {rest : Fields ρ} {t : Tree} {a : α}
      {ms : List (Key × Tree)} {r : ρ} (hd : field.decode t = .ok a) (hr : Given rest ms r) :
      Given (.add field rest) ((.ok field.name, t) :: ms) (a, r)
  | absent {α ρ : Type} {field : Field α} {rest : Fields ρ} {a : α} {ms : List (Key × Tree)} {r : ρ}
      (ha : field.absent = some a) (hr : Given rest ms r) : Given (.add field rest) ms (a, r)

variable {ρ : Type} {fields : Fields ρ} {ms : List (Key × Tree)} {r : ρ}

theorem Given.key_mem (h : fields.Given ms r) : ∀ m ∈ ms, ∃ key ∈ fields.names, m.1 = .ok key := by
  induction h with
  | nil => exact nofun
  | @present α ρ field rest t a ms r _ _ ih =>
    refine List.forall_mem_cons.2 ⟨⟨field.name, List.mem_cons_self, rfl⟩, fun m hm => ?_⟩
    obtain ⟨key, hkey, hm⟩ := ih m hm
    exact ⟨key, List.mem_cons_of_mem _ hkey, hm⟩
  | absent _ _ ih =>
    intro m hm
    obtain ⟨key, hkey, hm⟩ := ih m hm
    exact ⟨key, List.mem_cons_of_mem _ hkey, hm⟩

theorem Given.key_ne (h : fields.Given ms r) {name : String} (hnew : name ∉ fields.names) :
    ∀ m ∈ ms, ∃ key, m.1 = .ok key ∧ name ≠ key := by
  intro m hm
  obtain ⟨key, hkey, hm⟩ := h.key_mem m hm
  exact ⟨key, hm, fun heq => hnew (heq ▸ hkey)⟩

/-- Members with other names leave a field as it is. -/
theorem feedAll_cons {α : Type} {field : Field α} {value : Option α} {filled : Fields ρ}
    (hms : ∀ m ∈ ms, ∃ key, m.1 = .ok key ∧ field.name ≠ key)
    (h : fields.feedAll ms = .ok filled) :
    (Fields.cons field value fields).feedAll ms = .ok (.cons field value filled) := by
  induction ms generalizing fields with
  | nil =>
    cases h
    rfl
  | cons m ms ih =>
    obtain ⟨_, t⟩ := m
    obtain ⟨⟨key, rfl, hne⟩, hrest⟩ := List.forall_mem_cons.1 hms
    rw [feedAll] at h ⊢
    rw [feed.eq_def]
    dsimp only
    rw [if_neg hne]
    cases hf : fields.feed key t with
    | error e =>
      rw [hf] at h
      cases h
    | ok fed =>
      rw [hf] at h
      exact ih hrest h

/-- By induction on the fields: the members behind the first one are for the fields behind the first
one, whose names are others. -/
theorem Given.feedAll (h : fields.Given ms r) (hnames : fields.names.Nodup) :
    ∃ filled, fields.feedAll ms = .ok filled ∧ filled.values = .ok r := by
  induction h with
  | nil => exact ⟨.nil, rfl, rfl⟩
  | @present α ρ field rest t a ms r hd hr ih =>
    obtain ⟨hnew, hnames⟩ := List.nodup_cons.1 hnames
    obtain ⟨filled, hfed, hvalues⟩ := ih hnames
    refine ⟨.cons field (some a) filled, ?_, ?_⟩
    · rw [add, Fields.feedAll, feed, if_pos rfl, hd]
      exact feedAll_cons (hr.key_ne hnew) hfed
    · rw [values, Option.some_or]
      exact congrArg (·.map (a, ·)) hvalues
  | @absent α ρ field rest a ms r ha hr ih =>
    obtain ⟨hnew, hnames⟩ := List.nodup_cons.1 hnames
    obtain ⟨filled, hfed, hvalues⟩ := ih hnames
    refine ⟨.cons field none filled, feedAll_cons (hr.key_ne hnew) hfed, ?_⟩
    rw [values, Option.none_or, ha]
    exact congrArg (·.map (a, ·)) hvalues

/-! ### Members in any order -/

theorem feed_nil_eq_ok_iff {key : String} {t : Tree} {fed : Fields Unit} :
    Fields.nil.feed key t = .ok fed ↔ t.skipError? = none ∧ fed = .nil := by
  rw [feed]
  cases t.skipError? <;> simp [eq_comm]

/-- What feeding a member does: it is for the first field, which has no value yet, or for the others. -/
theorem feed_cons_eq_ok_iff {α : Type} {field : Field α} {value : Option α} {rest : Fields ρ}
    {key : String} {t : Tree} {fed : Fields (α × ρ)} :
    (Fields.cons field value rest).feed key t = .ok fed ↔
      (field.name = key ∧ value = none ∧
        ∃ a, field.decode t = .ok a ∧ fed = .cons field (some a) rest) ∨
      (field.name ≠ key ∧ ∃ rest', rest.feed key t = .ok rest' ∧ fed = .cons field value rest') := by
  rw [feed.eq_def]
  dsimp only
  by_cases hkey : field.name = key
  · rw [if_pos hkey]
    cases value with
    | some a => simp [hkey]
    | none => cases field.decode t <;> simp [hkey, eq_comm]
  · rw [if_neg hkey]
    cases rest.feed key t <;> simp [hkey, eq_comm]

/-- Two members that are taken one after the other can be taken the other way round. -/
theorem feed_comm {fed fed' : Fields ρ} {key key' : String} {t t' : Tree}
    (h : fields.feed key t = .ok fed) (h' : fed.feed key' t' = .ok fed') :
    ∃ fed'', fields.feed key' t' = .ok fed'' ∧ fed''.feed key t = .ok fed' := by
  induction fields with
  | nil =>
    obtain ⟨ht, rfl⟩ := feed_nil_eq_ok_iff.1 h
    obtain ⟨ht', rfl⟩ := feed_nil_eq_ok_iff.1 h'
    exact ⟨.nil, feed_nil_eq_ok_iff.2 ⟨ht', rfl⟩, feed_nil_eq_ok_iff.2 ⟨ht, rfl⟩⟩
  | cons field value rest ih =>
    rcases feed_cons_eq_ok_iff.1 h with ⟨hk, hnone, a, ha, rfl⟩ | ⟨hk, rest₁, h₁, rfl⟩
    · rcases feed_cons_eq_ok_iff.1 h' with ⟨-, hsome, -⟩ | ⟨hk', rest₂, h₂, rfl⟩
      · cases hsome
      · exact ⟨_, feed_cons_eq_ok_iff.2 (.inr ⟨hk', rest₂, h₂, rfl⟩),
          feed_cons_eq_ok_iff.2 (.inl ⟨hk, hnone, a, ha, rfl⟩)⟩
    · rcases feed_cons_eq_ok_iff.1 h' with ⟨hk', hnone, a, ha, rfl⟩ | ⟨hk', rest₂, h₂, rfl⟩
      · exact ⟨_, feed_cons_eq_ok_iff.2 (.inl ⟨hk', hnone, a, ha, rfl⟩),
          feed_cons_eq_ok_iff.2 (.inr ⟨hk, rest₁, h₁, rfl⟩)⟩
      · obtain ⟨rest₃, h₃, h₄⟩ := ih h₁ h₂
        exact ⟨_, feed_cons_eq_ok_iff.2 (.inr ⟨hk', rest₃, h₃, rfl⟩),
          feed_cons_eq_ok_iff.2 (.inr ⟨hk, rest₂, h₄, rfl⟩)⟩

theorem feedAll_cons_eq_ok_iff {m : Key × Tree} {filled : Fields ρ} :
    fields.feedAll (m :: ms) = .ok filled ↔
      ∃ key fed, m.1 = .ok key ∧ fields.feed key m.2 = .ok fed ∧ fed.feedAll ms = .ok filled := by
  obtain ⟨k, t⟩ := m
  cases k with
  | error e => simp [feedAll]
  | ok key =>
    rw [feedAll]
    cases hfed : fields.feed key t <;> simp [hfed]

/-- The members of an object may come in any order. -/
theorem feedAll_perm {ms' : List (Key × Tree)} {filled : Fields ρ} (hp : ms.Perm ms')
    (h : fields.feedAll ms = .ok filled) : fields.feedAll ms' = .ok filled := by
  induction hp generalizing fields with
  | nil => exact h
  | cons m _ ih =>
    obtain ⟨key, fed, hkey, hfed, h⟩ := feedAll_cons_eq_ok_iff.1 h
    exact feedAll_cons_eq_ok_iff.2 ⟨key, fed, hkey, hfed, ih h⟩
  | swap m m' ms =>
    obtain ⟨key', fed₁, hkey', hfed₁, h⟩ := feedAll_cons_eq_ok_iff.1 h
    obtain ⟨key, fed₂, hkey, hfed₂, h⟩ := feedAll_cons_eq_ok_iff.1 h
    obtain ⟨fed₃, hfed₃, hfed₄⟩ := feed_comm hfed₁ hfed₂
    exact feedAll_cons_eq_ok_iff.2 ⟨key, fed₃, hkey, hfed₃,
      feedAll_cons_eq_ok_iff.2 ⟨key', fed₂, hkey', hfed₄, h⟩⟩
  | trans _ _ ih ih' => exact ih' (ih h)

/-! ### Further members -/

/-- A member that a record does not know and can get past. -/
def Further (names : List String) (m : Key × Tree) : Prop :=
  ∃ key, m.1 = .ok key ∧ key ∉ names ∧ m.2.skipError? = none

theorem feed_further {key : String} {t : Tree} (hkey : key ∉ fields.names)
    (ht : t.skipError? = none) : fields.feed key t = .ok fields := by
  induction fields with
  | nil => exact feed_nil_eq_ok_iff.2 ⟨ht, rfl⟩
  | cons field value rest ih =>
    obtain ⟨hne, hrest⟩ := not_or.1 (mt List.mem_cons.2 hkey)
    exact feed_cons_eq_ok_iff.2 (.inr ⟨Ne.symm hne, rest, ih hrest, rfl⟩)

theorem feedAll_further {further : List (Key × Tree)}
    (h : ∀ m ∈ further, Further fields.names m) :
    fields.feedAll (further ++ ms) = fields.feedAll ms := by
  induction further with
  | nil => rfl
  | cons m further ih =>
    obtain ⟨k, t⟩ := m
    obtain ⟨⟨key, hkey, hnew, ht⟩, hfurther⟩ := List.forall_mem_cons.1 h
    cases hkey
    rw [List.cons_append, feedAll, feed_further hnew ht]
    exact ih hfurther

end Fields

/-- A record is read from an object that gives its fields, in any order and with any members that
the record does not know. -/
theorem record_of_perm {ρ : Type} {fields : Fields ρ} {known further ms : List (Key × Tree)} {r : ρ}
    (name : String) (hnames : fields.names.Nodup) (h : fields.Given known r)
    (hfurther : ∀ m ∈ further, Fields.Further fields.names m) (hp : ms.Perm (further ++ known)) :
    Decoder.record name fields (.object ms .closed) = .ok r := by
  obtain ⟨filled, hfed, hvalues⟩ := h.feedAll hnames
  have hall : fields.feedAll ms = .ok filled := by
    refine Fields.feedAll_perm hp.symm ?_
    rw [Fields.feedAll_further hfurther, hfed]
  rw [Decoder.record, hall]
  exact hvalues

/-- A record is read from an object that gives its fields. -/
theorem record_of_given {ρ : Type} {fields : Fields ρ} {ms : List (Key × Tree)} {r : ρ}
    (name : String) (hnames : fields.names.Nodup) (h : fields.Given ms r) :
    Decoder.record name fields (.object ms .closed) = .ok r := by
  have hnone : ∀ m ∈ ([] : List (Key × Tree)), Fields.Further fields.names m := nofun
  exact record_of_perm name hnames h hnone (List.Perm.refl ms)

/-! ## Decoders of written values -/

/-- A written value is not null. -/
theorem optional_tree {α : Type} {decode : Decoder α} {v : Value} {a : α}
    (h : decode v.tree = .ok a) : decode.optional v.tree = .ok (some a) := by
  have hsome : decode.optional v.tree = some <$> decode v.tree := by cases v <;> rfl
  rw [hsome, h]
  rfl

theorem list_tree {α : Type} {decode : Decoder α} {write : α → Value} {xs : List α}
    (h : ∀ x ∈ xs, decode (write x).tree = .ok x) :
    decode.list (Value.list (xs.map write)).tree = .ok xs := by
  have hitems : (itemTrees (xs.map write)).mapM decode = .ok xs := by
    rw [itemTrees_eq_map, List.map_map]
    exact mapM_map_eq_ok h
  rw [Value.tree, Decoder.list, hitems]
  rfl

end SlotLayout.Json
