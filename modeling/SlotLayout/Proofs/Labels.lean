import Mathlib.Logic.Relation
import SlotLayout.Label
import SlotLayout.Proofs.Numerals

/-!
# Labels up to lengths

One label comes from another by a change of one length (`Label.Resized`) if both have brackets at
one place with digits between them, or nothing, and are the same otherwise. Labels that come from
each other by such changes are those with one normal form, and the normal form of a label is among
them: it is the one that has no lengths (`Label.normalize_canonical`).

Normalizing does not see which digits are in a length (`normalizeFrom_resize`), and all that it does
is to leave out digits of lengths, one after another (`reaches_normalizeFrom`).
-/

namespace SlotLayout.Label

/-- The label with a length between brackets, and what stands before and behind them. -/
def withLength (front length back : List Char) : List Char := front ++ '[' :: (length ++ ']' :: back)

/-- Digits, or none. -/
def IsLength (cs : List Char) : Prop := ∀ c ∈ cs, c.isDigit = true

/-- One length in a label is replaced by another. Either may be missing, but its brackets are not. -/
def Resized (x y : String) : Prop :=
  ∃ front length length' back, IsLength length ∧ IsLength length' ∧
    x.toList = withLength front length back ∧ y.toList = withLength front length' back

theorem Resized.symm {x y : String} (h : Resized x y) : Resized y x :=
  let ⟨front, length, length', back, hl, hl', hx, hy⟩ := h
  ⟨front, length', length, back, hl', hl, hy, hx⟩

theorem reaches_symm {x y : String} (h : Relation.ReflTransGen Resized x y) :
    Relation.ReflTransGen Resized y x := by
  induction h with
  | refl => exact .refl
  | tail _ hstep ih => exact .head hstep.symm ih

theorem resized_ofList {front length length' back : List Char} (h : IsLength length)
    (h' : IsLength length') : Resized (String.ofList (withLength front length back))
      (String.ofList (withLength front length' back)) :=
  ⟨front, length, length', back, h, h', String.toList_ofList, String.toList_ofList⟩

/-! ## Closing brackets -/

theorem closesLength_iff {cs : List Char} :
    closesLength cs = true ↔ ∃ length back, IsLength length ∧ cs = length ++ ']' :: back := by
  constructor
  · intro h
    induction cs with
    | nil => cases h
    | cons c cs ih =>
      simp only [closesLength, Bool.or_eq_true, decide_eq_true_eq, Bool.and_eq_true] at h
      rcases h with rfl | ⟨hc, h⟩
      · exact ⟨[], cs, nofun, rfl⟩
      · obtain ⟨length, back, hl, rfl⟩ := ih h
        rw [Numeral.isDigit_eq] at hc
        exact ⟨c :: length, back, List.forall_mem_cons.2 ⟨hc, hl⟩, rfl⟩
  · rintro ⟨length, back, hl, rfl⟩
    induction length with
    | nil => rfl
    | cons c length ih =>
      obtain ⟨hc, hl⟩ := List.forall_mem_cons.1 hl
      rw [← Numeral.isDigit_eq] at hc
      simp only [List.cons_append, closesLength, hc, ih hl, Bool.and_self, Bool.or_true]

/-- What follows an opening bracket does not close a length that begins before it. -/
theorem closesLength_append_open (front rest : List Char) :
    closesLength (front ++ '[' :: rest) = closesLength (front ++ ['[']) := by
  induction front with
  | nil => rfl
  | cons c front ih => simp only [List.cons_append, closesLength, ih]

/-! ## Normalizing -/

theorem normalizeFrom_digit {c : Char} (h : c.isDigit = true) (cs : List Char) :
    normalizeFrom true (c :: cs) = normalizeFrom true cs := by
  rw [normalizeFrom, Numeral.isDigit_eq, h]
  rfl

theorem normalizeFrom_other {c : Char} {inLength : Bool} (h : inLength = true → c.isDigit = false)
    (cs : List Char) :
    normalizeFrom inLength (c :: cs) = c :: normalizeFrom (c = '[' && closesLength cs) cs := by
  rw [normalizeFrom, Numeral.isDigit_eq, if_neg]
  simpa using h

theorem normalizeFrom_length {length : List Char} (h : IsLength length) (back : List Char) :
    normalizeFrom true (length ++ ']' :: back) = normalizeFrom true (']' :: back) := by
  induction length with
  | nil => rfl
  | cons c length ih =>
    obtain ⟨hc, hl⟩ := List.forall_mem_cons.1 h
    rw [List.cons_append, normalizeFrom_digit hc, ih hl]

/-- Whatever length is between two brackets, the label has one normal form. -/
theorem normalizeFrom_resize {length : List Char} (h : IsLength length) (inLength : Bool)
    (front back : List Char) : normalizeFrom inLength (withLength front length back) =
      normalizeFrom inLength (withLength front [] back) := by
  unfold withLength
  induction front generalizing inLength with
  | nil =>
    have hclose : closesLength (length ++ ']' :: back) = true := closesLength_iff.2 ⟨_, _, h, rfl⟩
    rw [List.nil_append, List.nil_append, normalizeFrom_other (fun _ => rfl),
      normalizeFrom_other (fun _ => rfl), hclose, closesLength_iff.2 ⟨[], back, nofun, rfl⟩]
    exact congrArg ('[' :: ·) (normalizeFrom_length h back)
  | cons c front ih =>
    simp only [List.cons_append, normalizeFrom, closesLength_append_open front, ih]

theorem normalize_eq_of_resized {x y : String} (h : Resized x y) : normalize x = normalize y := by
  obtain ⟨front, length, length', back, hl, hl', hx, hy⟩ := h
  rw [normalize, normalize, hx, hy, normalizeFrom_resize hl, normalizeFrom_resize hl']

theorem normalize_eq_of_reaches {x y : String} (h : Relation.ReflTransGen Resized x y) :
    normalize x = normalize y := by
  induction h with
  | refl => rfl
  | tail _ hstep ih => exact ih.trans (normalize_eq_of_resized hstep)

/-- By induction on what is still to be normalized, outside of a length and inside of one. Inside,
each digit is left out by a change of its own. -/
theorem reaches_normalizeFrom (cs : List Char) :
    (∀ front, Relation.ReflTransGen Resized (String.ofList (front ++ cs))
      (String.ofList (front ++ normalizeFrom false cs))) ∧
    (closesLength cs = true → ∀ front, Relation.ReflTransGen Resized
      (String.ofList (front ++ '[' :: cs))
      (String.ofList (front ++ '[' :: normalizeFrom true cs))) := by
  induction cs with
  | nil => exact ⟨fun _ => .refl, nofun⟩
  | cons c cs ih =>
    obtain ⟨houtside, hinside⟩ := ih
    constructor
    · intro front
      rw [normalizeFrom_other Bool.noConfusion]
      by_cases hopen : c = '[' ∧ closesLength cs = true
      · obtain ⟨rfl, hclose⟩ := hopen
        rw [hclose]
        exact hinside hclose front
      · have hfalse : (c = '[' && closesLength cs) = false := by
          simpa using hopen
        have hrest := houtside (front ++ [c])
        rw [hfalse]
        simpa only [List.append_assoc, List.singleton_append] using hrest
    · intro hclose front
      obtain ⟨length, back, hlength, hcs⟩ := closesLength_iff.1 hclose
      cases length with
      | nil =>
        obtain ⟨rfl, rfl⟩ := List.cons.inj hcs
        have hrest := houtside (front ++ ['[', ']'])
        have hbracket : normalizeFrom true (']' :: cs) = ']' :: normalizeFrom false cs :=
          normalizeFrom_other (fun _ => rfl) cs
        rw [hbracket]
        simpa only [List.append_assoc, List.cons_append, List.nil_append] using hrest
      | cons d length =>
        obtain ⟨rfl, rfl⟩ := List.cons.inj hcs
        obtain ⟨hc, hlength'⟩ := List.forall_mem_cons.1 hlength
        have hstep : Resized (String.ofList (withLength front (c :: length) back))
            (String.ofList (withLength front length back)) := resized_ofList hlength hlength'
        rw [normalizeFrom_digit hc]
        exact .head hstep (hinside (closesLength_iff.2 ⟨_, _, hlength', rfl⟩) front)

theorem reaches_normalize (x : String) : Relation.ReflTransGen Resized x (normalize x) := by
  have hreaches := (reaches_normalizeFrom x.toList).1 []
  rwa [List.nil_append, String.ofList_toList] at hreaches

theorem length_normalizeFrom_le (inLength : Bool) (cs : List Char) :
    (normalizeFrom inLength cs).length ≤ cs.length := by
  induction cs generalizing inLength with
  | nil => exact Nat.le_refl _
  | cons c cs ih =>
    rw [normalizeFrom]
    split
    · exact Nat.le_succ_of_le (ih true)
    · exact Nat.succ_le_succ (ih _)

/-- Two labels have one normal form if and only if one comes from the other by changing lengths. The
normal form comes from the label itself in this way, has brackets with nothing between them in place
of lengths, and is its own normal form. -/
theorem normalize_canonical (x y : String) :
    (normalize x = normalize y ↔ Relation.ReflTransGen Resized x y) ∧
      Relation.ReflTransGen Resized x (normalize x) ∧
      (∀ front length back, IsLength length →
        (normalize x).toList = withLength front length back → length = []) ∧
      normalize (normalize x) = normalize x := by
  have hidem : normalize (normalize x) = normalize x :=
    (normalize_eq_of_reaches (reaches_normalize x)).symm
  refine ⟨⟨fun h => ?_, normalize_eq_of_reaches⟩, reaches_normalize x, ?_, hidem⟩
  · exact (reaches_normalize x).trans (h ▸ reaches_symm (reaches_normalize y))
  · intro front length back hlength hx
    -- Without the length the label would be shorter than its normal form, which is itself.
    have hform : normalizeFrom false (withLength front [] back) = withLength front length back := by
      rw [← normalizeFrom_resize hlength, ← hx, ← String.toList_ofList (l := normalizeFrom _ _)]
      exact congrArg String.toList hidem
    have hle := length_normalizeFrom_le false (withLength front [] back)
    rw [hform] at hle
    simp only [withLength, List.length_append, List.length_cons, List.length_nil] at hle
    exact List.length_eq_zero_iff.1 (by omega)

/-- Only the brackets around `2` enclose a length. -/
example : normalize "a[1[2][]3](bool[][0x])" = "a[1[][]3](bool[][0x])" := by decide

end SlotLayout.Label
