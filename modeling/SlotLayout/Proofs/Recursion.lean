import Mathlib.Data.List.Nodup
import SlotLayout.Proofs.Packing

/-!
# The work list and the recursion

Packing by recursion is the relation `Packs`: a value that falls apart is packed by packing its
parts in order, on the same slots, and closing the last slot. Packing from a stack of jobs is a loop
of `round`s, and `Loops` says after how many of them it is over. Neither knows a bound on the depth.

Both take the same steps. What these do to the slots is spelled out: when a slot is opened for a
value, where the value is put and which bytes it claims, what its parts are, and when it cannot be
taken in (`Packing.arrive_eq_iff`); and that closing claims all of a slot (`Packing.close_eq`).

The loop is over with a result if and only if the recursion has that result (`loops_iff_packs`). If
no type in use contains itself, the recursion has one, as the types on a path into the expansion are
all different and there are no more of them than the table has (`packs_placeNested`).
-/

namespace SlotLayout

/-! ## Steps by their effect -/

namespace Packing

variable {types : TypeTable} {part : Part} {p : Packing}

/-- What making room for a value of `size` bytes comes to. A slot is opened if there is none, or if
bytes of the newest are claimed and there are fewer left than the value has; it follows the newest
one, which must not be the last in storage. -/
inductive Opens (p : Packing) (size : Nat) : Except Collation.Error Packing → Prop
  | first (hp : p.slots = []) : Opens p size (.ok { p with slots := [⟨p.first, 0, 0, []⟩] })
  | next {s : Slot} {older : List Slot} {index : Word} (hp : p.slots = s :: older)
      (h0 : s.reserved ≠ 0) (hfull : slotSize - s.reserved < size)
      (hi : s.index.val + 1 = index.val) :
      Opens p size (.ok { p with slots := ⟨index, 0, 0, []⟩ :: s :: older })
  | past {s : Slot} {older : List Slot} (hp : p.slots = s :: older) (h0 : s.reserved ≠ 0)
      (hfull : slotSize - s.reserved < size) (hi : wordCount ≤ s.index.val + 1) :
      Opens p size (.error .slotIndexOverflow)
  | newest {s : Slot} {older : List Slot} (hp : p.slots = s :: older)
      (hroom : s.reserved = 0 ∨ size ≤ slotSize - s.reserved) : Opens p size (.ok p)

/-- What taking a value in comes to. Its type has to be known and to have a shape, and there has to
be room. A value that does not fall apart is then put at the first byte of the newest slot that is
not claimed, and claims its bytes; of any other, the parts are handed back. -/
inductive Arrives (types : TypeTable) (part : Part) (p : Packing) :
    Except Collation.Error (Packing × Option (List Part)) → Prop
  | unknown (hi : types.get? part.typeId = none) :
      Arrives types part p (.error (.unknownType part.typeId))
  | misshapen {info : TypeInfo} {e : Collation.Error} (hi : types.get? part.typeId = some info)
      (hs : info.shape part.typeId = .error e) : Arrives types part p (.error e)
  | past {info : TypeInfo} {shape : Shape} {e : Collation.Error}
      (hi : types.get? part.typeId = some info) (hs : info.shape part.typeId = .ok shape)
      (ho : p.Opens info.size (.error e)) : Arrives types part p (.error e)
  | placed {info : TypeInfo} {shape : Shape} {q : Packing} {s : Slot} {older : List Slot}
      (hi : types.get? part.typeId = some info) (hs : info.shape part.typeId = .ok shape)
      (hwhole : shape = .value ∨ shape = .indirect) (ho : p.Opens info.size (.ok q))
      (hq : q.slots = s :: older) :
      Arrives types part p (.ok ({ q with slots :=
        { s with
          reserved := s.reserved + info.size
          filled := s.filled + info.filled
          entries := s.entries ++
            [⟨part.name, part.typeId, info.label, info.encoding, s.reserved, info.size⟩] } ::
        older }, none))
  | struct {info : TypeInfo} {members : List Declaration} {q : Packing}
      (hi : types.get? part.typeId = some info)
      (hs : info.shape part.typeId = .ok (.struct members)) (ho : p.Opens info.size (.ok q)) :
      Arrives types part p
        (.ok (q, some (members.map fun d => ⟨part.name ++ "." ++ d.label, d.typeId⟩)))
  | array {info : TypeInfo} {base : String} {length : Nat} {q : Packing}
      (hi : types.get? part.typeId = some info)
      (hs : info.shape part.typeId = .ok (.fixedArray base length))
      (ho : p.Opens info.size (.ok q)) :
      Arrives types part p (.ok (q, some ((List.range length).map fun i =>
        ⟨part.name ++ "[" ++ toString i ++ "]", base⟩)))

theorem exists_opens (p : Packing) (size : Nat) : ∃ r, p.Opens size r := by
  cases hp : p.slots with
  | nil => exact ⟨_, .first hp⟩
  | cons s older =>
    by_cases hroom : s.reserved = 0 ∨ size ≤ slotSize - s.reserved
    · exact ⟨_, .newest hp hroom⟩
    · have hfull : s.reserved ≠ 0 ∧ slotSize - s.reserved < size := by omega
      by_cases hlast : wordCount ≤ s.index.val + 1
      · exact ⟨_, .past hp hfull.1 hfull.2 hlast⟩
      · obtain ⟨index, hindex⟩ : ∃ index : Word, s.index.val + 1 = index.val :=
          ⟨⟨_, Nat.lt_of_not_le hlast⟩, rfl⟩
        exact ⟨_, .next hp hfull.1 hfull.2 hindex⟩

theorem Opens.openFor_eq {size : Nat} {r : Except Collation.Error Packing} (h : p.Opens size r) :
    p.openFor size = r := by
  cases h with
  | first hp => exact openFor_first hp
  | next hp h0 hfull hi => exact openFor_next hp h0 hfull (Word.ofNat?_eq_some_iff.2 hi)
  | past hp h0 hfull hi => exact openFor_last hp h0 hfull (Word.ofNat?_eq_none_iff.2 hi)
  | newest hp hroom => exact openFor_newest hp hroom

theorem openFor_eq_iff {size : Nat} {r : Except Collation.Error Packing} :
    p.openFor size = r ↔ p.Opens size r := by
  refine ⟨?_, Opens.openFor_eq⟩
  rintro rfl
  obtain ⟨r, hr⟩ := p.exists_opens size
  exact hr.openFor_eq ▸ hr

theorem exists_arrives (types : TypeTable) (part : Part) (p : Packing) :
    ∃ r, Arrives types part p r := by
  cases hi : types.get? part.typeId with
  | none => exact ⟨_, .unknown hi⟩
  | some info =>
    cases hs : info.shape part.typeId with
    | error e => exact ⟨_, .misshapen hi hs⟩
    | ok shape =>
      cases hq : p.openFor info.size with
      | error e => exact ⟨_, .past hi hs (openFor_eq_iff.1 hq)⟩
      | ok q =>
        have ho := openFor_eq_iff.1 hq
        obtain ⟨s, older, hslots, -⟩ := room_of_openFor hq
        cases shape with
        | value => exact ⟨_, .placed hi hs (.inl rfl) ho hslots⟩
        | struct members => exact ⟨_, .struct hi hs ho⟩
        | fixedArray base length => exact ⟨_, .array hi hs ho⟩
        | indirect => exact ⟨_, .placed hi hs (.inr rfl) ho hslots⟩

theorem Arrives.arrive_eq {r : Except Collation.Error (Packing × Option (List Part))}
    (h : Arrives types part p r) : p.arrive types part = r := by
  cases h with
  | unknown hi =>
    rw [arrive, TypeTable.resolve, hi]
    rfl
  | misshapen hi hs => simp [arrive, TypeTable.resolve, hi, hs, bind, Except.bind]
  | past hi hs ho => simp [arrive, TypeTable.resolve, hi, hs, ho.openFor_eq, bind, Except.bind]
  | placed hi hs hwhole ho hq =>
    refine arrive_eq_ok_iff.2 ⟨_, _, _, hi, hs, ho.openFor_eq, ?_, ?_⟩
    · rcases hwhole with rfl | rfl <;> rfl
    · rw [place, modifyNewest, hq]
      rfl
  | struct hi hs ho => exact arrive_eq_ok_iff.2 ⟨_, _, _, hi, hs, ho.openFor_eq, rfl, rfl⟩
  | array hi hs ho => exact arrive_eq_ok_iff.2 ⟨_, _, _, hi, hs, ho.openFor_eq, rfl, rfl⟩

/-- Taking a value in comes to what its effect is said to be, and to nothing else. -/
theorem arrive_eq_iff {r : Except Collation.Error (Packing × Option (List Part))} :
    p.arrive types part = r ↔ Arrives types part p r := by
  refine ⟨?_, Arrives.arrive_eq⟩
  rintro rfl
  obtain ⟨r, hr⟩ := exists_arrives types part p
  exact hr.arrive_eq ▸ hr

/-- Closing claims all bytes of the newest slot, if there is one. -/
theorem close_eq (p : Packing) :
    p.close = { p with slots := p.slots.modifyHead ({ · with reserved := slotSize }) } := by
  unfold close modifyNewest
  cases p with
  | mk first slots => cases slots <;> rfl

end Packing

namespace Collation

/-! ## Recursion and loop -/

/-- Packing parts one after another, by recursion on what they fall into. What a step does is what
`Packing.Arrives` and `Packing.close_eq` say. -/
inductive Packs (types : TypeTable) :
    List Part → Packing → Except (Report Error) Packing → Prop
  | done {p : Packing} : Packs types [] p (.ok p)
  /-- The next value cannot be taken in. -/
  | stuck {part : Part} {parts : List Part} {p : Packing} {e : Error}
      (ha : p.arrive types part = .error e) :
      Packs types (part :: parts) p (.error (.one (.declaration part.name) e))
  /-- The next value is placed as a whole. -/
  | whole {part : Part} {parts : List Part} {p q : Packing} {r : Except (Report Error) Packing}
      (ha : p.arrive types part = .ok (q, none)) (hr : Packs types parts q r) :
      Packs types (part :: parts) p r
  /-- The next value falls apart, and its last slot is closed after its own parts. -/
  | apart {part : Part} {parts inner : List Part} {p q q' : Packing}
      {r : Except (Report Error) Packing} (ha : p.arrive types part = .ok (q, some inner))
      (hi : Packs types inner q (.ok q')) (hr : Packs types parts q'.close r) :
      Packs types (part :: parts) p r
  /-- The next value falls apart, and one of its own parts cannot be packed. -/
  | inside {part : Part} {parts inner : List Part} {p q : Packing} {e : Report Error}
      (ha : p.arrive types part = .ok (q, some inner)) (hi : Packs types inner q (.error e)) :
      Packs types (part :: parts) p (.error e)

/-- What waits on the stack. -/
inductive Job where
  | place (part : Part)
  | close

/-- A round of the loop does the job on top of the stack, and puts the jobs in its place that this
brings about: for a value that falls apart, its parts and the closing of the last slot. -/
def round (types : TypeTable) (p : Packing) : Job → Except (Report Error) (List Job × Packing)
  | .place part =>
    match p.arrive types part with
    | .error e => .error (.one (.declaration part.name) e)
    | .ok (q, none) => .ok ([], q)
    | .ok (q, some inner) => .ok (inner.map .place ++ [.close], q)
  | .close => .ok ([], p.close)

/-- The loop on a stack of jobs, top first, is over after `n` rounds with the result. -/
inductive Loops (types : TypeTable) :
    Nat → List Job → Packing → Except (Report Error) Packing → Prop
  | finish {p : Packing} : Loops types 0 [] p (.ok p)
  | fail {job : Job} {jobs : List Job} {p : Packing} {e : Report Error}
      (h : round types p job = .error e) : Loops types 1 (job :: jobs) p (.error e)
  | next {n : Nat} {job : Job} {jobs new : List Job} {p q : Packing}
      {r : Except (Report Error) Packing} (h : round types p job = .ok (new, q))
      (hr : Loops types n (new ++ jobs) q r) : Loops types (n + 1) (job :: jobs) p r

variable {types : TypeTable}

/-- A loop whose first round fails is over with that error. -/
theorem Loops.of_error {n : Nat} {job : Job} {jobs : List Job} {p : Packing} {e : Report Error}
    {r : Except (Report Error) Packing} (h : Loops types n (job :: jobs) p r)
    (he : round types p job = .error e) : n = 1 ∧ r = .error e := by
  cases h with
  | fail h =>
    rw [he] at h
    cases h
    exact ⟨rfl, rfl⟩
  | next h _ =>
    rw [he] at h
    cases h

/-- A loop goes on with what its first round leaves. -/
theorem Loops.of_ok {n : Nat} {job : Job} {jobs new : List Job} {p q : Packing}
    {r : Except (Report Error) Packing} (h : Loops types n (job :: jobs) p r)
    (ho : round types p job = .ok (new, q)) :
    ∃ m, n = m + 1 ∧ Loops types m (new ++ jobs) q r := by
  cases h with
  | fail h =>
    rw [ho] at h
    cases h
  | next h hr =>
    rw [ho] at h
    cases h
    exact ⟨_, rfl, hr⟩

theorem Loops.unique {n n' : Nat} {jobs : List Job} {p : Packing}
    {r r' : Except (Report Error) Packing} (h : Loops types n jobs p r)
    (h' : Loops types n' jobs p r') : n = n' ∧ r = r' := by
  induction h generalizing n' with
  | finish =>
    cases h'
    exact ⟨rfl, rfl⟩
  | fail he =>
    obtain ⟨rfl, rfl⟩ := h'.of_error he
    exact ⟨rfl, rfl⟩
  | next ho _ ih =>
    obtain ⟨m, rfl, hr⟩ := h'.of_ok ho
    obtain ⟨rfl, rfl⟩ := ih hr
    exact ⟨rfl, rfl⟩

/-! ## The loop does what the recursion says -/

theorem round_whole {part : Part} {p q : Packing} (h : p.arrive types part = .ok (q, none)) :
    round types p (.place part) = .ok ([], q) := by
  rw [round, h]

theorem round_apart {part : Part} {inner : List Part} {p q : Packing}
    (h : p.arrive types part = .ok (q, some inner)) :
    round types p (.place part) = .ok (inner.map .place ++ [.close], q) := by
  rw [round, h]

theorem round_stuck {part : Part} {p : Packing} {e : Error} (h : p.arrive types part = .error e) :
    round types p (.place part) = .error (.one (.declaration part.name) e) := by
  rw [round, h]

/-- Parts that can be packed are packed first, whatever waits under them on the stack. -/
theorem Packs.loops_ok {parts : List Part} {p q : Packing} {r : Except (Report Error) Packing}
    (h : Packs types parts p r) (hq : r = .ok q) {m : Nat} {jobs : List Job}
    {r' : Except (Report Error) Packing} (hjobs : Loops types m jobs q r') :
    ∃ n, Loops types n (parts.map .place ++ jobs) p r' := by
  induction h generalizing q m jobs r' with
  | done =>
    cases hq
    exact ⟨m, hjobs⟩
  | stuck => cases hq
  | whole ha _ ih =>
    obtain ⟨n, hn⟩ := ih hq hjobs
    exact ⟨n + 1, .next (round_whole ha) hn⟩
  | apart ha _ _ ihi ihr =>
    obtain ⟨n, hn⟩ := ihr hq hjobs
    have hclose : Loops types (n + 1) (.close :: _) _ _ := .next rfl hn
    obtain ⟨n', hn'⟩ := ihi rfl hclose
    exact ⟨n' + 1, .next (round_apart ha) (by rw [List.append_assoc]; exact hn')⟩
  | inside => cases hq

/-- Where the recursion fails, the loop fails in the same way, whatever waits on the stack. -/
theorem Packs.loops_error {parts : List Part} {p : Packing} {e : Report Error}
    {r : Except (Report Error) Packing} (h : Packs types parts p r) (he : r = .error e)
    (jobs : List Job) : ∃ n, Loops types n (parts.map .place ++ jobs) p (.error e) := by
  induction h generalizing jobs with
  | done => cases he
  | stuck ha =>
    cases he
    exact ⟨1, .fail (round_stuck ha)⟩
  | whole ha _ ih =>
    obtain ⟨n, hn⟩ := ih he jobs
    exact ⟨n + 1, .next (round_whole ha) hn⟩
  | apart ha hi _ _ ihr =>
    obtain ⟨n, hn⟩ := ihr he jobs
    have hclose : Loops types (n + 1) (.close :: _) _ _ := .next rfl hn
    obtain ⟨n', hn'⟩ := hi.loops_ok rfl hclose
    exact ⟨n' + 1, .next (round_apart ha) (by rw [List.append_assoc]; exact hn')⟩
  | inside ha _ ih =>
    obtain ⟨n, hn⟩ := ih he _
    exact ⟨n + 1, .next (round_apart ha) (by rw [List.append_assoc]; exact hn)⟩

/-- A loop that ends has packed the parts on top of the stack as the recursion does. If this has not
failed, it was left with what waits under them. The induction is on the number of rounds, as the
stack grows where a value falls apart. -/
theorem Loops.packs {n : Nat} {parts : List Part} {jobs : List Job} {p : Packing}
    {r : Except (Report Error) Packing} (h : Loops types n (parts.map .place ++ jobs) p r) :
    (∃ e, r = .error e ∧ Packs types parts p (.error e)) ∨
      ∃ q m, m ≤ n ∧ Packs types parts p (.ok q) ∧ Loops types m jobs q r := by
  induction n using Nat.strongRecOn generalizing parts jobs p with
  | ind n ih =>
    cases parts with
    | nil => exact .inr ⟨p, n, Nat.le_refl n, .done, h⟩
    | cons part parts =>
      cases ha : p.arrive types part with
      | error e => exact .inl ⟨_, (h.of_error (round_stuck ha)).2, .stuck ha⟩
      | ok a =>
        obtain ⟨q, _ | inner⟩ := a
        · obtain ⟨n, rfl, hr⟩ := h.of_ok (round_whole ha)
          rcases ih n (Nat.lt_succ_self n) hr with ⟨e, rfl, hp⟩ | ⟨q', m, hm, hp, hr⟩
          · exact .inl ⟨e, rfl, .whole ha hp⟩
          · exact .inr ⟨q', m, Nat.le_succ_of_le hm, .whole ha hp, hr⟩
        · obtain ⟨n, rfl, hr⟩ := h.of_ok (round_apart ha)
          rw [List.append_assoc] at hr
          rcases ih n (Nat.lt_succ_self n) hr with ⟨e, rfl, hi⟩ | ⟨q', m, hm, hi, hr⟩
          · exact .inl ⟨e, rfl, .inside ha hi⟩
          -- The value's own parts are packed, and the next job is to close its last slot.
          · obtain ⟨m, rfl, hrest⟩ := hr.of_ok rfl
            rcases ih m (by omega) hrest with ⟨e, rfl, hp⟩ | ⟨q'', k, hk, hp, hr⟩
            · exact .inl ⟨e, rfl, .apart ha hi hp⟩
            · exact .inr ⟨q'', k, by omega, .apart ha hi hp, hr⟩

/-- The loop is over with a result if and only if packing by recursion has that result. -/
theorem loops_iff_packs {parts : List Part} {p : Packing} {r : Except (Report Error) Packing} :
    (∃ n, Loops types n (parts.map .place) p r) ↔ Packs types parts p r := by
  constructor
  · rintro ⟨n, h⟩
    rw [← List.append_nil (parts.map Job.place)] at h
    rcases h.packs with ⟨e, rfl, hp⟩ | ⟨q, m, -, hp, hr⟩
    · exact hp
    · cases hr
      exact hp
  · intro h
    rw [← List.append_nil (parts.map Job.place)]
    cases r with
    | error e => exact h.loops_error rfl []
    | ok q => exact h.loops_ok rfl .finish

theorem Packs.unique {parts : List Part} {p : Packing} {r r' : Except (Report Error) Packing}
    (h : Packs types parts p r) (h' : Packs types parts p r') : r = r' := by
  obtain ⟨n, hn⟩ := loops_iff_packs.2 h
  obtain ⟨n', hn'⟩ := loops_iff_packs.2 h'
  exact (hn.unique hn').2

/-! ## The recursion ends if no type contains itself -/

theorem Packs.cons_ok {part : Part} {parts : List Part} {p q : Packing}
    {r : Except (Report Error) Packing} (h : Packs types [part] p (.ok q))
    (hr : Packs types parts q r) : Packs types (part :: parts) p r := by
  cases h with
  | whole ha h =>
    cases h
    exact .whole ha hr
  | apart ha hi h =>
    cases h
    exact .apart ha hi hr

theorem Packs.cons_error {part : Part} {parts : List Part} {p : Packing} {e : Report Error}
    (h : Packs types [part] p (.error e)) : Packs types (part :: parts) p (.error e) := by
  cases h with
  | stuck ha => exact .stuck ha
  | whole _ h => cases h
  | apart _ _ h => cases h
  | inside ha hi => exact .inside ha hi

/-- Packing parts one by one with a function that packs each of them packs them all. -/
theorem packs_foldlM {α : Type} (part : α → Part) {f : Packing → α → Except (Report Error) Packing}
    {xs : List α} (hf : ∀ x ∈ xs, ∀ p, Packs types [part x] p (f p x)) (p : Packing) :
    Packs types (xs.map part) p (xs.foldlM f p) := by
  induction xs generalizing p with
  | nil => exact .done
  | cons x xs ih =>
    have hx := hf x List.mem_cons_self p
    rw [List.foldlM_cons, List.map_cons]
    cases h : f p x with
    | error e => exact (h ▸ hx).cons_error
    | ok q => exact (h ▸ hx).cons_ok (ih (fun y hy => hf y (List.mem_cons_of_mem _ hy)) q)

/-- The types `seen`, all different and in the table, have the type `id` among their parts at some
depth: those on the path from a declaration to a part of this type. -/
structure Path (layout : Layout) (seen : List String) (id : String) : Prop where
  nodup : seen.Nodup
  known : seen ⊆ layout.types.entries.map (·.1)
  above : ∀ t ∈ seen, Relation.TransGen layout.types.HasPart t id
  used : layout.Uses id

section Path

variable {layout : Layout} {seen : List String} {id : String} {info : TypeInfo}

theorem Path.start {d : Declaration} (hd : d ∈ layout.storage) : Path layout [] d.part.typeId where
  nodup := .nil
  known := List.nil_subset _
  above := nofun
  used := Layout.uses_typeId hd

/-- The type at the end of a path is not on it, or it would contain itself. -/
theorem Path.not_mem (h : Path layout seen id) (hfin : layout.Finite) : id ∉ seen :=
  fun hmem => hfin id h.used (h.above id hmem)

theorem Path.known_cons (h : Path layout seen id) (hi : layout.types.get? id = some info) :
    id :: seen ⊆ layout.types.entries.map (·.1) :=
  List.cons_subset.2 ⟨List.mem_map_of_mem (TypeTable.mem_of_get? hi), h.known⟩

theorem Path.length_lt (h : Path layout seen id) (hfin : layout.Finite)
    (hi : layout.types.get? id = some info) : seen.length < layout.types.size := by
  have hnodup : (id :: seen).Nodup := List.nodup_cons.2 ⟨h.not_mem hfin, h.nodup⟩
  have hle := hnodup.length_le_of_subset (h.known_cons hi)
  rwa [List.length_cons, List.length_map] at hle

theorem Path.part (h : Path layout seen id) (hfin : layout.Finite)
    (hi : layout.types.get? id = some info) {part : String}
    (hp : layout.types.HasPart id part) : Path layout (id :: seen) part where
  nodup := List.nodup_cons.2 ⟨h.not_mem hfin, h.nodup⟩
  known := h.known_cons hi
  above t ht := by
    rcases List.mem_cons.1 ht with rfl | ht
    · exact .single hp
    · exact (h.above t ht).tail hp
  used := h.used.part hp

/-- Induction on what parts fall into. With room for the types of the table that are not on the path
to a part, it comes to an end. -/
theorem Path.induct {P : Part → Prop} (hfin : layout.Finite)
    (hP : ∀ part, (∀ inner, layout.types.FallsInto part inner → P inner) → P part) {room : Nat}
    {part : Part} (h : Path layout seen part.typeId)
    (hroom : seen.length + room = layout.types.size) : P part := by
  induction room generalizing seen part with
  | zero =>
    refine hP part fun inner ⟨info, _, _, hi, _⟩ => ?_
    have := h.length_lt hfin hi
    omega
  | succ room ih =>
    refine hP part fun inner hf => ?_
    have hpart := hf.hasPart
    obtain ⟨info, -, -, hi, -⟩ := hf
    refine ih (h.part hfin hi hpart) ?_
    rw [List.length_cons]
    omega

/-- With room for the types of the table that are not on the path to a part, the bounded recursion
packs the part as the recursion without bound does. -/
theorem packs_placeNested (hfin : layout.Finite) {room : Nat} {part : Part}
    (h : Path layout seen part.typeId) (hroom : seen.length + room = layout.types.size)
    (p : Packing) : Packs layout.types [part] p (placeNested layout.types room part p) := by
  induction room generalizing seen part p with
  | zero =>
    unfold placeNested
    split
    · rename_i ha
      exact .stuck ha
    · rename_i ha
      exact .whole ha .done
    · rename_i ha
      obtain ⟨info, -, -, hi, -⟩ := Packing.arrive_eq_ok_iff.1 ha
      have := h.length_lt hfin hi
      omega
  | succ room ih =>
    unfold placeNested
    split
    · rename_i ha
      exact .stuck ha
    · rename_i ha
      exact .whole ha .done
    · rename_i q inner ha
      obtain ⟨info, -, -, hi, -⟩ := Packing.arrive_eq_ok_iff.1 ha
      have hinner : ∀ x ∈ inner, ∀ p, Packs layout.types [x] p
          (placeNested layout.types room x p) := by
        intro x hx p
        have hpart : layout.types.HasPart part.typeId x.typeId := by
          rw [TypeTable.HasPart, ← Packing.typeIds_of_arrive ha]
          exact List.mem_map_of_mem hx
        refine ih (h.part hfin hi hpart) ?_ p
        rw [List.length_cons]
        omega
      have hfold := packs_foldlM id hinner q
      rw [List.map_id] at hfold
      dsimp only
      cases hr : inner.foldlM (fun q x => placeNested layout.types room x q) q with
      | error e => exact .inside ha (hr ▸ hfold)
      | ok q' => exact .apart ha (hr ▸ hfold) .done

end Path

/-- If no type in use contains itself, the loop is over for every declaration, and its result is
that of packing the declaration by recursion. So collation gives the slots, or the error, that
packing all declarations by recursion gives. -/
theorem collate_iff_packs {layout : Layout} (hfin : layout.Finite) (first : Word) :
    (∀ d ∈ layout.storage, ∀ p, (∃ n, Loops layout.types n [.place d.part] p
        (declare layout.types p d)) ∧
      ∀ r, declare layout.types p d = r ↔ Packs layout.types [d.part] p r) ∧
    ∀ r, layout.collate first = r ↔ ∃ s, Packs layout.types (layout.storage.map (·.part))
      (.start first) s ∧ r = s.map (·.slots.reverse) := by
  have hplace : ∀ d ∈ layout.storage, ∀ p, Packs layout.types [d.part] p
      (placeNested layout.types layout.types.size d.part p) :=
    fun d hd p => packs_placeNested hfin (.start hd) (Nat.zero_add _) p
  refine ⟨fun d hd p => ?_, fun r => ?_⟩
  · rw [declare_eq]
    refine ⟨loops_iff_packs.2 (hplace d hd p), fun r => ⟨?_, (hplace d hd p).unique⟩⟩
    rintro rfl
    exact hplace d hd p
  · have hall := packs_foldlM Declaration.part hplace (.start first)
    rw [Layout.collate_eq]
    constructor
    · rintro rfl
      exact ⟨_, hall, rfl⟩
    · rintro ⟨s, hs, rfl⟩
      rw [hall.unique hs]

/-- An array of structs falls apart twice, and each struct has its slot closed. -/
theorem collate_iff_packs_nested :
    let layout : Layout := ⟨[.bare "pairs" "t_array(t_struct(Pair))2"], .ofList [
      ("t_bool", .value "bool" 1),
      ("t_struct(Pair)", .struct "struct Pair" 32 [.bare "x" "t_bool", .bare "y" "t_bool"]),
      ("t_array(t_struct(Pair))2", .fixedArray "struct Pair[2]" 64 "t_struct(Pair)")]⟩
    let part : Part := ⟨"pairs", "t_array(t_struct(Pair))2"⟩
    layout.Finite ∧ ∃ p, (∃ n, Loops layout.types n [.place part] (.start .zero) (.ok p)) ∧
      Packs layout.types [part] (.start .zero) (.ok p) ∧
        layout.collate .zero = .ok p.slots.reverse ∧
          p.slots.reverse.map (fun s => (s.index.val, s.reserved, s.filled,
              s.entries.map fun e => (e.name, e.typeId, e.offset, e.size))) =
            [(0, 32, 2, [("pairs[0].x", "t_bool", 0, 1), ("pairs[0].y", "t_bool", 1, 1)]),
              (1, 32, 2, [("pairs[1].x", "t_bool", 0, 1), ("pairs[1].y", "t_bool", 1, 1)])] := by
  intro layout part
  have hfin : layout.Finite := Layout.finite_of_rank String.length (by decide)
  have h : ∃ slots, layout.collate .zero = .ok slots ∧ slots.map (fun s => (s.index.val, s.reserved,
      s.filled, s.entries.map fun e => (e.name, e.typeId, e.offset, e.size))) =
        [(0, 32, 2, [("pairs[0].x", "t_bool", 0, 1), ("pairs[0].y", "t_bool", 1, 1)]),
          (1, 32, 2, [("pairs[1].x", "t_bool", 0, 1), ("pairs[1].y", "t_bool", 1, 1)])] := by
    rw [Layout.collate_eq]
    exact ⟨_, rfl, rfl⟩
  obtain ⟨slots, h, hcontents⟩ := h
  obtain ⟨hdeclare, hcollate⟩ := collate_iff_packs hfin .zero
  obtain ⟨r, hr, hslots⟩ := (hcollate _).1 h
  obtain ⟨p, rfl, rfl⟩ := map_eq_ok_iff.1 hslots.symm
  obtain ⟨hloops, hpacks⟩ := hdeclare _ List.mem_cons_self (.start .zero)
  rw [(hpacks _).2 hr] at hloops
  exact ⟨hfin, p, hloops, hr, h, hcontents⟩

end Collation

end SlotLayout
