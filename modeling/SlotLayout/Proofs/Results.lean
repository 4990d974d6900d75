import Mathlib.Data.List.Forall2

/-!
# Results

Laws of computations that give a result or fail: what is known of the steps if the whole succeeds.
-/

namespace SlotLayout

variable {ε α β : Type}

theorem bind_eq_ok_iff {x : Except ε α} {f : α → Except ε β} {b : β} :
    x >>= f = .ok b ↔ ∃ a, x = .ok a ∧ f a = .ok b := by
  cases x with
  | error e => exact ⟨nofun, fun ⟨_, h, _⟩ => nomatch h⟩
  | ok a => exact ⟨fun h => ⟨a, rfl, h⟩, fun ⟨_, h, hf⟩ => by cases h; exact hf⟩

theorem bind_eq_error_iff {x : Except ε α} {f : α → Except ε β} {e : ε} :
    x >>= f = .error e ↔ x = .error e ∨ ∃ a, x = .ok a ∧ f a = .error e := by
  cases x with
  | error e' => exact ⟨fun h => .inl (by cases h; rfl), fun h => h.elim (by rintro ⟨⟩; rfl) nofun⟩
  | ok a =>
    refine ⟨fun h => .inr ⟨a, rfl, h⟩, fun h => h.elim nofun ?_⟩
    rintro ⟨_, ⟨⟩, hf⟩
    exact hf

theorem pure_eq_ok_iff {a b : α} : (pure a : Except ε α) = .ok b ↔ a = b :=
  ⟨fun h => by cases h; rfl, fun h => h ▸ rfl⟩

theorem map_eq_ok_iff {x : Except ε α} {f : α → β} {b : β} :
    x.map f = .ok b ↔ ∃ a, x = .ok a ∧ b = f a := by
  cases x with
  | error e => exact ⟨nofun, fun ⟨_, h, _⟩ => nomatch h⟩
  | ok a => exact ⟨fun h => ⟨a, rfl, by cases h; rfl⟩, fun ⟨_, h, hf⟩ => by cases h; rw [hf]; rfl⟩

theorem map_eq_error_iff {x : Except ε α} {f : α → β} {e : ε} :
    x.map f = .error e ↔ x = .error e := by
  cases x with
  | error e' => exact ⟨fun h => by cases h; rfl, fun h => by cases h; rfl⟩
  | ok a => exact ⟨nofun, nofun⟩

theorem toOption_eq_some_iff {x : Except ε α} {a : α} : x.toOption = some a ↔ x = .ok a := by
  cases x with
  | error e => exact ⟨nofun, nofun⟩
  | ok b => exact ⟨fun h => by cases h; rfl, fun h => by cases h; rfl⟩

/-- What is undone for every element is undone for the list. -/
theorem mapM_map_eq_ok {f : β → Except ε α} {g : α → β} {xs : List α}
    (h : ∀ x ∈ xs, f (g x) = .ok x) : (xs.map g).mapM f = .ok xs := by
  induction xs with
  | nil => rfl
  | cons x xs ih =>
    obtain ⟨hx, hxs⟩ := List.forall_mem_cons.1 h
    rw [List.map_cons, List.mapM_cons, hx, ih hxs]
    rfl

/-- What holds of the first state and is kept by each successful step holds of the last state. -/
theorem foldlM_keeps {P : β → Prop} {f : β → α → Except ε β} {xs : List α} {b b' : β}
    (hf : ∀ x ∈ xs, ∀ c c', P c → f c x = .ok c' → P c') (hb : P b)
    (h : xs.foldlM f b = .ok b') : P b' := by
  induction xs generalizing b with
  | nil =>
    rw [List.foldlM_nil, pure_eq_ok_iff] at h
    exact h ▸ hb
  | cons x xs ih =>
    rw [List.foldlM_cons, bind_eq_ok_iff] at h
    obtain ⟨c, hc, h⟩ := h
    exact ih (fun y hy => hf y (List.mem_cons_of_mem _ hy)) (hf x List.mem_cons_self b c hb hc) h

/-- Steps one after another that succeed come to each of them. -/
theorem exists_of_foldlM_ok {f : β → α → Except ε β} {xs : List α} {b b' : β}
    (h : xs.foldlM f b = .ok b') {i : Nat} {x : α} (hi : xs[i]? = some x) :
    ∃ c c', (xs.take i).foldlM f b = .ok c ∧ f c x = .ok c' := by
  obtain ⟨hlt, rfl⟩ := List.getElem?_eq_some_iff.1 hi
  rw [← List.take_append_drop i xs, List.foldlM_append, bind_eq_ok_iff] at h
  obtain ⟨c, hc, h⟩ := h
  rw [List.drop_eq_getElem_cons hlt, List.foldlM_cons, bind_eq_ok_iff] at h
  obtain ⟨c', hc', -⟩ := h
  exact ⟨c, c', hc, hc'⟩

/-- Where steps one after another fail, there is a first one that does. -/
theorem exists_of_foldlM_error {f : β → α → Except ε β} {xs : List α} {b : β} {e : ε}
    (h : xs.foldlM f b = .error e) :
    ∃ i x c, xs[i]? = some x ∧ (xs.take i).foldlM f b = .ok c ∧ f c x = .error e := by
  induction xs generalizing b with
  | nil => cases h
  | cons x xs ih =>
    rw [List.foldlM_cons, bind_eq_error_iff] at h
    rcases h with h | ⟨c, hc, h⟩
    · exact ⟨0, x, b, rfl, rfl, h⟩
    · obtain ⟨i, y, c', hi, hc', he⟩ := ih h
      refine ⟨i + 1, y, c', hi, ?_, he⟩
      rw [List.take_succ_cons, List.foldlM_cons, bind_eq_ok_iff]
      exact ⟨c, hc, hc'⟩

/-- If each step that succeeds from a state succeeds, for a matching input, from all related states
and leaves the states related, so does the whole. -/
theorem foldlM_follows {α' β' : Type} {S : α → α' → Prop} {R : β → β' → Prop}
    {f : β → α → Except ε β} {g : β' → α' → Except ε β'} {xs : List α} {ys : List α'} {b c : β}
    {b' : β'} (hf : ∀ x y, S x y → ∀ b c b', R b b' → f b x = .ok c →
      ∃ c', g b' y = .ok c' ∧ R c c')
    (hs : List.Forall₂ S xs ys) (hR : R b b') (h : xs.foldlM f b = .ok c) :
    ∃ c', ys.foldlM g b' = .ok c' ∧ R c c' := by
  induction hs generalizing b b' with
  | nil =>
    rw [List.foldlM_nil, pure_eq_ok_iff] at h
    exact ⟨b', rfl, h ▸ hR⟩
  | cons hxy _ ih =>
    rw [List.foldlM_cons, bind_eq_ok_iff] at h
    obtain ⟨d, hd, h⟩ := h
    obtain ⟨d', hd', hR⟩ := hf _ _ hxy b d b' hR hd
    obtain ⟨c', hc', hR⟩ := ih hR h
    exact ⟨c', by rw [List.foldlM_cons, bind_eq_ok_iff]; exact ⟨d', hd', hc'⟩, hR⟩

/-- If two steps that both succeed from related states leave them related, so do the wholes. -/
theorem foldlM_related {β' : Type} {R : β → β' → Prop} {f : β → α → Except ε β}
    {g : β' → α → Except ε β'} {xs : List α} {b c : β} {b' c' : β'}
    (hf : ∀ x ∈ xs, ∀ b c b' c', R b b' → f b x = .ok c → g b' x = .ok c' → R c c') (hR : R b b')
    (h : xs.foldlM f b = .ok c) (h' : xs.foldlM g b' = .ok c') : R c c' := by
  induction xs generalizing b b' with
  | nil =>
    rw [List.foldlM_nil, pure_eq_ok_iff] at h h'
    exact h ▸ h' ▸ hR
  | cons x xs ih =>
    rw [List.foldlM_cons, bind_eq_ok_iff] at h h'
    obtain ⟨d, hd, h⟩ := h
    obtain ⟨d', hd', h'⟩ := h'
    exact ih (fun y hy => hf y (List.mem_cons_of_mem _ hy))
      (hf x List.mem_cons_self b d b' d' hR hd hd') h h'

/-! ## Related lists -/

theorem exists_of_forall₂ {R : α → β → Prop} {as : List α} {bs : List β}
    (h : List.Forall₂ R as bs) {a : α} (ha : a ∈ as) : ∃ b ∈ bs, R a b := by
  induction h with
  | nil => cases ha
  | cons hab _ ih =>
    rcases List.mem_cons.1 ha with rfl | ha
    · exact ⟨_, List.mem_cons_self, hab⟩
    · obtain ⟨b, hb, hab⟩ := ih ha
      exact ⟨b, List.mem_cons_of_mem _ hb, hab⟩

/-- If each element has a related one, the list has a related one. -/
theorem exists_forall₂ {R : α → β → Prop} {as : List α} (h : ∀ a ∈ as, ∃ b, R a b) :
    ∃ bs, List.Forall₂ R as bs := by
  induction as with
  | nil => exact ⟨[], .nil⟩
  | cons a as ih =>
    obtain ⟨⟨b, hab⟩, has⟩ := List.forall_mem_cons.1 h
    obtain ⟨bs, hbs⟩ := ih has
    exact ⟨b :: bs, .cons hab hbs⟩

/-- Two lists related to one are related through its elements. -/
theorem forall₂_through {γ : Type} {R : α → β → Prop} {S : α → γ → Prop} {as : List α}
    {bs : List β} {cs : List γ} (h : List.Forall₂ R as bs) (h' : List.Forall₂ S as cs) :
    List.Forall₂ (fun b c => ∃ a, R a b ∧ S a c) bs cs := by
  induction h generalizing cs with
  | nil =>
    cases h'
    exact .nil
  | cons hab _ ih =>
    cases h' with
    | cons hac hcs => exact .cons ⟨_, hab, hac⟩ (ih hcs)

/-- If what each element is related to leads to something that gives the element, the list does. -/
theorem exists_mapM {γ : Type} {R : α → β → Prop} {S : β → γ → Prop} {f : γ → Except ε α}
    {as : List α} {bs : List β} (hf : ∀ a ∈ as, ∀ b, R a b → ∃ c, S b c ∧ f c = .ok a)
    (h : List.Forall₂ R as bs) : ∃ cs, List.Forall₂ S bs cs ∧ cs.mapM f = .ok as := by
  induction h with
  | nil => exact ⟨[], .nil, rfl⟩
  | cons hab _ ih =>
    obtain ⟨hfa, hfas⟩ := List.forall_mem_cons.1 hf
    obtain ⟨c, hc, hok⟩ := hfa _ hab
    obtain ⟨cs, hcs, hall⟩ := ih hfas
    refine ⟨c :: cs, .cons hc hcs, ?_⟩
    rw [List.mapM_cons, hok, hall]
    rfl

theorem forall₂_modifyHead {R : α → β → Prop} {f : α → α} {g : β → β} {as : List α} {bs : List β}
    (hfg : ∀ a b, R a b → R (f a) (g b)) (h : List.Forall₂ R as bs) :
    List.Forall₂ R (as.modifyHead f) (bs.modifyHead g) := by
  cases h with
  | nil => exact .nil
  | cons hab hall => exact .cons (hfg _ _ hab) hall

end SlotLayout
