import Mathlib.Data.List.Forall2

/-!
# Outcomes of readings in sequence

Records, columns and JSON items are read one after the other, and the first failure ends the
reading. The lemmas here say when such a reading succeeds, and with what: a bind succeeds when both
its parts do, and a reading of a list succeeds item by item (`mapM_eq_ok_iff`).
-/

namespace CampusQuery

variable {ε α β γ : Type}

theorem bind_eq_ok_iff {x : Except ε α} {f : α → Except ε β} {b : β} :
    (x >>= f) = .ok b ↔ ∃ a, x = .ok a ∧ f a = .ok b := by
  cases x with
  | error e => simp [bind, Except.bind]
  | ok a => simp [bind, Except.bind]

/-- The first failure is that of the whole. -/
theorem bind_eq_error_iff {x : Except ε α} {f : α → Except ε β} {e : ε} :
    (x >>= f) = .error e ↔ x = .error e ∨ ∃ a, x = .ok a ∧ f a = .error e := by
  cases x with
  | error e => simp [bind, Except.bind]
  | ok a => simp [bind, Except.bind]

theorem map_eq_ok_iff {x : Except ε α} {f : α → β} {b : β} :
    x.map f = .ok b ↔ ∃ a, x = .ok a ∧ f a = b := by
  cases x <;> simp [Except.map]

/-- A check that would end the reading is passed. -/
theorem guard_eq_ok_iff {p : Prop} [Decidable p] {e : ε} {f : β → Except ε α} {x : Except ε α}
    {a : α} : (if p then throw e >>= f else x) = .ok a ↔ ¬p ∧ x = .ok a := by
  by_cases h : p
  · simp [h, throw, throwThe, MonadExceptOf.throw, bind, Except.bind]
  · simp [h]

/-- A check ends the reading, or what comes after it does. -/
theorem guard_eq_error_iff {p : Prop} [Decidable p] {e e' : ε} {f : β → Except ε α}
    {x : Except ε α} :
    (if p then throw e >>= f else x) = .error e' ↔ p ∧ e' = e ∨ ¬p ∧ x = .error e' := by
  by_cases h : p
  · simp [h, throw, throwThe, MonadExceptOf.throw, bind, Except.bind, eq_comm]
  · simp [h]

/-- A list is read to the list of what its items are read to. -/
theorem mapM_eq_ok_iff {f : α → Except ε β} {xs : List α} {ys : List β} :
    xs.mapM f = .ok ys ↔ List.Forall₂ (fun x y => f x = .ok y) xs ys := by
  induction xs generalizing ys with
  | nil => cases ys <;> simp [pure, Except.pure]
  | cons x xs ih =>
    -- the first item is read, then the others, and then they are put together
    rw [List.mapM_cons, bind_eq_ok_iff]
    simp only [bind_eq_ok_iff, ih]
    constructor
    · rintro ⟨y, hy, rest, hrest, h⟩
      obtain rfl : y :: rest = ys := Except.ok.inj h
      exact List.Forall₂.cons hy hrest
    · rintro (_ | ⟨hy, hrest⟩)
      exact ⟨_, hy, _, hrest, rfl⟩

/-- Items that are each related to something are related to a list. -/
theorem exists_forall₂ {R : α → β → Prop} {xs : List α} (h : ∀ x ∈ xs, ∃ y, R x y) :
    ∃ ys, List.Forall₂ R xs ys := by
  induction xs with
  | nil => exact ⟨[], .nil⟩
  | cons x xs ih =>
    obtain ⟨y, hy⟩ := h x (List.mem_cons_self ..)
    obtain ⟨ys, hys⟩ := ih fun x' hx' => h x' (List.mem_cons_of_mem _ hx')
    exact ⟨y :: ys, .cons hy hys⟩

/-- A list whose items can all be read can be read. -/
theorem exists_mapM_eq_ok {f : α → Except ε β} {xs : List α} (h : ∀ x ∈ xs, ∃ y, f x = .ok y) :
    ∃ ys, xs.mapM f = .ok ys := by
  obtain ⟨ys, hys⟩ := exists_forall₂ h
  exact ⟨ys, mapM_eq_ok_iff.2 hys⟩

/-- Each item of the first list is related to one of the second. -/
theorem exists_of_mem_left {R : α → β → Prop} {xs : List α} {ys : List β}
    (h : List.Forall₂ R xs ys) {x : α} (hx : x ∈ xs) : ∃ y ∈ ys, R x y := by
  induction h with
  | nil => exact nomatch hx
  | @cons _ y _ _ hxy _ ih =>
    rcases List.mem_cons.1 hx with rfl | hx
    · exact ⟨y, List.mem_cons_self .., hxy⟩
    · obtain ⟨y', hy', hR⟩ := ih hx
      exact ⟨y', List.mem_cons_of_mem _ hy', hR⟩

/-- Each item of the second list is related to one of the first. -/
theorem exists_of_mem_right {R : α → β → Prop} {xs : List α} {ys : List β}
    (h : List.Forall₂ R xs ys) {y : β} (hy : y ∈ ys) : ∃ x ∈ xs, R x y :=
  exists_of_mem_left (R := fun y x => R x y) h.flip hy

/-- Items that each stand for something are the list of what stands for a list. -/
theorem forall₂_exists_iff {g : γ → α} {R : γ → β → Prop} {xs : List α} {ys : List β} :
    List.Forall₂ (fun x y => ∃ t, x = g t ∧ R t y) xs ys ↔
      ∃ ts, xs = ts.map g ∧ List.Forall₂ R ts ys := by
  constructor
  · intro h
    induction h with
    | nil => exact ⟨[], rfl, .nil⟩
    | cons hxy _ ih =>
      obtain ⟨t, rfl, hR⟩ := hxy
      obtain ⟨ts, rfl, hts⟩ := ih
      exact ⟨t :: ts, rfl, .cons hR hts⟩
  · rintro ⟨ts, rfl, h⟩
    exact List.forall₂_map_left_iff.2 (h.imp fun t _ hR => ⟨t, rfl, hR⟩)

/-- What all items of a list satisfy by being related to something, the list does. -/
theorem forall_mem_iff_exists_forall₂ {P : α → Prop} {R : α → β → Prop}
    (h : ∀ {x}, P x ↔ ∃ y, R x y) {xs : List α} :
    (∀ x ∈ xs, P x) ↔ ∃ ys, List.Forall₂ R xs ys := by
  constructor
  · exact fun hP => exists_forall₂ fun x hx => h.1 (hP x hx)
  · rintro ⟨ys, hR⟩ x hx
    obtain ⟨y, -, hxy⟩ := exists_of_mem_left hR hx
    exact h.2 ⟨y, hxy⟩

/-- What is there satisfies something by being related to something, or there is nothing. -/
theorem forall_some_iff_exists_optionRel {P : α → Prop} {R : α → β → Prop}
    (h : ∀ {x}, P x ↔ ∃ y, R x y) {x? : Option α} :
    (∀ x, x? = some x → P x) ↔ ∃ y?, Option.Rel R x? y? := by
  constructor
  · intro hP
    cases x? with
    | none => exact ⟨none, .none⟩
    | some x =>
      obtain ⟨y, hxy⟩ := h.1 (hP x rfl)
      exact ⟨some y, .some hxy⟩
  · rintro ⟨_, hR⟩ x rfl
    cases hR with
    | some hxy => exact h.2 ⟨_, hxy⟩

theorem optionRel_some_left_iff {R : α → β → Prop} {x : α} {y? : Option β} :
    Option.Rel R (some x) y? ↔ ∃ y, y? = some y ∧ R x y := by
  cases y? with
  | none => exact iff_of_false (fun h => nomatch h) fun ⟨_, h, _⟩ => nomatch h
  | some y => simp

theorem optionRel_none_left_iff {R : α → β → Prop} {y? : Option β} :
    Option.Rel R none y? ↔ y? = none := by
  cases y? with
  | none => simp
  | some y => exact iff_of_false (fun h => nomatch h) fun h => nomatch h

/-- Lists that agree item by item in some value have the same list of values. -/
theorem forall₂_eq_iff_map_eq {f : α → γ} {g : β → γ} {xs : List α} {ys : List β} :
    List.Forall₂ (fun x y => f x = g y) xs ys ↔ xs.map f = ys.map g := by
  rw [← List.forall₂_eq_eq_eq, List.forall₂_map_left_iff, List.forall₂_map_right_iff]

/-- Relations that agree on the items of a list agree on the list. -/
theorem forall₂_congr_of_mem {R S : α → β → Prop} {xs : List α} {ys : List β}
    (h : ∀ x ∈ xs, ∀ y, R x y ↔ S x y) : List.Forall₂ R xs ys ↔ List.Forall₂ S xs ys := by
  induction xs generalizing ys with
  | nil => rw [List.forall₂_nil_left_iff, List.forall₂_nil_left_iff]
  | cons x xs ih =>
    rw [List.forall₂_cons_left_iff, List.forall₂_cons_left_iff]
    simp only [h x (List.mem_cons_self ..), ih fun x' hx' => h x' (List.mem_cons_of_mem _ hx')]

/-- What is related over a list in between is related. -/
theorem forall₂_comp {R : α → β → Prop} {S : β → γ → Prop} {xs : List α} {ys : List β}
    {zs : List γ} (hR : List.Forall₂ R xs ys) (hS : List.Forall₂ S ys zs) :
    List.Forall₂ (fun x z => ∃ y, R x y ∧ S y z) xs zs := by
  induction hR generalizing zs with
  | nil =>
    cases hS
    exact .nil
  | cons hxy _ ih =>
    obtain _ | ⟨hyz, hS⟩ := hS
    exact .cons ⟨_, hxy, hyz⟩ (ih hS)

/-! ### First items -/

/-- An item is the first one of a list with a property. -/
def IsFirst (p : α → Prop) (xs : List α) (a : α) : Prop :=
  ∃ before after, xs = before ++ a :: after ∧ p a ∧ ∀ b ∈ before, ¬p b

theorem isFirst_nil {p : α → Prop} {a : α} : ¬IsFirst p [] a := by
  rintro ⟨before, after, h, -⟩
  exact absurd h.symm (by simp)

/-- The first item is the head, or it is the first of the others. -/
theorem isFirst_cons_iff {p : α → Prop} {x : α} {xs : List α} {a : α} :
    IsFirst p (x :: xs) a ↔ p x ∧ a = x ∨ ¬p x ∧ IsFirst p xs a := by
  constructor
  · rintro ⟨before, after, h, ha, hbefore⟩
    cases before with
    | nil =>
      obtain ⟨rfl, -⟩ := List.cons.inj h
      exact .inl ⟨ha, rfl⟩
    | cons y before =>
      obtain ⟨rfl, hxs⟩ := List.cons.inj h
      obtain ⟨hx, hbefore⟩ := List.forall_mem_cons.1 hbefore
      exact .inr ⟨hx, before, after, hxs, ha, hbefore⟩
  · rintro (⟨hx, rfl⟩ | ⟨hx, before, after, rfl, ha, hbefore⟩)
    · exact ⟨[], xs, rfl, hx, fun b hb => nomatch hb⟩
    · exact ⟨x :: before, after, rfl, ha, List.forall_mem_cons.2 ⟨hx, hbefore⟩⟩

theorem find?_eq_some_iff_isFirst {p : α → Bool} {xs : List α} {a : α} :
    xs.find? p = some a ↔ IsFirst (fun b => p b = true) xs a := by
  rw [List.find?_eq_some_iff_append, IsFirst]
  constructor
  · rintro ⟨ha, before, after, rfl, hbefore⟩
    exact ⟨before, after, rfl, ha, fun b hb => by simpa using hbefore b hb⟩
  · rintro ⟨before, after, rfl, ha, hbefore⟩
    exact ⟨ha, before, after, rfl, fun b hb => by simpa using hbefore b hb⟩

/-- A list with an item of a property has a first one. -/
theorem exists_isFirst {p : α → Prop} {xs : List α} {a : α} (ha : a ∈ xs) (h : p a) :
    ∃ b, IsFirst p xs b := by
  classical
  have hsome : (xs.find? fun b => decide (p b)).isSome :=
    List.find?_isSome.2 ⟨a, ha, decide_eq_true h⟩
  obtain ⟨b, hb⟩ := Option.isSome_iff_exists.1 hsome
  obtain ⟨before, after, hxs, hpb, hbefore⟩ := find?_eq_some_iff_isFirst.1 hb
  exact ⟨b, before, after, hxs, of_decide_eq_true hpb, fun c hc h =>
    hbefore c hc (decide_eq_true h)⟩

/-- The first item that can not be read ends the reading of a list. -/
theorem mapM_eq_error {f : α → Except ε β} {xs : List α} {x : α} {e : ε}
    (h : IsFirst (fun y => ∀ z, f y ≠ .ok z) xs x) (hx : f x = .error e) :
    xs.mapM f = .error e := by
  induction xs with
  | nil => exact absurd h isFirst_nil
  | cons y xs ih =>
    rw [List.mapM_cons]
    rcases isFirst_cons_iff.1 h with ⟨-, rfl⟩ | ⟨hy, hrest⟩
    · rw [hx]
      rfl
    · cases hread : f y with
      | error e' => exact absurd (fun z hz => nomatch hread.symm.trans hz) hy
      | ok z =>
        rw [ih hrest]
        rfl

end CampusQuery
