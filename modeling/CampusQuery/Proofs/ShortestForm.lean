import CampusQuery.Proofs.RoundingInterval

/-!
# The shortest form reads back

`Magnitude.shortest` takes a point in the rounding interval on the coarsest grid of powers of ten
that it finds one on, so the number nearest to the shortest form is the number itself
(`Magnitude.nearest_shortest`). A grid with any point in the interval has one of the two points
around the number in it (`Magnitude.isSome_gridPoint?`), so the search ends no further down than at
a decimal that the number is nearest to, and the shortest form has no more decimal places than that
decimal and about as many digits (`Magnitude.shortest_of_readsBack`).
-/

namespace CampusQuery

theorem unitsPerOne_pos : 0 < unitsPerOne := by
  have hpow : ∀ k : Nat, 0 < 2 ^ k := Nat.two_pow_pos
  exact hpow 1074

/-- With a name for the exponent, so that the power is not computed. -/
theorem unitsPerOne_eq {j : Nat} (hj : j = 1074) : unitsPerOne = 2 ^ j := by
  rw [hj, unitsPerOne]

theorem spacing_pos (n : Nat) : 0 < spacing n :=
  Nat.two_pow_pos _

theorem spacing_le {n : Nat} (hn : 0 < n) : spacing n ≤ n :=
  Nat.le_trans (Nat.pow_le_pow_right (by decide) (Nat.sub_le _ _)) (Nat.log2_self_le hn.ne')

/-- A number is its own rounding. -/
theorem Representable.roundSignificant_eq {n d : Nat} (h : Representable n) (hd : 0 < d) :
    roundSignificant (n * d) d = n := by
  obtain ⟨q, hq⟩ := h.1
  have hscale : n * d = q * (d * spacing n) := by
    rw [Nat.mul_left_comm, Nat.mul_comm q, ← hq, Nat.mul_comm]
  rw [roundSignificant, Nat.mul_div_cancel _ hd, hscale,
    roundDivEven_mul_right _ (Nat.mul_pos hd (spacing_pos n)), Nat.mul_comm, ← hq]

namespace DecimalForm

/-- The decimal as a fraction of units: what is above the line. -/
def numerator (d : DecimalForm) : Nat :=
  d.coefficient * (10 ^ d.exponent.toNat * unitsPerOne)

/-- The decimal as a fraction of units: what is below the line. -/
def denominator (d : DecimalForm) : Nat :=
  10 ^ (-d.exponent).toNat

theorem denominator_pos (d : DecimalForm) : 0 < d.denominator :=
  Nat.pow_pos (by decide)

end DecimalForm

namespace Magnitude

variable {m : Magnitude} {tie : TieRule}

/-! ### Points of the interval -/

theorem readsBack_self {d : Nat} (hd : 0 < d) : m.readsBack (m.units * d) d = true :=
  (readsBack_iff_roundSignificant hd).2 (m.representable.roundSignificant_eq hd)

/-- With a fraction in the interval all that is between it and the number is in the interval. -/
theorem readsBack_between {n k d : Nat} (hd : 0 < d) (h : m.readsBack n d = true)
    (hbetween : n ≤ k ∧ k ≤ m.units * d ∨ m.units * d ≤ k ∧ k ≤ n) :
    m.readsBack k d = true := by
  have hself := readsBack_self (m := m) hd
  rw [readsBack] at h hself ⊢
  split at h
  · next hincluded =>
    rw [if_pos hincluded] at hself ⊢
    simp only [Bool.and_eq_true, decide_eq_true_eq] at h hself ⊢
    omega
  · next hincluded =>
    rw [if_neg hincluded] at hself ⊢
    simp only [Bool.and_eq_true, decide_eq_true_eq] at h hself ⊢
    omega

/-- A fraction in the interval is at least one half of the number and at most one and a half. -/
theorem bounds_of_readsBack (hm : 0 < m.units) {n d : Nat} (h : m.readsBack n d = true) :
    m.units * d ≤ 2 * n ∧ 2 * n ≤ 3 * (m.units * d) := by
  have hgap := spacing_le hm
  have hlower : 2 * m.units ≤ m.lowerEnd := by
    rw [lowerEnd]
    split <;> omega
  have hlow : 2 * m.units * d ≤ m.lowerEnd * d := Nat.mul_le_mul_right d hlower
  have hhigh : m.upperEnd * d ≤ 6 * m.units * d :=
    Nat.mul_le_mul_right d (by rw [upperEnd]; omega)
  rw [Nat.mul_assoc] at hlow hhigh
  rw [readsBack] at h
  split at h <;> simp only [Bool.and_eq_true, decide_eq_true_eq] at h <;> omega

/-- Zero is not in the rounding interval of another number. -/
theorem pos_of_readsBack (hm : 0 < m.units) {n d : Nat} (hd : 0 < d)
    (h : m.readsBack n d = true) : 0 < n := by
  have hlow := (bounds_of_readsBack hm h).1
  have hpos := Nat.mul_pos hm hd
  omega

/-! ### Points of a grid -/

theorem readsBack_of_gridPoint? {e : Int} {c : Nat} (h : m.gridPoint? tie e = some c) :
    m.readsBack (DecimalForm.mk c e).numerator (DecimalForm.mk c e).denominator = true := by
  simp only [gridPoint?] at h
  rw [DecimalForm.numerator, DecimalForm.denominator]
  split at h
  · next hfits =>
    obtain ⟨hlow, hhigh⟩ := Bool.and_eq_true_iff.1 hfits
    obtain rfl := Option.some.inj h
    split
    · exact hhigh
    · exact hlow
  · split at h
    · next hlow =>
      obtain rfl := Option.some.inj h
      exact hlow
    · split at h
      · next hhigh =>
        obtain rfl := Option.some.inj h
        exact hhigh
      · exact nomatch h

/-- A grid with a point in the interval has one next to the number. -/
theorem isSome_gridPoint? {d : DecimalForm} (h : m.readsBack d.numerator d.denominator = true) :
    (m.gridPoint? tie d.exponent).isSome = true := by
  have hdown := d.denominator_pos
  simp only [gridPoint?]
  rw [DecimalForm.denominator] at h hdown
  rw [DecimalForm.numerator] at h
  have hup : 0 < 10 ^ d.exponent.toNat * unitsPerOne :=
    Nat.mul_pos (Nat.pow_pos (by decide)) unitsPerOne_pos
  generalize 10 ^ d.exponent.toNat * unitsPerOne = up at *
  generalize 10 ^ (-d.exponent).toNat = down at *
  have hbelow := Nat.div_mul_le_self (m.units * down) up
  have habove := (Nat.div_lt_iff_lt_mul hup).1 (Nat.lt_succ_self (m.units * down / up))
  rcases Nat.lt_or_ge (m.units * down / up) d.coefficient with hside | hside
  · have hhigh : m.readsBack ((m.units * down / up + 1) * up) down = true :=
      readsBack_between hdown h (Or.inr ⟨habove.le, Nat.mul_le_mul_right up hside⟩)
    simp only [hhigh, ↓reduceIte]
    split_ifs <;> rfl
  · have hlow : m.readsBack (m.units * down / up * up) down = true :=
      readsBack_between hdown h (Or.inl ⟨Nat.mul_le_mul_right up hside, hbelow⟩)
    simp only [hlow, ↓reduceIte]
    split_ifs <;> rfl

/-! ### The search -/

theorem readsBack_exactForm :
    m.readsBack m.exactForm.numerator m.exactForm.denominator = true := by
  obtain ⟨k, hk⟩ : ∃ k : Nat, k = 1074 := ⟨_, rfl⟩
  have hform : m.exactForm = ⟨m.units * 5 ^ k, -k⟩ := by
    rw [hk]
    rfl
  have hexact : m.exactForm.numerator = m.units * m.exactForm.denominator := by
    rw [DecimalForm.numerator, DecimalForm.denominator, hform, unitsPerOne_eq hk,
      Int.toNat_neg_natCast, Int.neg_neg, Int.toNat_natCast, Nat.pow_zero, Nat.one_mul,
      Nat.mul_assoc, ← Nat.mul_pow]
  rw [hexact]
  exact readsBack_self (DecimalForm.denominator_pos _)

theorem readsBack_searchGrid (steps : Nat) (e : Int) :
    m.readsBack (m.searchGrid tie steps e).numerator (m.searchGrid tie steps e).denominator =
      true := by
  induction steps generalizing e with
  | zero => exact readsBack_exactForm
  | succ steps ih =>
    rw [searchGrid]
    cases hgrid : m.gridPoint? tie e with
    | some c => exact readsBack_of_gridPoint? hgrid
    | none => exact ih _

theorem readsBack_shortest (m : Magnitude) (tie : TieRule) :
    m.readsBack (m.shortest tie).numerator (m.shortest tie).denominator = true := by
  rw [shortest]
  split
  · next hzero =>
    have hexact : (DecimalForm.mk 0 0).numerator =
        m.units * (DecimalForm.mk 0 0).denominator := by
      rw [hzero, DecimalForm.numerator, Nat.zero_mul, Nat.zero_mul]
    rw [hexact]
    exact readsBack_self (DecimalForm.denominator_pos _)
  · exact readsBack_searchGrid _ _

/-- **The shortest form reads back**: the number nearest to it is the number. -/
theorem nearest_shortest (m : Magnitude) (tie : TieRule) (negative : Bool) :
    Binary64.nearest negative (m.shortest tie).numerator (m.shortest tie).denominator =
      .finite negative m :=
  (readsBack_iff_nearest (DecimalForm.denominator_pos _) negative).1 (m.readsBack_shortest tie)

theorem shortest_coefficient_pos (hm : 0 < m.units) (tie : TieRule) :
    0 < (m.shortest tie).coefficient :=
  Nat.pos_of_mul_pos_right
    (pos_of_readsBack hm (DecimalForm.denominator_pos _) (m.readsBack_shortest tie))

/-- The search does not go below a grid with a point in the interval. -/
theorem le_exponent_searchGrid {e start : Int} {steps : Nat} (hle : e ≤ start)
    (hsteps : start < e + steps) (h : (m.gridPoint? tie e).isSome = true) :
    e ≤ (m.searchGrid tie steps start).exponent := by
  induction steps generalizing start with
  | zero => omega
  | succ steps ih =>
    rw [searchGrid]
    cases hgrid : m.gridPoint? tie start with
    | some c => exact hle
    | none =>
      have hne : e ≠ start := by
        rintro rfl
        rw [hgrid] at h
        exact nomatch h
      exact ih (by omega) (by omega)

/-! ### Decimals with few digits -/

/-- Of two decimals in the interval the one on the coarser grid has hardly more digits. -/
theorem coefficient_le (hm : 0 < m.units) {d d' : DecimalForm} (hexp : d.exponent ≤ d'.exponent)
    (h : m.readsBack d.numerator d.denominator = true)
    (h' : m.readsBack d'.numerator d'.denominator = true) :
    d'.coefficient ≤ 3 * d.coefficient := by
  have hlow := (bounds_of_readsBack hm h).1
  have hhigh := (bounds_of_readsBack hm h').2
  have hcross : 2 * (d'.numerator * d.denominator) ≤ 2 * (3 * (d.numerator * d'.denominator)) :=
    calc 2 * (d'.numerator * d.denominator)
        = 2 * d'.numerator * d.denominator := by ring
      _ ≤ 3 * (m.units * d'.denominator) * d.denominator := Nat.mul_le_mul_right _ hhigh
      _ = 3 * d'.denominator * (m.units * d.denominator) := by ring
      _ ≤ 3 * d'.denominator * (2 * d.numerator) := Nat.mul_le_mul_left _ hlow
      _ = 2 * (3 * (d.numerator * d'.denominator)) := by ring
  have hgrid : 10 ^ (d.exponent.toNat + (-d'.exponent).toNat) ≤
      10 ^ (d'.exponent.toNat + (-d.exponent).toNat) :=
    Nat.pow_le_pow_right (by decide) (by omega)
  have hunit : 0 < 10 ^ (d'.exponent.toNat + (-d.exponent).toNat) * unitsPerOne :=
    Nat.mul_pos (Nat.pow_pos (by decide)) unitsPerOne_pos
  refine Nat.le_of_mul_le_mul_right ?_ hunit
  calc d'.coefficient * (10 ^ (d'.exponent.toNat + (-d.exponent).toNat) * unitsPerOne)
      = d'.numerator * d.denominator := by
        rw [DecimalForm.numerator, DecimalForm.denominator]
        ring
    _ ≤ 3 * (d.numerator * d'.denominator) := Nat.le_of_mul_le_mul_left hcross (by decide)
    _ = 3 * d.coefficient *
          (10 ^ (d.exponent.toNat + (-d'.exponent).toNat) * unitsPerOne) := by
        rw [DecimalForm.numerator, DecimalForm.denominator]
        ring
    _ ≤ 3 * d.coefficient *
          (10 ^ (d'.exponent.toNat + (-d.exponent).toNat) * unitsPerOne) :=
        Nat.mul_le_mul_left _ (Nat.mul_le_mul_right _ hgrid)

/-- The search begins above the places of a decimal with few digits, and near enough. -/
theorem coarsestExponent_bounds (hm : 0 < m.units) {c k : Nat} (hc : c ≤ 10 ^ (15 : Nat))
    (hk : k ≤ 22) (h : m.readsBack (c * unitsPerOne) (10 ^ k) = true) :
    -(k : Int) ≤ m.coarsestExponent ∧ m.coarsestExponent < -k + 24 := by
  obtain ⟨hlow, hhigh⟩ := bounds_of_readsBack hm h
  have hpos : 0 < c := Nat.pos_of_mul_pos_right (pos_of_readsBack hm (Nat.pow_pos (by decide)) h)
  -- the bits of the number and of the power of ten, and what they make in places
  have htable : ∀ k ≤ 22, (10 ^ k).log2 * 30103 ≤ k * 100000 ∧
      k * 100000 ≤ ((10 ^ k).log2 + 1) * 30103 := by decide
  obtain ⟨hbelow, habove⟩ := htable k hk
  have hten : 10 ^ k ≠ 0 := (Nat.pow_pos (by decide)).ne'
  have htenlow : 2 ^ (10 ^ k).log2 ≤ 10 ^ k := Nat.log2_self_le hten
  have htenhigh : 10 ^ k < 2 ^ ((10 ^ k).log2 + 1) := Nat.lt_log2_self
  have hunitslow : 2 ^ m.units.log2 ≤ m.units := Nat.log2_self_le hm.ne'
  have hunitshigh : m.units < 2 ^ (m.units.log2 + 1) := Nat.lt_log2_self
  generalize (10 ^ k).log2 = t at *
  obtain ⟨j, hj⟩ : ∃ j : Nat, j = 1074 := ⟨_, rfl⟩
  rw [unitsPerOne_eq hj] at hlow hhigh
  have hupper : m.units.log2 + t < 51 + j := by
    refine (Nat.pow_lt_pow_iff_right (a := 2) (by decide)).1 ?_
    calc 2 ^ (m.units.log2 + t)
        = 2 ^ m.units.log2 * 2 ^ t := Nat.pow_add ..
      _ ≤ m.units * 10 ^ k := Nat.mul_le_mul hunitslow htenlow
      _ ≤ 2 * (c * 2 ^ j) := hlow
      _ ≤ 2 * 10 ^ (15 : Nat) * 2 ^ j := by
        rw [← Nat.mul_assoc]
        exact Nat.mul_le_mul_right _ (Nat.mul_le_mul_left 2 hc)
      _ < 2 ^ (51 : Nat) * 2 ^ j := Nat.mul_lt_mul_of_pos_right (by decide) (Nat.two_pow_pos j)
      _ = 2 ^ (51 + j) := (Nat.pow_add ..).symm
  have hlower : j + 1 < m.units.log2 + t + 4 := by
    refine (Nat.pow_lt_pow_iff_right (a := 2) (by decide)).1 ?_
    calc 2 ^ (j + 1)
        = 2 * (1 * 2 ^ j) := by ring
      _ ≤ 2 * (c * 2 ^ j) := Nat.mul_le_mul_left 2 (Nat.mul_le_mul_right _ hpos)
      _ ≤ 3 * (m.units * 10 ^ k) := hhigh
      _ ≤ 4 * (m.units * 10 ^ k) := Nat.mul_le_mul_right _ (by decide)
      _ < 4 * (2 ^ (m.units.log2 + 1) * 2 ^ (t + 1)) :=
        Nat.mul_lt_mul_of_pos_left (Nat.mul_lt_mul'' hunitshigh htenhigh) (by decide)
      _ = 2 ^ (m.units.log2 + t + 4) := by ring
  rw [coarsestExponent]
  omega

theorem numerator_neg_natCast (c k : Nat) :
    (DecimalForm.mk c (-k)).numerator = c * unitsPerOne := by
  rw [DecimalForm.numerator, Int.toNat_neg_natCast, Nat.pow_zero, Nat.one_mul]

theorem denominator_neg_natCast (c k : Nat) : (DecimalForm.mk c (-k)).denominator = 10 ^ k := by
  rw [DecimalForm.denominator, Int.neg_neg, Int.toNat_natCast]

/-- **The shortest form of a number given with few digits.** It has no more decimal places than the
decimal that the number is nearest to, and at most three times its digits, also where it ends in
zeros. -/
theorem shortest_of_readsBack (tie : TieRule) (hm : 0 < m.units) {c k : Nat}
    (hc : c ≤ 10 ^ (15 : Nat)) (hk : k ≤ 22) (h : m.readsBack (c * unitsPerOne) (10 ^ k) = true) :
    -(k : Int) ≤ (m.shortest tie).exponent ∧
      (m.shortest tie).coefficient * 10 ^ (m.shortest tie).exponent.toNat ≤ 3 * c := by
  obtain ⟨hlow, hhigh⟩ := coarsestExponent_bounds hm hc hk h
  rw [← numerator_neg_natCast c k, ← denominator_neg_natCast c k] at h
  have hgrid : (m.gridPoint? tie (-k)).isSome = true := isSome_gridPoint? (d := ⟨c, -k⟩) h
  have hexp : -(k : Int) ≤ (m.shortest tie).exponent := by
    rw [shortest, if_neg hm.ne']
    exact le_exponent_searchGrid hlow hhigh hgrid
  refine ⟨hexp, ?_⟩
  -- with its zeros the form is a decimal on a grid that is not coarser than one
  obtain ⟨d, hd⟩ : ∃ d, m.shortest tie = d := ⟨_, rfl⟩
  have hreads := m.readsBack_shortest tie
  rw [hd] at hexp hreads ⊢
  let filled : DecimalForm := ⟨d.coefficient * 10 ^ d.exponent.toNat, min d.exponent 0⟩
  have hnumerator : filled.numerator = d.numerator := by
    have hzero : (min d.exponent 0).toNat = 0 := by omega
    rw [DecimalForm.numerator, DecimalForm.numerator, hzero, Nat.pow_zero, Nat.one_mul,
      Nat.mul_assoc]
  have hdenominator : filled.denominator = d.denominator := by
    have hmin : (-min d.exponent 0).toNat = (-d.exponent).toNat := by omega
    rw [DecimalForm.denominator, DecimalForm.denominator, hmin]
  rw [← hnumerator, ← hdenominator] at hreads
  exact coefficient_le hm (d := ⟨c, -k⟩) (le_min hexp (by omega)) h hreads

end Magnitude

end CampusQuery
