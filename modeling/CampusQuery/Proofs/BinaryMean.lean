import CampusQuery.Execution.Aggregate
import CampusQuery.Proofs.RoundedResults
import Mathlib.Algebra.Order.BigOperators.Group.List
import Mathlib.Data.List.Induction

/-!
# Means in binary

A list without a decimal sum is summed in binary, and every step rounds. What a running sum can lose
is the same for all number formats (`runningSum_step`): a step that is off by a part `u` of its
exact result and by no more than some multiple of the term that it adds leaves the sum within
`n * u` of the sizes added, up to that multiple, whatever the length `n`. In binary the part is
`2 ^ -53`, and the multiple is one, since the sum so far is a number that the step could have
returned (`Binary64.binarySum_bounds`).

The mean is then rounded four more times: the quotient, the product with a hundred, the integer, and
the hundredth of it. All of them together keep a mean within half a hundredth and some parts of
`2 ^ -52` of the sizes in the list (`Binary64.abs_binaryMean_sub_le`). What is not finite stays so
in each of these operations, so a finite result has been finite throughout.
-/

namespace CampusQuery

/-! ### Running sums -/

/-- A sum of terms that are no more than a bound. -/
theorem sum_map_le_length_mul {α : Type*} {v : α → ℚ} {l : List α} {top : ℚ}
    (h : ∀ x ∈ l, v x ≤ top) : (l.map v).sum ≤ l.length * top := by
  have hsum := List.sum_le_card_nsmul _ top (List.forall_mem_map.2 h)
  rwa [List.length_map, nsmul_eq_mul] at hsum

theorem length_mul_le_sum_map {α : Type*} {v : α → ℚ} {l : List α} {bottom : ℚ}
    (h : ∀ x ∈ l, bottom ≤ v x) : l.length * bottom ≤ (l.map v).sum := by
  have hsum := List.card_nsmul_le_sum _ bottom (List.forall_mem_map.2 h)
  rwa [List.length_map, nsmul_eq_mul] at hsum

theorem abs_sum_map_le {α : Type*} (v : α → ℚ) (l : List α) :
    |(l.map v).sum| ≤ (l.map fun x => |v x|).sum := by
  induction l with
  | nil => simp
  | cons x l ih =>
    have hsum := abs_add_le (v x) (l.map v).sum
    simp only [List.map_cons, List.sum_cons]
    linarith

/-- **One step of a running sum** `s` that is near to the exact sum `e` of terms of sizes `a`. -/
theorem runningSum_step {u c s e a x s' : ℚ} {n : Nat} (hu : 0 ≤ u) (hc : 0 ≤ c)
    (hsize : |s| ≤ (1 + c) * a) (herror : |s - e| ≤ n * u * ((1 + c) * a))
    (hpart : |s' - (s + x)| ≤ u * |s + x|) (hterm : |s' - (s + x)| ≤ c * |x|) :
    |s'| ≤ (1 + c) * (a + |x|) ∧
      |s' - (e + x)| ≤ (n + 1 : Nat) * u * ((1 + c) * (a + |x|)) := by
  have hx := abs_nonneg x
  have hsum := abs_add_le s x
  have hcx : 0 ≤ c * |x| := mul_nonneg hc hx
  have hmore : |s + x| ≤ (1 + c) * (a + |x|) := by linarith
  constructor
  · -- the result is off by a multiple of the term
    calc |s'| = |s' - (s + x) + (s + x)| := by rw [sub_add_cancel]
      _ ≤ |s' - (s + x)| + |s + x| := abs_add_le _ _
      _ ≤ (1 + c) * (a + |x|) := by linarith
  · -- the new error is a part of a sum that is no larger than the sizes
    have hold : n * u * ((1 + c) * a) ≤ n * u * ((1 + c) * (a + |x|)) := by
      gcongr
      linarith
    have hnew : u * |s + x| ≤ u * ((1 + c) * (a + |x|)) := mul_le_mul_of_nonneg_left hmore hu
    calc |s' - (e + x)| = |(s' - (s + x)) + (s - e)| := by ring_nf
      _ ≤ |s' - (s + x)| + |s - e| := abs_add_le _ _
      _ ≤ u * ((1 + c) * (a + |x|)) + n * u * ((1 + c) * (a + |x|)) := by linarith
      _ = (n + 1 : Nat) * u * ((1 + c) * (a + |x|)) := by
        push_cast
        ring

namespace Binary64

variable {q : ℚ} {x y : Binary64} {xs : List Binary64}

/-! ### What is finite in the end has been finite before -/

theorem isFinite_of_add (h : (x.add y).isFinite = true) :
    x.isFinite = true ∧ y.isFinite = true := by
  cases x with
  | nan => cases h
  | infinite s =>
    cases y with
    | nan => cases h
    | infinite t =>
      rw [add] at h
      split at h <;> cases h
    | finite t n => cases h
  | finite s m =>
    cases y with
    | nan => cases h
    | infinite t => cases h
    | finite t n => exact ⟨rfl, rfl⟩

theorem isFinite_of_scale {n d : Nat} (h : (x.scale n d).isFinite = true) : x.isFinite = true := by
  cases x with
  | nan => cases h
  | infinite s => cases h
  | finite s m => rfl

theorem isFinite_of_roundToInt (h : x.roundToInt.isFinite = true) : x.isFinite = true := by
  cases x with
  | nan => cases h
  | infinite s => cases h
  | finite s m => rfl

/-! ### Sums -/

theorem binarySum_concat (xs : List Binary64) (x : Binary64) :
    binarySum (xs ++ [x]) = (binarySum xs).add x := by
  rw [binarySum, List.foldl_append]
  rfl

/-- The values of a list, summed. -/
def exactSum (xs : List Binary64) : ℚ :=
  (xs.map toRat).sum

/-- The sizes of a list, summed. -/
def sizeSum (xs : List Binary64) : ℚ :=
  (xs.map fun x => |x.toRat|).sum

theorem exactSum_concat (xs : List Binary64) (x : Binary64) :
    exactSum (xs ++ [x]) = exactSum xs + x.toRat := by
  simp [exactSum]

theorem sizeSum_concat (xs : List Binary64) (x : Binary64) :
    sizeSum (xs ++ [x]) = sizeSum xs + |x.toRat| := by
  simp [sizeSum]

theorem sizeSum_nonneg (xs : List Binary64) : 0 ≤ sizeSum xs :=
  List.sum_nonneg (List.forall_mem_map.2 fun _ _ => abs_nonneg _)

theorem abs_exactSum_le (xs : List Binary64) : |exactSum xs| ≤ sizeSum xs :=
  abs_sum_map_le _ _

/-- A rounded sum of two numbers is off by a part of `2 ^ 53`, and by no more than either number. -/
theorem abs_toRat_add_sub_le (h : (x.add y).isFinite = true) :
    |(x.add y).toRat - (x.toRat + y.toRat)| ≤ 1 / 2 ^ 53 * |x.toRat + y.toRat| ∧
      |(x.add y).toRat - (x.toRat + y.toRat)| ≤ 1 * |y.toRat| := by
  obtain ⟨hx, hy⟩ := isFinite_of_add h
  have hnear := isNearest_add hx hy
  constructor
  · have hunits : x.toRat + y.toRat =
        (x.signedUnits + y.signedUnits : ℤ) * 2 ^ (-1074 : ℤ) := by
      rw [toRat, toRat, Int.cast_add, add_mul]
    have herror := hnear.error_of_units h hunits
    linarith
  · -- the first of the two is a number as well
    have hfirst := hnear.abs_sub_le h hx
    rwa [sub_add_cancel_left, abs_neg, ← one_mul |y.toRat|] at hfirst

/-- **The binary sum of a list.** It is off by a part of `2 ^ 52` of the sizes for each number, and
at most twice as large as they are. -/
theorem binarySum_bounds (h : (binarySum xs).isFinite = true) :
    |(binarySum xs).toRat| ≤ 2 * sizeSum xs ∧
      |(binarySum xs).toRat - exactSum xs| ≤ xs.length / 2 ^ 52 * sizeSum xs := by
  have hrun : |(binarySum xs).toRat| ≤ (1 + 1) * sizeSum xs ∧
      |(binarySum xs).toRat - exactSum xs| ≤
        xs.length * (1 / 2 ^ 53) * ((1 + 1) * sizeSum xs) := by
    induction xs using List.reverseRecOn with
    | nil =>
      have hzero : (binarySum []).toRat = 0 := by decide +kernel
      rw [hzero]
      simp [exactSum, sizeSum]
    | append_singleton xs x ih =>
      rw [binarySum_concat] at h ⊢
      obtain ⟨hpart, hterm⟩ := abs_toRat_add_sub_le h
      obtain ⟨hsize, herror⟩ := ih (isFinite_of_add h).1
      rw [exactSum_concat, sizeSum_concat, List.length_append, List.length_singleton]
      exact runningSum_step (by positivity) zero_le_one hsize herror hpart hterm
  obtain ⟨hsize, herror⟩ := hrun
  refine ⟨by linarith, herror.trans_eq ?_⟩
  ring

/-- A sum of finite numbers is finite if their sizes do not come near the end of the format. -/
theorem isFinite_binarySum (hfinite : ∀ x ∈ xs, x.isFinite = true)
    (hsizes : sizeSum xs ≤ moderateSize) : (binarySum xs).isFinite = true := by
  induction xs using List.reverseRecOn with
  | nil => decide +kernel
  | append_singleton xs x ih =>
    have hx : x.isFinite = true := hfinite x (List.mem_append_right _ (List.mem_singleton_self x))
    have hsize := abs_nonneg x.toRat
    rw [sizeSum_concat] at hsizes
    have hbefore := ih (fun y hy => hfinite y (List.mem_append_left _ hy)) (by linarith)
    have hsum := (binarySum_bounds hbefore).1
    rw [binarySum_concat]
    refine (isNearest_add hbefore hx).isFinite_of_moderate ?_
    calc |(binarySum xs).toRat + x.toRat|
        ≤ |(binarySum xs).toRat| + |x.toRat| := abs_add_le _ _
      _ ≤ 1000 * moderateSize := by linarith [moderateSize_ge]

/-! ### Hundredths -/

/-- A whole number of times a number is off by a part of `2 ^ 53`: it is a whole count of units. -/
theorem abs_toRat_scale_natCast_sub_le (n : Nat) (h : (x.scale n 1).isFinite = true) :
    |(x.scale n 1).toRat - n * x.toRat| ≤ n * |x.toRat| / 2 ^ 53 := by
  have hnear := isNearest_scale (isFinite_of_scale h) n (d := 1) (by decide)
  have hunits : x.toRat * n / (1 : Nat) = (x.signedUnits * n : ℤ) * 2 ^ (-1074 : ℤ) := by
    rw [toRat, Int.cast_mul, Int.cast_natCast]
    generalize (2 : ℚ) ^ (-1074 : ℤ) = unit
    push_cast
    ring
  have hvalue : x.toRat * n / (1 : Nat) = n * x.toRat := by
    push_cast
    ring
  have herror := hnear.error_of_units h hunits
  rwa [hvalue, abs_mul, Nat.abs_cast] at herror

/-- A quotient is off by a part of `2 ^ 53`, and by next to nothing near zero. -/
theorem abs_toRat_scale_sub_le {n : Nat} (hn : 0 < n) (h : (x.scale 1 n).isFinite = true) :
    |(x.scale 1 n).toRat - x.toRat / n| ≤ |x.toRat / n| / 2 ^ 53 + 1 / 10 ^ 6 := by
  have hnear := isNearest_scale (isFinite_of_scale h) 1 hn
  rw [Nat.cast_one, mul_one] at hnear
  exact hnear.error_le h

/-- **Rounding to hundredths in binary** is off by half a hundredth and three parts of `2 ^ 53`, and
by little more where the number is small. -/
theorem abs_roundToHundredths_sub_le (h : x.roundToHundredths.isFinite = true) :
    |x.roundToHundredths.toRat - x.toRat| ≤ 3 / 2 ^ 53 * |x.toRat| + 6 / 1000 := by
  rw [roundToHundredths] at h ⊢
  obtain ⟨v, hv⟩ : ∃ v, x.scale 100 1 = v := ⟨_, rfl⟩
  obtain ⟨w, hw⟩ : ∃ w, v.roundToInt = w := ⟨_, rfl⟩
  rw [hv, hw] at h ⊢
  have hwfinite := isFinite_of_scale h
  have hvfinite : v.isFinite = true := isFinite_of_roundToInt (hw ▸ hwfinite)
  have hproduct :=
    abs_toRat_scale_natCast_sub_le 100 (hv ▸ hvfinite : (x.scale 100 1).isFinite = true)
  have hinteger := (roundToInt_spec hvfinite).2.2
  have hquotient := abs_toRat_scale_sub_le (by decide : 0 < 100) h
  rw [hv] at hproduct
  rw [hw] at hinteger
  have hsize : |w.toRat / (100 : Nat)| = |w.toRat| / 100 := by
    rw [abs_div, Nat.abs_cast]
    norm_num
  rw [hsize] at hquotient
  -- the integer is not much larger than a hundred times the number
  have hw' : |w.toRat| ≤ 100 * |x.toRat| + 100 * |x.toRat| / 2 ^ 53 + 1 / 2 := by
    have hscaled : |100 * x.toRat| = 100 * |x.toRat| := by
      rw [abs_mul, abs_of_pos (by norm_num : (0 : ℚ) < 100)]
    have hfirst := abs_sub_abs_le_abs_sub w.toRat v.toRat
    have hsecond := abs_sub_abs_le_abs_sub v.toRat (100 * x.toRat)
    linarith
  have hsplit : (w.scale 1 100).toRat - x.toRat =
      ((w.scale 1 100).toRat - w.toRat / (100 : Nat)) + (w.toRat - v.toRat) / 100 +
        (v.toRat - 100 * x.toRat) / 100 := by
    push_cast
    ring
  have hinteger' : |(w.toRat - v.toRat) / 100| ≤ 1 / 200 := by
    rw [abs_div, abs_of_pos (by norm_num : (0 : ℚ) < 100)]
    linarith
  have hproduct' : |(v.toRat - 100 * x.toRat) / 100| ≤ |x.toRat| / 2 ^ 53 := by
    rw [abs_div, abs_of_pos (by norm_num : (0 : ℚ) < 100)]
    linarith
  have hx := abs_nonneg x.toRat
  rw [hsplit]
  refine (abs_add_three _ _ _).trans ?_
  linarith

/-- A quotient by a positive whole number is no larger. -/
theorem abs_mul_one_div_le (q : ℚ) {n : Nat} (hn : 0 < n) : |q * (1 : Nat) / n| ≤ |q| := by
  rw [Nat.cast_one, mul_one, abs_div, Nat.abs_cast]
  exact div_le_self (abs_nonneg q) (by exact_mod_cast hn)

/-- A hundred times the number has to be in the format. -/
theorem isFinite_roundToHundredths (hx : x.isFinite = true)
    (hsize : |x.toRat| ≤ 3 * moderateSize) : x.roundToHundredths.isFinite = true := by
  have hmoderate := moderateSize_ge
  have hscaled : |100 * x.toRat| = 100 * |x.toRat| := by
    rw [abs_mul, abs_of_pos (by norm_num : (0 : ℚ) < 100)]
  have hproduct : (x.scale 100 1).isFinite = true := by
    refine (isNearest_scale hx 100 (by decide)).isFinite_of_moderate ?_
    rw [Nat.cast_one, div_one, mul_comm, Nat.cast_ofNat, hscaled]
    linarith
  have hproductNear := abs_toRat_scale_natCast_sub_le 100 hproduct
  obtain ⟨hinteger, -, hintegerNear⟩ := roundToInt_spec hproduct
  rw [roundToHundredths]
  refine (isNearest_scale hinteger 1 (by decide)).isFinite_of_moderate
    ((abs_mul_one_div_le _ (by decide)).trans ?_)
  have hfirst := abs_sub_abs_le_abs_sub (x.scale 100 1).toRat (100 * x.toRat)
  have hsecond := abs_sub_abs_le_abs_sub (x.scale 100 1).roundToInt.toRat (x.scale 100 1).toRat
  linarith

/-! ### Means -/

/-- The mean that is taken in binary. -/
def binaryMean (xs : List Binary64) : Binary64 :=
  ((binarySum xs).scale 1 xs.length).roundToHundredths

theorem mean_of_decimalMean?_eq_none (h : decimalMean? xs = none) : mean xs = binaryMean xs := by
  rw [mean, h]
  rfl

theorem isFinite_of_roundToHundredths (h : x.roundToHundredths.isFinite = true) :
    x.isFinite = true := by
  rw [roundToHundredths] at h
  exact isFinite_of_scale (isFinite_of_roundToInt (isFinite_of_scale h))

theorem sizeSum_le {bound : ℚ} (h : ∀ x ∈ xs, |x.toRat| ≤ bound) :
    sizeSum xs ≤ xs.length * bound :=
  sum_map_le_length_mul h

/-- **A binary mean is near to the mean of the values.** -/
theorem abs_binaryMean_sub_le {bound : ℚ} (hne : xs ≠ [])
    (hbound : ∀ x ∈ xs, |x.toRat| ≤ bound) (h : (binaryMean xs).isFinite = true) :
    |(binaryMean xs).toRat - exactSum xs / xs.length| ≤
      (xs.length + 5) / 2 ^ 52 * bound + 7 / 1000 := by
  have hlength : 0 < xs.length := List.length_pos_iff.2 hne
  have hn : (0 : ℚ) < xs.length := Nat.cast_pos.2 hlength
  rw [binaryMean] at h ⊢
  have hv := isFinite_of_roundToHundredths h
  have hhundredths := abs_roundToHundredths_sub_le h
  have hquotient := abs_toRat_scale_sub_le hlength hv
  obtain ⟨hsize, herror⟩ := binarySum_bounds (isFinite_of_scale hv)
  have hsizes := sizeSum_le hbound
  generalize (binarySum xs).scale 1 xs.length = v at *
  generalize (binarySum xs).toRat = s at *
  -- divided by their number, the sizes are within the bound
  have hmean : |s / xs.length| ≤ 2 * bound := by
    rw [abs_div, Nat.abs_cast, div_le_iff₀ hn]
    linarith
  have hexact : |s / xs.length - exactSum xs / xs.length| ≤ xs.length / 2 ^ 52 * bound := by
    have hlast : xs.length / 2 ^ 52 * sizeSum xs ≤ xs.length / 2 ^ 52 * (xs.length * bound) :=
      mul_le_mul_of_nonneg_left hsizes (by positivity)
    rw [← sub_div, abs_div, Nat.abs_cast, div_le_iff₀ hn]
    linarith
  have hnear : |v.toRat| ≤ |s / xs.length| + (|s / xs.length| / 2 ^ 53 + 1 / 10 ^ 6) := by
    have hback := abs_sub_abs_le_abs_sub v.toRat (s / xs.length)
    linarith
  have hpos : 0 ≤ bound := by linarith [abs_nonneg (s / xs.length)]
  calc |v.roundToHundredths.toRat - exactSum xs / xs.length|
      = |(v.roundToHundredths.toRat - v.toRat) + (v.toRat - s / xs.length) +
          (s / xs.length - exactSum xs / xs.length)| := by ring_nf
    _ ≤ |v.roundToHundredths.toRat - v.toRat| + |v.toRat - s / xs.length| +
          |s / xs.length - exactSum xs / xs.length| := abs_add_three _ _ _
    _ ≤ (xs.length + 5) / 2 ^ 52 * bound + 7 / 1000 := by linarith

/-- **A binary mean is finite** if the numbers are not near the end of the format. -/
theorem isFinite_binaryMean (hne : xs ≠ []) (hfinite : ∀ x ∈ xs, x.isFinite = true)
    (hsizes : sizeSum xs ≤ moderateSize) : (binaryMean xs).isFinite = true := by
  have hlength : 0 < xs.length := List.length_pos_iff.2 hne
  have hmoderate := moderateSize_ge
  have hsum := isFinite_binarySum hfinite hsizes
  have hsize := (binarySum_bounds hsum).1
  have hsmaller := abs_mul_one_div_le (binarySum xs).toRat hlength
  have hquotient : ((binarySum xs).scale 1 xs.length).isFinite = true :=
    (isNearest_scale hsum 1 hlength).isFinite_of_moderate (by linarith)
  refine isFinite_roundToHundredths hquotient ?_
  have hnear := abs_toRat_scale_sub_le hlength hquotient
  have hback := abs_sub_abs_le_abs_sub ((binarySum xs).scale 1 xs.length).toRat
    ((binarySum xs).toRat / xs.length)
  rw [Nat.cast_one, mul_one] at hsmaller
  linarith

end Binary64

end CampusQuery
