/-!
# Division to the nearest whole number

A fraction `n / d` of natural numbers is taken to a whole number within half a unit of it. The two
functions differ only at a tie, a fraction that ends in exactly one half: `roundDivEven` goes to
the even neighbour, `roundDivUp` to the larger one. Either way the result is one of the two
neighbours of the fraction (`div_le_roundDivEven`, `roundDivEven_le`).
-/

namespace CampusQuery

/-- The whole number nearest to `n / d`; a tie goes to the even one. -/
def roundDivEven (n d : Nat) : Nat :=
  if 2 * (n % d) < d then n / d
  else if d < 2 * (n % d) then n / d + 1
  else n / d + n / d % 2

/-- The whole number nearest to `n / d`; a tie goes to the larger one. -/
def roundDivUp (n d : Nat) : Nat :=
  (2 * n + d) / (2 * d)

/-- Rounding does not go below the quotient. -/
theorem div_le_roundDivEven (n d : Nat) : n / d ≤ roundDivEven n d := by
  unfold roundDivEven
  split
  · exact Nat.le_refl _
  · split
    · exact Nat.le_succ _
    · exact Nat.le_add_right _ _

/-- Rounding does not go beyond the next whole number above the quotient. -/
theorem roundDivEven_le (n d : Nat) : roundDivEven n d ≤ n / d + 1 := by
  unfold roundDivEven
  split
  · exact Nat.le_succ _
  · split
    · exact Nat.le_refl _
    · have := Nat.mod_lt (n / d) (y := 2) (by decide)
      omega

/-- A fraction that is whole is its own rounding. -/
theorem roundDivEven_mul_right (n : Nat) {d : Nat} (hd : 0 < d) : roundDivEven (n * d) d = n := by
  simp [roundDivEven, hd]

end CampusQuery
