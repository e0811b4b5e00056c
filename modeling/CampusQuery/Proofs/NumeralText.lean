import CampusQuery.Json.Basic
import CampusQuery.Json.Token
import Mathlib.Tactic.IntervalCases

/-!
# The text of numbers and the numeral in it

Every number in JSON text is written as some numeral: an integer as its digits, any other finite
number as the digits of its shortest form with a point, an exponent, or both. `Numeral.spelling` is
the text of a numeral behind its sign, and `DecimalForm.json_eq_spelling` and
`integerText_eq_spelling` say of what is written that it is such a text.

A numeral is read back from its spelling whole, digit by digit, wherever the text behind it can not
go on the numeral (`Token.readNumeral?_spelling`). What the numeral is worth is another matter: an
integer of 64 bits is read as itself (`JsonNumber.ofNumeral_integerNumeral`), while the digits of
other numbers are rounded anew.
-/

namespace CampusQuery

/-- What may stand behind a number in JSON text without blanks: the end of the text, a comma, or the
end of a container. -/
def Ends (rest : List Char) : Prop :=
  ∀ c ∈ rest.head?, c = ',' ∨ c = ']' ∨ c = '\x7d'

@[simp] theorem ends_nil : Ends [] := by
  simp [Ends]

@[simp] theorem ends_comma (rest : List Char) : Ends (',' :: rest) := by
  simp [Ends]

@[simp] theorem ends_bracket (rest : List Char) : Ends (']' :: rest) := by
  simp [Ends]

@[simp] theorem ends_brace (rest : List Char) : Ends ('\x7d' :: rest) := by
  simp [Ends]

/-! ### Digits -/

theorem head_toDigits_ne_zero {n : Nat} (hn : 0 < n) : (Nat.toDigits 10 n).head? ≠ some '0' := by
  induction n using Nat.strong_induction_on with
  | _ n ih =>
    rcases Nat.lt_or_ge n 10 with hlt | hge
    · rw [Nat.toDigits_of_lt_base hlt]
      interval_cases n <;> decide
    · -- the first digit is that of the number without its last digit
      have hfront := ih (n / 10) (by omega) (by omega)
      obtain ⟨c, digits, hdigits⟩ : ∃ c digits, Nat.toDigits 10 (n / 10) = c :: digits :=
        List.exists_cons_of_ne_nil Nat.toDigits_ne_nil
      rw [hdigits] at hfront
      rw [Nat.toDigits_of_base_le (by decide) hge, hdigits]
      exact hfront

theorem digitsValue_toDigits (n : Nat) : digitsValue (Nat.toDigits 10 n) = n := by
  have h := Nat.ofDigitChars_toDigits (b := 10) (n := n) (by decide) (by decide)
  simpa [digitsValue, Nat.ofDigitChars, digitValue, Nat.mul_comm] using h

/-! ### Spelling -/

/-- Decimal places behind their point, if there are any. -/
def fractionText : List Char → List Char
  | [] => []
  | fraction => '.' :: fraction

/-- An exponent with its sign, if there is one. -/
def powerText : Option Int → List Char
  | none => []
  | some p => 'e' :: (if p < 0 then '-' else '+') :: Nat.toDigits 10 p.natAbs

namespace Numeral

/-- The text of a numeral behind its sign. -/
def spelling (n : Numeral) : List Char :=
  n.whole ++ (fractionText n.fraction ++ powerText n.power)

/-- A numeral as JSON text has it. -/
structure Plain (n : Numeral) : Prop where
  /-- There are digits before the point. -/
  nonempty : n.whole ≠ []
  /-- They do not begin with a needless zero. -/
  noZero : n.whole.head? = some '0' → n.whole = ['0']
  /-- They are digits. -/
  whole : ∀ c ∈ n.whole, c.isDigit = true
  /-- So are those behind the point. -/
  fraction : ∀ c ∈ n.fraction, c.isDigit = true

end Numeral

namespace Token

/-- The digits at the front of a text end where no digit follows. -/
theorem splitDigits_append {digits rest : List Char} (hdigits : ∀ c ∈ digits, c.isDigit = true)
    (hrest : ∀ c ∈ rest.head?, c.isDigit = false) :
    splitDigits (digits ++ rest) = (digits, rest) := by
  have hfirst : rest.takeWhile Char.isDigit = [] ∧ rest.dropWhile Char.isDigit = rest := by
    cases rest with
    | nil => simp
    | cons c rest => simp [hrest c rfl]
  rw [splitDigits, List.takeWhile_append_of_pos hdigits, List.dropWhile_append_of_pos hdigits,
    hfirst.1, hfirst.2, List.append_nil]

theorem readPower?_powerText (power : Option Int) {rest : List Char} (hrest : Ends rest) :
    readPower? (powerText power ++ rest) = some (power, rest) := by
  cases power with
  | none =>
    cases rest with
    | nil => rfl
    | cons c rest =>
      rcases hrest c rfl with rfl | rfl | rfl <;> rfl
  | some p =>
    have hdigits : splitDigits (Nat.toDigits 10 p.natAbs ++ rest) =
        (Nat.toDigits 10 p.natAbs, rest) := by
      refine splitDigits_append (fun c => Nat.isDigit_of_mem_toDigits (by decide) (by decide)) ?_
      intro c hc
      rcases hrest c hc with rfl | rfl | rfl <;> rfl
    have hvalue := digitsValue_toDigits p.natAbs
    by_cases hp : p < 0
    · simp [powerText, readPower?, splitSign, hp, hdigits, hvalue, Nat.toDigits_ne_nil,
        abs_of_neg hp]
    · simp [powerText, readPower?, splitSign, hp, hdigits, hvalue, Nat.toDigits_ne_nil]
      omega

/-- **A numeral is read back from its spelling.** -/
theorem readNumeral?_spelling {n : Numeral} (hn : n.Plain) {rest : List Char} (hrest : Ends rest) :
    readNumeral? n.negative (n.spelling ++ rest) = some (n, rest) := by
  -- neither an exponent nor what follows the number is a digit or a point
  have hpower : ∀ c ∈ (powerText n.power ++ rest).head?, c.isDigit = false ∧ c ≠ '.' := by
    intro c hc
    cases hp : n.power with
    | none =>
      rw [hp] at hc
      rcases hrest c hc with rfl | rfl | rfl <;> decide
    | some p =>
      rw [hp] at hc
      obtain rfl : 'e' = c := Option.some.inj hc
      decide
  have hfraction : readFraction? (fractionText n.fraction ++ (powerText n.power ++ rest)) =
      some (n.fraction, powerText n.power ++ rest) := by
    cases hf : n.fraction with
    | nil =>
      rw [fractionText, List.nil_append, readFraction?]
      intro more hmore
      exact (hpower '.' (by rw [hmore]; rfl)).2 rfl
    | cons c fraction =>
      have hdigits : splitDigits ((c :: fraction) ++ (powerText n.power ++ rest)) =
          (c :: fraction, powerText n.power ++ rest) :=
        splitDigits_append (fun d hd => hn.fraction d (hf ▸ hd)) fun d hd => (hpower d hd).1
      rw [List.cons_append] at hdigits
      simp [fractionText, readFraction?, hdigits]
  have hwhole : splitDigits (n.spelling ++ rest) =
      (n.whole, fractionText n.fraction ++ (powerText n.power ++ rest)) := by
    rw [Numeral.spelling, List.append_assoc, List.append_assoc]
    refine splitDigits_append hn.whole fun c hc => ?_
    cases hf : n.fraction with
    | nil =>
      rw [hf] at hc
      exact (hpower c hc).1
    | cons d fraction =>
      rw [hf] at hc
      obtain rfl : '.' = c := Option.some.inj hc
      rfl
  have hform : ¬(n.whole = [] ∨ n.whole.head? = some '0' ∧ n.whole ≠ ['0']) :=
    not_or.2 ⟨hn.nonempty, fun h => h.2 (hn.noZero h.1)⟩
  simp only [readNumeral?, hwhole, if_neg hform, hfraction, Option.bind_some,
    readPower?_powerText _ hrest, Option.map_some]

end Token

/-! ### Integers -/

/-- The numeral that an integer is written as. -/
def integerNumeral (i : Int) : Numeral :=
  ⟨decide (i < 0), Nat.toDigits 10 i.natAbs, [], none⟩

theorem integerText_eq_spelling (i : Int) :
    integerText i = signText (integerNumeral i).negative ++ (integerNumeral i).spelling := by
  simp [integerText, integerNumeral, Numeral.spelling, fractionText, powerText]

theorem plain_integerNumeral (i : Int) : (integerNumeral i).Plain where
  nonempty := Nat.toDigits_ne_nil
  noZero := by
    intro h
    rcases Nat.eq_zero_or_pos i.natAbs with hzero | hpos
    · simp [integerNumeral, hzero]
    · exact absurd h (head_toDigits_ne_zero hpos)
  whole := fun c => Nat.isDigit_of_mem_toDigits (by decide) (by decide)
  fraction := by simp [integerNumeral]

/-- A number only grows with the digits put behind it. -/
theorem le_foldl_digits (digits : List Char) (word : Nat) :
    word ≤ digits.foldl (fun total c => total * 10 + digitValue c) word := by
  induction digits generalizing word with
  | nil => exact Nat.le_refl word
  | cons c digits ih =>
    have hnext := ih (word * 10 + digitValue c)
    rw [List.foldl_cons]
    omega

/-- Digits whose number fits a word are all taken. -/
theorem fillWord_eq {digits : List Char} {word : Nat}
    (h : digits.foldl (fun total c => total * 10 + digitValue c) word < wordBound) :
    fillWord word digits = (digits.foldl (fun total c => total * 10 + digitValue c) word, []) := by
  induction digits generalizing word with
  | nil => rfl
  | cons c digits ih =>
    have hnext : word * 10 + digitValue c < wordBound :=
      Nat.lt_of_le_of_lt (le_foldl_digits digits _) h
    rw [fillWord, if_pos hnext, ih h, List.foldl_cons]

/-- An integer of 64 bits is read as itself. -/
theorem JsonNumber.ofNumeral_integerNumeral {i : Int} (hlow : -Binary64.int64Bound ≤ i)
    (hhigh : i < wordBound) : JsonNumber.ofNumeral (integerNumeral i) = .integer i := by
  have hvalue := digitsValue_toDigits i.natAbs
  have hsize : i.natAbs < wordBound := by
    simp only [Binary64.int64Bound, wordBound] at hlow hhigh ⊢
    omega
  have hfill : fillWord 0 (Nat.toDigits 10 i.natAbs) = (i.natAbs, []) := by
    rw [digitsValue] at hvalue
    rw [fillWord_eq (by rw [hvalue]; exact hsize), hvalue]
  have hdecimal : WordDecimal.ofNumeral (integerNumeral i) = ⟨i.natAbs, 0, hsize⟩ := by
    simp [WordDecimal.ofNumeral, integerNumeral, hfill, fillWord]
  have hsign : (if (integerNumeral i).negative then -(i.natAbs : Int) else i.natAbs) = i := by
    rw [integerNumeral]
    split <;> simp only [decide_eq_true_eq] at * <;> omega
  simp only [ofNumeral, hdecimal, hsign]
  refine if_pos ⟨rfl, trivial, hlow, ?_⟩
  rintro ⟨hneg, rfl⟩
  exact nomatch hneg

/-! ### Shortest forms -/

namespace DecimalForm

/-- The numeral that a decimal is written as in JSON text. -/
def numeral (negative : Bool) (d : DecimalForm) : Numeral :=
  if -5 ≤ d.leading ∧ d.leading ≤ 15 then
    if 0 ≤ d.exponent then
      ⟨negative, d.digits ++ List.replicate d.exponent.toNat '0', ['0'], none⟩
    else
      let places := (-d.exponent).toNat
      if places < d.digits.length then
        ⟨negative, d.digits.take (d.digits.length - places),
          d.digits.drop (d.digits.length - places), none⟩
      else ⟨negative, ['0'], List.replicate (places - d.digits.length) '0' ++ d.digits, none⟩
  else ⟨negative, d.digits.take 1, d.digits.tail, some d.leading⟩

theorem digits_ne_nil (d : DecimalForm) : d.digits ≠ [] :=
  Nat.toDigits_ne_nil

theorem isDigit_of_mem_digits {d : DecimalForm} {c : Char} (h : c ∈ d.digits) :
    c.isDigit = true :=
  Nat.isDigit_of_mem_toDigits (by decide) (by decide) h

theorem fractionText_of_ne_nil {fraction : List Char} (h : fraction ≠ []) :
    fractionText fraction = '.' :: fraction := by
  cases fraction with
  | nil => exact absurd rfl h
  | cons c fraction => rfl

theorem json_eq_spelling (negative : Bool) (d : DecimalForm) :
    d.json = (d.numeral negative).spelling := by
  have hdigits := d.digits_ne_nil
  rw [json, numeral]
  split
  · split
    · next hexp => simp [plain, hexp, Numeral.spelling, fractionText, powerText]
    · next hexp =>
      rw [plain, if_neg hexp]
      dsimp only
      split
      · next hplaces =>
        have hdrop : d.digits.drop (d.digits.length - (-d.exponent).toNat) ≠ [] := by
          rw [Ne, List.drop_eq_nil_iff]
          omega
        simp [Numeral.spelling, fractionText_of_ne_nil hdrop, powerText]
      · have hzeros : List.replicate ((-d.exponent).toNat - d.digits.length) '0' ++ d.digits ≠ [] :=
          fun h => hdigits (List.append_eq_nil_iff.1 h).2
        simp only [Numeral.spelling, fractionText_of_ne_nil hzeros, powerText]
        simp
  · rw [scientific]
    simp only [Numeral.spelling, powerText]
    cases d.digits.tail <;> by_cases hlead : d.leading < 0 <;> simp [fractionText, hlead]

/-- A decimal that is not zero is written as a plain numeral. -/
theorem plain_numeral (negative : Bool) {d : DecimalForm} (hd : 0 < d.coefficient) :
    (d.numeral negative).Plain := by
  have hhead := head_toDigits_ne_zero hd
  have hdigit : ∀ c ∈ d.digits, c.isDigit = true := fun c => isDigit_of_mem_digits
  have hdigits := d.digits_ne_nil
  -- no front part of the digits begins with a zero
  have hfront : ∀ front back, front ++ back = d.digits → front.head? = some '0' →
      front = ['0'] := by
    intro front back hsplit hzero
    refine absurd ?_ hhead
    rw [← digits, ← hsplit, List.head?_append, hzero]
    rfl
  have htake : ∀ n, 0 < n → d.digits.take n ≠ [] := by
    intro n hn h
    rcases List.take_eq_nil_iff.1 h with h | h
    · omega
    · exact hdigits h
  rw [numeral]
  split
  · split
    · refine ⟨?_, ?_, ?_, by simp⟩
      · simp [hdigits]
      · intro h
        refine absurd ?_ hhead
        obtain ⟨c, rest, hc⟩ := List.exists_cons_of_ne_nil hdigits
        rw [← digits, hc]
        rwa [hc] at h
      · intro c hc
        rcases List.mem_append.1 hc with hc | hc
        · exact hdigit c hc
        · rw [List.eq_of_mem_replicate hc]
          rfl
    · dsimp only
      split
      · exact ⟨htake _ (by omega), hfront _ _ (List.take_append_drop _ _),
          fun c hc => hdigit c (List.mem_of_mem_take hc),
          fun c hc => hdigit c (List.mem_of_mem_drop hc)⟩
      · refine ⟨by simp, fun _ => rfl, by simp, fun c hc => ?_⟩
        rcases List.mem_append.1 hc with hc | hc
        · rw [List.eq_of_mem_replicate hc]
          rfl
        · exact hdigit c hc
  · exact ⟨htake 1 (by decide), hfront _ _ (List.take_append_drop _ _),
      fun c hc => hdigit c (List.mem_of_mem_take hc),
      fun c hc => hdigit c (List.mem_of_mem_tail hc)⟩

end DecimalForm

end CampusQuery
