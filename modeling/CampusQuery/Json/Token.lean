import CampusQuery.Number.Text

/-!
# Tokens of JSON text

A JSON text is cut into tokens from left to right. The first place where no token can be read ends
the list with the token `bad`, so a list of tokens says how far a text is well formed and what
stands there.

What a token says is kept without judging it: a `Numeral` may be beyond every number, and the
escapes of a string may name surrogates that do not pair up, in which case it has no text. Whether
that matters depends on whether the value is used.
-/

namespace CampusQuery

/-- A token of a JSON text. -/
inductive Token where
  | openBrace
  | closeBrace
  | openBracket
  | closeBracket
  | colon
  | comma
  | null
  | bool (b : Bool)
  | number (n : Numeral)
  /-- A string, without a text when its escapes form none. -/
  | string (s : Option String)
  /-- No token can be read here. -/
  | bad
deriving DecidableEq

namespace Token

/-- The characters that may stand between tokens. -/
def isBlank (c : Char) : Bool :=
  c == ' ' || c == '\t' || c == '\n' || c == '\r'

/-! ### Numbers -/

/-- The digits at the front of a text, and the rest. -/
def splitDigits (text : List Char) : List Char × List Char :=
  (text.takeWhile Char.isDigit, text.dropWhile Char.isDigit)

/-- The optional decimal places at the front of a text, and the rest; a point needs a digit. -/
def readFraction? : List Char → Option (List Char × List Char)
  | '.' :: rest =>
    if (splitDigits rest).1 = [] then none else some (splitDigits rest)
  | rest => some ([], rest)

/-- The optional exponent at the front of a text, and the rest; its letter needs a digit. -/
def readPower? : List Char → Option (Option Int × List Char)
  | [] => some (none, [])
  | e :: rest =>
    if e = 'e' ∨ e = 'E' then
      let signed := splitSign rest
      let power := splitDigits signed.2
      if power.1 = [] then none
      else
        let size : Int := digitsValue power.1
        some (some (if signed.1 then -size else size), power.2)
    else
      some (none, e :: rest)

/-- The numeral at the front of a text after its sign, and the rest. The digits before the point
do not begin with a needless zero. -/
def readNumeral? (negative : Bool) (text : List Char) : Option (Numeral × List Char) :=
  let whole := splitDigits text
  if whole.1 = [] ∨ (whole.1.head? = some '0' ∧ whole.1 ≠ ['0']) then none
  else
    (readFraction? whole.2).bind fun fraction =>
      (readPower? fraction.2).map fun power =>
        (⟨negative, whole.1, fraction.1, power.1⟩, power.2)

/-! ### Strings -/

/-- What a reader of a string is in the middle of. -/
inductive StringState where
  /-- Between characters. -/
  | plain
  /-- Behind a backslash. -/
  | escape
  /-- Behind `\u` and some of its four digits: how many are to come, and the value so far. -/
  | unit (missing : Nat) (value : Nat)

/-- A string as far as it has been read. -/
structure PartialString where
  /-- The characters, last one first. -/
  reversed : List Char
  /-- A first surrogate that waits for the second of its pair. -/
  pending : Option Nat
  /-- Whether all surrogates before have paired up. -/
  sound : Bool

namespace PartialString

/-- The string before its first character. -/
def start : PartialString := ⟨[], none, true⟩

/-- One more character; a surrogate that waited for its second stays alone. -/
def push (p : PartialString) (c : Char) : PartialString :=
  ⟨c :: p.reversed, none, p.sound && p.pending.isNone⟩

/-- One more sixteen-bit unit from an escape: a character, or half of a surrogate pair. -/
def pushUnit (p : PartialString) (unit : Nat) : PartialString :=
  if 0xD800 ≤ unit ∧ unit < 0xDC00 then
    ⟨p.reversed, some unit, p.sound && p.pending.isNone⟩
  else if 0xDC00 ≤ unit ∧ unit < 0xE000 then
    match p.pending with
    | some first =>
      ⟨Char.ofNat (0x10000 + (first - 0xD800) * 0x400 + (unit - 0xDC00)) :: p.reversed, none,
        p.sound⟩
    | none => ⟨p.reversed, none, false⟩
  else
    p.push (Char.ofNat unit)

/-- The text of the string, if its surrogates have paired up. -/
def text? (p : PartialString) : Option String :=
  if p.sound ∧ p.pending = none then some (String.ofList p.reversed.reverse) else none

end PartialString

/-- What a single-letter escape stands for. -/
def escapedChar? (c : Char) : Option Char :=
  if c = '"' ∨ c = '\\' ∨ c = '/' then some c
  else if c = 'b' then some (Char.ofNat 8)
  else if c = 'f' then some (Char.ofNat 12)
  else if c = 'n' then some '\n'
  else if c = 'r' then some '\r'
  else if c = 't' then some '\t'
  else none

/-- The value of a hexadecimal digit. -/
def hexValue? (c : Char) : Option Nat :=
  if '0' ≤ c ∧ c ≤ '9' then some (c.toNat - '0'.toNat)
  else if 'a' ≤ c ∧ c ≤ 'f' then some (c.toNat - 'a'.toNat + 10)
  else if 'A' ≤ c ∧ c ≤ 'F' then some (c.toNat - 'A'.toNat + 10)
  else none

/-- The string whose opening quotation mark has been read, and the rest behind its closing one. -/
def readString? (p : PartialString) : StringState → List Char → Option (Option String × List Char)
  | _, [] => none
  | .plain, c :: rest =>
    if c = '"' then some (p.text?, rest)
    else if c = '\\' then readString? p .escape rest
    else if c.toNat < 32 then none
    else readString? (p.push c) .plain rest
  | .escape, c :: rest =>
    if c = 'u' then readString? p (.unit 4 0) rest
    else
      match escapedChar? c with
      | some e => readString? (p.push e) .plain rest
      | none => none
  | .unit missing value, c :: rest =>
    match hexValue? c with
    | none => none
    | some d =>
      if missing ≤ 1 then readString? (p.pushUnit (value * 16 + d)) .plain rest
      else readString? p (.unit (missing - 1) (value * 16 + d)) rest

/-! ### Tokens -/

/-- The rest of a text behind a word that it begins with. -/
def afterWord? (word text : List Char) : Option (List Char) :=
  if word.isPrefixOf text then some (text.drop word.length) else none

/-- The token that begins with a character and its rest, if there is one. -/
def read? (c : Char) (rest : List Char) : Option (Token × List Char) :=
  match c with
  | '\x7b' => some (openBrace, rest)
  | '\x7d' => some (closeBrace, rest)
  | '[' => some (openBracket, rest)
  | ']' => some (closeBracket, rest)
  | ':' => some (colon, rest)
  | ',' => some (comma, rest)
  | '"' => (readString? .start .plain rest).map fun (s, tail) => (string s, tail)
  | 'n' => (afterWord? ['u', 'l', 'l'] rest).map fun tail => (null, tail)
  | 't' => (afterWord? ['r', 'u', 'e'] rest).map fun tail => (bool true, tail)
  | 'f' => (afterWord? ['a', 'l', 's', 'e'] rest).map fun tail => (bool false, tail)
  | '-' => (readNumeral? true rest).map fun (n, tail) => (number n, tail)
  | c => (readNumeral? false (c :: rest)).map fun (n, tail) => (number n, tail)

/-! A token takes at least its first character off the text. -/

theorem length_dropWhile_le (p : Char → Bool) (text : List Char) :
    (text.dropWhile p).length ≤ text.length :=
  (List.dropWhile_sublist p).length_le

theorem length_readFraction? {text fraction tail : List Char}
    (h : readFraction? text = some (fraction, tail)) : tail.length ≤ text.length := by
  unfold readFraction? at h
  split at h
  · split at h
    · simp at h
    · simp only [splitDigits, Option.some.injEq, Prod.mk.injEq] at h
      rw [← h.2]
      exact Nat.le_succ_of_le (length_dropWhile_le _ _)
  · simp only [Option.some.injEq, Prod.mk.injEq] at h
    exact Nat.le_of_eq (by rw [h.2])

theorem length_splitSign (text : List Char) : (splitSign text).2.length ≤ text.length := by
  unfold splitSign
  split <;> simp

theorem length_readPower? {text tail : List Char} {power : Option Int}
    (h : readPower? text = some (power, tail)) : tail.length ≤ text.length := by
  cases text with
  | nil =>
    simp only [readPower?, Option.some.injEq, Prod.mk.injEq] at h
    simp [← h.2]
  | cons e rest =>
    simp only [readPower?] at h
    by_cases he : e = 'e' ∨ e = 'E'
    · rw [if_pos he] at h
      by_cases hd : (splitDigits (splitSign rest).2).1 = []
      · simp [hd] at h
      · simp only [hd, if_false, Option.some.injEq, Prod.mk.injEq] at h
        rw [← h.2]
        exact Nat.le_succ_of_le (Nat.le_trans (length_dropWhile_le _ _) (length_splitSign _))
    · rw [if_neg he] at h
      simp only [Option.some.injEq, Prod.mk.injEq] at h
      simp [← h.2]

theorem length_readNumeral? {negative : Bool} {text tail : List Char} {n : Numeral}
    (h : readNumeral? negative text = some (n, tail)) : tail.length < text.length := by
  simp only [readNumeral?] at h
  by_cases hw : (splitDigits text).1 = [] ∨
      ((splitDigits text).1.head? = some '0' ∧ (splitDigits text).1 ≠ ['0'])
  · simp [hw] at h
  · rw [if_neg hw] at h
    obtain ⟨fraction, hf, h⟩ := Option.bind_eq_some_iff.1 h
    obtain ⟨power, hp, h⟩ := Option.map_eq_some_iff.1 h
    simp only [Prod.mk.injEq] at h
    have h1 := length_readFraction? hf
    have h2 := length_readPower? hp
    have h3 : (splitDigits text).2.length < text.length := by
      cases text with
      | nil => simp [splitDigits] at hw
      | cons c text =>
        by_cases hc : c.isDigit
        · simpa [splitDigits, hc] using Nat.lt_succ_of_le (length_dropWhile_le _ text)
        · simp [splitDigits, hc] at hw
    rw [← h.2]
    omega

theorem length_readString? {p : PartialString} {state : StringState} {text tail : List Char}
    {s : Option String} (h : readString? p state text = some (s, tail)) :
    tail.length < text.length := by
  fun_induction readString? p state text <;> simp_all <;> omega

theorem length_afterWord? {word text tail : List Char} (h : afterWord? word text = some tail) :
    tail.length ≤ text.length := by
  unfold afterWord? at h
  split at h
  · simp only [Option.some.injEq] at h
    rw [← h, List.length_drop]
    exact Nat.sub_le _ _
  · simp at h

theorem length_read? {c : Char} {rest tail : List Char} {t : Token}
    (h : read? c rest = some (t, tail)) : tail.length ≤ rest.length := by
  unfold read? at h
  split at h
  all_goals first
    | (simp only [Option.some.injEq, Prod.mk.injEq] at h; exact Nat.le_of_eq (by rw [h.2]))
    | (obtain ⟨a, ha, h⟩ := Option.map_eq_some_iff.1 h
       simp only [Prod.mk.injEq] at h
       rw [← h.2])
  · exact Nat.le_of_lt (length_readString? ha)
  · exact length_afterWord? ha
  · exact length_afterWord? ha
  · exact length_afterWord? ha
  · exact Nat.le_of_lt (length_readNumeral? ha)
  · exact Nat.le_of_lt_succ (length_readNumeral? ha)

/-- The tokens of a text, behind those already read. -/
def readAll (tokens : Array Token) (text : List Char) : Array Token :=
  match text with
  | [] => tokens
  | c :: rest =>
    if isBlank c then readAll tokens rest
    else
      match _h : read? c rest with
      | some (t, tail) => readAll (tokens.push t) tail
      | none => tokens.push bad
termination_by text.length
decreasing_by
  · simp
  · exact Nat.lt_succ_of_le (length_read? (by assumption))

/-- The tokens of a text up to the first place where it is malformed. -/
def ofText (text : List Char) : List Token :=
  (readAll #[] text).toList

end Token

end CampusQuery
