import CampusQuery.Pattern
import Mathlib.Data.List.Induction

/-!
# Patterns and their text

A pattern is read from its own text and from no other (`Pattern.parse_eq_ok_iff`), and every text
without an asterisk between its first and its last character is that of a pattern
(`Pattern.exists_parse_eq_ok_iff`). The single asterisk is the text of two patterns, an empty
literal with an asterisk on either side; it is read as the one with the asterisk in front
(`Pattern.WellFormed`).
-/

namespace CampusQuery

namespace Pattern

/-- The text between the asterisks. -/
def literal : Pattern → String
  | exact literal | startsWith literal | endsWith literal | contains literal => literal

/-- A pattern that can stand in a query. -/
structure WellFormed (p : Pattern) : Prop where
  /-- The literal has no asterisk. -/
  plain : '*' ∉ p.literal.toList
  /-- An asterisk alone stands in front. -/
  leading : p ≠ .startsWith ""

/-- The pattern of a literal with the given asterisks. -/
def ofParts : Bool → Bool → String → Pattern
  | false, false, literal => .exact literal
  | false, true, literal => .startsWith literal
  | true, false, literal => .endsWith literal
  | true, true, literal => .contains literal

theorem literal_ofParts (leading trailing : Bool) (literal : String) :
    (ofParts leading trailing literal).literal = literal := by
  cases leading <;> cases trailing <;> rfl

theorem exists_ofParts (p : Pattern) :
    ∃ leading trailing literal, p = ofParts leading trailing literal := by
  cases p with
  | exact literal => exact ⟨false, false, literal, rfl⟩
  | startsWith literal => exact ⟨false, true, literal, rfl⟩
  | endsWith literal => exact ⟨true, false, literal, rfl⟩
  | contains literal => exact ⟨true, true, literal, rfl⟩

theorem ofParts_eq_startsWith_iff {leading trailing : Bool} {literal other : String} :
    ofParts leading trailing literal = .startsWith other ↔
      leading = false ∧ trailing = true ∧ literal = other := by
  cases leading <;> cases trailing <;> simp [ofParts]

/-- An asterisk, if there is one. -/
def asterisk (present : Bool) : List Char :=
  if present then ['*'] else []

theorem toList_toText_ofParts (leading trailing : Bool) (literal : String) :
    (ofParts leading trailing literal).toText.toList =
      asterisk leading ++ literal.toList ++ asterisk trailing := by
  cases leading <;> cases trailing <;> simp [ofParts, toText, asterisk]

/-- The leading asterisk is the one at the very front. -/
theorem takeLeading_eq_iff {text rest : List Char} {leading : Bool} :
    takeLeading text = (leading, rest) ↔
      text = asterisk leading ++ rest ∧ (leading = false → rest.head? ≠ some '*') := by
  constructor
  · intro h
    unfold takeLeading at h
    split at h
    · obtain ⟨rfl, rfl⟩ := Prod.mk.inj h
      exact ⟨rfl, fun h => (nomatch h)⟩
    · next hne =>
      obtain ⟨rfl, rfl⟩ := Prod.mk.inj h
      refine ⟨rfl, fun _ hhead => ?_⟩
      obtain ⟨rest, rfl⟩ := List.head?_eq_some_iff.1 hhead
      exact hne rest rfl
  · rintro ⟨rfl, hhead⟩
    cases leading with
    | true => rfl
    | false =>
      change takeLeading rest = _
      unfold takeLeading
      split
      · exact absurd rfl (hhead rfl)
      · rfl

/-- The trailing asterisk is the one at the very end. -/
theorem takeTrailing_eq_iff {text literal : List Char} {trailing : Bool} :
    takeTrailing text = (trailing, literal) ↔
      text = literal ++ asterisk trailing ∧ (trailing = false → literal.getLast? ≠ some '*') := by
  constructor
  · intro h
    unfold takeTrailing at h
    split at h
    · next hlast =>
      obtain ⟨rfl, rfl⟩ := Prod.mk.inj h
      obtain ⟨front, rfl⟩ := List.getLast?_eq_some_iff.1 hlast
      exact ⟨by simp [asterisk], fun h => (nomatch h)⟩
    · next hlast =>
      obtain ⟨rfl, rfl⟩ := Prod.mk.inj h
      exact ⟨(List.append_nil _).symm, fun _ => hlast⟩
  · rintro ⟨rfl, hlast⟩
    cases trailing with
    | true => simp [takeTrailing, asterisk]
    | false => simp [takeTrailing, asterisk, hlast rfl]

/-- Reading takes off the two asterisks and leaves a literal without any. -/
theorem parse_eq_ok_iff_parts {text : String} {p : Pattern} :
    parse text = .ok p ↔ ∃ leading rest trailing literal,
      takeLeading text.toList = (leading, rest) ∧ takeTrailing rest = (trailing, literal) ∧
      '*' ∉ literal ∧ p = ofParts leading trailing (String.ofList literal) := by
  rw [parse]
  rcases takeLeading text.toList with ⟨leading, rest⟩
  rcases htrailing : takeTrailing rest with ⟨trailing, literal⟩
  simp only [htrailing, List.contains_iff_mem]
  constructor
  · intro h
    split at h
    · exact nomatch h
    · next hplain =>
      refine ⟨leading, rest, trailing, literal, rfl, htrailing, hplain, ?_⟩
      cases leading <;> cases trailing <;> exact (Except.ok.inj h).symm
  · rintro ⟨_, _, _, _, hleading, htrailing', hplain, rfl⟩
    obtain ⟨rfl, rfl⟩ := Prod.mk.inj hleading
    obtain ⟨rfl, rfl⟩ := Prod.mk.inj (htrailing.symm.trans htrailing')
    rw [if_neg hplain]
    cases leading <;> cases trailing <;> rfl

/-- **A well-formed pattern is read from its own text**, and nothing else is read as a pattern. -/
theorem parse_eq_ok_iff {text : String} {p : Pattern} :
    parse text = .ok p ↔ text = p.toText ∧ p.WellFormed := by
  simp only [parse_eq_ok_iff_parts, takeLeading_eq_iff, takeTrailing_eq_iff]
  constructor
  · rintro ⟨leading, rest, trailing, literal, ⟨htext, hhead⟩, ⟨rfl, -⟩, hplain, rfl⟩
    refine ⟨?_, ?_, ?_⟩
    · rw [← String.toList_inj, toList_toText_ofParts, htext, String.toList_ofList,
        List.append_assoc]
    · rwa [literal_ofParts, String.toList_ofList]
    · -- an empty literal in front of an asterisk has lost that asterisk as a leading one
      intro heq
      obtain ⟨rfl, rfl, hliteral⟩ := ofParts_eq_startsWith_iff.1 heq
      obtain rfl : literal = [] := by simpa using hliteral
      exact hhead rfl rfl
  · rintro ⟨rfl, hplain, hleading⟩
    obtain ⟨leading, trailing, literal, rfl⟩ := exists_ofParts p
    rw [literal_ofParts] at hplain
    refine ⟨leading, literal.toList ++ asterisk trailing, trailing, literal.toList, ⟨?_, ?_⟩,
      ⟨rfl, fun _ hlast => hplain (List.mem_of_getLast? hlast)⟩, hplain, ?_⟩
    · rw [toList_toText_ofParts, List.append_assoc]
    · rintro rfl hhead
      cases hliteral : literal.toList with
      | cons c rest =>
        rw [hliteral] at hhead hplain
        exact hplain (List.mem_of_head? hhead)
      | nil =>
        -- only an asterisk is left to be the head, so it was not a trailing one
        cases trailing with
        | false => simp [hliteral, asterisk] at hhead
        | true =>
          exact hleading (ofParts_eq_startsWith_iff.2
            ⟨rfl, rfl, String.toList_eq_nil_iff.1 hliteral⟩)
    · rw [String.ofList_toList]

/-! ### Asterisks inside -/

theorem mem_takeTrailing_iff {text : List Char} :
    '*' ∈ (takeTrailing text).2 ↔ '*' ∈ text.dropLast := by
  unfold takeTrailing
  split
  · exact Iff.rfl
  · next hlast =>
    -- the last character is no asterisk, so it does not matter that it stays
    cases text using List.reverseRecOn with
    | nil => exact Iff.rfl
    | append_singleton front c =>
      have hc : c ≠ '*' := by simpa using hlast
      simp [Ne.symm hc]

theorem mem_dropLast_takeLeading_iff {text : List Char} :
    '*' ∈ (takeLeading text).2.dropLast ↔ '*' ∈ text.tail.dropLast := by
  unfold takeLeading
  split
  · exact Iff.rfl
  · next hne =>
    -- the first character is no asterisk, so it does not matter that it is not dropped
    match text, hne with
    | [], _ => exact Iff.rfl
    | [c], _ => simp
    | c :: d :: rest, hne =>
      have hc : c ≠ '*' := fun heq => hne (d :: rest) (heq ▸ rfl)
      simp [Ne.symm hc]

/-- A text without an asterisk inside is that of a pattern. -/
theorem exists_parse_eq_ok_iff {text : String} :
    (∃ p, parse text = .ok p) ↔ '*' ∉ text.toList.tail.dropLast := by
  rw [← mem_dropLast_takeLeading_iff, ← mem_takeTrailing_iff]
  constructor
  · rintro ⟨p, hp⟩
    obtain ⟨_, _, _, _, hleading, htrailing, hplain, -⟩ := parse_eq_ok_iff_parts.1 hp
    rwa [hleading, htrailing]
  · intro hplain
    exact ⟨_, parse_eq_ok_iff_parts.2 ⟨_, _, _, _, rfl, rfl, hplain, rfl⟩⟩

end Pattern

end CampusQuery
