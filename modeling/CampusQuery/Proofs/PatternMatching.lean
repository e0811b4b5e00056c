import CampusQuery.Proofs.PatternText

/-!
# What patterns match

A pattern matches the texts that have its literal in them with anything in place of an asterisk and
nothing in place of a missing one (`Pattern.matchesText_ofParts`). Nothing but the asterisks has a
meaning of its own.

The same is said of the text of a pattern (`Pattern.parse_matches`): a text is that of a pattern if
every asterisk stands first or last in it, and what stands between the asterisks at its ends
(`Pattern.unstarred`) is what has to be found. An asterisk alone counts as standing at the front, so
the text is all gone before its end is looked at.
-/

namespace CampusQuery

/-- To occur in a text is to be a run of neighbours in it. -/
theorem occursIn_iff {literal text : List Char} :
    occursIn literal text = true ↔ literal <:+: text := by
  induction text with
  | nil => rw [occursIn, List.isEmpty_iff, List.infix_nil]
  | cons c text ih =>
    rw [occursIn, Bool.or_eq_true, List.isPrefixOf_iff_prefix, ih, List.infix_cons_iff]

namespace Pattern

/-! ### Matching -/

/-- A value matches if it is the literal with something in front of it and something behind it, each
of them empty unless there is an asterisk. -/
theorem matchesText_ofParts {leading trailing : Bool} {literal value : String} :
    (ofParts leading trailing literal).matchesText value = true ↔
      ∃ before after, value.toList = before ++ literal.toList ++ after ∧
        (leading = false → before = []) ∧ (trailing = false → after = []) := by
  cases leading with
  | false =>
    cases trailing with
    | false => simp [ofParts, matchesText, ← String.toList_inj]
    | true =>
      have hfront : (∃ after, literal.toList ++ after = value.toList) ↔
          ∃ after, value.toList = literal.toList ++ after := exists_congr fun _ => eq_comm
      simpa [ofParts, matchesText, List.isPrefixOf_iff_prefix, List.IsPrefix] using hfront
  | true =>
    cases trailing with
    | false =>
      have hback : (∃ before, before ++ literal.toList = value.toList) ↔
          ∃ before, value.toList = before ++ literal.toList := exists_congr fun _ => eq_comm
      simpa [ofParts, matchesText, List.isSuffixOf_iff_suffix, List.IsSuffix] using hback
    | true =>
      have hinside : literal.toList <:+: value.toList ↔
          ∃ before after, value.toList = before ++ literal.toList ++ after :=
        exists₂_congr fun _ _ => eq_comm
      simpa [ofParts, matchesText, occursIn_iff] using hinside

/-! ### The asterisks of a text -/

/-- An asterisk stands at the front of a text. -/
def Leads (text : String) : Prop :=
  text.toList.head? = some '*'

/-- An asterisk stands at the end of a text, and it is not also the one at the front. -/
def Trails (text : String) : Prop :=
  text.toList.getLast? = some '*' ∧ text ≠ "*"

instance (text : String) : Decidable (Leads text) :=
  inferInstanceAs (Decidable (text.toList.head? = some '*'))

instance (text : String) : Decidable (Trails text) :=
  inferInstanceAs (Decidable (text.toList.getLast? = some '*' ∧ text ≠ "*"))

/-- A text without the asterisks at its ends. -/
def unstarred (text : String) : String :=
  let rest := if Leads text then text.toList.tail else text.toList
  String.ofList (if Trails text then rest.dropLast else rest)

theorem leads_toText_iff {leading trailing : Bool} {literal : String}
    (h : (ofParts leading trailing literal).WellFormed) :
    Leads (ofParts leading trailing literal).toText ↔ leading = true := by
  rw [Leads, toList_toText_ofParts]
  have hplain := h.plain
  rw [literal_ofParts] at hplain
  cases leading with
  | true => simp [asterisk]
  | false =>
    refine iff_of_false (fun hhead => ?_) Bool.false_ne_true
    cases hliteral : literal.toList with
    | cons c rest =>
      -- the first character is one of the literal
      rw [hliteral] at hhead hplain
      exact hplain (List.mem_of_head? hhead)
    | nil =>
      cases trailing with
      | false => simp [hliteral, asterisk] at hhead
      | true =>
        exact h.leading (ofParts_eq_startsWith_iff.2
          ⟨rfl, rfl, String.toList_eq_nil_iff.1 hliteral⟩)

theorem trails_toText_iff {leading trailing : Bool} {literal : String}
    (h : (ofParts leading trailing literal).WellFormed) :
    Trails (ofParts leading trailing literal).toText ↔ trailing = true := by
  have hplain := h.plain
  rw [literal_ofParts] at hplain
  have hsingle : (ofParts leading trailing literal).toText = "*" ↔
      asterisk leading ++ literal.toList ++ asterisk trailing = ['*'] := by
    rw [← String.toList_inj, toList_toText_ofParts]
    rfl
  rw [Trails, toList_toText_ofParts, ne_eq, hsingle]
  cases trailing with
  | true =>
    refine iff_of_true ⟨by simp [asterisk], fun halone => ?_⟩ rfl
    -- nothing is left in front of the asterisk, which would have been taken for a leading one
    have hfront : asterisk leading ++ literal.toList = [] :=
      List.append_cancel_right (halone.trans (List.nil_append _).symm)
    obtain ⟨hleading, hliteral⟩ := List.append_eq_nil_iff.1 hfront
    cases leading with
    | true => exact absurd hleading (List.cons_ne_nil _ _)
    | false =>
      exact h.leading (ofParts_eq_startsWith_iff.2
        ⟨rfl, rfl, String.toList_eq_nil_iff.1 hliteral⟩)
  | false =>
    refine iff_of_false ?_ Bool.false_ne_true
    rintro ⟨hlast, hmore⟩
    have hnone : asterisk false = [] := rfl
    rw [hnone, List.append_nil] at hlast hmore
    rcases List.eq_nil_or_concat literal.toList with hliteral | ⟨front, c, hliteral⟩
    · -- the last character is the leading asterisk, and it is all there is
      cases leading with
      | true => exact hmore (by rw [hliteral]; rfl)
      | false => simp [hliteral, asterisk] at hlast
    · rw [hliteral] at hlast hplain
      have hc : c = '*' := by simpa using hlast
      exact hplain (by simp [hc])

/-- Without its asterisks the text of a pattern is the literal. -/
theorem unstarred_toText {leading trailing : Bool} {literal : String}
    (h : (ofParts leading trailing literal).WellFormed) :
    unstarred (ofParts leading trailing literal).toText = literal := by
  simp only [unstarred, leads_toText_iff h, trails_toText_iff h, toList_toText_ofParts]
  cases leading <;> cases trailing <;> simp [asterisk]

/-- An asterisk is inside a text if one stands neither first nor last. -/
theorem mem_tail_dropLast_iff {text : List Char} {c : Char} :
    c ∈ text.tail.dropLast ↔ ∃ i, text[i]? = some c ∧ i ≠ 0 ∧ i + 1 ≠ text.length := by
  rw [List.mem_iff_getElem?]
  simp only [List.getElem?_dropLast, List.getElem?_tail, List.length_tail]
  constructor
  · rintro ⟨i, hi⟩
    split at hi
    · exact ⟨i + 1, hi, by omega, by omega⟩
    · exact nomatch hi
  · rintro ⟨i, hi, hfirst, hlast⟩
    obtain ⟨hlength, -⟩ := List.getElem?_eq_some_iff.1 hi
    obtain ⟨j, rfl⟩ := Nat.exists_eq_succ_of_ne_zero hfirst
    exact ⟨j, by rw [if_pos (by omega)]; exact hi⟩

/-- **What the text of a pattern matches.** A text is read as a pattern exactly if all its asterisks
stand first or last. The pattern is then written as the text again, and it matches the values that
are the text with anything in place of the asterisks. -/
theorem parse_matches (text : String) :
    ((∃ p, parse text = .ok p) ↔
      ∀ i, text.toList[i]? = some '*' → i = 0 ∨ i + 1 = text.toList.length) ∧
    ∀ p, parse text = .ok p → p.toText = text ∧ ∀ value : String,
      p.matchesText value = true ↔ ∃ before after : String,
        value = before ++ unstarred text ++ after ∧
        (¬Leads text → before = "") ∧ (¬Trails text → after = "") := by
  constructor
  · rw [exists_parse_eq_ok_iff, mem_tail_dropLast_iff]
    simp only [not_exists, not_and, ne_eq, not_not]
    exact forall₂_congr fun i _ => or_iff_not_imp_left.symm
  · intro p hp
    obtain ⟨rfl, hform⟩ := parse_eq_ok_iff.1 hp
    refine ⟨rfl, fun value => ?_⟩
    obtain ⟨leading, trailing, literal, rfl⟩ := exists_ofParts p
    rw [matchesText_ofParts, unstarred_toText hform, leads_toText_iff hform,
      trails_toText_iff hform]
    simp only [Bool.not_eq_true]
    -- both sides say the same, once of lists of characters and once of texts
    constructor
    · rintro ⟨before, after, hvalue, hbefore, hafter⟩
      refine ⟨String.ofList before, String.ofList after, ?_, fun h => ?_, fun h => ?_⟩
      · rw [← String.toList_inj, hvalue]
        simp
      · rw [hbefore h]
      · rw [hafter h]
    · rintro ⟨before, after, rfl, hbefore, hafter⟩
      refine ⟨before.toList, after.toList, by simp, fun h => ?_, fun h => ?_⟩
      · rw [hbefore h, String.toList_empty]
      · rw [hafter h, String.toList_empty]

end Pattern

end CampusQuery
