import CampusQuery.Proofs.Durability
import CampusQuery.Proofs.ValueOrder

/-!
# A record, its text, and the record again

The text of a record says a number in one of two ways: as an integer if it is one of 64 bits, else
in the shortest form. Which of the two it is depends on the value of the number alone
(`Binary64.toExactInt?_congr`), and equal values are written alike (`Value.jsonText_congr`), both
zeros as `0`. So it is enough that a record comes back equal: its text is then the same again
(`Record.jsonText_congr`).

A string comes back as itself and an integer of 64 bits as an equal number. For the shortest form
this is left to the reader of JSON text, which takes it back to the number unless it has many digits
(`Binary64.Lossless`). A value that is not finite is written as `null`, and no record is read from a
text with one. Both together are `Record.parse_jsonText`.
-/

namespace CampusQuery

/-! ### Equal values are written alike -/

namespace Binary64

/-- Whether a number is an exact integer, and which, is a matter of its value. -/
theorem toExactInt?_congr {x y : Binary64} (h : compare x y = .eq) :
    x.toExactInt? = y.toExactInt? := by
  obtain ⟨hrank, hunits⟩ := compare_eq_iff.1 h
  unfold toExactInt? toInt64 eq compare
  rw [isFinite_eq_rank, isFinite_eq_rank, isNaN_eq_rank x, isNaN_eq_rank y, hrank, hunits]

/-- Only the zeros are equal without being the same, and they are exact integers. -/
theorem eq_of_compare {x y : Binary64} (h : compare x y = .eq) (hexact : y.toExactInt? = none) :
    x = y := by
  refine eq_of_compare_of_ne_zero h fun hfinite hzero => ?_
  cases y with
  | nan => exact absurd hfinite Bool.false_ne_true
  | infinite negative => exact absurd hfinite Bool.false_ne_true
  | finite negative m =>
    have hunits : m.units = 0 := by
      cases negative <;> simp only [signedUnits] at hzero <;> omega
    exact Option.some_ne_none _ ((toExactInt?_zero negative hunits).symm.trans hexact)

end Binary64

theorem Value.jsonText_number (x : Binary64) : (number x).jsonText =
    match x.toExactInt? with
    | some i => integerText i
    | none => x.jsonText := rfl

/-- Equal values have the same text. -/
theorem Value.jsonText_congr {v w : Value} (h : (v == w) = true) : v.jsonText = w.jsonText := by
  have hcompare : v.compare w = .eq := beq_iff_eq.1 h
  cases v with
  | text s =>
    cases w with
    | number y => exact nomatch hcompare
    | text t =>
      obtain rfl : s = t := Std.LawfulEqOrd.compare_eq_iff_eq.1 hcompare
      rfl
  | number x =>
    cases w with
    | text t => exact nomatch hcompare
    | number y =>
      have hexact : x.toExactInt? = y.toExactInt? := Binary64.toExactInt?_congr hcompare
      cases hy : y.toExactInt? with
      | none =>
        -- the zeros are integers, so here equal numbers are the same
        obtain rfl : x = y := Binary64.eq_of_compare hcompare hy
        rfl
      | some i =>
        rw [jsonText_number, jsonText_number, hexact, hy]

/-- Equal records have the same text. -/
theorem Record.jsonText_congr {r s : Record} (h : (r == s) = true) : r.jsonText = s.jsonText := by
  have hfields : ∀ f, (r.get? f == s.get? f) = true := fun f =>
    List.all_eq_true.1 h f (Field.mem_all f)
  have hmembers : ∀ f, ((r.get? f).map fun v => (f.label, v.jsonText)) =
      (s.get? f).map fun v => (f.label, v.jsonText) := by
    intro f
    have hf := hfields f
    cases hr : r.get? f with
    | none =>
      rw [hr] at hf
      cases hs : s.get? f with
      | none => rfl
      | some w => exact nomatch hs ▸ hf
    | some v =>
      cases hs : s.get? f with
      | none => exact nomatch hr ▸ hs ▸ hf
      | some w =>
        rw [hr, hs] at hf
        rw [Option.map_some, Option.map_some, Value.jsonText_congr hf]
  -- both texts are made of the members in the order of all fields
  unfold jsonText entries
  rw [List.map_filterMap, List.map_filterMap]
  congr 2
  funext f
  simpa only [Option.map_map, Function.comp_def] using hmembers f

/-! ### Numbers in their shortest form -/

namespace Binary64

/-- The number comes back from its shortest form, as a number of JSON text. -/
def Lossless (x : Binary64) : Prop :=
  Json.parse (String.ofList x.jsonText) = .ok (.number (.float x))

/-- The values that are not finite have no numeral. -/
theorem isFinite_of_reread? {x y : Binary64} (h : x.reread? = some y) : x.isFinite = true := by
  obtain ⟨n, hn, -⟩ := Option.bind_eq_some_iff.1 h
  rcases x.numeral?_jsonText with ⟨-, -, -, -⟩ | ⟨hnone, -, -⟩
  · by_contra hinfinite
    cases x with
    | nan => exact nomatch hn
    | infinite negative => exact nomatch hn
    | finite negative m => exact hinfinite rfl
  · exact nomatch hn.symm.trans hnone

/-- A number in its shortest form is never written as an integer. -/
theorem integral_numeral (negative : Bool) (d : DecimalForm) :
    (d.numeral negative).integral = false := by
  have hdigits : d.digits.length ≠ 0 := by
    rw [Ne, List.length_eq_zero_iff]
    exact d.digits_ne_nil
  unfold DecimalForm.numeral Numeral.integral
  -- in every form there is either a fraction, be it only a zero, or an exponent
  split_ifs with _ hexp
  · rfl
  · dsimp only
    split_ifs
    · simp
      omega
    · simp [d.digits_ne_nil]
  · simp

/-- Whether such a number is lossless is whether it comes back from the text of a record. -/
theorem lossless_iff {x : Binary64} (hfinite : x.isFinite = true) (hexact : x.toExactInt? = none) :
    x.Lossless ↔ x.reread? = some x := by
  cases x with
  | nan => exact nomatch hfinite
  | infinite negative => exact nomatch hfinite
  | finite negative m =>
    have hnumeral := numeral?_of_toExactInt?_eq_none rfl hexact
    have hintegral := integral_numeral negative (m.shortest .even)
    generalize (m.shortest .even).numeral negative = n at hnumeral hintegral
    -- the reader makes no integer of it, which could be another number
    obtain ⟨y, hy⟩ : ∃ y, JsonNumber.ofNumeral n = .float y := by
      refine ⟨_, if_neg fun h => ?_⟩
      exact Bool.false_ne_true (hintegral.symm.trans h.1)
    have hparse : Json.parse (String.ofList (finite negative m).jsonText) =
        (Tree.numberOf n).map .number := by
      have hspells := (Value.number (finite negative m)).spells_jsonText
      rw [Value.jsonText_number, hexact, Value.tree, hnumeral] at hspells
      exact Json.decode_of_spells hspells _
    rw [Lossless, hparse, reread?, hnumeral, Option.bind_some, Tree.numberOf, hy]
    change Except.map Json.number (if y.isFinite then .ok (.float y) else .error Fault.malformed) =
      _ ↔ (if y.isFinite then some y else none) = _
    split
    · simp [Except.map]
    · simp [Except.map]

/-- A number given with at most fifteen digits and twenty-two decimal places is lossless, unless it
is written as an integer. -/
theorem lossless_ofDecimal {c k : Nat} (hc : c ≤ 10 ^ (15 : Nat)) (hk : k ≤ 22) (negative : Bool)
    (hexact : (ofDecimal negative c (-k)).toExactInt? = none) :
    (ofDecimal negative c (-k)).Lossless := by
  obtain ⟨y, hy, heq⟩ := reread?_ofDecimal hc hk negative
  have hcompare : compare y (ofDecimal negative c (-k)) = .eq :=
    beq_iff_eq.1 (Bool.and_eq_true_iff.1 heq).2
  rw [eq_of_compare hcompare hexact] at hy
  exact (lossless_iff (isFinite_of_reread? hy) hexact).2 hy

end Binary64

/-! ### Records -/

namespace Record

/-- Reading the text of a record gives each of its values as it comes back. -/
theorem parse_jsonText_eq_ok_iff {r r' : Record} :
    parse (String.ofList r.jsonText) = .ok r' ↔ r.Rereads r' := by
  rw [parse, Json.decode_of_spells r.spells_jsonText, ofTree_tree_eq_ok_iff]

/-- A record that comes back has only finite numbers. -/
theorem Rereads.isFinite {r r' : Record} (h : r.Rereads r') {f : Field} {x : Binary64}
    (hx : r.get? f = some (.number x)) : x.isFinite = true := by
  have hf := h f
  rw [hx, optionRel_some_left_iff] at hf
  obtain ⟨w, -, hw⟩ := hf
  obtain ⟨y, hy, -⟩ := Option.map_eq_some_iff.1 hw
  exact Binary64.isFinite_of_reread? hy

/-- Records of finite numbers are kept, if the numbers in shortest form are. -/
theorem durable_of_lossless {r : Record}
    (hlossless : ∀ f x, r.get? f = some (.number x) → x.isFinite = true →
      x.toExactInt? = none → x.Lossless)
    (hfinite : ∀ f x, r.get? f = some (.number x) → x.isFinite = true) : r.Durable := by
  intro f v hv
  cases v with
  | text s => exact Value.durable_text s
  | number x =>
    have hx := hfinite f x hv
    -- integers come back in any case
    cases hexact : x.toExactInt? with
    | some i => exact Value.durable_of_toExactInt? hexact
    | none =>
      have hreread := (Binary64.lossless_iff hx hexact).1 (hlossless f x hv hx hexact)
      refine ⟨.number x, ?_, BEq.rfl⟩
      rw [Value.reread?, hreread, Option.map_some]

/-- **A record can be read back from its text exactly if its numbers are finite, and it comes back
as an equal record with the same text.** Of the reader of JSON text this supposes that it takes
those numbers of the record that are written in shortest form back to themselves. -/
theorem parse_jsonText (r : Record)
    (hlossless : ∀ f x, r.get? f = some (.number x) → x.isFinite = true →
      x.toExactInt? = none → x.Lossless) :
    ((∃ r', parse (String.ofList r.jsonText) = .ok r') ↔
      ∀ f x, r.get? f = some (.number x) → x.isFinite = true) ∧
    ∀ r', parse (String.ofList r.jsonText) = .ok r' →
      (r' == r) = true ∧ r'.jsonText = r.jsonText := by
  simp only [parse_jsonText_eq_ok_iff]
  refine ⟨⟨?_, ?_⟩, ?_⟩
  · rintro ⟨r', hr⟩ f x hx
    exact hr.isFinite hx
  · intro hfinite
    exact (durable_of_lossless hlossless hfinite).exists_rereads
  · intro r' hr
    have hdurable : r.Durable :=
      durable_of_lossless hlossless fun f x hx => hr.isFinite hx
    have hequal := hdurable.beq hr
    exact ⟨hequal, jsonText_congr hequal⟩

/-- A record with numbers that are written in unusual ways: a fraction, the first number beyond
the integers of 64 bits, minus zero and a power of ten beyond these integers. -/
def unusual : Record :=
  ofEntries [
    (.avg, .number (.ofDecimal false 725 (-1))),
    (.pass, .number (.ofInt Binary64.int64Bound)),
    (.fail, .number (.nearest true 0 1)),
    (.audit, .number (.ofDecimal false 1 20)),
    (.dept, .text "a \"b\" \\ c\n")]

theorem parse_jsonText_unusual :
    ∃ r', parse (String.ofList unusual.jsonText) = .ok r' ∧ (r' == unusual) = true ∧
      r'.jsonText = unusual.jsonText := by
  have hentries : ∀ f x, unusual.get? f = some (.number x) → x.isFinite = true ∧
      (x.toExactInt? = none → x.Lossless) := by
    intro f x hx
    have hmem := (get?_ofEntries (by decide)).1 hx
    simp only [List.mem_cons, Prod.mk.injEq, Value.number.injEq, List.not_mem_nil, or_false,
      reduceCtorEq, and_false] at hmem
    rcases hmem with ⟨-, hx⟩ | ⟨-, hx⟩ | ⟨-, hx⟩ | ⟨-, hx⟩ <;> rw [hx]
    · have hplace : (-1 : Int) = -((1 : Nat) : Int) := rfl
      rw [hplace]
      exact ⟨by decide +kernel, Binary64.lossless_ofDecimal (by decide) (by decide) false⟩
    · have hexact : (Binary64.ofInt Binary64.int64Bound).toExactInt? =
          some (Binary64.int64Bound - 1) := by decide +kernel
      exact ⟨by decide +kernel, fun hnone => nomatch hnone.symm.trans hexact⟩
    · have hexact : (Binary64.nearest true 0 1).toExactInt? = some 0 := by decide +kernel
      exact ⟨by decide +kernel, fun hnone => nomatch hnone.symm.trans hexact⟩
    · refine ⟨by decide +kernel, fun hnone => ?_⟩
      exact (Binary64.lossless_iff (by decide +kernel) hnone).2 (by decide +kernel)
  obtain ⟨hparse, hequal⟩ := parse_jsonText unusual fun f x hx _ => (hentries f x hx).2
  obtain ⟨r', hr⟩ := hparse.2 fun f x hx => (hentries f x hx).1
  exact ⟨r', hr, hequal r' hr⟩

end Record

end CampusQuery
