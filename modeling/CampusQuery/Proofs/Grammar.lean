import CampusQuery.Proofs.KeyText
import CampusQuery.Proofs.Outcome
import CampusQuery.Proofs.PatternText
import CampusQuery.Query.Reading

/-!
# The grammar of queries

Which JSON values are queries, and which query each of them denotes, said without reading them.

The first part is the grammar alone, clause by clause (`Json.IsFilter`, `Json.IsOptions`,
`Json.IsGrouping`, `Json.IsQuery`): which members an object must and may have, which of them are
arrays that are not empty, and which texts stand for keys, names and patterns. Members may stand in
any order. The second part repeats it with the meaning of each form (`Json.DenotesFilter` to
`Json.DenotesQuery`): the filters under a connective, the keys of an order, the fields of a group
and the rules come in the order in which they are written, and the columns are those that are
written without their repetitions.

A value is a query of the grammar exactly if it denotes some query (`Json.isQuery_iff`).
-/

namespace CampusQuery

namespace Json

/-! ### Objects -/

/-- The value of the member of a given name, if the value is an object that has one. -/
def member? (name : String) : Json → Option Json
  | object members => findMember? name members
  | _ => none

/-- An object whose members have given names only. -/
def HasOnly (names : List String) (raw : Json) : Prop :=
  ∃ members, raw = .object members ∧ ∀ m ∈ members, m.1 ∈ names

/-- An object with exactly the given members, in any order. -/
def ConsistsOf (members : List (String × Json)) (raw : Json) : Prop :=
  ∃ own, raw = .object own ∧ own.Perm members

/-! ### Texts -/

/-- The text of a field key, `<dataset>_<field>`. -/
def IsKey (text : String) : Prop :=
  ∃ k : FieldKey, k.WellFormed ∧ text = k.toText

/-- The text of a key of a numeric field. -/
def IsNumericKey (text : String) : Prop :=
  ∃ k : FieldKey, k.WellFormed ∧ k.field.isNumeric = true ∧ text = k.toText

/-- The text of a key of a string field. -/
def IsStringKey (text : String) : Prop :=
  ∃ k : FieldKey, k.WellFormed ∧ k.field.isNumeric = false ∧ text = k.toText

/-- The name of a computed value. -/
def IsName (text : String) : Prop :=
  text ≠ "" ∧ '_' ∉ text.toList

/-- The text of a column. -/
def IsColumn (text : String) : Prop :=
  IsKey text ∨ IsName text

/-- The text of a pattern: an asterisk is its first or its last character. -/
def IsPattern (text : String) : Prop :=
  '*' ∉ text.toList.tail.dropLast

/-! ### The grammar -/

/-- A filter: an object with one member, named for what it asks. -/
inductive IsFilter : Json → Prop where
  /-- A connective over filters, of which there is at least one. -/
  | logic (c : Connective) {items : List Json} (nonempty : items ≠ [])
      (filters : ∀ item ∈ items, IsFilter item) : IsFilter (.object [(c.keyword, .array items)])
  /-- A negation. -/
  | not {body : Json} (filter : IsFilter body) : IsFilter (.object [("NOT", body)])
  /-- A comparison of a numeric field with a number. -/
  | compare (c : Comparison) {key : String} (n : JsonNumber) (numeric : IsNumericKey key) :
      IsFilter (.object [(c.keyword, .object [(key, .number n)])])
  /-- A match of a string field with a pattern. -/
  | like {key pattern : String} (text : IsStringKey key) (plain : IsPattern pattern) :
      IsFilter (.object [("IS", .object [(key, .string pattern)])])

/-- A `WHERE` clause: an empty object, or a filter. -/
def IsCondition (raw : Json) : Prop :=
  raw = .object [] ∨ raw.IsFilter

/-- An order: a column, or a direction with at least one column. -/
inductive IsOrder : Json → Prop where
  | single {key : String} (column : IsColumn key) : IsOrder (.string key)
  | directional {raw : Json} (d : Direction) {keys : List String}
      (members : raw.ConsistsOf
        [("dir", .string d.keyword), ("keys", .array (keys.map .string))])
      (nonempty : keys ≠ []) (columns : ∀ key ∈ keys, IsColumn key) : IsOrder raw

/-- An `OPTIONS` clause. -/
structure IsOptions (raw : Json) : Prop where
  /-- There are columns and at most an order. -/
  only : raw.HasOnly ["COLUMNS", "ORDER"]
  /-- There is at least one column. -/
  columns : ∃ keys : List String, raw.member? "COLUMNS" = some (.array (keys.map .string)) ∧
    keys ≠ [] ∧ ∀ key ∈ keys, IsColumn key
  /-- What is given as the order is one. -/
  order : ∀ order, raw.member? "ORDER" = some order → order.IsOrder

/-- A computed value: under its name the aggregation with the key of its target. -/
inductive IsRule : Json → Prop where
  | mk {name target : String} (a : Aggregation) (plain : IsName name) (key : IsKey target) :
      IsRule (.object [(name, .object [(a.keyword, .string target)])])

/-- A `TRANSFORMATIONS` clause: exactly the keys of a group and rules, at least one of each. -/
inductive IsGrouping : Json → Prop where
  | mk {raw : Json} {keys : List String} {rules : List Json}
      (members : raw.ConsistsOf [("GROUP", .array (keys.map .string)), ("APPLY", .array rules)])
      (someKey : keys ≠ []) (areKeys : ∀ key ∈ keys, IsKey key)
      (someRule : rules ≠ []) (areRules : ∀ rule ∈ rules, rule.IsRule) : IsGrouping raw

/-- A query. -/
structure IsQuery (raw : Json) : Prop where
  /-- There are a condition and options and at most a grouping. -/
  only : raw.HasOnly ["WHERE", "OPTIONS", "TRANSFORMATIONS"]
  /-- There is a condition. -/
  condition : ∃ body, raw.member? "WHERE" = some body ∧ body.IsCondition
  /-- There are options. -/
  options : ∃ body, raw.member? "OPTIONS" = some body ∧ body.IsOptions
  /-- What is given as the grouping is one. -/
  grouping : ∀ body, raw.member? "TRANSFORMATIONS" = some body → body.IsGrouping

/-! ### What is denoted -/

/-- The key that a text denotes. -/
def DenotesKey (text : String) (k : FieldKey) : Prop :=
  text = k.toText ∧ k.WellFormed

/-- The column that a text denotes. -/
def DenotesColumn (text : String) : Column → Prop
  | .field k => DenotesKey text k
  | .computed name => text = name ∧ IsName name

/-- The filter that a value denotes. -/
inductive DenotesFilter : Json → Filter → Prop where
  | logic (c : Connective) {items : List Json} {filters : List Filter} (nonempty : items ≠ [])
      (denote : List.Forall₂ DenotesFilter items filters) :
      DenotesFilter (.object [(c.keyword, .array items)]) (.logic c filters)
  | not {body : Json} {f : Filter} (denotes : DenotesFilter body f) :
      DenotesFilter (.object [("NOT", body)]) (.not f)
  | compare (c : Comparison) {k : FieldKey} (n : JsonNumber) (valid : k.WellFormed)
      (numeric : k.field.isNumeric = true) :
      DenotesFilter (.object [(c.keyword, .object [(k.toText, .number n)])]) (.compare c k n.value)
  | like {k : FieldKey} {p : Pattern} (valid : k.WellFormed) (text : k.field.isNumeric = false)
      (plain : p.WellFormed) :
      DenotesFilter (.object [("IS", .object [(k.toText, .string p.toText)])]) (.like k p)

/-- The condition that a `WHERE` clause denotes. -/
def DenotesCondition (raw : Json) : Option Filter → Prop
  | none => raw = .object []
  | some f => raw.DenotesFilter f

/-- The order that a value denotes. -/
inductive DenotesOrder : Json → SortOrder → Prop where
  | single {key : String} {c : Column} (denotes : DenotesColumn key c) :
      DenotesOrder (.string key) (.single c)
  | directional {raw : Json} (d : Direction) {keys : List String} {columns : List Column}
      (members : raw.ConsistsOf
        [("dir", .string d.keyword), ("keys", .array (keys.map .string))])
      (nonempty : keys ≠ []) (denote : List.Forall₂ DenotesColumn keys columns) :
      DenotesOrder raw (.directional d columns)

/-- The columns and the order that an `OPTIONS` clause denotes. -/
structure DenotesOptions (raw : Json) (columns : List Column) (order : Option SortOrder) :
    Prop where
  only : raw.HasOnly ["COLUMNS", "ORDER"]
  /-- The columns are those that are written, each at its first place. -/
  columns : ∃ (keys : List String) (written : List Column),
    raw.member? "COLUMNS" = some (.array (keys.map .string)) ∧ keys ≠ [] ∧
    List.Forall₂ DenotesColumn keys written ∧ columns = written.eraseDups
  order : Option.Rel DenotesOrder (raw.member? "ORDER") order

/-- The rule that a value denotes. -/
inductive DenotesRule : Json → Rule → Prop where
  | mk {name target : String} (a : Aggregation) {k : FieldKey} (plain : IsName name)
      (denotes : DenotesKey target k) :
      DenotesRule (.object [(name, .object [(a.keyword, .string target)])]) ⟨name, a, k⟩

/-- The grouping that a `TRANSFORMATIONS` clause denotes. -/
inductive DenotesGrouping : Json → Grouping → Prop where
  | mk {raw : Json} {keys : List String} {rules : List Json} {g : Grouping}
      (members : raw.ConsistsOf [("GROUP", .array (keys.map .string)), ("APPLY", .array rules)])
      (someKey : keys ≠ []) (denoteKeys : List.Forall₂ DenotesKey keys g.keys)
      (someRule : rules ≠ []) (denoteRules : List.Forall₂ DenotesRule rules g.rules) :
      DenotesGrouping raw g

/-- The query that a value denotes. -/
structure DenotesQuery (raw : Json) (q : Query) : Prop where
  only : raw.HasOnly ["WHERE", "OPTIONS", "TRANSFORMATIONS"]
  condition : ∃ body, raw.member? "WHERE" = some body ∧ body.DenotesCondition q.filter
  options : ∃ body, raw.member? "OPTIONS" = some body ∧ body.DenotesOptions q.columns q.order
  grouping : Option.Rel DenotesGrouping (raw.member? "TRANSFORMATIONS") q.grouping

/-! ### The two parts agree -/

theorem isKey_iff {text : String} : IsKey text ↔ ∃ k, DenotesKey text k :=
  exists_congr fun _ => And.comm

theorem isColumn_iff {text : String} : IsColumn text ↔ ∃ c, DenotesColumn text c := by
  constructor
  · rintro (hkey | hname)
    · obtain ⟨k, hk⟩ := isKey_iff.1 hkey
      exact ⟨.field k, hk⟩
    · exact ⟨.computed text, rfl, hname⟩
  · rintro ⟨c | name, hc⟩
    · exact Or.inl (isKey_iff.2 ⟨_, hc⟩)
    · obtain ⟨rfl, hname⟩ := hc
      exact Or.inr hname

theorem isPattern_iff {text : String} :
    IsPattern text ↔ ∃ p : Pattern, text = p.toText ∧ p.WellFormed := by
  simp only [IsPattern, ← Pattern.exists_parse_eq_ok_iff, Pattern.parse_eq_ok_iff]

/-- Every filter under a connective is itself one of which the property is known. -/
theorem DenotesFilter.induction {motive : Json → Filter → Prop}
    (logic : ∀ (c : Connective) (items : List Json) (filters : List Filter), items ≠ [] →
      List.Forall₂ (fun item f => DenotesFilter item f ∧ motive item f) items filters →
      motive (.object [(c.keyword, .array items)]) (.logic c filters))
    (not : ∀ (body : Json) (f : Filter), DenotesFilter body f → motive body f →
      motive (.object [("NOT", body)]) (.not f))
    (compare : ∀ (c : Comparison) (k : FieldKey) (n : JsonNumber), k.WellFormed →
      k.field.isNumeric = true →
      motive (.object [(c.keyword, .object [(k.toText, .number n)])]) (.compare c k n.value))
    (like : ∀ (k : FieldKey) (p : Pattern), k.WellFormed → k.field.isNumeric = false →
      p.WellFormed → motive (.object [("IS", .object [(k.toText, .string p.toText)])]) (.like k p))
    {raw : Json} {f : Filter} (h : DenotesFilter raw f) : motive raw f :=
  -- the second motive is about the lists under a connective, one item after the other
  @DenotesFilter.rec (fun raw f _ => motive raw f)
    (fun items filters _ =>
      List.Forall₂ (fun item f => DenotesFilter item f ∧ motive item f) items filters)
    (fun c _ _ hne _ ih => logic c _ _ hne ih)
    (fun hbody ih => not _ _ hbody ih)
    (fun c _ n hk hnumeric => compare c _ n hk hnumeric)
    (fun hk htext hp => like _ _ hk htext hp)
    .nil
    (fun hitem _ ih ihs => .cons ⟨hitem, ih⟩ ihs)
    raw f h

theorem isFilter_iff {raw : Json} : raw.IsFilter ↔ ∃ f, raw.DenotesFilter f := by
  constructor
  · intro h
    induction h with
    | logic c hne _ ih =>
      -- what each item denotes is chosen by itself
      obtain ⟨filters, hfilters⟩ := exists_forall₂ ih
      exact ⟨_, .logic c hne hfilters⟩
    | not _ ih =>
      obtain ⟨f, hf⟩ := ih
      exact ⟨_, .not hf⟩
    | compare c n hkey =>
      obtain ⟨k, hk, hnumeric, rfl⟩ := hkey
      exact ⟨_, .compare c n hk hnumeric⟩
    | like hkey hpattern =>
      obtain ⟨k, hk, htext, rfl⟩ := hkey
      obtain ⟨p, rfl, hp⟩ := isPattern_iff.1 hpattern
      exact ⟨_, .like hk htext hp⟩
  · rintro ⟨f, h⟩
    refine h.induction (motive := fun raw _ => raw.IsFilter) ?_ ?_ ?_ ?_
    · intro c items filters hne ih
      refine .logic c hne fun item hitem => ?_
      obtain ⟨f, -, -, hf⟩ := exists_of_mem_left ih hitem
      exact hf
    · exact fun body f _ ih => .not ih
    · exact fun c k n hk hnumeric => .compare c n ⟨k, hk, hnumeric, rfl⟩
    · exact fun k p hk htext hp => .like ⟨k, hk, htext, rfl⟩ (isPattern_iff.2 ⟨p, rfl, hp⟩)

theorem isCondition_iff {raw : Json} : raw.IsCondition ↔ ∃ f, raw.DenotesCondition f := by
  rw [IsCondition, isFilter_iff]
  constructor
  · rintro (rfl | ⟨f, hf⟩)
    · exact ⟨none, rfl⟩
    · exact ⟨some f, hf⟩
  · rintro ⟨_ | f, hf⟩
    · exact Or.inl hf
    · exact Or.inr ⟨f, hf⟩

theorem isOrder_iff {raw : Json} : raw.IsOrder ↔ ∃ order, raw.DenotesOrder order := by
  constructor
  · rintro (hkey | ⟨d, hmembers, hne, hkeys⟩)
    · obtain ⟨c, hc⟩ := isColumn_iff.1 hkey
      exact ⟨_, .single hc⟩
    · obtain ⟨columns, hcolumns⟩ := (forall_mem_iff_exists_forall₂ isColumn_iff).1 hkeys
      exact ⟨_, .directional d hmembers hne hcolumns⟩
  · rintro ⟨_, hc | ⟨d, hmembers, hne, hcolumns⟩⟩
    · exact .single (isColumn_iff.2 ⟨_, hc⟩)
    · exact .directional d hmembers hne
        ((forall_mem_iff_exists_forall₂ isColumn_iff).2 ⟨_, hcolumns⟩)

theorem isOptions_iff {raw : Json} :
    raw.IsOptions ↔ ∃ columns order, raw.DenotesOptions columns order := by
  constructor
  · rintro ⟨honly, ⟨keys, hmember, hne, hkeys⟩, horder⟩
    -- any list of columns may be written; the distinct ones follow from it
    obtain ⟨written, hwritten⟩ := (forall_mem_iff_exists_forall₂ isColumn_iff).1 hkeys
    obtain ⟨order, horder⟩ := (forall_some_iff_exists_optionRel isOrder_iff).1 horder
    exact ⟨_, order, honly, ⟨keys, written, hmember, hne, hwritten, rfl⟩, horder⟩
  · rintro ⟨columns, order, honly, ⟨keys, written, hmember, hne, hwritten, -⟩, horder⟩
    have hkeys := (forall_mem_iff_exists_forall₂ isColumn_iff).2 ⟨written, hwritten⟩
    exact ⟨honly, ⟨keys, hmember, hne, hkeys⟩,
      (forall_some_iff_exists_optionRel isOrder_iff).2 ⟨order, horder⟩⟩

theorem isRule_iff {raw : Json} : raw.IsRule ↔ ∃ rule, raw.DenotesRule rule := by
  constructor
  · rintro ⟨a, hname, hkey⟩
    obtain ⟨k, hk⟩ := isKey_iff.1 hkey
    exact ⟨_, .mk a hname hk⟩
  · rintro ⟨_, a, hname, hk⟩
    exact .mk a hname (isKey_iff.2 ⟨_, hk⟩)

theorem isGrouping_iff {raw : Json} : raw.IsGrouping ↔ ∃ g, raw.DenotesGrouping g := by
  constructor
  · rintro ⟨hmembers, hsomeKey, hkeys, hsomeRule, hrules⟩
    obtain ⟨groupKeys, hgroupKeys⟩ := (forall_mem_iff_exists_forall₂ isKey_iff).1 hkeys
    obtain ⟨groupRules, hgroupRules⟩ := (forall_mem_iff_exists_forall₂ isRule_iff).1 hrules
    exact ⟨⟨groupKeys, groupRules⟩, .mk hmembers hsomeKey hgroupKeys hsomeRule hgroupRules⟩
  · rintro ⟨g, hmembers, hsomeKey, hkeys, hsomeRule, hrules⟩
    exact .mk hmembers hsomeKey ((forall_mem_iff_exists_forall₂ isKey_iff).2 ⟨_, hkeys⟩) hsomeRule
      ((forall_mem_iff_exists_forall₂ isRule_iff).2 ⟨_, hrules⟩)

/-- **The grammar describes what denotes a query.** -/
theorem isQuery_iff {raw : Json} : raw.IsQuery ↔ ∃ q, raw.DenotesQuery q := by
  constructor
  · rintro ⟨honly, ⟨condition, hwhere, hcondition⟩, ⟨options, hmember, hoptions⟩, hgrouping⟩
    obtain ⟨filter, hfilter⟩ := isCondition_iff.1 hcondition
    obtain ⟨columns, order, hoptions⟩ := isOptions_iff.1 hoptions
    obtain ⟨grouping, hgrouping⟩ := (forall_some_iff_exists_optionRel isGrouping_iff).1 hgrouping
    exact ⟨⟨filter, columns, order, grouping⟩, honly, ⟨condition, hwhere, hfilter⟩,
      ⟨options, hmember, hoptions⟩, hgrouping⟩
  · rintro ⟨q, honly, ⟨condition, hwhere, hfilter⟩, ⟨options, hmember, hoptions⟩, hgrouping⟩
    exact ⟨honly, ⟨condition, hwhere, isCondition_iff.2 ⟨_, hfilter⟩⟩,
      ⟨options, hmember, isOptions_iff.2 ⟨_, _, hoptions⟩⟩,
      (forall_some_iff_exists_optionRel isGrouping_iff).2 ⟨_, hgrouping⟩⟩

end Json

end CampusQuery
