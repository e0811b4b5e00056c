import CampusQuery.Proofs.Agreement
import CampusQuery.Proofs.Store

/-!
# Which rule decides

`Query.resolveAmong` makes its checks in a fixed order and stops at the first that fails. Here the
six rules are stated apart from each other and from that order (`Query.Keeps`), and so are the
errors that tell of a broken rule (`Query.Breaks`): each says what is wrong with the query, and
where an error names a column or a key, it names the first one that is wrong.

`Query.resolveAmong_first_broken_rule` is the main statement. A query is resolved exactly if it
keeps all six rules, to the one dataset that all its field keys name; otherwise the error is that of
the first rule that it breaks, whatever rules it breaks besides. The field keys of a query are those
that occur anywhere in it, in its filter at any depth (`Query.mem_fieldKeys_iff`).
-/

namespace CampusQuery

/-! ### The keys that occur in a query -/

/-- A key occurs in a filter, at whatever depth. -/
inductive Filter.Mentions (key : FieldKey) : Filter → Prop where
  /-- It occurs in one of the conditions that are joined. -/
  | child {connective : Connective} {children : List Filter} {f : Filter} :
      f ∈ children → Mentions key f → Mentions key (.logic connective children)
  /-- It occurs in the condition whose opposite is meant. -/
  | opposite {f : Filter} : Mentions key f → Mentions key (.not f)
  /-- Its field is compared with a number. -/
  | compare (comparison : Comparison) (bound : Binary64) :
      Mentions key (.compare comparison key bound)
  /-- Its field is matched with a pattern. -/
  | like (pattern : Pattern) : Mentions key (.like key pattern)

mutual

theorem Filter.mem_keys_iff {key : FieldKey} : ∀ {f : Filter}, key ∈ f.keys ↔ f.Mentions key
  | .logic connective children => by
    rw [keys, mem_keysOf_iff]
    constructor
    · rintro ⟨f, hf, hkey⟩
      exact .child hf hkey
    · rintro (⟨hf, hkey⟩)
      exact ⟨_, hf, hkey⟩
  | .not f => by
    rw [keys, mem_keys_iff]
    constructor
    · exact .opposite
    · rintro (_ | ⟨hkey⟩)
      exact hkey
  | .compare comparison k bound => by
    rw [keys, List.mem_singleton]
    constructor
    · rintro rfl
      exact .compare comparison bound
    · rintro ⟨⟩
      rfl
  | .like k pattern => by
    rw [keys, List.mem_singleton]
    constructor
    · rintro rfl
      exact .like pattern
    · rintro ⟨⟩
      rfl

theorem Filter.mem_keysOf_iff {key : FieldKey} :
    ∀ {fs : List Filter}, key ∈ keysOf fs ↔ ∃ f ∈ fs, f.Mentions key
  | [] => by simp [keysOf]
  | f :: rest => by
    rw [keysOf, List.mem_append, mem_keys_iff, mem_keysOf_iff]
    simp

end

namespace Query

/-- A key occurs in a query. -/
inductive Mentions (q : Query) (key : FieldKey) : Prop where
  /-- In its filter. -/
  | filter {f : Filter} : q.filter = some f → f.Mentions key → Mentions q key
  /-- As a column. -/
  | column : .field key ∈ q.columns → Mentions q key
  /-- In its order. -/
  | order {order : SortOrder} : q.order = some order → .field key ∈ order.columns → Mentions q key
  /-- As a key of its groups. -/
  | group {g : Grouping} : q.grouping = some g → key ∈ g.keys → Mentions q key
  /-- As what a value is computed from. -/
  | target {g : Grouping} {rule : Rule} :
      q.grouping = some g → rule ∈ g.rules → rule.target = key → Mentions q key

theorem mem_filterMap_key?_iff {columns : List Column} {key : FieldKey} :
    key ∈ columns.filterMap Column.key? ↔ .field key ∈ columns := by
  rw [List.mem_filterMap]
  constructor
  · rintro ⟨c, hc, hkey⟩
    cases c with
    | field k =>
      obtain rfl := Option.some.inj hkey
      exact hc
    | computed name => exact nomatch hkey
  · exact fun h => ⟨.field key, h, rfl⟩

/-- The field keys of a query are the keys that occur in it. -/
theorem mem_fieldKeys_iff {q : Query} {key : FieldKey} : key ∈ q.fieldKeys ↔ q.Mentions key := by
  simp only [fieldKeys, List.mem_append, mem_filterMap_key?_iff]
  constructor
  · rintro (((h | h) | h) | h)
    · cases hfilter : q.filter with
      | none => simp [hfilter] at h
      | some f => exact .filter hfilter (Filter.mem_keys_iff.1 (by simpa [hfilter] using h))
    · exact .column h
    · cases horder : q.order with
      | none => simp [horder] at h
      | some order => exact .order horder (by simpa [horder] using h)
    · cases hgrouping : q.grouping with
      | none => simp [hgrouping] at h
      | some g =>
        -- the keys of the groups come before those that values are computed from
        simp only [hgrouping, Option.map_some, Option.getD_some, List.mem_append,
          List.mem_map] at h
        rcases h with h | ⟨rule, hrule, htarget⟩
        · exact .group hgrouping h
        · exact .target hgrouping hrule htarget
  · rintro (⟨hfilter, h⟩ | h | ⟨horder, h⟩ | ⟨hgrouping, h⟩ | ⟨hgrouping, hrule, htarget⟩)
    · exact Or.inl (Or.inl (Or.inl (by simpa [hfilter] using Filter.mem_keys_iff.2 h)))
    · exact Or.inl (Or.inl (Or.inr h))
    · exact Or.inl (Or.inr (by simpa [horder] using h))
    · exact Or.inr (by simpa [hgrouping] using Or.inl h)
    · exact Or.inr (by simpa [hgrouping] using Or.inr ⟨_, hrule, htarget⟩)

end Query

/-! ### The rules -/

/-- A rule that queries have to keep. -/
inductive AgreementRule where
  /-- Computed values have different names, and columns come out of the grouping. -/
  | grouping
  /-- The order uses columns of the result. -/
  | order
  /-- All field keys name one dataset that there is. -/
  | dataset
  /-- Only numeric fields are aggregated as numbers. -/
  | targets
  /-- Without a grouping no column is a computed value. -/
  | computed
  /-- The dataset's kind has every field that is named. -/
  | fields

/-- The place of a rule in the order in which the rules are checked. -/
def AgreementRule.place : AgreementRule → Nat
  | grouping => 1
  | order => 2
  | dataset => 3
  | targets => 4
  | computed => 5
  | fields => 6

theorem AgreementRule.place_injective {r s : AgreementRule} (h : r.place = s.place) : r = s := by
  cases r <;> cases s <;> first | rfl | exact absurd h (by decide)

/-- The rule that an error tells of. -/
def RuleError.rule : RuleError → AgreementRule
  | repeatedName | columnNotGrouped => .grouping
  | orderNotInColumns _ => .order
  | noDataset | severalDatasets | unknownDataset _ => .dataset
  | numbersNeeded => .targets
  | nothingComputed _ => .computed
  | foreignField .. => .fields

/-- A column is a key of a grouping, or a value that it computes. -/
def Column.ComesOutOf (c : Column) (g : Grouping) : Prop :=
  (∃ key ∈ g.keys, c = .field key) ∨ ∃ rule ∈ g.rules, c = .computed rule.name

namespace Query

variable {q : Query} {kindOf? : String → Option Kind}

/-- The field keys of a query, of which there is at least one, all name the dataset of an id. -/
def Names (q : Query) (id : String) : Prop :=
  (∃ key, q.Mentions key) ∧ ∀ key, q.Mentions key → key.dataset = id

/-- A query keeps a rule, where the datasets have known kinds. -/
def Keeps (q : Query) (kindOf? : String → Option Kind) : AgreementRule → Prop
  | .grouping => ∀ g, q.grouping = some g →
      (g.rules.map Rule.name).Nodup ∧ ∀ c ∈ q.columns, c.ComesOutOf g
  | .order => ∀ order, q.order = some order → ∀ c ∈ order.columns, c ∈ q.columns
  | .dataset => ∃ id, q.Names id ∧ kindOf? id ≠ none
  | .targets => ∀ g, q.grouping = some g → ∀ rule ∈ g.rules,
      rule.aggregation ≠ .count → rule.target.field.valueType = .numeric
  | .computed => q.grouping = none → ∀ c ∈ q.columns, ∃ key, c = .field key
  | .fields => ∀ id kind, q.Names id → kindOf? id = some kind →
      ∀ key, q.Mentions key → key.field ∈ kind.fields

/-- An error tells of something that is wrong with a query. Where it names a column or a key, it is
the first one that is wrong. -/
inductive Breaks (q : Query) (kindOf? : String → Option Kind) : RuleError → Prop where
  | repeatedName {g : Grouping} : q.grouping = some g → ¬(g.rules.map Rule.name).Nodup →
      Breaks q kindOf? .repeatedName
  | columnNotGrouped {g : Grouping} {c : Column} : q.grouping = some g →
      (g.rules.map Rule.name).Nodup → c ∈ q.columns → ¬c.ComesOutOf g →
      Breaks q kindOf? .columnNotGrouped
  | orderNotInColumns {order : SortOrder} {c : Column} : q.order = some order →
      IsFirst (· ∉ q.columns) order.columns c → Breaks q kindOf? (.orderNotInColumns c)
  | noDataset : (∀ key, ¬q.Mentions key) → Breaks q kindOf? .noDataset
  | severalDatasets {k l : FieldKey} : q.Mentions k → q.Mentions l → k.dataset ≠ l.dataset →
      Breaks q kindOf? .severalDatasets
  | unknownDataset {id : String} : q.Names id → kindOf? id = none →
      Breaks q kindOf? (.unknownDataset id)
  | numbersNeeded {g : Grouping} {rule : Rule} : q.grouping = some g → rule ∈ g.rules →
      rule.aggregation ≠ .count → rule.target.field.valueType ≠ .numeric →
      Breaks q kindOf? .numbersNeeded
  | nothingComputed {c : Column} : q.grouping = none →
      IsFirst (fun c => ∀ key, c ≠ .field key) q.columns c → Breaks q kindOf? (.nothingComputed c)
  | foreignField {id : String} {kind : Kind} {key : FieldKey} : q.Names id →
      kindOf? id = some kind → IsFirst (fun k => k.field ∉ kind.fields) q.fieldKeys key →
      Breaks q kindOf? (.foreignField key kind id)

theorem Names.unique {id id' : String} (h : q.Names id) (h' : q.Names id') : id = id' := by
  obtain ⟨key, hkey⟩ := h.1
  rw [← h.2 key hkey, h'.2 key hkey]

theorem names_iff {id : String} :
    q.Names id ↔ q.fieldKeys ≠ [] ∧ ∀ k ∈ q.fieldKeys, k.dataset = id := by
  simp only [Names, ← mem_fieldKeys_iff]
  refine and_congr_left' ⟨?_, List.exists_mem_of_ne_nil _⟩
  rintro ⟨key, hkey⟩
  exact List.ne_nil_of_mem hkey

/-! ### One check and one rule -/

theorem refuseFirst_eq_error_iff {α : Type} {wrong : α → Bool} {error : α → RuleError}
    {items : List α} {e : RuleError} :
    refuseFirst wrong error items = .error e ↔
      ∃ item, IsFirst (fun i => wrong i = true) items item ∧ error item = e := by
  simp only [← find?_eq_some_iff_isFirst]
  rw [refuseFirst]
  cases items.find? wrong <;> simp

theorem isGrouped_iff {g : Grouping} {c : Column} : isGrouped g c = true ↔ c.ComesOutOf g := by
  cases c with
  | field key => simp [isGrouped, Column.ComesOutOf]
  | computed name => simp [isGrouped, Column.ComesOutOf, eq_comm]

theorem needsNumbers_iff {a : Aggregation} : a.needsNumbers = true ↔ a ≠ .count := by
  cases a <;> simp [Aggregation.needsNumbers]

theorem checkGrouping_eq_error_iff {e : RuleError} :
    q.checkGrouping = .error e ↔ e.rule = .grouping ∧ q.Breaks kindOf? e := by
  rw [checkGrouping]
  constructor
  · intro h
    cases hg : q.grouping with
    | none => simp [hg] at h
    | some g =>
      simp only [hg] at h
      by_cases hrepeated : hasRepetition (g.rules.map Rule.name) = true
      · rw [if_pos hrepeated] at h
        obtain rfl := Except.error.inj h
        refine ⟨rfl, .repeatedName hg fun hnodup => ?_⟩
        rw [hasRepetition_eq_false_iff.2 hnodup] at hrepeated
        exact Bool.false_ne_true hrepeated
      · have hnodup := hasRepetition_eq_false_iff.1 (Bool.eq_false_iff.2 hrepeated)
        rw [if_neg hrepeated] at h
        by_cases hall : q.columns.all (isGrouped g) = true
        · rw [if_pos hall] at h
          cases h
        · rw [if_neg hall] at h
          obtain rfl := Except.error.inj h
          simp only [List.all_eq_true, not_forall, isGrouped_iff] at hall
          obtain ⟨c, hc, hout⟩ := hall
          exact ⟨rfl, .columnNotGrouped hg hnodup hc hout⟩
  · rintro ⟨hrule, hbreaks⟩
    cases hbreaks with
    | repeatedName hg hrepeated =>
      rw [← hasRepetition_eq_false_iff, Bool.not_eq_false] at hrepeated
      simp only [hg, hrepeated, if_true]
    | columnNotGrouped hg hnodup hc hout =>
      have hall : ¬q.columns.all (isGrouped _) = true := fun hall =>
        hout (isGrouped_iff.1 (List.all_eq_true.1 hall _ hc))
      simp [hg, hasRepetition_eq_false_iff.2 hnodup, hall]
    | _ => cases hrule

theorem checkOrder_eq_error_iff {e : RuleError} :
    q.checkOrder = .error e ↔ e.rule = .order ∧ q.Breaks kindOf? e := by
  rw [checkOrder]
  cases horder : q.order with
  | none =>
    refine iff_of_false (by rintro ⟨⟩) ?_
    rintro ⟨hrule, hbreaks⟩
    cases hbreaks with
    | orderNotInColumns horder' _ => cases horder.symm.trans horder'
    | _ => cases hrule
  | some order =>
    rw [refuseFirst_eq_error_iff]
    simp only [Bool.not_eq_true', List.contains_eq_mem, decide_eq_false_iff_not]
    constructor
    · rintro ⟨c, hc, rfl⟩
      exact ⟨rfl, .orderNotInColumns horder hc⟩
    · rintro ⟨hrule, hbreaks⟩
      cases hbreaks with
      | orderNotInColumns horder' hc =>
        obtain rfl := Option.some.inj (horder.symm.trans horder')
        exact ⟨_, hc, rfl⟩
      | _ => cases hrule

theorem sharedDataset_eq_error_iff {e : RuleError} :
    q.sharedDataset = .error e ↔
      (e = .noDataset ∧ ∀ key, ¬q.Mentions key) ∨
      (e = .severalDatasets ∧ ∃ k l, q.Mentions k ∧ q.Mentions l ∧ k.dataset ≠ l.dataset) := by
  simp only [← mem_fieldKeys_iff]
  rw [sharedDataset]
  cases q.fieldKeys with
  | nil => simp [eq_comm]
  | cons key rest =>
    by_cases hany : (rest.any fun k => k.dataset != key.dataset) = true
    · simp only [hany, if_true, Except.error.injEq]
      -- the key that differs from the first one makes two of different datasets
      obtain ⟨l, hl, hne⟩ := List.any_eq_true.1 hany
      have hne : l.dataset ≠ key.dataset := by simpa using hne
      constructor
      · rintro rfl
        exact Or.inr ⟨rfl, l, key, List.mem_cons_of_mem _ hl, List.mem_cons_self .., hne⟩
      · rintro (⟨-, hnone⟩ | ⟨rfl, -⟩)
        · exact absurd (List.mem_cons_self ..) (hnone key)
        · rfl
    · have hall : ∀ k ∈ key :: rest, k.dataset = key.dataset := by
        simpa using hany
      simp only [hany]
      refine iff_of_false (by rintro ⟨⟩) ?_
      rintro (⟨-, hnone⟩ | ⟨-, k, l, hk, hl, hne⟩)
      · exact absurd (List.mem_cons_self ..) (hnone key)
      · exact hne ((hall k hk).trans (hall l hl).symm)

theorem knownDataset_eq_error_iff {e : RuleError} :
    q.knownDataset kindOf? = .error e ↔ e.rule = .dataset ∧ q.Breaks kindOf? e := by
  rw [knownDataset, bind_eq_error_iff, sharedDataset_eq_error_iff]
  simp only [sharedDataset_eq_ok_iff, ← names_iff]
  constructor
  · rintro ((⟨rfl, hnone⟩ | ⟨rfl, k, l, hk, hl, hne⟩) | ⟨id, hid, h⟩)
    · exact ⟨rfl, .noDataset hnone⟩
    · exact ⟨rfl, .severalDatasets hk hl hne⟩
    · cases hkind : kindOf? id with
      | some kind =>
        rw [hkind] at h
        cases h
      | none =>
        rw [hkind] at h
        obtain rfl := Except.error.inj h
        exact ⟨rfl, .unknownDataset hid hkind⟩
  · rintro ⟨hrule, hbreaks⟩
    cases hbreaks with
    | noDataset hnone => exact Or.inl (Or.inl ⟨rfl, hnone⟩)
    | severalDatasets hk hl hne => exact Or.inl (Or.inr ⟨rfl, _, _, hk, hl, hne⟩)
    | unknownDataset hid hkind => exact Or.inr ⟨_, hid, by rw [hkind]; rfl⟩
    | _ => cases hrule

theorem checkTargets_eq_error_iff {e : RuleError} :
    q.checkTargets = .error e ↔ e.rule = .targets ∧ q.Breaks kindOf? e := by
  have hwrong : ∀ rule : Rule,
      (rule.aggregation.needsNumbers && !rule.target.field.isNumeric) = true ↔
        rule.aggregation ≠ .count ∧ rule.target.field.valueType ≠ .numeric := fun rule => by
    simp [needsNumbers_iff, Field.isNumeric]
  rw [checkTargets]
  constructor
  · intro h
    cases hg : q.grouping with
    | none => simp [hg] at h
    | some g =>
      simp only [hg] at h
      split at h
      · next hany =>
        obtain rfl := Except.error.inj h
        obtain ⟨rule, hrule, hneeds⟩ := List.any_eq_true.1 hany
        obtain ⟨hcount, htext⟩ := (hwrong rule).1 hneeds
        exact ⟨rfl, .numbersNeeded hg hrule hcount htext⟩
      · cases h
  · rintro ⟨hrule, hbreaks⟩
    cases hbreaks with
    | numbersNeeded hg hmem hcount htext =>
      simp only [hg]
      exact if_pos (List.any_eq_true.2 ⟨_, hmem, (hwrong _).2 ⟨hcount, htext⟩⟩)
    | _ => cases hrule

theorem checkComputed_eq_error_iff {e : RuleError} :
    q.checkComputed = .error e ↔ e.rule = .computed ∧ q.Breaks kindOf? e := by
  have hcomputed : ∀ c : Column, c.key?.isNone = true ↔ ∀ key, c ≠ .field key := fun c => by
    cases c <;> simp [Column.key?]
  rw [checkComputed]
  cases hg : q.grouping with
  | some g =>
    refine iff_of_false (by rintro ⟨⟩) ?_
    rintro ⟨hrule, hbreaks⟩
    cases hbreaks with
    | nothingComputed hg' _ => cases hg.symm.trans hg'
    | _ => cases hrule
  | none =>
    rw [refuseFirst_eq_error_iff]
    simp only [hcomputed]
    constructor
    · rintro ⟨c, hc, rfl⟩
      exact ⟨rfl, .nothingComputed hg hc⟩
    · rintro ⟨hrule, hbreaks⟩
      cases hbreaks with
      | nothingComputed _ hc => exact ⟨_, hc, rfl⟩
      | _ => cases hrule

theorem checkFields_eq_error_iff {id : String} {kind : Kind} (hid : q.Names id)
    (hkind : kindOf? id = some kind) {e : RuleError} :
    q.checkFields id kind = .error e ↔ e.rule = .fields ∧ q.Breaks kindOf? e := by
  rw [checkFields, refuseFirst_eq_error_iff]
  simp only [Bool.not_eq_true', Bool.eq_false_iff, ne_eq, ← Field.mem_fields_iff]
  constructor
  · rintro ⟨key, hkey, rfl⟩
    exact ⟨rfl, .foreignField hid hkind hkey⟩
  · rintro ⟨hrule, hbreaks⟩
    cases hbreaks with
    | foreignField hid' hkind' hkey =>
      -- the error speaks of the same dataset, since all keys name only one
      obtain rfl := hid.unique hid'
      obtain rfl := Option.some.inj (hkind.symm.trans hkind')
      exact ⟨_, hkey, rfl⟩
    | _ => cases hrule

/-! ### The order of the checks -/

theorem Breaks.not_keeps {e : RuleError} (h : q.Breaks kindOf? e) : ¬q.Keeps kindOf? e.rule := by
  intro hkeeps
  cases h with
  | repeatedName hg hrepeated => exact hrepeated (hkeeps _ hg).1
  | columnNotGrouped hg _ hc hout => exact hout ((hkeeps _ hg).2 _ hc)
  | orderNotInColumns horder hc =>
    obtain ⟨before, after, hsplit, hc, -⟩ := hc
    exact hc (hkeeps _ horder _ (by simp [hsplit]))
  | noDataset hnone =>
    obtain ⟨id, ⟨⟨key, hkey⟩, -⟩, -⟩ := hkeeps
    exact hnone key hkey
  | severalDatasets hk hl hne =>
    obtain ⟨id, ⟨-, hall⟩, -⟩ := hkeeps
    exact hne ((hall _ hk).trans (hall _ hl).symm)
  | unknownDataset hid hkind =>
    obtain ⟨id', hid', hknown⟩ := hkeeps
    obtain rfl := hid.unique hid'
    exact hknown hkind
  | numbersNeeded hg hrule hcount htext => exact htext (hkeeps _ hg _ hrule hcount)
  | nothingComputed hg hc =>
    obtain ⟨before, after, hsplit, hc, -⟩ := hc
    obtain ⟨key, hkey⟩ := hkeeps hg _ (hsplit ▸ List.mem_append_right _ (List.mem_cons_self ..))
    exact hc key hkey
  | foreignField hid hkind hkey =>
    obtain ⟨before, after, hsplit, hkey, -⟩ := hkey
    exact hkey (hkeeps _ _ hid hkind _ (mem_fieldKeys_iff.1 (by simp [hsplit])))

/-- What is left of the checks, from the rule at some place on, yields the error of the first rule
that is broken from there on. -/
def DecidesFrom {α : Type} (q : Query) (kindOf? : String → Option Kind) (n : Nat)
    (checks : Except RuleError α) : Prop :=
  ∀ e, checks = .error e ↔ q.Breaks kindOf? e ∧ n ≤ e.rule.place ∧
    ∀ rule : AgreementRule, n ≤ rule.place → rule.place < e.rule.place → q.Keeps kindOf? rule

/-- One more check in front. -/
theorem DecidesFrom.bind {α β : Type} {check : Except RuleError α} {rest : α → Except RuleError β}
    {r : AgreementRule} (herror : ∀ {e}, check = .error e ↔ e.rule = r ∧ q.Breaks kindOf? e)
    (hok : ∀ {a}, check = .ok a → q.Keeps kindOf? r)
    (hrest : ∀ {a}, check = .ok a → q.DecidesFrom kindOf? (r.place + 1) (rest a)) :
    q.DecidesFrom kindOf? r.place (check >>= rest) := by
  intro e
  rw [bind_eq_error_iff]
  constructor
  · rintro (h | ⟨a, ha, h⟩)
    · obtain ⟨rfl, hbreaks⟩ := herror.1 h
      exact ⟨hbreaks, Nat.le_refl _, fun rule hle hlt => absurd hlt (Nat.not_lt.2 hle)⟩
    · obtain ⟨hbreaks, hplace, hkeeps⟩ := (hrest ha e).1 h
      refine ⟨hbreaks, Nat.le_of_succ_le hplace, fun rule hle hlt => ?_⟩
      -- a rule from here on is the one just checked, or one of the rest
      rcases Nat.eq_or_lt_of_le hle with heq | hgt
      · exact AgreementRule.place_injective heq ▸ hok ha
      · exact hkeeps rule hgt hlt
  · rintro ⟨hbreaks, hplace, hkeeps⟩
    rcases Nat.eq_or_lt_of_le hplace with heq | hgt
    · exact Or.inl (herror.2 ⟨(AgreementRule.place_injective heq).symm, hbreaks⟩)
    · -- the error is that of a later rule, so this check is passed
      cases hcheck : check with
      | error e' =>
        obtain ⟨rfl, hbreaks'⟩ := herror.1 hcheck
        exact absurd (hkeeps _ (Nat.le_refl _) hgt) hbreaks'.not_keeps
      | ok a =>
        refine Or.inr ⟨a, rfl, (hrest hcheck e).2 ⟨hbreaks, hgt, fun rule hle hlt => ?_⟩⟩
        exact hkeeps rule (Nat.le_of_succ_le hle) hlt

theorem resolveAmong_decidesFrom (q : Query) (kindOf? : String → Option Kind) :
    q.DecidesFrom kindOf? 1 (q.resolveAmong kindOf?) := by
  refine DecidesFrom.bind (r := .grouping) checkGrouping_eq_error_iff ?_ fun _ => ?_
  · intro _ h g hg
    have h := checkGrouping_eq_ok_iff.1 h g hg
    exact ⟨h.1, fun c hc => isGrouped_iff.1 (h.2 c hc)⟩
  refine DecidesFrom.bind (r := .order) checkOrder_eq_error_iff checkOrder_eq_ok_iff.1 fun _ => ?_
  refine DecidesFrom.bind (r := .dataset) knownDataset_eq_error_iff ?_ ?_
  · rintro ⟨id, kind⟩ h
    obtain ⟨hnames, hkind⟩ := knownDataset_eq_ok_iff.1 h
    exact ⟨id, names_iff.2 hnames, by simp [hkind]⟩
  rintro ⟨id, kind⟩ h
  obtain ⟨hnames, hkind⟩ := knownDataset_eq_ok_iff.1 h
  have hnames := names_iff.2 hnames
  refine DecidesFrom.bind (r := .targets) checkTargets_eq_error_iff ?_ fun _ => ?_
  · intro _ h g hg rule hrule hcount
    have hnumeric := checkTargets_eq_ok_iff.1 h g hg rule hrule (needsNumbers_iff.2 hcount)
    simpa [Field.isNumeric] using hnumeric
  refine DecidesFrom.bind (r := .computed) checkComputed_eq_error_iff checkComputed_eq_ok_iff.1
    fun _ => ?_
  refine DecidesFrom.bind (r := .fields) (checkFields_eq_error_iff hnames hkind) ?_ fun _ => ?_
  · intro _ h id' kind' hnames' hkind' key hkey
    obtain rfl := hnames.unique hnames'
    obtain rfl := Option.some.inj (hkind.symm.trans hkind')
    exact Field.mem_fields_iff.2 (checkFields_eq_ok_iff.1 h key (mem_fieldKeys_iff.2 hkey))
  -- no rule is left, and no check
  intro e
  refine iff_of_false (fun h => nomatch h) fun h => ?_
  have hplace : e.rule.place ≤ 6 := by cases e.rule <;> decide
  exact absurd h.2.1 (Nat.not_le.2 (Nat.lt_succ_of_le hplace))

theorem agrees_iff {id : String} :
    (∃ kind, kindOf? id = some kind ∧ q.Agrees id kind) ↔
      (∀ rule, q.Keeps kindOf? rule) ∧ q.Names id := by
  constructor
  · rintro ⟨kind, hkind, h⟩
    have hnames : q.Names id := names_iff.2 ⟨h.named, h.shared⟩
    refine ⟨fun rule => ?_, hnames⟩
    cases rule with
    | grouping =>
      exact fun g hg => ⟨h.names g hg, fun c hc => isGrouped_iff.1 (h.grouped g hg c hc)⟩
    | order => exact h.ordered
    | dataset => exact ⟨id, hnames, by simp [hkind]⟩
    | targets =>
      intro g hg rule hrule hcount
      simpa [Field.isNumeric] using h.numeric g hg rule hrule (needsNumbers_iff.2 hcount)
    | computed => exact h.plain
    | fields =>
      intro id' kind' hnames' hkind' key hkey
      obtain rfl := hnames.unique hnames'
      obtain rfl := Option.some.inj (hkind.symm.trans hkind')
      exact Field.mem_fields_iff.2 (h.belongs key (mem_fieldKeys_iff.2 hkey))
  · rintro ⟨hkeeps, hnames⟩
    obtain ⟨id', hnames', hknown⟩ := hkeeps .dataset
    obtain rfl := hnames.unique hnames'
    obtain ⟨kind, hkind⟩ := Option.ne_none_iff_exists'.1 hknown
    obtain ⟨hnamed, hshared⟩ := names_iff.1 hnames
    have hgrouping := hkeeps .grouping
    refine ⟨kind, hkind, ?_⟩
    exact {
      names := fun g hg => (hgrouping g hg).1
      grouped := fun g hg c hc => isGrouped_iff.2 ((hgrouping g hg).2 c hc)
      ordered := hkeeps .order
      named := hnamed
      shared := hshared
      numeric := fun g hg rule hrule hneeds => by
        simpa [Field.isNumeric] using hkeeps .targets g hg rule hrule (needsNumbers_iff.1 hneeds)
      plain := hkeeps .computed
      belongs := fun key hkey =>
        Field.mem_fields_iff.1
          (hkeeps .fields id kind hnames hkind key (mem_fieldKeys_iff.1 hkey)) }

/-- **The first broken rule decides.** A query is resolved to the dataset that all its field keys
name, exactly if it keeps every rule. It is refused with an error that tells of a broken rule,
exactly if it keeps all rules before that one. -/
theorem resolveAmong_first_broken_rule (q : Query) (kindOf? : String → Option Kind) :
    (∀ id, q.resolveAmong kindOf? = .ok id ↔ (∀ rule, q.Keeps kindOf? rule) ∧ q.Names id) ∧
    ∀ e, q.resolveAmong kindOf? = .error e ↔ q.Breaks kindOf? e ∧
      ¬q.Keeps kindOf? e.rule ∧
      ∀ rule : AgreementRule, rule.place < e.rule.place → q.Keeps kindOf? rule := by
  refine ⟨fun id => resolveAmong_eq_ok_iff.trans agrees_iff, fun e => ?_⟩
  have hfirst : ∀ rule : AgreementRule, 1 ≤ rule.place := fun rule => by cases rule <;> decide
  rw [resolveAmong_decidesFrom q kindOf? e]
  constructor
  · rintro ⟨hbreaks, -, hkeeps⟩
    exact ⟨hbreaks, hbreaks.not_keeps, fun rule => hkeeps rule (hfirst rule)⟩
  · rintro ⟨hbreaks, -, hkeeps⟩
    exact ⟨hbreaks, hfirst _, fun rule _ => hkeeps rule⟩

end Query

end CampusQuery
