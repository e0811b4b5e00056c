import CampusQuery.Proofs.Distinct
import CampusQuery.Proofs.Grammar

/-!
# Reading decides the grammar

`Query.ofJson` reads a value clause by clause and stops at the first part that is not of the
prescribed form. It succeeds on the values of the grammar and on no others, and what it then yields
is the one query that the value denotes (`Query.ofJson_eq_ok_iff`).

Each reader has one lemma that says what it yields. Only filters are read by recursion, so only they
take two: a filter that is read is one that is denoted, by recursion on the value as the readers are
(`Query.denotes_of_readFilter`), and one that is denoted is read, by induction on what is denoted
(`Query.readFilter_of_denotes`).
-/

namespace CampusQuery

/-! ### Objects of two members -/

/-- An object of two members has them in one order or the other. -/
theorem Json.perm_pair_iff {a b : String} (hab : a ≠ b) {members : List (String × Json)}
    {x y : Json} :
    members.Perm [(a, x), (b, y)] ↔
      members.length = 2 ∧ findMember? a members = some x ∧ findMember? b members = some y := by
  constructor
  · intro h
    refine ⟨h.length_eq, ?_⟩
    obtain ⟨m, n, rfl⟩ := List.length_eq_two.1 h.length_eq
    -- the first member is one of the two, and then the second one is the other
    rcases List.mem_pair.1 (h.mem_iff.1 (List.mem_cons_self ..)) with rfl | rfl
    · have hn := (List.perm_cons _).1 h
      obtain rfl := List.singleton_perm_singleton.1 hn
      simp [findMember?, hab]
    · have hn := (List.perm_cons _).1 (h.trans (List.Perm.swap ..))
      obtain rfl := List.singleton_perm_singleton.1 hn
      simp [findMember?, Ne.symm hab]
  · rintro ⟨hlength, ha, hb⟩
    obtain ⟨⟨m, v⟩, ⟨n, w⟩, rfl⟩ := List.length_eq_two.1 hlength
    rw [findMember?, Option.map_eq_some_iff] at ha hb
    -- the two members that are found have different names, so they are all there are
    obtain ⟨p, hp, rfl⟩ := ha
    obtain ⟨q, hq, rfl⟩ := hb
    have hpname : p.1 = a := by simpa using List.find?_some hp
    have hqname : q.1 = b := by simpa using List.find?_some hq
    have hne : p ≠ q := fun h => hab (by rw [← hpname, h, hqname])
    rcases List.mem_pair.1 (List.mem_of_find?_eq_some hp) with rfl | rfl <;>
      rcases List.mem_pair.1 (List.mem_of_find?_eq_some hq) with rfl | rfl
    · exact absurd rfl hne
    · rw [← hpname, ← hqname]
    · rw [← hpname, ← hqname]
      exact List.Perm.swap ..
    · exact absurd rfl hne

namespace Query

open Json

/-! ### Leaves of a filter -/

theorem oneMember_eq_ok_iff {part : String} {raw : Json} {m : String × Json} :
    oneMember part raw = .ok m ↔ raw = .object [m] := by
  unfold oneMember
  split <;> simp_all

theorem readComparison_eq_ok_iff {c : Comparison} {body : Json} {f : Filter} :
    readComparison c body = .ok f ↔ ∃ (k : FieldKey) (n : JsonNumber),
      k.WellFormed ∧ k.field.isNumeric = true ∧ body = .object [(k.toText, .number n)] ∧
      f = .compare c k n.value := by
  simp only [readComparison, bind_eq_ok_iff, oneMember_eq_ok_iff]
  constructor
  · rintro ⟨⟨name, value⟩, rfl, h⟩
    -- only one path through the checks yields a filter: key, type of the field, type of the value
    split at h
    · next k hparse =>
      obtain ⟨rfl, hk⟩ := FieldKey.parse_eq_ok_iff.1 hparse
      split at h
      · next hnumeric =>
        split at h
        · next n hvalue =>
          obtain rfl : value = .number n := hvalue
          exact ⟨k, n, hk, hnumeric, rfl, (Except.ok.inj h).symm⟩
        · exact nomatch h
      · exact nomatch h
    · exact nomatch h
  · rintro ⟨k, n, hk, hnumeric, rfl, rfl⟩
    refine ⟨_, rfl, ?_⟩
    simp only [FieldKey.parse_eq_ok_iff.2 ⟨rfl, hk⟩, if_pos hnumeric]
    rfl

theorem readLike_eq_ok_iff {body : Json} {f : Filter} :
    readLike body = .ok f ↔ ∃ (k : FieldKey) (p : Pattern),
      k.WellFormed ∧ k.field.isNumeric = false ∧ p.WellFormed ∧
      body = .object [(k.toText, .string p.toText)] ∧ f = .like k p := by
  simp only [readLike, bind_eq_ok_iff, oneMember_eq_ok_iff]
  constructor
  · rintro ⟨⟨name, value⟩, rfl, h⟩
    -- as for a comparison, but the field is not numeric and the text has to be a pattern
    split at h
    · next k hparse =>
      obtain ⟨rfl, hk⟩ := FieldKey.parse_eq_ok_iff.1 hparse
      split at h
      · exact nomatch h
      · next htext =>
        split at h
        · next s hvalue =>
          obtain rfl : value = .string s := hvalue
          split at h
          · next p hpattern =>
            obtain ⟨rfl, hp⟩ := Pattern.parse_eq_ok_iff.1 hpattern
            exact ⟨k, p, hk, Bool.eq_false_iff.2 htext, hp, rfl, (Except.ok.inj h).symm⟩
          · exact nomatch h
        · exact nomatch h
    · exact nomatch h
  · rintro ⟨k, p, hk, htext, hp, rfl, rfl⟩
    refine ⟨_, rfl, ?_⟩
    simp only [FieldKey.parse_eq_ok_iff.2 ⟨rfl, hk⟩, htext, Pattern.parse_eq_ok_iff.2 ⟨rfl, hp⟩]
    rfl

theorem denotes_of_readComparison (c : Comparison) {body : Json} {f : Filter}
    (h : readComparison c body = .ok f) : (Json.object [(c.keyword, body)]).DenotesFilter f := by
  obtain ⟨k, n, hk, hnumeric, rfl, rfl⟩ := readComparison_eq_ok_iff.1 h
  exact .compare c n hk hnumeric

theorem denotes_of_readLike {body : Json} {f : Filter} (h : readLike body = .ok f) :
    (Json.object [("IS", body)]).DenotesFilter f := by
  obtain ⟨k, p, hk, htext, hp, rfl, rfl⟩ := readLike_eq_ok_iff.1 h
  exact .like hk htext hp

/-! ### Keywords -/

theorem readCondition_connective (c : Connective) (body : Json) :
    readCondition c.keyword body = readLogic c body := by
  cases c <;> rw [readCondition] <;> rfl

theorem readCondition_comparison (c : Comparison) (body : Json) :
    readCondition c.keyword body = readComparison c body := by
  cases c <;> rw [readCondition] <;> rfl

theorem readCondition_like (body : Json) : readCondition "IS" body = readLike body := by
  rw [readCondition]
  rfl

theorem readCondition_not (body : Json) :
    readCondition "NOT" body = (readFilter body).map .not := by
  rw [readCondition]
  rfl

/-! ### Filters -/

mutual

/-- What is read as a filter denotes it. -/
theorem denotes_of_readFilter : ∀ {raw : Json} {f : Filter},
    readFilter raw = .ok f → raw.DenotesFilter f
  | .object [(key, body)], f, h => by
    rw [readFilter] at h
    exact denotes_of_readCondition key h
  -- nothing but an object of one member is read
  | .object [], _, h | .object (_ :: _ :: _), _, h | .null, _, h | .bool _, _, h
  | .number _, _, h | .string _, _, h | .array _, _, h => by
    simp [readFilter] at h

/-- What is read as a condition of some keyword denotes it together with the keyword. -/
theorem denotes_of_readCondition : ∀ (key : String) {body : Json} {f : Filter},
    readCondition key body = .ok f → (Json.object [(key, body)]).DenotesFilter f
  | key, body, f, h => by
    unfold readCondition at h
    -- one case per keyword; `NOT` is the only one that reads a filter directly
    split at h
    · next hkey => exact hkey ▸ denotes_of_readLogic .and h
    split at h
    · next hkey => exact hkey ▸ denotes_of_readLogic .or h
    split at h
    · next hkey => exact hkey ▸ denotes_of_readComparison .lt h
    split at h
    · next hkey => exact hkey ▸ denotes_of_readComparison .gt h
    split at h
    · next hkey => exact hkey ▸ denotes_of_readComparison .eq h
    split at h
    · next hkey => exact hkey ▸ denotes_of_readLike h
    split at h
    · next hkey =>
      obtain ⟨child, hchild, rfl⟩ := map_eq_ok_iff.1 h
      exact hkey ▸ .not (denotes_of_readFilter hchild)
    · exact nomatch h

/-- What is read as the body of a connective denotes filters that it joins. -/
theorem denotes_of_readLogic (c : Connective) : ∀ {body : Json} {f : Filter},
    readLogic c body = .ok f → (Json.object [(c.keyword, body)]).DenotesFilter f
  | .array (item :: items), f, h => by
    rw [readLogic] at h
    obtain ⟨filters, hfilters, rfl⟩ := map_eq_ok_iff.1 h
    exact .logic c (List.cons_ne_nil _ _) (denote_of_readFilters hfilters)
  -- nothing but an array with an item is read
  | .array [], _, h | .object _, _, h | .null, _, h | .bool _, _, h | .number _, _, h
  | .string _, _, h => by
    simp [readLogic] at h

/-- What is read as a list of filters denotes them one by one. -/
theorem denote_of_readFilters : ∀ {items : List Json} {filters : List Filter},
    readFilters items = .ok filters → List.Forall₂ DenotesFilter items filters
  | [], _, h => by
    rw [readFilters] at h
    obtain rfl := Except.ok.inj h
    exact .nil
  | item :: items, _, h => by
    simp only [readFilters, bind_eq_ok_iff] at h
    obtain ⟨f, hf, filters, hfilters, h⟩ := h
    obtain rfl := Except.ok.inj h
    exact .cons (denotes_of_readFilter hf) (denote_of_readFilters hfilters)

end

/-- A connective over filters that can be read is read. -/
theorem readLogic_of_forall₂ (c : Connective) {items : List Json} {filters : List Filter}
    (hne : items ≠ []) (h : List.Forall₂ (fun item f => readFilter item = .ok f) items filters) :
    readLogic c (.array items) = .ok (.logic c filters) := by
  -- the readers of lists are written out so that they recurse; they are a `mapM` all the same
  have hmapM : ∀ items : List Json, readFilters items = items.mapM readFilter := by
    intro items
    induction items with
    | nil => rw [readFilters, List.mapM_nil]; rfl
    | cons item items ih => rw [readFilters, List.mapM_cons, ih]
  cases items with
  | nil => exact absurd rfl hne
  | cons item items => rw [readLogic, hmapM, mapM_eq_ok_iff.2 h]; rfl

/-- What denotes a filter is read as it. -/
theorem readFilter_of_denotes {raw : Json} {f : Filter} (h : raw.DenotesFilter f) :
    readFilter raw = .ok f := by
  refine h.induction (motive := fun raw f => readFilter raw = .ok f) ?_ ?_ ?_ ?_
  · -- a connective: its filters are read by induction
    intro c items filters hne ih
    rw [readFilter, readCondition_connective]
    exact readLogic_of_forall₂ c hne (ih.imp fun _ _ hitem => hitem.2)
  · -- a negation
    intro body f _ ih
    rw [readFilter, readCondition_not, ih]
    rfl
  · -- a comparison
    intro c k n hk hnumeric
    rw [readFilter, readCondition_comparison]
    exact readComparison_eq_ok_iff.2 ⟨k, n, hk, hnumeric, rfl, rfl⟩
  · -- a match
    intro k p hk htext hp
    rw [readFilter, readCondition_like]
    exact readLike_eq_ok_iff.2 ⟨k, p, hk, htext, hp, rfl, rfl⟩

theorem readFilter_eq_ok_iff {raw : Json} {f : Filter} :
    readFilter raw = .ok f ↔ raw.DenotesFilter f :=
  ⟨denotes_of_readFilter, readFilter_of_denotes⟩

theorem readWhere_eq_ok_iff {raw : Json} {filter : Option Filter} :
    readWhere raw = .ok filter ↔ raw.DenotesCondition filter := by
  unfold readWhere
  split
  · cases filter with
    | none => exact ⟨fun _ => rfl, fun _ => rfl⟩
    | some f => exact ⟨fun h => (nomatch h), fun h => (nomatch h)⟩
  · -- an object that is not empty is read as a filter, so it cannot denote the absence of one
    next members hne =>
    rw [map_eq_ok_iff]
    simp only [readFilter_eq_ok_iff]
    cases filter with
    | none => exact ⟨fun ⟨_, _, h⟩ => (nomatch h), fun h => absurd (Json.object.inj h) hne⟩
    | some f => exact ⟨fun ⟨_, hf, h⟩ => Option.some.inj h ▸ hf, fun hf => ⟨f, hf, rfl⟩⟩
  · -- nothing that denotes a condition is anything but an object
    next _ hne =>
    refine ⟨fun h => (nomatch h), fun h => ?_⟩
    cases filter with
    | none => exact absurd h (hne [])
    | some f => cases h <;> exact absurd rfl (hne _)

/-! ### Columns and orders -/

theorem readColumn_eq_ok_iff {clause : Clause} {raw : Json} {c : Column} :
    readColumn clause raw = .ok c ↔ ∃ text, raw = .string text ∧ DenotesColumn text c := by
  constructor
  · intro h
    unfold readColumn at h
    split at h
    · next text =>
      refine ⟨text, rfl, ?_⟩
      -- a text with an underscore has to be a key, any other one that is not empty is a name
      split at h
      · split at h
        · next k hparse =>
          obtain rfl := Except.ok.inj h
          exact FieldKey.parse_eq_ok_iff.1 hparse
        · exact nomatch h
      · next hplain =>
        split at h
        · exact nomatch h
        · next hne =>
          obtain rfl := Except.ok.inj h
          exact ⟨rfl, hne, by simpa using hplain⟩
    · exact nomatch h
  · rintro ⟨text, rfl, hc⟩
    unfold readColumn
    cases c with
    | field k =>
      -- the underscore of the key takes the reader to its first branch
      obtain ⟨rfl, hk⟩ := hc
      simp only [List.contains_iff_mem, if_pos k.underscore_mem_toText,
        FieldKey.parse_eq_ok_iff.2 ⟨rfl, hk⟩]
    | computed name =>
      obtain ⟨rfl, hne, hplain⟩ := hc
      simp only [List.contains_iff_mem, if_neg hplain, if_neg hne]

theorem readColumns_eq_ok_iff {clause : Clause} {items : List Json} {columns : List Column} :
    readColumns clause items = .ok columns ↔
      ∃ keys : List String, items = keys.map .string ∧
        List.Forall₂ DenotesColumn keys columns := by
  -- the clause is only named in errors
  have hmapM : readColumns clause items = items.mapM (readColumn clause) := by
    induction items with
    | nil => rfl
    | cons item items ih => rw [readColumns, List.mapM_cons, ih]
  rw [hmapM, mapM_eq_ok_iff, ← forall₂_exists_iff]
  simp only [readColumn_eq_ok_iff]

theorem distinctColumns_eq_eraseDups (columns : List Column) :
    distinctColumns columns = columns.eraseDups := by
  rw [← foldl_new_eq_eraseDups, distinctColumns]
  simp only [List.contains_eq_any_beq, BEq.comm]

theorem readColumnList_eq_ok_iff {raw : Json} {columns : List Column} :
    readColumnList raw = .ok columns ↔ ∃ (keys : List String) (written : List Column),
      raw = .array (keys.map .string) ∧ keys ≠ [] ∧ List.Forall₂ DenotesColumn keys written ∧
      columns = written.eraseDups := by
  constructor
  · intro h
    unfold readColumnList at h
    split at h
    · exact nomatch h
    · next items hne =>
      obtain ⟨written, hwritten, rfl⟩ := map_eq_ok_iff.1 h
      obtain ⟨keys, rfl, hkeys⟩ := readColumns_eq_ok_iff.1 hwritten
      exact ⟨keys, written, rfl, fun hnil => hne (hnil ▸ rfl), hkeys,
        distinctColumns_eq_eraseDups written⟩
    · exact nomatch h
  · rintro ⟨_ | ⟨key, keys⟩, written, rfl, hne, hkeys, rfl⟩
    · exact absurd rfl hne
    · have hread : readColumns .columns ((key :: keys).map .string) = .ok written :=
        readColumns_eq_ok_iff.2 ⟨key :: keys, rfl, hkeys⟩
      rw [← distinctColumns_eq_eraseDups]
      exact map_eq_ok_iff.2 ⟨written, hread, rfl⟩

theorem readDirection_eq_ok_iff {raw : Json} {d : Direction} :
    readDirection raw = .ok d ↔ raw = .string d.keyword := by
  constructor
  · intro h
    unfold readDirection at h
    split at h
    · split at h
      · next hup => exact Except.ok.inj h ▸ hup ▸ rfl
      split at h
      · next hdown => exact Except.ok.inj h ▸ hdown ▸ rfl
      · exact nomatch h
    · exact nomatch h
  · rintro rfl
    cases d <;> rfl

theorem readOrder_eq_ok_iff {raw : Json} {order : SortOrder} :
    readOrder raw = .ok order ↔ raw.DenotesOrder order := by
  constructor
  · intro h
    unfold readOrder at h
    split at h
    · next key =>
      obtain ⟨c, hc, rfl⟩ := map_eq_ok_iff.1 h
      obtain ⟨_, hkey, hc⟩ := readColumn_eq_ok_iff.1 hc
      exact .single (Json.string.inj hkey ▸ hc)
    · next members =>
      split at h
      · next dir keys hdir hkeys =>
        -- two members, of which `dir` and `keys` are found, are these in some order
        simp only [guard_eq_ok_iff, bind_eq_ok_iff, readDirection_eq_ok_iff] at h
        obtain ⟨hlength, d, rfl, h⟩ := h
        split at h
        · next item items =>
          obtain ⟨columns, hcolumns, h⟩ := bind_eq_ok_iff.1 h
          obtain rfl := Except.ok.inj h
          obtain ⟨texts, htexts, hdenote⟩ := readColumns_eq_ok_iff.1 hcolumns
          have hperm := (Json.perm_pair_iff (by decide)).2 ⟨not_not.1 hlength, hdir, hkeys⟩
          rw [htexts] at hperm
          refine .directional d ⟨members, rfl, hperm⟩ ?_ hdenote
          rintro rfl
          exact nomatch htexts
        · exact nomatch h
      · exact nomatch h
    · exact nomatch h
  · intro h
    cases h with
    | @single key c hc =>
      exact map_eq_ok_iff.2 ⟨c, readColumn_eq_ok_iff.2 ⟨key, rfl, hc⟩, rfl⟩
    | @directional _ d keys columns hmembers hne hcolumns =>
      obtain ⟨members, rfl, hperm⟩ := hmembers
      obtain ⟨hlength, hdir, hkeys⟩ := (Json.perm_pair_iff (by decide)).1 hperm
      unfold readOrder
      simp only [hdir, hkeys, guard_eq_ok_iff, bind_eq_ok_iff, readDirection_eq_ok_iff]
      refine ⟨not_not.2 hlength, d, rfl, ?_⟩
      cases keys with
      | nil => exact absurd rfl hne
      | cons key keys =>
        exact bind_eq_ok_iff.2 ⟨columns, readColumns_eq_ok_iff.2 ⟨_, rfl, hcolumns⟩, rfl⟩

/-! ### Options -/

/-- No member has another name when none is found. -/
theorem find?_other_eq_none_iff {members : List (String × Json)} {names : List String}
    {p : String × Json → Bool} (hp : ∀ m, p m = true ↔ m.1 ∉ names) :
    members.find? p = none ↔ (Json.object members).HasOnly names := by
  simp only [List.find?_eq_none, hp, not_not, HasOnly, Json.object.injEq, exists_eq_left']

theorem readOptions_eq_ok_iff {raw : Json} {columns : List Column} {order : Option SortOrder} :
    readOptions raw = .ok (columns, order) ↔ raw.DenotesOptions columns order := by
  have hother : ∀ members : List (String × Json),
      (members.find? fun m => m.1 ≠ "COLUMNS" ∧ m.1 ≠ "ORDER") = none ↔
        (Json.object members).HasOnly ["COLUMNS", "ORDER"] := fun members =>
    find?_other_eq_none_iff fun m => by simp
  constructor
  · intro h
    unfold readOptions at h
    split at h
    · next members =>
      split at h
      · cases h
      · next body hbody =>
        split at h
        · cases h
        · next hnone =>
          obtain ⟨distinct, hdistinct, h⟩ := bind_eq_ok_iff.1 h
          obtain ⟨keys, written, rfl, hne, hkeys, rfl⟩ := readColumnList_eq_ok_iff.1 hdistinct
          -- the order is read if it is there
          split at h
          · next hmember =>
            obtain ⟨rfl, rfl⟩ := Prod.mk.inj (Except.ok.inj h)
            refine ⟨(hother members).1 hnone, ⟨keys, _, hbody, hne, hkeys, rfl⟩, ?_⟩
            rw [member?, hmember]
            exact .none
          · next body hmember =>
            obtain ⟨o, ho, h⟩ := bind_eq_ok_iff.1 h
            obtain ⟨rfl, rfl⟩ := Prod.mk.inj (Except.ok.inj h)
            refine ⟨(hother members).1 hnone, ⟨keys, _, hbody, hne, hkeys, rfl⟩, ?_⟩
            rw [member?, hmember]
            exact .some (readOrder_eq_ok_iff.1 ho)
    · cases h
  · rintro ⟨⟨members, rfl, honly⟩, ⟨keys, written, hbody, hne, hkeys, rfl⟩, horder⟩
    have hnone := (hother members).2 ⟨members, rfl, honly⟩
    rw [member?] at hbody horder
    unfold readOptions
    simp only [hbody, hnone, bind_eq_ok_iff]
    refine ⟨_, readColumnList_eq_ok_iff.2 ⟨keys, written, rfl, hne, hkeys, rfl⟩, ?_⟩
    cases hmember : findMember? "ORDER" members with
    | none =>
      rw [hmember] at horder
      cases horder
      rfl
    | some body =>
      rw [hmember] at horder
      obtain ⟨ho⟩ := horder
      exact bind_eq_ok_iff.2 ⟨_, readOrder_eq_ok_iff.2 ho, rfl⟩

/-! ### Groupings -/

theorem readGroupKey_eq_ok_iff {raw : Json} {k : FieldKey} :
    readGroupKey raw = .ok k ↔ ∃ text, raw = .string text ∧ DenotesKey text k := by
  constructor
  · intro h
    unfold readGroupKey at h
    split at h
    · next text =>
      split at h
      · next k' hparse =>
        obtain rfl := Except.ok.inj h
        exact ⟨text, rfl, FieldKey.parse_eq_ok_iff.1 hparse⟩
      · exact nomatch h
    · exact nomatch h
  · rintro ⟨text, rfl, hk⟩
    rw [readGroupKey, FieldKey.parse_eq_ok_iff.2 hk]

/-- An aggregation is found by its keyword alone. -/
theorem ofKeyword?_eq_some_iff {keyword : String} {a : Aggregation} :
    Aggregation.ofKeyword? keyword = some a ↔ a.keyword = keyword := by
  constructor
  · intro h
    simpa using List.find?_some h
  · rintro rfl
    cases a <;> rfl

theorem readRule_eq_ok_iff {raw : Json} {rule : Rule} :
    readRule raw = .ok rule ↔ raw.DenotesRule rule := by
  simp only [readRule, bind_eq_ok_iff, oneMember_eq_ok_iff, guard_eq_ok_iff]
  constructor
  · rintro ⟨⟨name, body⟩, rfl, hname, ⟨keyword, target⟩, rfl, h⟩
    -- the keyword says which aggregation it is, and its text which field is aggregated
    split at h
    · exact nomatch h
    · next a hkeyword =>
      obtain rfl := ofKeyword?_eq_some_iff.1 hkeyword
      split at h
      · next text htarget =>
        obtain rfl : target = .string text := htarget
        split at h
        · next k hparse =>
          obtain rfl := Except.ok.inj h
          exact .mk a (by simpa [IsName, not_or] using hname) (FieldKey.parse_eq_ok_iff.1 hparse)
        · exact nomatch h
      · exact nomatch h
  · rintro ⟨a, hname, hk⟩
    have hkeyword : Aggregation.ofKeyword? a.keyword = some a := ofKeyword?_eq_some_iff.2 rfl
    refine ⟨_, rfl, by simpa [IsName, not_or] using hname, _, rfl, ?_⟩
    simp only [hkeyword, FieldKey.parse_eq_ok_iff.2 hk]
    rfl

theorem readSome_eq_ok_iff {α : Type} {e : FormError} {read : Json → Except FormError α}
    {raw : Json} {as : List α} :
    readSome e read raw = .ok as ↔ ∃ items, raw = .array items ∧ items ≠ [] ∧
      List.Forall₂ (fun item a => read item = .ok a) items as := by
  unfold readSome
  split
  · next item items =>
    rw [mapM_eq_ok_iff]
    refine ⟨fun h => ⟨_, rfl, List.cons_ne_nil _ _, h⟩, ?_⟩
    rintro ⟨_, hitems, -, h⟩
    exact Json.array.inj hitems ▸ h
  · next hne =>
    refine ⟨fun h => (nomatch h), ?_⟩
    rintro ⟨_ | ⟨item, items⟩, rfl, hsome, -⟩
    · exact absurd rfl hsome
    · exact absurd rfl (hne item items)

theorem readGrouping_eq_ok_iff {raw : Json} {g : Grouping} :
    readGrouping raw = .ok g ↔ raw.DenotesGrouping g := by
  constructor
  · intro h
    unfold readGrouping at h
    split at h
    · next members =>
      split at h
      · next group apply hgroup happly =>
        simp only [guard_eq_ok_iff, bind_eq_ok_iff, readSome_eq_ok_iff, readGroupKey_eq_ok_iff,
          readRule_eq_ok_iff, forall₂_exists_iff] at h
        obtain ⟨hlength, keys, ⟨_, rfl, hsomeKey, texts, rfl, hkeys⟩, rules,
          ⟨items, rfl, hsomeRule, hrules⟩, h⟩ := h
        obtain rfl := Except.ok.inj h
        -- two members, of which `GROUP` and `APPLY` are found, are these in some order
        have hperm := (Json.perm_pair_iff (by decide)).2 ⟨not_not.1 hlength, hgroup, happly⟩
        exact .mk ⟨members, rfl, hperm⟩ (fun hnil => hsomeKey (hnil ▸ rfl)) hkeys hsomeRule hrules
      · exact nomatch h
    · exact nomatch h
  · rintro ⟨⟨members, rfl, hperm⟩, hsomeKey, hkeys, hsomeRule, hrules⟩
    obtain ⟨hlength, hgroup, happly⟩ := (Json.perm_pair_iff (by decide)).1 hperm
    unfold readGrouping
    simp only [hgroup, happly, guard_eq_ok_iff, bind_eq_ok_iff, readSome_eq_ok_iff,
      readGroupKey_eq_ok_iff, readRule_eq_ok_iff, forall₂_exists_iff]
    exact ⟨not_not.2 hlength, g.keys, ⟨_, rfl, by simpa using hsomeKey, _, rfl, hkeys⟩, g.rules,
      ⟨_, rfl, hsomeRule, hrules⟩, rfl⟩

/-! ### Queries -/

theorem ofJson_eq_ok_iff {raw : Json} {q : Query} : ofJson raw = .ok q ↔ raw.DenotesQuery q := by
  have hother : ∀ members : List (String × Json),
      (members.find? fun m => m.1 ≠ "WHERE" ∧ m.1 ≠ "OPTIONS" ∧ m.1 ≠ "TRANSFORMATIONS") = none ↔
        (Json.object members).HasOnly ["WHERE", "OPTIONS", "TRANSFORMATIONS"] := fun members =>
    find?_other_eq_none_iff fun m => by simp
  constructor
  · intro h
    unfold ofJson at h
    split at h
    · next members =>
      split at h
      · cases h
      · cases h
      · next condition options hwhere hoptions =>
        split at h
        · cases h
        · next hnone =>
          simp only [bind_eq_ok_iff, readWhere_eq_ok_iff] at h
          obtain ⟨filter, hfilter, ⟨columns, order⟩, hread, h⟩ := h
          have hread := readOptions_eq_ok_iff.1 hread
          have honly := (hother members).1 hnone
          -- the grouping is read if it is there
          split at h
          · next hmember =>
            obtain rfl := Except.ok.inj h
            refine ⟨honly, ⟨condition, hwhere, hfilter⟩, ⟨options, hoptions, hread⟩, ?_⟩
            rw [member?, hmember]
            exact .none
          · next body hmember =>
            obtain ⟨g, hg, h⟩ := bind_eq_ok_iff.1 h
            obtain rfl := Except.ok.inj h
            refine ⟨honly, ⟨condition, hwhere, hfilter⟩, ⟨options, hoptions, hread⟩, ?_⟩
            rw [member?, hmember]
            exact .some (readGrouping_eq_ok_iff.1 hg)
    · cases h
  · obtain ⟨filter, columns, order, grouping⟩ := q
    rintro ⟨⟨members, rfl, honly⟩, ⟨condition, hwhere, hfilter⟩, ⟨options, hoptions, hread⟩,
      hgrouping⟩
    have hnone := (hother members).2 ⟨members, rfl, honly⟩
    rw [member?] at hwhere hoptions hgrouping
    unfold ofJson
    simp only [hwhere, hoptions, hnone, bind_eq_ok_iff, readWhere_eq_ok_iff]
    refine ⟨filter, hfilter, (columns, order), readOptions_eq_ok_iff.2 hread, ?_⟩
    cases hmember : findMember? "TRANSFORMATIONS" members with
    | none =>
      rw [hmember] at hgrouping
      cases hgrouping
      rfl
    | some body =>
      rw [hmember] at hgrouping
      obtain ⟨hg⟩ := hgrouping
      exact bind_eq_ok_iff.2 ⟨_, readGrouping_eq_ok_iff.2 hg, rfl⟩

/-- **Reading decides the grammar.** A value is read exactly if it is a query of the grammar, and it
is read as the one query that it denotes. -/
theorem ofJson_reads_grammar (raw : Json) :
    ((∃ q, ofJson raw = .ok q) ↔ raw.IsQuery) ∧
      ∀ q, ofJson raw = .ok q ↔ raw.DenotesQuery q := by
  refine ⟨?_, fun q => ofJson_eq_ok_iff⟩
  rw [Json.isQuery_iff]
  exact exists_congr fun q => ofJson_eq_ok_iff

end Query

end CampusQuery
