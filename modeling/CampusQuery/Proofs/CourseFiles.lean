import CampusQuery.Database.Basic
import CampusQuery.Proofs.Saving

/-!
# Which sections become records

A course file lists sections (`Course.IsFile`), and a section becomes a record if it has ten
attributes that can be read. What an attribute gives to which field is a relation of its own
(`Course.Attribute`), with a table of names for the texts and one for the numbers, and the year
apart, since the section that sums up its course is dated differently. A record is that of a section
if it holds what the attributes give and nothing else (`Course.IsRecordOf`); sections without such a
record are dropped and all others are kept in their order (`Course.Recorded`).

`Course.parseFiles_eq_ok_iff` says that this is what course files are read to. The records fit the
kind of courses, since the fields of a section's attributes are the fields of the kind
(`Course.IsRecordOf.fits`). So the check of a record against its kind, which knows nothing of
attributes, never refuses course files (`Database.addCourseFiles_ne_schemaMismatch`). A text that is
no course file makes all of them a fault, and then nothing is stored. `Database.course_files_read`
puts all of this together.
-/

namespace CampusQuery

namespace Course

/-! ### Attributes -/

/-- A JSON value that is read as a string: a string, or a number by its text. -/
inductive IsText : Json → String → Prop where
  | string (s : String) : IsText (.string s) s
  | number (n : JsonNumber) : IsText (.number n) (String.ofList n.text)

/-- A JSON value that is read as a number: a number, or a string that spells one between blanks. -/
inductive IsNumber : Json → Binary64 → Prop where
  | number (n : JsonNumber) : IsNumber (.number n) n.value
  | string {s : String} {x : Binary64} : readNumber? (trimBlanks s.toList) = some x →
      IsNumber (.string s) x

/-- The text fields of a record of courses, with the names of the attributes that give them. -/
def textAttributes : List (Field × String) :=
  [(.dept, "Subject"), (.id, "Course"), (.instructor, "Professor"), (.title, "Title"),
   (.uuid, "id")]

/-- The numeric fields but the year, with the names of the attributes that give them. -/
def numberAttributes : List (Field × String) :=
  [(.avg, "Avg"), (.pass, "Pass"), (.fail, "Fail"), (.audit, "Audit")]

/-- A section gives a value to a field. -/
inductive Attribute (members : List (String × Json)) : Field → Value → Prop where
  /-- A text. -/
  | text {f : Field} {name : String} {json : Json} {s : String} : (f, name) ∈ textAttributes →
      Json.findMember? name members = some json → IsText json s → Attribute members f (.text s)
  /-- A number. -/
  | number {f : Field} {name : String} {json : Json} {x : Binary64} :
      (f, name) ∈ numberAttributes → Json.findMember? name members = some json →
      IsNumber json x → Attribute members f (.number x)
  /-- The year of a section. -/
  | year {json : Json} {x : Binary64} :
      Json.findMember? "Section" members ≠ some (.string "overall") →
      Json.findMember? "Year" members = some json → IsNumber json x →
      Attribute members .year (.number x)
  /-- The year of the section that sums up its course, whatever its own year is. -/
  | overall {json : Json} : Json.findMember? "Section" members = some (.string "overall") →
      Json.findMember? "Year" members = some json → Attribute members .year (.number overallYear)

/-- A record is that of a section: the section is an object that gives a value to each of the
fields of courses, and the record holds these values and no others. -/
def IsRecordOf (json : Json) (r : Record) : Prop :=
  ∃ members, json = .object members ∧
    (∀ f ∈ Kind.courses.fields, ∃ v, Attribute members f v) ∧
    ∀ f v, r.get? f = some v ↔ Attribute members f v

variable {members : List (String × Json)} {f : Field} {v : Value}

theorem text?_eq_some_iff {json : Json} {s : String} : text? json = some s ↔ IsText json s := by
  constructor
  · intro h
    cases json with
    | string t =>
      obtain rfl := Option.some.inj h
      exact .string t
    | number n =>
      obtain rfl := Option.some.inj h
      exact .number n
    | null | bool | array | object => exact nomatch h
  · rintro (_ | _) <;> rfl

theorem number?_eq_some_iff {json : Json} {x : Binary64} :
    number? json = some x ↔ IsNumber json x := by
  constructor
  · intro h
    cases json with
    | string s => exact .string h
    | number n =>
      obtain rfl := Option.some.inj h
      exact .number n
    | null | bool | array | object => exact nomatch h
  · rintro (_ | h)
    · rfl
    · exact h

theorem textOf?_eq_some_iff {name : String} :
    textOf? members name = some v ↔
      ∃ json s, Json.findMember? name members = some json ∧ IsText json s ∧ v = .text s := by
  simp only [textOf?, Option.map_eq_some_iff, Option.bind_eq_some_iff, text?_eq_some_iff]
  constructor
  · rintro ⟨s, ⟨json, hjson, hs⟩, rfl⟩
    exact ⟨json, s, hjson, hs, rfl⟩
  · rintro ⟨json, s, hjson, hs, rfl⟩
    exact ⟨s, ⟨json, hjson, hs⟩, rfl⟩

theorem numberOf?_eq_some_iff {name : String} :
    numberOf? members name = some v ↔
      ∃ json x, Json.findMember? name members = some json ∧ IsNumber json x ∧ v = .number x := by
  simp only [numberOf?, Option.map_eq_some_iff, Option.bind_eq_some_iff, number?_eq_some_iff]
  constructor
  · rintro ⟨x, ⟨json, hjson, hx⟩, rfl⟩
    exact ⟨json, x, hjson, hx, rfl⟩
  · rintro ⟨json, x, hjson, hx, rfl⟩
    exact ⟨x, ⟨json, hjson, hx⟩, rfl⟩

theorem isOverall_iff :
    isOverall members = true ↔ Json.findMember? "Section" members = some (.string "overall") := by
  unfold isOverall
  cases Json.findMember? "Section" members with
  | none => simp
  | some json => cases json <;> simp

theorem year?_eq_some_iff : year? members = some v ↔ Attribute members .year v := by
  unfold year?
  constructor
  · intro h
    split at h
    · next hoverall =>
      obtain ⟨json, hjson, rfl⟩ := Option.map_eq_some_iff.1 h
      exact .overall (isOverall_iff.1 hoverall) hjson
    · next hoverall =>
      obtain ⟨json, x, hjson, hx, rfl⟩ := numberOf?_eq_some_iff.1 h
      exact .year (fun h => hoverall (isOverall_iff.2 h)) hjson hx
  · rintro (⟨hf, -, -⟩ | ⟨hf, -, -⟩ | ⟨hsection, hjson, hx⟩ | ⟨hsection, hjson⟩)
    -- the year is in neither of the tables
    · exact absurd hf (by simp [textAttributes])
    · exact absurd hf (by simp [numberAttributes])
    · rw [if_neg (fun h => hsection (isOverall_iff.1 h))]
      exact numberOf?_eq_some_iff.2 ⟨_, _, hjson, hx, rfl⟩
    · rw [if_pos (isOverall_iff.2 hsection), hjson]
      rfl

/-! ### Records of sections -/

/-- A field has its slot by one of the tables, or it is the year. -/
theorem mem_sectionValues_iff {slot : Option Value} :
    (f, slot) ∈ sectionValues members ↔
      (∃ name, (f, name) ∈ textAttributes ∧ slot = textOf? members name) ∨
      (∃ name, (f, name) ∈ numberAttributes ∧ slot = numberOf? members name) ∨
      f = .year ∧ slot = year? members := by
  simp only [sectionValues, textAttributes, numberAttributes, List.mem_cons, List.not_mem_nil,
    or_false, Prod.mk.injEq]
  constructor
  · rintro (⟨rfl, h⟩ | ⟨rfl, h⟩ | ⟨rfl, h⟩ | ⟨rfl, h⟩ | ⟨rfl, h⟩ | ⟨rfl, h⟩ | ⟨rfl, h⟩ | ⟨rfl, h⟩ |
      ⟨rfl, h⟩ | ⟨rfl, h⟩) <;> simp [h]
  · rintro (⟨name, ⟨rfl, rfl⟩ | ⟨rfl, rfl⟩ | ⟨rfl, rfl⟩ | ⟨rfl, rfl⟩ | ⟨rfl, rfl⟩, h⟩ |
      ⟨name, ⟨rfl, rfl⟩ | ⟨rfl, rfl⟩ | ⟨rfl, rfl⟩ | ⟨rfl, rfl⟩, h⟩ | ⟨rfl, h⟩) <;> simp [h]

/-- What stands in the slot of a field is what the attributes give to it. -/
theorem mem_sectionValues_some_iff :
    (f, some v) ∈ sectionValues members ↔ Attribute members f v := by
  rw [mem_sectionValues_iff]
  constructor
  · rintro (⟨name, hf, h⟩ | ⟨name, hf, h⟩ | ⟨rfl, h⟩)
    · obtain ⟨json, s, hjson, hs, rfl⟩ := textOf?_eq_some_iff.1 h.symm
      exact .text hf hjson hs
    · obtain ⟨json, x, hjson, hx, rfl⟩ := numberOf?_eq_some_iff.1 h.symm
      exact .number hf hjson hx
    · exact year?_eq_some_iff.1 h.symm
  · intro h
    cases h with
    | text hf hjson hs =>
      exact .inl ⟨_, hf, (textOf?_eq_some_iff.2 ⟨_, _, hjson, hs, rfl⟩).symm⟩
    | number hf hjson hx =>
      exact .inr (.inl ⟨_, hf, (numberOf?_eq_some_iff.2 ⟨_, _, hjson, hx, rfl⟩).symm⟩)
    | year hsection hjson hx =>
      exact .inr (.inr ⟨rfl, (year?_eq_some_iff.2 (.year hsection hjson hx)).symm⟩)
    | overall hsection hjson =>
      exact .inr (.inr ⟨rfl, (year?_eq_some_iff.2 (.overall hsection hjson)).symm⟩)

/-- The slots of a section are those of the fields of courses, in the order of the kind. -/
theorem map_fst_sectionValues (members : List (String × Json)) :
    (sectionValues members).map Prod.fst = Kind.courses.fields := rfl

/-- Slots are taken for entries if all of them are filled. -/
theorem mapM_slots_eq_some_iff {slots : List (Field × Option Value)}
    {entries : List (Field × Value)} :
    (slots.mapM fun e => e.2.map fun v => (e.1, v)) = some entries ↔
      slots = entries.map fun e => (e.1, some e.2) := by
  -- one slot at a time: an empty one leaves no entries at all, a filled one is the first entry
  induction slots generalizing entries with
  | nil =>
    have hnil : [] = entries.map (fun e => (e.1, some e.2)) ↔ [] = entries := by
      rw [eq_comm, List.map_eq_nil_iff, eq_comm]
    exact Option.some_inj.trans hnil.symm
  | cons slot slots ih =>
    obtain ⟨f, value⟩ := slot
    simp only [List.mapM_cons, Option.bind_eq_bind, Option.bind_eq_some_iff,
      Option.map_eq_some_iff, ih]
    constructor
    · rintro ⟨_, ⟨v, rfl, rfl⟩, rest, rfl, h⟩
      obtain rfl := Option.some.inj h
      rfl
    · intro h
      cases entries with
      | nil => exact nomatch h
      | cons e entries =>
        obtain ⟨hslot, hslots⟩ := List.cons.inj h
        obtain ⟨rfl, rfl⟩ := Prod.mk.inj hslot
        exact ⟨e, ⟨e.2, rfl, rfl⟩, entries, hslots, rfl⟩

/-- No field has two slots. -/
theorem nodup_sectionValues (members : List (String × Json)) :
    ((sectionValues members).map Prod.fst).Nodup := by
  rw [map_fst_sectionValues]
  decide

variable {entries : List (Field × Value)}

/-- The record of the entries that fill the slots holds what the attributes give. -/
theorem get?_ofEntries_slots (h : sectionValues members = entries.map fun e => (e.1, some e.2)) :
    (Record.ofEntries entries).get? f = some v ↔ Attribute members f v := by
  have hnodup : (entries.map Prod.fst).Nodup := by
    have hslots := nodup_sectionValues members
    rwa [h, List.map_map] at hslots
  -- without repetition, what a record holds is what is among its entries
  rw [Record.get?_ofEntries hnodup, ← mem_sectionValues_some_iff, h, List.mem_map]
  constructor
  · intro hmem
    exact ⟨(f, v), hmem, rfl⟩
  · rintro ⟨⟨g, w⟩, hmem, heq⟩
    obtain ⟨rfl, rfl⟩ : g = f ∧ w = v := by simpa using heq
    exact hmem

/-- The slots are filled exactly if every field of courses is given a value. -/
theorem exists_entries_iff :
    (∃ entries : List (Field × Value),
      sectionValues members = entries.map fun e => (e.1, some e.2)) ↔
      ∀ f ∈ Kind.courses.fields, ∃ v, Attribute members f v := by
  constructor
  · rintro ⟨entries, h⟩ f hf
    rw [← map_fst_sectionValues members, h, List.map_map] at hf
    obtain ⟨e, he, rfl⟩ := List.mem_map.1 hf
    have hmem : (e.1, some e.2) ∈ sectionValues members := by
      rw [h]
      exact List.mem_map_of_mem he
    exact ⟨e.2, mem_sectionValues_some_iff.1 hmem⟩
  · intro hcomplete
    have hfilled : ∀ slot ∈ sectionValues members, ∃ e : Field × Value, slot = (e.1, some e.2) := by
      rintro ⟨f, value⟩ hslot
      have hf : f ∈ Kind.courses.fields := by
        rw [← map_fst_sectionValues members]
        exact List.mem_map_of_mem hslot
      obtain ⟨v, hv⟩ := hcomplete f hf
      -- the slot of the field is the one that holds this value
      have heq := List.inj_on_of_nodup_map (nodup_sectionValues members) hslot
        (mem_sectionValues_some_iff.2 hv) rfl
      exact ⟨(f, v), heq⟩
    obtain ⟨entries, hentries⟩ := exists_forall₂ hfilled
    refine ⟨entries, ?_⟩
    rwa [← List.forall₂_eq_eq_eq, List.forall₂_map_right_iff]

/-- **A section is read to its record, if it has one.** -/
theorem recordOf?_eq_some_iff {json : Json} {r : Record} :
    recordOf? json = some r ↔ IsRecordOf json r := by
  unfold IsRecordOf
  cases json with
  | null | bool | number | string | array =>
    exact iff_of_false (fun h => nomatch h) fun ⟨_, h, _⟩ => nomatch h
  | object members =>
    simp only [recordOf?, Option.map_eq_some_iff, mapM_slots_eq_some_iff]
    constructor
    · rintro ⟨entries, hslots, rfl⟩
      exact ⟨members, rfl, exists_entries_iff.1 ⟨entries, hslots⟩,
        fun f v => get?_ofEntries_slots hslots⟩
    · rintro ⟨_, hmembers, hcomplete, hr⟩
      obtain rfl := Json.object.inj hmembers
      obtain ⟨entries, hslots⟩ := exists_entries_iff.2 hcomplete
      -- there is one record only that holds these values and no others
      refine ⟨entries, hslots, Record.ext_get? fun f => Option.ext fun v => ?_⟩
      rw [get?_ofEntries_slots hslots, hr]

/-- Values are given to fields of courses, and are of the fields' types. -/
theorem Attribute.fits (h : Attribute members f v) :
    f ∈ Kind.courses.fields ∧ v.type = f.valueType := by
  cases h with
  | text hf _ _ =>
    simp only [textAttributes, List.mem_cons, List.not_mem_nil, or_false, Prod.mk.injEq] at hf
    rcases hf with ⟨rfl, -⟩ | ⟨rfl, -⟩ | ⟨rfl, -⟩ | ⟨rfl, -⟩ | ⟨rfl, -⟩ <;> exact ⟨by decide, rfl⟩
  | number hf _ _ =>
    simp only [numberAttributes, List.mem_cons, List.not_mem_nil, or_false, Prod.mk.injEq] at hf
    rcases hf with ⟨rfl, -⟩ | ⟨rfl, -⟩ | ⟨rfl, -⟩ | ⟨rfl, -⟩ <;> exact ⟨by decide, rfl⟩
  | year _ _ _ => exact ⟨by decide, rfl⟩
  | overall _ _ => exact ⟨by decide, rfl⟩

/-- **The record of a section fits the kind of courses.** -/
theorem IsRecordOf.fits {json : Json} {r : Record} (h : IsRecordOf json r) : r.Fits .courses := by
  obtain ⟨members, -, hcomplete, hr⟩ := h
  constructor
  · intro f hf
    obtain ⟨v, hv⟩ := hcomplete f (Field.mem_fields_iff.2 hf)
    exact ⟨v, (hr f v).2 hv, hv.fits.2⟩
  · intro f hf
    refine Option.eq_none_iff_forall_ne_some.2 fun v hv => ?_
    have hmem := Field.mem_fields_iff.1 ((hr f v).1 hv).fits.1
    exact Bool.false_ne_true (hf.symm.trans hmem)

/-- The records of sections: a section that has a record gives it, in its place, and any other
section is dropped. -/
inductive Recorded : List Json → List Record → Prop where
  | nil : Recorded [] []
  /-- A section with a record. -/
  | keep {json : Json} {r : Record} {sections : List Json} {records : List Record} :
      IsRecordOf json r → Recorded sections records →
      Recorded (json :: sections) (r :: records)
  /-- A section without. -/
  | drop {json : Json} {sections : List Json} {records : List Record} :
      (∀ r, ¬IsRecordOf json r) → Recorded sections records →
      Recorded (json :: sections) records

theorem filterMap_recordOf?_eq_iff {sections : List Json} {records : List Record} :
    sections.filterMap recordOf? = records ↔ Recorded sections records := by
  constructor
  · rintro rfl
    induction sections with
    | nil => exact .nil
    | cons json sections ih =>
      rw [List.filterMap_cons]
      cases hr : recordOf? json with
      | none =>
        refine .drop (fun r h => ?_) ih
        exact nomatch hr.symm.trans (recordOf?_eq_some_iff.2 h)
      | some r => exact .keep (recordOf?_eq_some_iff.1 hr) ih
  · intro h
    induction h with
    | nil => rfl
    | keep hr _ ih => rw [List.filterMap_cons, recordOf?_eq_some_iff.2 hr, ih]
    | @drop json _ _ hnone _ ih =>
      have hdropped : recordOf? json = none :=
        Option.eq_none_iff_forall_ne_some.2 fun r hr => hnone r (recordOf?_eq_some_iff.1 hr)
      rw [List.filterMap_cons, hdropped, ih]

/-- All records of sections fit the kind of courses. -/
theorem Recorded.fits {sections : List Json} {records : List Record}
    (h : Recorded sections records) : ∀ r ∈ records, r.Fits .courses := by
  induction h with
  | nil => exact fun r hr => nomatch hr
  | keep hr _ ih => exact List.forall_mem_cons.2 ⟨hr.fits, ih⟩
  | drop _ _ ih => exact ih

/-! ### Files -/

/-- Members of an object under their names. -/
def named (members : List (String × Tree)) : Members :=
  .ofList (members.map fun m => (some m.1, m.2))

/-- Members beside the list of sections: they have other names and are well formed. -/
def Ignored (members : List (String × Tree)) : Prop :=
  ∀ m ∈ members, m.1 ≠ "result" ∧ m.2.skip = .ok ()

/-- A tree is an array whose items are the given sections. -/
def IsSections (t : Tree) (sections : List Json) : Prop :=
  ∃ items, t = .array (.ofList items) ∧
    List.Forall₂ (fun item json => item.toJson (maxDepth - 2) = .ok json) items sections

/-- A tree is that of a course file with the given sections. -/
inductive IsFileTree : Tree → List Json → Prop where
  /-- An object of which one member is the list of sections. -/
  | object {before after : List (String × Tree)} {value : Tree} {sections : List Json} :
      Ignored before → IsSections value sections → Ignored after →
      IsFileTree (.object (named (before ++ ("result", value) :: after))) sections
  /-- An array of nothing but the list of sections. -/
  | array {value : Tree} {sections : List Json} : IsSections value sections →
      IsFileTree (.array (.ofList [value])) sections

/-- A text is that of a course file with the given sections: the tree of the file, with only blanks
behind it. -/
def IsFile (text : String) (sections : List Json) : Prop :=
  IsFileTree (Document.ofText text).root sections ∧ (Document.ofText text).ended = true

theorem ignored_nil : Ignored [] :=
  fun _ h => nomatch h

theorem decodeItems_eq_ok_iff {α : Type} {decoder : Tree → Except Fault α} :
    ∀ (items : Items) {values : List α}, Tree.decodeItems decoder items = .ok values ↔
      ∃ ts, items = .ofList ts ∧ List.Forall₂ (fun t v => decoder t = .ok v) ts values
  | .done, values => by
    rw [Tree.decodeItems]
    constructor
    · intro h
      obtain rfl := Except.ok.inj h
      exact ⟨[], rfl, .nil⟩
    · rintro ⟨ts, hts, hvalues⟩
      cases ts with
      | nil => cases hvalues; rfl
      | cons t ts => cases hts
  | .cut, values => by
    rw [Tree.decodeItems]
    refine iff_of_false (by rintro ⟨⟩) ?_
    rintro ⟨ts, hts, -⟩
    cases ts <;> cases hts
  | .cons item rest, values => by
    simp only [Tree.decodeItems, bind_eq_ok_iff, decodeItems_eq_ok_iff rest]
    constructor
    · rintro ⟨v, hv, vs, ⟨ts, rfl, hvs⟩, h⟩
      obtain rfl := Except.ok.inj h
      exact ⟨item :: ts, rfl, .cons hv hvs⟩
    · rintro ⟨ts, hts, hvalues⟩
      cases ts with
      | nil => cases hts
      | cons t ts =>
        obtain ⟨rfl, rfl⟩ := Items.cons.inj hts
        cases hvalues with
        | cons hv hvs => exact ⟨_, hv, _, ⟨ts, rfl, hvs⟩, rfl⟩

theorem sectionsOfTree_eq_ok_iff {t : Tree} {sections : List Json} :
    sectionsOfTree t = .ok sections ↔ IsSections t sections := by
  unfold sectionsOfTree IsSections
  cases t with
  | array items =>
    rw [Tree.toListOf, decodeItems_eq_ok_iff]
    simp
  | cut | null | bool | number | string | object =>
    refine iff_of_false (by rintro ⟨⟩) ?_
    rintro ⟨items, h, -⟩
    cases h

/-- A member is read as the list of sections, which no member before it has been, or it is passed
over. -/
theorem sectionsOfMembers_cons_eq_ok_iff {before : Option (List Json)} {sections : List Json}
    {name : Option String} {value : Tree} {rest : Members} :
    sectionsOfMembers before (.cons name value rest) = .ok sections ↔
      (name = some "result" ∧ before = none ∧ ∃ read, IsSections value read ∧
        sectionsOfMembers (some read) rest = .ok sections) ∨
      ∃ other, name = some other ∧ other ≠ "result" ∧ value.skip = .ok () ∧
        sectionsOfMembers before rest = .ok sections := by
  rw [sectionsOfMembers]
  cases name with
  | none =>
    refine iff_of_false (by rintro ⟨⟩) ?_
    rintro (⟨h, -⟩ | ⟨other, h, -⟩) <;> cases h
  | some name =>
    simp only [Tree.textOf, bind_eq_ok_iff, Except.ok.injEq, exists_eq_left', Option.some.injEq]
    by_cases hname : name = "result"
    · subst hname
      cases before with
      | none => simp [bind_eq_ok_iff, sectionsOfTree_eq_ok_iff]
      | some before =>
        -- a second list of sections is refused
        refine iff_of_false (by rintro ⟨⟩) ?_
        rintro (⟨-, h, -⟩ | ⟨h, -⟩)
        · cases h
        · exact h rfl
    · rw [if_neg hname, bind_eq_ok_iff]
      simp [hname, Unique.exists_iff]

/-- Once the list of sections has been read, all other members are passed over. -/
theorem sectionsOfMembers_some_eq_ok_iff {before sections : List Json} :
    ∀ {ms : Members}, sectionsOfMembers (some before) ms = .ok sections ↔
      ∃ after, ms = named after ∧ Ignored after ∧ before = sections
  | .done => by
    rw [sectionsOfMembers, Except.ok.injEq]
    constructor
    · exact fun h => ⟨[], rfl, ignored_nil, h⟩
    · exact fun ⟨_, _, _, h⟩ => h
  | .cut => by
    rw [sectionsOfMembers]
    refine iff_of_false (fun h => nomatch h) ?_
    rintro ⟨after, h, -⟩
    cases after <;> exact nomatch h
  | .cons name value rest => by
    rw [sectionsOfMembers_cons_eq_ok_iff, sectionsOfMembers_some_eq_ok_iff]
    constructor
    · rintro (⟨-, h, -⟩ | ⟨other, rfl, hother, hvalue, after, rfl, hafter, h⟩)
      · exact nomatch h
      · exact ⟨(other, value) :: after, rfl,
          List.forall_mem_cons.2 ⟨⟨hother, hvalue⟩, hafter⟩, h⟩
    · rintro ⟨after, hms, hafter, h⟩
      cases after with
      | nil => exact nomatch hms
      | cons m after =>
        obtain ⟨rfl, rfl, rfl⟩ := Members.cons.inj hms
        obtain ⟨⟨hother, hvalue⟩, hrest⟩ := List.forall_mem_cons.1 hafter
        exact .inr ⟨m.1, rfl, hother, hvalue, after, rfl, hrest, h⟩

/-- Members are read to the list of sections that one of them is. -/
theorem sectionsOfMembers_none_eq_ok_iff {sections : List Json} :
    ∀ {ms : Members}, sectionsOfMembers none ms = .ok sections ↔
      ∃ before value after, ms = named (before ++ ("result", value) :: after) ∧
        Ignored before ∧ IsSections value sections ∧ Ignored after
  | .done => by
    rw [sectionsOfMembers]
    refine iff_of_false (fun h => nomatch h) ?_
    rintro ⟨before, value, after, h, -⟩
    cases before <;> exact nomatch h
  | .cut => by
    rw [sectionsOfMembers]
    refine iff_of_false (fun h => nomatch h) ?_
    rintro ⟨before, value, after, h, -⟩
    cases before <;> exact nomatch h
  | .cons name value rest => by
    rw [sectionsOfMembers_cons_eq_ok_iff, sectionsOfMembers_none_eq_ok_iff]
    -- the first member is the list of sections, and then no other is; or the list is further on
    constructor
    · rintro (⟨rfl, -, read, hvalue, h⟩ | ⟨other, rfl, hother, hskip, before, v, after, rfl, h⟩)
      · obtain ⟨after, rfl, hafter, rfl⟩ := sectionsOfMembers_some_eq_ok_iff.1 h
        exact ⟨[], value, after, rfl, ignored_nil, hvalue, hafter⟩
      · obtain ⟨hbefore, hv, hafter⟩ := h
        exact ⟨(other, value) :: before, v, after, rfl,
          List.forall_mem_cons.2 ⟨⟨hother, hskip⟩, hbefore⟩, hv, hafter⟩
    · rintro ⟨before, v, after, hms, hbefore, hv, hafter⟩
      cases before with
      | nil =>
        obtain ⟨rfl, rfl, rfl⟩ := Members.cons.inj hms
        exact .inl ⟨rfl, rfl, sections, hv,
          sectionsOfMembers_some_eq_ok_iff.2 ⟨after, rfl, hafter, rfl⟩⟩
      | cons m before =>
        obtain ⟨rfl, rfl, rfl⟩ := Members.cons.inj hms
        obtain ⟨⟨hother, hskip⟩, hbefore⟩ := List.forall_mem_cons.1 hbefore
        exact .inr ⟨m.1, rfl, hother, hskip, before, v, after, rfl, hbefore, hv, hafter⟩

theorem fileOfTree_eq_ok_iff {t : Tree} {sections : List Json} :
    fileOfTree t = .ok sections ↔ IsFileTree t sections := by
  cases t with
  | cut | null | bool | number | string =>
    refine iff_of_false (by rintro ⟨⟩) (by rintro ⟨⟩)
  | object members =>
    rw [fileOfTree, sectionsOfMembers_none_eq_ok_iff]
    constructor
    · rintro ⟨before, value, after, rfl, hbefore, hvalue, hafter⟩
      exact .object hbefore hvalue hafter
    · rintro (⟨hbefore, hvalue, hafter⟩ | _)
      exact ⟨_, _, _, rfl, hbefore, hvalue, hafter⟩
  | array items =>
    -- an array stands for the fields in their order, of which there is one
    cases items with
    | done | cut => exact iff_of_false (by rintro ⟨⟩) (by rintro ⟨⟩)
    | cons result rest =>
      rw [fileOfTree, bind_eq_ok_iff]
      simp only [sectionsOfTree_eq_ok_iff, bind_eq_ok_iff]
      constructor
      · rintro ⟨read, hread, ⟨⟩, hend, h⟩
        obtain rfl := Except.ok.inj h
        cases rest with
        | done => exact .array hread
        | cut | cons => cases hend
      · rintro (_ | hread)
        exact ⟨sections, hread, (), rfl, rfl⟩

theorem decode_fileOfTree_eq_ok_iff {text : String} {sections : List Json} :
    Json.decode fileOfTree text = .ok sections ↔ IsFile text sections := by
  unfold Json.decode IsFile
  simp only [bind_eq_ok_iff, fileOfTree_eq_ok_iff]
  constructor
  · rintro ⟨read, hread, h⟩
    split at h
    · next hended =>
      obtain rfl := Except.ok.inj h
      exact ⟨hread, hended⟩
    · cases h
  · rintro ⟨hread, hended⟩
    exact ⟨sections, hread, if_pos hended⟩

/-- A course file is read to the records of its sections. -/
theorem parseFile_eq_ok_iff {text : String} {records : List Record} :
    parseFile text = .ok records ↔
      ∃ sections, IsFile text sections ∧ Recorded sections records := by
  simp only [parseFile, map_eq_ok_iff, decode_fileOfTree_eq_ok_iff, filterMap_recordOf?_eq_iff]

/-- **Course files are read to the records of all their sections, in order.** -/
theorem parseFiles_eq_ok_iff {texts : List String} {records : List Record} :
    parseFiles texts = .ok records ↔
      ∃ files, List.Forall₂ IsFile texts files ∧ Recorded files.flatten records := by
  simp only [parseFiles, map_eq_ok_iff, mapM_eq_ok_iff, ← filterMap_recordOf?_eq_iff,
    List.filterMap_flatten]
  constructor
  · rintro ⟨read, hread, rfl⟩
    -- each list of records is that of the sections of its file
    have hsections : List.Forall₂ (fun rs text => ∃ sections, rs = sections.filterMap recordOf? ∧
        IsFile text sections) read texts :=
      hread.flip.imp fun rs text h => by
        obtain ⟨sections, htext, hrs⟩ := parseFile_eq_ok_iff.1 h
        exact ⟨sections, (filterMap_recordOf?_eq_iff.2 hrs).symm, htext⟩
    obtain ⟨files, rfl, hfiles⟩ := forall₂_exists_iff.1 hsections
    exact ⟨files, hfiles.flip, rfl⟩
  · rintro ⟨files, hfiles, rfl⟩
    refine ⟨files.map (List.filterMap recordOf?), ?_, rfl⟩
    rw [List.forall₂_map_right_iff]
    exact hfiles.imp fun text sections htext =>
      parseFile_eq_ok_iff.2 ⟨sections, htext, filterMap_recordOf?_eq_iff.1 rfl⟩

/-- A text that is no course file is a fault of all texts that are read with it. -/
theorem exists_parseFiles_eq_error {texts : List String} {text : String} (htext : text ∈ texts)
    (h : ∀ sections, ¬IsFile text sections) : ∃ fault, parseFiles texts = .error fault := by
  cases hparse : parseFiles texts with
  | error fault => exact ⟨fault, rfl⟩
  | ok records =>
    obtain ⟨files, hfiles, -⟩ := parseFiles_eq_ok_iff.1 hparse
    obtain ⟨sections, -, hfile⟩ := exists_of_mem_left hfiles htext
    exact absurd hfile (h sections)

end Course

namespace Database

/-- What a publication fails with is a failure of the archive. -/
theorem publish_error {α : Type} {db : Database} {disk : Disk} {next : Catalog} {value : α}
    {archive : Disk → Except StoreError Unit × Disk} {e : StoreError}
    (harchive : ∀ e, (archive disk).1 = .error e → e = .inputOutput)
    (h : (db.publish disk next value archive).1 = .error e) : e = .inputOutput := by
  unfold publish at h
  split at h
  · exact nomatch h
  · split at h
    · exact nomatch h
    · next hfailed =>
      obtain rfl := Except.error.inj h
      exact harchive _ (congrArg Prod.fst hfailed)

/-- Course files are never refused for a record that does not fit its kind. -/
theorem addCourseFiles_ne_schemaMismatch (db : Database) (disk : Disk) (id : String)
    (texts : List String) (dataset : String) (kind : Kind) (row : Nat) (fault : SchemaFault) :
    (db.addCourseFiles disk id texts).1 ≠ .error (.schemaMismatch dataset kind row fault) := by
  intro h
  unfold addCourseFiles at h
  split at h
  · next hid =>
    obtain ⟨_, -, rfl⟩ := checkId_eq_error_iff.1 hid
    exact nomatch h
  · split at h
    · exact nomatch h
    · next records hrecords =>
      obtain ⟨files, -, hrecorded⟩ := Course.parseFiles_eq_ok_iff.1 hrecords
      unfold add at h
      split at h
      · next hadd =>
        -- of the checks of an addition, the one of the records is passed
        obtain rfl := Except.error.inj h
        rcases Catalog.add_eq_error_iff.1 hadd with
          ⟨_, -, he⟩ | ⟨-, ⟨-, he⟩ | ⟨-, ⟨-, he⟩ | hmisfit⟩⟩
        · exact nomatch he
        · exact nomatch he
        · exact nomatch he
        · obtain ⟨-, _, _, ⟨before, r, after, hsplit, -, -, hmisfit, -⟩, -⟩ := hmisfit
          refine hmisfit (hrecorded.fits r ?_)
          simp at hsplit
          simp [hsplit]
      · exact nomatch publish_error (fun _ => Archive.save_error) h

/-- Texts that are not all course files are refused, for that reason unless the id is refused
first, and nothing is stored. -/
theorem addCourseFiles_eq_error {texts : List String} {fault : Fault}
    (h : Course.parseFiles texts = .error fault) (db : Database) (disk : Disk) (id : String) :
    ∃ e, db.addCourseFiles disk id texts = (.error e, db, disk) ∧
      (ValidId id → e = .undecodable fault) := by
  unfold addCourseFiles
  cases hid : checkId id with
  | error e =>
    refine ⟨e, rfl, fun hvalid => ?_⟩
    cases hid.symm.trans (checkId_eq_ok_iff.2 (idFault?_eq_none_iff.2 hvalid))
  | ok _ =>
    rw [h]
    exact ⟨.undecodable fault, rfl, fun _ => rfl⟩

/-- **What becomes of course files.** They are read to one record for each section that has all its
attributes, file after file and section after section; every other section is dropped. The records
fit the kind of courses, so a request to store them is never refused for its records. If one text is
no course file, none is read and nothing is stored. -/
theorem course_files_read (texts : List String) :
    (∀ records, Course.parseFiles texts = .ok records ↔
      ∃ files, List.Forall₂ Course.IsFile texts files ∧
        Course.Recorded files.flatten records) ∧
    (∀ records, Course.parseFiles texts = .ok records → ∀ r ∈ records, r.Fits .courses) ∧
    (∀ (db : Database) (disk : Disk) (id dataset : String) (kind : Kind) (row : Nat)
      (fault : SchemaFault),
      (db.addCourseFiles disk id texts).1 ≠ .error (.schemaMismatch dataset kind row fault)) ∧
    ∀ text ∈ texts, (∀ sections, ¬Course.IsFile text sections) →
      ∃ fault, Course.parseFiles texts = .error fault ∧
        ∀ (db : Database) (disk : Disk) (id : String),
          ∃ e, db.addCourseFiles disk id texts = (.error e, db, disk) ∧
            (ValidId id → e = .undecodable fault) := by
  refine ⟨fun records => Course.parseFiles_eq_ok_iff, ?_, ?_, ?_⟩
  · intro records h
    obtain ⟨files, -, hrecorded⟩ := Course.parseFiles_eq_ok_iff.1 h
    exact hrecorded.fits
  · exact fun db disk id => addCourseFiles_ne_schemaMismatch db disk id texts
  · intro text htext h
    obtain ⟨fault, hfault⟩ := Course.exists_parseFiles_eq_error htext h
    exact ⟨fault, hfault, fun db disk id => addCourseFiles_eq_error hfault db disk id⟩

/-- A course file with the section that sums up a course, and with a number in place of another. -/
def summaryFile : String :=
  "\x7b\"result\":[\x7b\"Subject\":\"math\",\"Course\":101,\"Professor\":\"\",\"Title\":\"\"," ++
  "\"id\":7,\"Avg\":\" 71.5 \",\"Pass\":9,\"Fail\":\"1\",\"Audit\":0,\"Section\":\"overall\"," ++
  "\"Year\":null\x7d,5]\x7d"

/-- The file has one record, of the year for such sections, and none if `[]` is read with it. -/
theorem course_files_read_summaryFile :
    (∃ r, Course.parseFiles [summaryFile] = .ok [r] ∧ r.Fits .courses ∧
      (r.get? .year == some (.number Course.overallYear)) = true) ∧
    ∃ fault, Course.parseFiles [summaryFile, "[]"] = .error fault := by
  constructor
  · have hyears : ((Course.parseFiles [summaryFile]).toOption.map fun records =>
        records.map fun r => r.get? .year == some (.number Course.overallYear)) = some [true] := by
      decide +kernel
    cases hparse : Course.parseFiles [summaryFile] with
    | error fault =>
      rw [hparse] at hyears
      cases hyears
    | ok records =>
      rw [hparse] at hyears
      obtain ⟨r, rfl, hyear⟩ := List.map_eq_singleton_iff.1 (Option.some.inj hyears)
      have hfits := (course_files_read [summaryFile]).2.1 _ hparse
      exact ⟨r, rfl, hfits r (List.mem_singleton_self r), hyear⟩
  · have hempty : ∀ sections, ¬Course.IsFile "[]" sections := by
      intro sections h
      have hfault : (Json.decode Course.fileOfTree "[]").toBool = false := by decide +kernel
      rw [Course.decode_fileOfTree_eq_ok_iff.2 h] at hfault
      cases hfault
    obtain ⟨fault, hfault, -⟩ :=
      (course_files_read [summaryFile, "[]"]).2.2.2 "[]" (by simp) hempty
    exact ⟨fault, hfault⟩

end Database

end CampusQuery
