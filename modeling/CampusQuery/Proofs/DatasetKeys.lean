import CampusQuery.Proofs.Agreement
import CampusQuery.Proofs.Atomicity
import CampusQuery.Proofs.Reading

/-!
# Keys of stored datasets

The id of a dataset is checked when the dataset is stored, the part of a key in front of the
underscore when a query is read. An id that passes the first check passes the second one
(`ValidId.wellFormed`), so the key of a stored dataset and a field names that dataset and that field
and no other (`FieldKey.keys_name_datasets`), and a query that asks for nothing but the column of
the key (`Query.ofColumn`) is about that dataset.
-/

namespace CampusQuery

/-- A valid id can stand in a key. -/
theorem ValidId.wellFormed {id : String} (h : ValidId id) (f : Field) :
    (FieldKey.mk id f).WellFormed :=
  ⟨fun hempty => h.nonempty (String.toList_eq_nil_iff.2 hempty), h.noUnderscore⟩

namespace Query

/-! ### The query for one column -/

/-- A query for the values of one field of all records. -/
def ofColumn (k : FieldKey) : Query :=
  ⟨none, [.field k], none, none⟩

/-- The JSON value of a query for one column. -/
def columnJson (key : String) : Json :=
  .object [("OPTIONS", .object [("COLUMNS", .array [.string key])]), ("WHERE", .object [])]

/-- Every key that can be read is that of a column. -/
theorem ofJson_columnJson {key : String} {k : FieldKey} (h : FieldKey.parse key = .ok k) :
    ofJson (columnJson key) = .ok (ofColumn k) := by
  have hkey : Json.DenotesColumn key (.field k) := FieldKey.parse_eq_ok_iff.1 h
  have hoptions : (Json.object [("COLUMNS", .array [.string key])]).DenotesOptions [.field k]
      none := {
    only := ⟨_, rfl, by simp⟩
    columns := ⟨[key], [.field k], rfl, List.cons_ne_nil _ _, .cons hkey .nil, rfl⟩
    order := .none }
  exact ofJson_eq_ok_iff.2 {
    only := ⟨_, rfl, by simp⟩
    condition := ⟨_, rfl, rfl⟩
    options := ⟨_, rfl, hoptions⟩
    grouping := .none }

/-- A query for one column agrees with the dataset of its key, if that has the field. -/
theorem agrees_ofColumn {k : FieldKey} {kind : Kind} (h : k.field.belongsTo kind = true) :
    (ofColumn k).Agrees k.dataset kind := by
  have hkeys : (ofColumn k).fieldKeys = [k] := rfl
  exact {
    names := nofun
    grouped := nofun
    ordered := nofun
    named := hkeys ▸ List.cons_ne_nil k []
    shared := fun other hother => by
      rw [hkeys, List.mem_singleton] at hother
      rw [hother]
    numeric := nofun
    plain := fun _ c hc => ⟨k, List.mem_singleton.1 hc⟩
    belongs := fun other hother => by
      rw [hkeys, List.mem_singleton] at hother
      rwa [hother] }

end Query

namespace FieldKey

/-! ### Keys and ids -/

/-- The text of an id and a field is a key of these two, if the id can stand in a key. -/
theorem parse_text_iff {id : String} {f : Field} :
    parse (id ++ "_" ++ f.label) = .ok ⟨id, f⟩ ↔ id ≠ "" ∧ '_' ∉ id.toList := by
  have htext : id ++ "_" ++ f.label = (FieldKey.mk id f).toText := rfl
  rw [htext, parse_eq_ok_iff, and_iff_right rfl]
  exact ⟨fun h => ⟨h.nonempty, h.plain⟩, fun h => ⟨h.1, h.2⟩⟩

theorem parse_of_checkId {id : String} (h : checkId id = .ok ()) (f : Field) :
    parse (id ++ "_" ++ f.label) = .ok ⟨id, f⟩ :=
  have hvalid := (idFault?_eq_none_iff.1 (checkId_eq_ok_iff.1 h)).wellFormed f
  parse_text_iff.2 ⟨hvalid.nonempty, hvalid.plain⟩

/-- A query for one field of a dataset that is found in a catalog is about that dataset. -/
theorem resolve_columnJson {c : Catalog} {id : String} {d : Dataset} (hd : c.find? id = some d)
    (hid : checkId id = .ok ()) {f : Field} (hf : f.belongsTo d.kind = true) :
    ∃ q, Query.ofJson (Query.columnJson (id ++ "_" ++ f.label)) = .ok q ∧
      q.resolve c = .ok id := by
  refine ⟨_, Query.ofJson_columnJson (parse_of_checkId hid f), Query.resolve_eq_ok_iff.2 ?_⟩
  refine ⟨d.kind, ?_, Query.agrees_ofColumn hf⟩
  rw [Catalog.kind?, hd]
  rfl

/-- **Keys name datasets and fields.** Reading a key and writing it are inverse to each other on the
texts that are keys and on the keys whose dataset is not empty and has no underscore. Every id that
a dataset can be stored under is of that kind, so with a field it makes a key of its own, by which
queries name the dataset in every database that calls lead to. -/
theorem keys_name_datasets :
    (∀ (text : String) (k : FieldKey), parse text = .ok k →
      k.toText = text ∧ k.dataset ≠ "" ∧ '_' ∉ k.dataset.toList) ∧
    (∀ (id : String) (f : Field),
      parse (id ++ "_" ++ f.label) = .ok ⟨id, f⟩ ↔ id ≠ "" ∧ '_' ∉ id.toList) ∧
    (∀ (id : String) (f : Field), checkId id = .ok () →
      parse (id ++ "_" ++ f.label) = .ok ⟨id, f⟩) ∧
    (∀ (id id' : String) (f f' : Field), checkId id = .ok () → checkId id' = .ok () →
      id ++ "_" ++ f.label = id' ++ "_" ++ f'.label → id = id' ∧ f = f') ∧
    ∀ (config : Config) (db : Database), Database.Live config db →
      ∀ (id : String) (d : Dataset), db.catalog.find? id = some d →
        ∀ f : Field, f.belongsTo d.kind = true →
          ∃ q, Query.ofJson (Query.columnJson (id ++ "_" ++ f.label)) = .ok q ∧
            q.resolve db.catalog = .ok id := by
  refine ⟨fun text k h => ?_, fun id f => parse_text_iff, fun id f h => parse_of_checkId h f,
    fun id id' f f' h h' htext => ?_, fun config db hlive id d hd f hf => ?_⟩
  · obtain ⟨rfl, hform⟩ := parse_eq_ok_iff.1 h
    exact ⟨rfl, hform.nonempty, hform.plain⟩
  · -- one text is read as one key only
    have hread := parse_of_checkId h f
    rw [htext, parse_of_checkId h' f'] at hread
    obtain ⟨rfl, rfl⟩ := FieldKey.mk.inj (Except.ok.inj hread)
    exact ⟨rfl, rfl⟩
  · have hid : idFault? d.id = none := (hlive.sound id d hd).validId
    rw [Catalog.find?_id hd] at hid
    exact resolve_columnJson hd (checkId_eq_ok_iff.2 hid) hf

end FieldKey

end CampusQuery
