import CampusQuery.Execution.Run
import CampusQuery.Proofs.Agreement
import CampusQuery.Proofs.GroupRows
import CampusQuery.Proofs.Selection
import CampusQuery.Proofs.Store

/-!
# A resolved query fails only by its size

Three checks are made apart from each other: of the records when a dataset is stored, of a query
when it is resolved, and of every value when it is read in execution. On a dataset that the query
has been resolved to, the first two leave nothing for the third to refuse. Every field that is read,
in a group, in a rule or in a column, is one of the query's field keys, so the kind of the dataset
has it and every record holds a value of its type; and every column comes out of the grouping.

`Query.rowsOf_of_agrees` therefore gives the outcome of execution in full: the entries that the
query describes (`Query.IsBase`), refused if there are too many of them, and else read at the
columns and arranged. What follows for the catalogs that a store can hold comes last.
-/

namespace CampusQuery

/-! ### Reading the values of records that fit -/

/-- A field of the kind can be aggregated, if it is numeric where numbers are needed. -/
theorem Record.Fits.canRead {kind : Kind} {r : Record} (h : r.Fits kind) {a : Aggregation}
    {f : Field} (hf : f.belongsTo kind = true)
    (hnumeric : a.needsNumbers = true → f.isNumeric = true) : a.CanRead f r := by
  obtain ⟨v, hv, htype⟩ := h.present f hf
  refine ⟨v, hv, fun hneeds => ?_⟩
  rw [htype]
  exact beq_iff_eq.1 (hnumeric hneeds)

/-! ### Reading the columns of an entry -/

/-- A row is an entry read at some columns: it has their names in their order, each with the value
that the entry has there. -/
def Entry.IsReadAt (columns : List Column) (e : Entry) (row : Row) : Prop :=
  List.Forall₂ (fun c cell => cell.1 = c.name ∧ e.get? c = some cell.2) columns row.cells

theorem Entry.project_eq_ok_iff {columns : List Column} {e : Entry} {row : Row} :
    e.project columns = .ok row ↔ e.IsReadAt columns row := by
  rw [Entry.project, bind_eq_ok_iff]
  simp only [mapM_eq_ok_iff]
  constructor
  · rintro ⟨cells, hcells, h⟩
    obtain rfl := Except.ok.inj h
    refine hcells.imp fun c cell hcell => ?_
    split at hcell
    · next v hv =>
      obtain rfl := Except.ok.inj hcell
      exact ⟨rfl, hv⟩
    · exact nomatch hcell
  · intro h
    refine ⟨row.cells, h.imp ?_, rfl⟩
    rintro c ⟨_, v⟩ ⟨rfl, hv⟩
    rw [hv]
    rfl

/-- A row can be read if the entry has every column. -/
theorem Entry.exists_project_eq_ok {columns : List Column} {e : Entry}
    (h : ∀ c ∈ columns, (e.get? c).isSome) : ∃ row, e.project columns = .ok row := by
  obtain ⟨cells, hcells⟩ := exists_forall₂
    (R := fun (c : Column) (cell : String × Value) => cell.1 = c.name ∧ e.get? c = some cell.2)
    fun c hc => by
      obtain ⟨v, hv⟩ := Option.isSome_iff_exists.1 (h c hc)
      exact ⟨(c.name, v), rfl, hv⟩
  exact ⟨⟨cells⟩, Entry.project_eq_ok_iff.2 hcells⟩

/-- The row of a tuple has every column that comes out of the grouping. -/
theorem Grouping.RowOf.isSome_get? {g : Grouping} {records : List Record}
    {tuple : List (Option Value)} {row : GroupRow} (h : g.RowOf records tuple row) {c : Column}
    (hc : Query.isGrouped g c = true) : ((Entry.group row).get? c).isSome := by
  cases c with
  | field key =>
    -- the look-up is by the field alone: all keys of the query name one dataset
    have hkey : key.field ∈ row.keys.map Prod.fst := by
      rw [h.fields]
      exact List.mem_map_of_mem (by simpa [Query.isGrouped] using hc)
    obtain ⟨cell, hcell, hfield⟩ := List.mem_map.1 hkey
    rw [Entry.get?, GroupRow.key?, Option.isSome_map, List.find?_isSome]
    exact ⟨cell, hcell, beq_iff_eq.2 hfield⟩
  | computed name =>
    have hnames : g.rules.map Rule.name = row.computed.map Prod.fst :=
      forall₂_eq_iff_map_eq.1 (h.computed.imp fun _ _ hcell => hcell.1.symm)
    have hname : name ∈ row.computed.map Prod.fst := by
      rw [← hnames]
      simpa [Query.isGrouped] using hc
    obtain ⟨cell, hcell, heq⟩ := List.mem_map.1 hname
    rw [Entry.get?, GroupRow.computed?, Option.isSome_map, List.find?_isSome]
    exact ⟨cell, hcell, beq_iff_eq.2 heq⟩

namespace Query

/-! ### What a query describes -/

/-- Whether a record satisfies the filter of the query, if it has one. -/
def accepts (q : Query) (r : Record) : Bool :=
  match q.filter with
  | some filter => filter.holds r
  | none => true

/-- The records that satisfy the filter, in the order of the dataset. -/
def matching (q : Query) (records : Array Record) : List Record :=
  records.toList.filter q.accepts

/-- What the query lists before it reads columns: the matching records, or with a grouping one row
per distinct tuple of their values in the fields of the grouping. -/
def IsBase (q : Query) (records : Array Record) (base : List Entry) : Prop :=
  match q.grouping with
  | none => base = (q.matching records).map .record
  | some g => ∃ rows, base = rows.map .group ∧ g.IsPartition (q.matching records) rows

/-- A query describes one list of entries. -/
theorem IsBase.unique {q : Query} {records : Array Record} {base base' : List Entry}
    (h : q.IsBase records base) (h' : q.IsBase records base') : base = base' := by
  unfold IsBase at h h'
  cases hg : q.grouping with
  | none =>
    rw [hg] at h h'
    exact h.trans h'.symm
  | some g =>
    rw [hg] at h h'
    obtain ⟨rows, rfl, hrows⟩ := h
    obtain ⟨rows', rfl, hrows'⟩ := h'
    rw [hrows.unique hrows']

/-- Testing the positions of a list and testing its items come to the same. -/
theorem filterMap_filter_range (l : List Record) (p : Record → Bool) :
    ((List.range l.length).filter fun i => (l[i]?.map p).getD false).filterMap (l[·]?) =
      l.filter p := by
  induction l with
  | nil => rfl
  | cons r rest ih =>
    have hrest : (List.filter (fun i => (rest[i]?.map p).getD false)
        (List.range rest.length)).filterMap (fun i => rest[i]?) = rest.filter p := ih
    -- the positions of the rest are one further on in the whole list
    rw [List.length_cons, List.range_succ_eq_map, List.filter_cons, List.filter_map]
    cases hp : p r <;> simp [Function.comp_def, List.filterMap_map, hp, hrest]

/-- All positions are those of all records. -/
theorem recordsAt_range (records : Array Record) :
    recordsAt records (List.range records.size) = records.toList := by
  have hall : List.range records.size = (List.range records.toList.length).filter fun i =>
      (records.toList[i]?.map fun _ => true).getD false := by
    rw [Array.length_toList]
    refine (List.filter_eq_self.2 fun i hi => ?_).symm
    simp [List.mem_range.1 hi]
  have hrecords := filterMap_filter_range records.toList fun _ => true
  rw [← hall, List.filter_true] at hrecords
  simpa only [recordsAt, Array.getElem?_toList] using hrecords

/-- The positions that a filter selects are those of the records of which it holds. -/
theorem recordsAt_select (f : Filter) (records : Array Record) :
    recordsAt records (f.select records) = records.toList.filter fun r => f.holds r := by
  have hpositions : f.select records = (List.range records.toList.length).filter fun i =>
      (records.toList[i]?.map fun r => f.holds r).getD false := by
    rw [Filter.select_eq_filter, Array.length_toList]
    refine List.filter_congr fun i hi => ?_
    have hi := List.mem_range.1 hi
    simp [Filter.passes, Filter.holdsAt_eq hi, hi]
  rw [hpositions, ← filterMap_filter_range]
  simp only [recordsAt, Array.getElem?_toList]

/-- The selected positions are those of the matching records. -/
theorem recordsAt_selected (q : Query) (records : Array Record) :
    recordsAt records (q.selected records) = q.matching records := by
  -- with a filter this is what selecting is, without one nothing is tested
  rw [selected, matching]
  cases hfilter : q.filter with
  | some filter =>
    rw [recordsAt_select]
    refine List.filter_congr fun r _ => ?_
    simp [accepts, hfilter]
  | none =>
    rw [recordsAt_range]
    refine (List.filter_eq_self.2 fun r _ => ?_).symm
    simp [accepts, hfilter]

theorem entries_eq_ok_iff {q : Query} {records : Array Record} {base : List Entry} :
    q.entries records (q.selected records) = .ok base ↔
      (∀ g, q.grouping = some g → ∀ r ∈ q.matching records, ∀ f ∈ g.fields, (r.get? f).isSome) ∧
      q.IsBase records base := by
  rw [entries, IsBase]
  cases q.grouping with
  | none =>
    simp only [recordsAt_selected, Except.ok.injEq]
    exact ⟨fun h => ⟨fun _ hg => (nomatch hg), h.symm⟩, fun h => h.2.symm⟩
  | some g =>
    simp only [map_eq_ok_iff, Grouping.rows_eq_ok_iff, recordsAt_selected, Option.some.injEq,
      forall_eq']
    constructor
    · rintro ⟨rows, ⟨hpresent, hrows⟩, rfl⟩
      exact ⟨hpresent, rows, rfl, hrows⟩
    · rintro ⟨hpresent, rows, rfl, hrows⟩
      exact ⟨rows, ⟨hpresent, hrows⟩, rfl⟩

/-! ### The keys that execution reads -/

theorem mem_fieldKeys_of_mem_columns {q : Query} {k : FieldKey} (h : Column.field k ∈ q.columns) :
    k ∈ q.fieldKeys := by
  have hmem : k ∈ q.columns.filterMap Column.key? := List.mem_filterMap.2 ⟨_, h, rfl⟩
  simp only [fieldKeys, List.mem_append]
  exact Or.inl (Or.inl (Or.inr hmem))

theorem mem_fieldKeys_of_mem_keys {q : Query} {g : Grouping} (hg : q.grouping = some g)
    {k : FieldKey} (h : k ∈ g.keys) : k ∈ q.fieldKeys := by
  simp only [fieldKeys, List.mem_append, hg]
  exact Or.inr (List.mem_append_left _ h)

theorem mem_fieldKeys_of_mem_rules {q : Query} {g : Grouping} (hg : q.grouping = some g)
    {r : Rule} (h : r ∈ g.rules) : r.target ∈ q.fieldKeys := by
  simp only [fieldKeys, List.mem_append, hg]
  exact Or.inr (List.mem_append_right _ (List.mem_map_of_mem h))

/-! ### The outcome of execution -/

section

variable {q : Query} {id : String} {kind : Kind} {records : Array Record}

theorem fits_of_mem_matching (hfit : ∀ r ∈ records, r.Fits kind) {r : Record}
    (hr : r ∈ q.matching records) : r.Fits kind :=
  hfit r (Array.mem_toList_iff.1 (List.mem_filter.1 hr).1)

/-- No matching record lacks a field of the grouping. -/
theorem Agrees.isSome_get? (h : q.Agrees id kind) (hfit : ∀ r ∈ records, r.Fits kind)
    {g : Grouping} (hg : q.grouping = some g) {r : Record} (hr : r ∈ q.matching records)
    {f : Field} (hf : f ∈ g.fields) : (r.get? f).isSome := by
  obtain ⟨k, hk, rfl⟩ := List.mem_map.1 hf
  obtain ⟨v, hv, -⟩ := (fits_of_mem_matching hfit hr).present k.field
    (h.belongs k (mem_fieldKeys_of_mem_keys hg hk))
  simp [hv]

/-- Every rule can be computed from any of the matching records. -/
theorem Agrees.exists_isPartition (h : q.Agrees id kind) (hfit : ∀ r ∈ records, r.Fits kind)
    {g : Grouping} (hg : q.grouping = some g) :
    ∃ rows, g.IsPartition (q.matching records) rows := by
  refine Grouping.exists_isPartition fun r hr => ⟨fun f hf => h.isSome_get? hfit hg hr hf, ?_⟩
  intro rule hrule
  exact (fits_of_mem_matching hfit hr).canRead (h.belongs _ (mem_fieldKeys_of_mem_rules hg hrule))
    (h.numeric g hg rule hrule)

/-- Nothing that the query describes is refused before it is counted. -/
theorem Agrees.exists_isBase (h : q.Agrees id kind) (hfit : ∀ r ∈ records, r.Fits kind) :
    ∃ base, q.IsBase records base ∧ q.entries records (q.selected records) = .ok base := by
  obtain ⟨base, hbase⟩ : ∃ base, q.IsBase records base := by
    unfold IsBase
    cases hg : q.grouping with
    | none => exact ⟨_, rfl⟩
    | some g =>
      obtain ⟨rows, hrows⟩ := h.exists_isPartition hfit hg
      exact ⟨_, rows, rfl, hrows⟩
  exact ⟨base, hbase, entries_eq_ok_iff.2
    ⟨fun g hg r hr f hf => h.isSome_get? hfit hg hr hf, hbase⟩⟩

/-- Every column can be read from every entry. -/
theorem Agrees.isSome_entry_get? (h : q.Agrees id kind) (hfit : ∀ r ∈ records, r.Fits kind)
    {base : List Entry} (hbase : q.IsBase records base) {e : Entry} (he : e ∈ base) {c : Column}
    (hc : c ∈ q.columns) : (e.get? c).isSome := by
  unfold IsBase at hbase
  cases hg : q.grouping with
  | none =>
    -- a record is read, and its columns are fields of its kind
    rw [hg] at hbase
    subst hbase
    obtain ⟨r, hr, rfl⟩ := List.mem_map.1 he
    obtain ⟨k, rfl⟩ := h.plain hg c hc
    obtain ⟨v, hv, -⟩ := (fits_of_mem_matching hfit hr).present k.field
      (h.belongs k (mem_fieldKeys_of_mem_columns hc))
    exact Option.isSome_iff_exists.2 ⟨v, hv⟩
  | some g =>
    -- the row of a tuple is read, and its columns come out of the grouping
    rw [hg] at hbase
    obtain ⟨rows, rfl, hrows⟩ := hbase
    obtain ⟨row, hrow, rfl⟩ := List.mem_map.1 he
    obtain ⟨tuple, -, hof⟩ := exists_of_mem_right hrows hrow
    exact hof.isSome_get? (h.grouped g hg c hc)

/-- **The outcome of execution.** The entries that the query describes are refused when they are
too many, and only then; else they are read at the columns and arranged. -/
theorem rowsOf_of_agrees (h : q.Agrees id kind) (hfit : ∀ r ∈ records, r.Fits kind)
    (maxResults : Nat) :
    ∃ base rows, q.IsBase records base ∧ List.Forall₂ (Entry.IsReadAt q.columns) base rows ∧
      q.rowsOf maxResults records =
        if maxResults < base.length then .error (.tooManyRows maxResults base.length)
        else .ok (q.arrange rows) := by
  obtain ⟨base, hbase, hentries⟩ := h.exists_isBase hfit
  obtain ⟨rows, hrows⟩ := exists_mapM_eq_ok (f := Entry.project q.columns) fun e he =>
    Entry.exists_project_eq_ok fun c hc => h.isSome_entry_get? hfit hbase he hc
  refine ⟨base, rows, hbase,
    (mapM_eq_ok_iff.1 hrows).imp fun _ _ => Entry.project_eq_ok_iff.1, ?_⟩
  rw [rowsOf, hentries]
  by_cases hsize : maxResults < base.length
  · rw [if_pos hsize]
    change (if maxResults < base.length then _ else _) = _
    rw [if_pos hsize]
    rfl
  · rw [if_neg hsize]
    change (if maxResults < base.length then _ else base.mapM (Entry.project q.columns) >>= _) = _
    rw [if_neg hsize, hrows]
    rfl

end

/-! ### Execution on a store -/

/-- Execution on a dataset of a catalog is that on its records. -/
theorem execute_eq_rowsOf {c : Catalog} {id : String} {d : Dataset} (h : c.find? id = some d)
    (q : Query) (maxResults : Nat) :
    q.execute c maxResults id = q.rowsOf maxResults d.records := by
  rw [execute, h]

/-- A query is resolved to a dataset that it agrees with and whose records fit its kind. -/
theorem exists_agrees_of_resolve {calls : List Catalog.Call} {q : Query} {id : String}
    (h : q.resolve (Catalog.built calls) = .ok id) :
    ∃ d, (Catalog.built calls).find? id = some d ∧ q.Agrees id d.kind ∧
      ∀ r ∈ d.records, r.Fits d.kind := by
  obtain ⟨kind, hkind, hagrees⟩ := resolve_eq_ok_iff.1 h
  obtain ⟨d, hd, rfl⟩ := Option.map_eq_some_iff.1 hkind
  exact ⟨d, hd, hagrees, (Catalog.sound_built calls id d hd).fits⟩

/-- **Execution fails only by the size of the result.** Whatever calls have built the catalog, a
query that is resolved on it is executed, or its result has more rows than allowed. No record lacks
a value, no column is left uncomputed, no string is aggregated as a number. -/
theorem execute_ok_or_tooManyRows (calls : List Catalog.Call) (maxResults : Nat) (q : Query)
    (id : String) (h : q.resolve (Catalog.built calls) = .ok id) :
    (∃ rows, q.execute (Catalog.built calls) maxResults id = .ok rows) ∨
      ∃ actual, maxResults < actual ∧ q.execute (Catalog.built calls) maxResults id =
        .error (.tooManyRows maxResults actual) := by
  obtain ⟨d, hd, hagrees, hfit⟩ := exists_agrees_of_resolve h
  obtain ⟨base, rows, -, -, hrows⟩ := rowsOf_of_agrees hagrees hfit maxResults
  rw [execute_eq_rowsOf hd, hrows]
  by_cases hsize : maxResults < base.length
  · exact Or.inr ⟨base.length, hsize, if_pos hsize⟩
  · exact Or.inl ⟨q.arrange rows, if_neg hsize⟩

/-- A section of a course in a department, with an average. -/
def sampleSection (dept : String) (avg : Int) : Record :=
  .ofEntries [(.dept, .text dept), (.id, .text "310"), (.avg, .number (.ofInt avg)),
    (.instructor, .text ""), (.title, .text "intr sftwr eng"), (.pass, .number (.ofInt 90)),
    (.fail, .number (.ofInt 2)), (.audit, .number (.ofInt 0)), (.uuid, .text "1"),
    (.year, .number (.ofInt 2015))]

/-- Calls of which the second is refused, since its id is in use. -/
def sampleCalls : List Catalog.Call :=
  [.add ⟨"ubc", .courses, #[sampleSection "cpsc" 78, sampleSection "math" 55,
    sampleSection "cpsc" 84]⟩, .add ⟨"ubc", .courses, #[sampleSection "econ" 60]⟩]

/-- The best average of each department, from the best one down. -/
def sampleQuery : Query where
  filter := some (.not (.compare .lt ⟨"ubc", .avg⟩ (.ofInt 50)))
  columns := [.field ⟨"ubc", .dept⟩, .computed "top"]
  order := some (.directional .down [.computed "top"])
  grouping := some ⟨[⟨"ubc", .dept⟩], [⟨"top", .max, ⟨"ubc", .avg⟩⟩]⟩

theorem resolve_sampleQuery : sampleQuery.resolve (Catalog.built sampleCalls) = .ok "ubc" := by
  decide +kernel

theorem execute_sampleQuery :
    sampleQuery.resolve (Catalog.built sampleCalls) = .ok "ubc" ∧
    ((∃ rows, sampleQuery.execute (Catalog.built sampleCalls) 1 "ubc" = .ok rows) ∨
      ∃ actual, 1 < actual ∧ sampleQuery.execute (Catalog.built sampleCalls) 1 "ubc" =
        .error (.tooManyRows 1 actual)) :=
  ⟨resolve_sampleQuery, execute_ok_or_tooManyRows sampleCalls 1 sampleQuery "ubc"
    resolve_sampleQuery⟩

end Query

end CampusQuery
