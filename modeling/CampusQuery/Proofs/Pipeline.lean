import CampusQuery.Proofs.Execution
import CampusQuery.Proofs.Reading
import CampusQuery.Proofs.RowOrder

/-!
# What a query answers

The whole way of a query that is read, resolved and executed, against what it asks for. The matching
records, or one row for each of their distinct tuples, are the entries of the result
(`Query.IsBase`). If they are not too many, there is one row for each of them: the entry read at the
columns that the query lists, each once, in the order of the dataset or stably sorted
(`Query.IsAnswer`).

Reading drops a column that is named again, and a row names its columns by their text. That is the
same as dropping texts, because no two columns have one text (`Json.DenotesColumn.unique`): a text
with an underscore is that of a field key, and of one only, and a name has no underscore.
-/

namespace CampusQuery

/-! ### Names of columns -/

namespace Json

/-- A column is called as it is written. -/
theorem DenotesColumn.name_eq {text : String} {c : Column} (h : DenotesColumn text c) :
    c.name = text := by
  cases c with
  | field k => exact h.1.symm
  | computed name => exact h.1.symm

/-- A text denotes one column at most. -/
theorem DenotesColumn.unique {text : String} {c d : Column} (hc : DenotesColumn text c)
    (hd : DenotesColumn text d) : c = d := by
  -- the text is read as any column that it denotes, and reading is a function
  have hread : ∀ {e : Column}, DenotesColumn text e →
      Query.readColumn .columns (.string text) = .ok e := fun he =>
    Query.readColumn_eq_ok_iff.2 ⟨text, rfl, he⟩
  exact Except.ok.inj ((hread hc).symm.trans (hread hd))

/-- The columns without repetitions are called as the texts without repetitions. -/
theorem map_name_eraseDups {keys : List String} {written : List Column}
    (h : List.Forall₂ DenotesColumn keys written) :
    written.eraseDups.map Column.name = keys.eraseDups := by
  have hkeys : keys = written.map Column.name := by
    rw [← List.map_id' keys]
    exact forall₂_eq_iff_map_eq.1 (h.imp fun _ _ hc => hc.name_eq.symm)
  -- a column is denoted by its own name, so columns of one name are one column
  have hdenotes : ∀ c ∈ written, DenotesColumn c.name c := fun c hc => by
    obtain ⟨key, -, hkey⟩ := exists_of_mem_right h hc
    rwa [hkey.name_eq]
  have hname : ∀ c ∈ written, ∀ d ∈ written, (c.name == d.name) = (c == d) := fun c hc d hd => by
    rw [Bool.eq_iff_iff, beq_iff_eq, beq_iff_eq]
    exact ⟨fun heq => (hdenotes c hc).unique (heq ▸ hdenotes d hd), fun heq => heq ▸ rfl⟩
  calc written.eraseDups.map Column.name
      _ = (written.map Column.name).eraseDups := (eraseDups_map hname).symm
      _ = keys.eraseDups := by rw [hkeys]

end Json

/-- A row has the names of the columns that it is read at. -/
theorem Entry.IsReadAt.names_eq {columns : List Column} {e : Entry} {row : Row}
    (h : e.IsReadAt columns row) : row.cells.map Prod.fst = columns.map Column.name :=
  (forall₂_eq_iff_map_eq.1 (h.imp fun _ _ hcell => hcell.1.symm)).symm

namespace Query

/-! ### Answers -/

/-- The rows that a query answers with, for the entries that it describes and the columns as they
are written. -/
structure IsAnswer (q : Query) (keys : List String) (base : List Entry) (rows : List Row) :
    Prop where
  /-- There is one row per entry. -/
  length : rows.length = base.length
  /-- A row has the columns that are written, each at its first place. -/
  names : ∀ row ∈ rows, row.cells.map Prod.fst = keys.eraseDups
  /-- The rows are the entries read at the columns, in their order or stably sorted. -/
  arranged : ∃ read, List.Forall₂ (Entry.IsReadAt q.columns) base read ∧ rows.Perm read ∧
    (q.order = none → rows = read) ∧
    ∀ order, q.order = some order → order.StablySorted read rows

theorem perm_arrange (q : Query) (rows : List Row) : (q.arrange rows).Perm rows := by
  rw [arrange]
  cases q.order with
  | none => exact List.Perm.refl rows
  | some order => exact (Row.stablySorted_sort order rows).perm

theorem isAnswer_arrange {q : Query} {keys : List String} {base : List Entry} {rows : List Row}
    (hkeys : q.columns.map Column.name = keys.eraseDups)
    (h : List.Forall₂ (Entry.IsReadAt q.columns) base rows) :
    q.IsAnswer keys base (q.arrange rows) where
  length := (perm_arrange q rows).length_eq.trans h.length_eq.symm
  names := fun row hrow => by
    obtain ⟨e, -, he⟩ := exists_of_mem_right h ((perm_arrange q rows).mem_iff.1 hrow)
    rw [he.names_eq, hkeys]
  arranged := by
    refine ⟨rows, h, perm_arrange q rows, fun hnone => ?_, fun order hsome => ?_⟩
    · rw [arrange, hnone]
    · rw [arrange, hsome]
      exact Row.stablySorted_sort order rows

/-- The columns of a query that is read, as they are written. -/
theorem exists_keys_of_ofJson {raw : Json} {q : Query} (h : ofJson raw = .ok q) :
    ∃ keys : List String, (raw.member? "OPTIONS").bind (Json.member? "COLUMNS") =
      some (.array (keys.map .string)) ∧ q.columns.map Column.name = keys.eraseDups := by
  obtain ⟨options, hoptions, hdenotes⟩ := (ofJson_eq_ok_iff.1 h).options
  obtain ⟨keys, written, hmember, -, hkeys, hcolumns⟩ := hdenotes.columns
  refine ⟨keys, ?_, ?_⟩
  · rw [hoptions]
    exact hmember
  · rw [hcolumns, Json.map_name_eraseDups hkeys]

theorem nodup_eraseDups (keys : List String) : keys.eraseDups.Nodup :=
  (pairwise_eraseDups_bne keys).imp fun h heq => by simp [heq] at h

/-- **What a query answers.** Whatever calls have built the catalog, a query that is read and
resolved on it is refused when the entries that it describes are more than allowed, and only then;
else it is answered with one row for each of them. -/
theorem runJson_answers (calls : List Catalog.Call) (maxResults : Nat) (raw : Json) (q : Query)
    (id : String) (hread : ofJson raw = .ok q)
    (hresolve : q.resolve (Catalog.built calls) = .ok id) :
    ∃ (d : Dataset) (base : List Entry) (keys : List String),
      (Catalog.built calls).find? id = some d ∧
      (∀ other, q.IsBase d.records other ↔ other = base) ∧
      (raw.member? "OPTIONS").bind (Json.member? "COLUMNS") =
        some (.array (keys.map .string)) ∧ keys.eraseDups.Nodup ∧
      (runJson raw (Catalog.built calls) maxResults =
        .error (.tooManyRows maxResults base.length) ↔ maxResults < base.length) ∧
      (base.length ≤ maxResults → ∃ rows,
        runJson raw (Catalog.built calls) maxResults = .ok rows ∧ q.IsAnswer keys base rows) := by
  obtain ⟨d, hd, hagrees, hfit⟩ := exists_agrees_of_resolve hresolve
  obtain ⟨base, rows, hbase, hrows, houtcome⟩ := rowsOf_of_agrees hagrees hfit maxResults
  obtain ⟨keys, hkeys, hnames⟩ := exists_keys_of_ofJson hread
  -- reading and resolving have succeeded, so running is executing
  have hrun : runJson raw (Catalog.built calls) maxResults =
      (q.rowsOf maxResults d.records).mapError .ofExecution := by
    calc runJson raw (Catalog.built calls) maxResults
        _ = q.run (Catalog.built calls) maxResults := by rw [runJson, hread]
        _ = (q.execute (Catalog.built calls) maxResults id).mapError .ofExecution := by
          rw [run, hresolve]
        _ = (q.rowsOf maxResults d.records).mapError .ofExecution := by
          rw [execute_eq_rowsOf hd]
  rw [hrun, houtcome]
  have hunique : ∀ other, q.IsBase d.records other ↔ other = base := fun other =>
    ⟨fun hother => hother.unique hbase, fun heq => heq ▸ hbase⟩
  refine ⟨d, base, keys, hd, hunique, hkeys, nodup_eraseDups keys, ?_, fun hsize => ?_⟩
  · by_cases hsize : maxResults < base.length
    · rw [if_pos hsize]
      exact ⟨fun _ => hsize, fun _ => rfl⟩
    · rw [if_neg hsize]
      exact ⟨fun h => (nomatch h), fun h => absurd h hsize⟩
  · rw [if_neg (Nat.not_lt.2 hsize)]
    exact ⟨q.arrange rows, rfl, isAnswer_arrange hnames hrows⟩

/-- The value that `sampleQuery` is read from, with a column that is named again. -/
def sampleJson : Json :=
  .object [
    ("OPTIONS", .object [
      ("COLUMNS", .array [.string "ubc_dept", .string "top", .string "ubc_dept"]),
      ("ORDER", .object [("dir", .string "DOWN"), ("keys", .array [.string "top"])])]),
    ("TRANSFORMATIONS", .object [
      ("APPLY", .array [.object [("top", .object [("MAX", .string "ubc_avg")])]]),
      ("GROUP", .array [.string "ubc_dept"])]),
    ("WHERE", .object [("NOT", .object [("LT", .object [("ubc_avg", .number (.integer 50))])])])]

theorem ofJson_sampleJson : ofJson sampleJson = .ok sampleQuery :=
  ofJson_eq_ok_iff.2 {
    only := ⟨_, rfl, by decide⟩
    condition := ⟨_, rfl, .not (denotes_of_readComparison .lt rfl)⟩
    options := ⟨_, rfl, readOptions_eq_ok_iff.1 rfl⟩
    grouping := .some (readGrouping_eq_ok_iff.1 rfl) }

theorem runJson_sampleJson :
    ofJson sampleJson = .ok sampleQuery ∧
    sampleQuery.resolve (Catalog.built sampleCalls) = .ok "ubc" ∧
    ∃ (d : Dataset) (base : List Entry) (keys : List String),
      (Catalog.built sampleCalls).find? "ubc" = some d ∧
      (∀ other, sampleQuery.IsBase d.records other ↔ other = base) ∧
      (sampleJson.member? "OPTIONS").bind (Json.member? "COLUMNS") =
        some (.array (keys.map .string)) ∧ keys.eraseDups.Nodup ∧
      (runJson sampleJson (Catalog.built sampleCalls) 2 =
        .error (.tooManyRows 2 base.length) ↔ 2 < base.length) ∧
      (base.length ≤ 2 → ∃ rows, runJson sampleJson (Catalog.built sampleCalls) 2 = .ok rows ∧
        sampleQuery.IsAnswer keys base rows) :=
  ⟨ofJson_sampleJson, resolve_sampleQuery, runJson_answers sampleCalls 2 sampleJson sampleQuery
    "ubc" ofJson_sampleJson resolve_sampleQuery⟩

end Query

end CampusQuery
