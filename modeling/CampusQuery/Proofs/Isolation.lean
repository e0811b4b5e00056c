import CampusQuery.Execution.Run
import CampusQuery.Proofs.Execution
import CampusQuery.Proofs.Rules

/-!
# A query sees one dataset

A query reads where its datasets are kept in two ways: it asks for the kind of a dataset while its
rules are checked, and for the records of a dataset once they are kept (`Source`). Both times the
dataset is the one that all its field keys name. So two sources that agree on that dataset answer
the query alike, whatever other datasets they have (`Query.runOn_congr`), and a query whose field
keys name no dataset, or several, fails before it has asked for anything
(`Query.exists_runOn_eq_error`).

A catalog is such a source (`Query.run_eq_runOn`). A call to add or remove a dataset leaves every
other dataset as it was (`Catalog.find?_after`), so by induction no sequence of calls that leave
the dataset of a query alone has an effect on its answer. `Query.run_sees_named_dataset` puts all of
this together.
-/

namespace CampusQuery

/-! ### Sources -/

/-- Where a query finds datasets, as far as a query can see. -/
structure Source where
  /-- The kind of a dataset, if there is one of the id. -/
  kind? : String → Option Kind
  /-- The records of a dataset, or why there are none. -/
  records : String → Except ExecutionError (Array Record)

/-- Two sources have the same dataset under an id, or both have none. -/
structure Source.AgreeOn (s s' : Source) (id : String) : Prop where
  /-- The dataset is known to both, with the same kind, or to none of them. -/
  kind : s.kind? id = s'.kind? id
  /-- If it is known, its records are the same. -/
  records : s.kind? id ≠ none → s.records id = s'.records id

namespace Catalog

/-- The records of a dataset, which has to be there. -/
def records (c : Catalog) (id : String) : Except ExecutionError (Array Record) :=
  match c.find? id with
  | some d => .ok d.records
  | none => .error (.unknownDataset id)

/-- A catalog as a source. -/
def source (c : Catalog) : Source :=
  ⟨c.kind?, c.records⟩

/-- Catalogs with the same dataset under an id agree on it. -/
theorem agreeOn_source {c c' : Catalog} {id : String} (h : c.find? id = c'.find? id) :
    c.source.AgreeOn c'.source id where
  kind := congrArg (Option.map Dataset.kind) h
  records _ := by
    change c.records id = c'.records id
    unfold records
    rw [h]

/-! ### Calls to a store -/

/-- The id that a call is about. -/
def Call.target : Call → String
  | .add d => d.id
  | .remove id => id

/-- A call leaves all datasets of other ids as they are. -/
theorem find?_after {c : Catalog} {call : Call} {id : String} (h : call.target ≠ id) :
    (c.after call).find? id = c.find? id := by
  -- a call that is refused leaves the whole catalog as it is
  cases call with
  | add d =>
    rw [after]
    cases hadd : c.add d with
    | error e => rfl
    | ok next =>
      obtain ⟨-, -, rfl⟩ := add_eq_ok_iff.1 hadd
      rw [find?_insert]
      exact if_neg h
  | remove target =>
    rw [after]
    cases hremove : c.remove target with
    | error e => rfl
    | ok removed =>
      obtain ⟨d, next⟩ := removed
      obtain ⟨-, -, rfl⟩ := remove_eq_ok_iff.1 hremove
      rw [find?_erase]
      exact if_neg h

/-- Calls that are about other ids leave a dataset as it is, however many they are. -/
theorem find?_foldl_after {calls : List Call} {id : String}
    (h : ∀ call ∈ calls, call.target ≠ id) (c : Catalog) :
    (calls.foldl after c).find? id = c.find? id := by
  induction calls generalizing c with
  | nil => rfl
  | cons call rest ih =>
    obtain ⟨hcall, hrest⟩ := List.forall_mem_cons.1 h
    calc (rest.foldl after (c.after call)).find? id
        = (c.after call).find? id := ih hrest (c.after call)
      _ = c.find? id := find?_after hcall

end Catalog

namespace Query

variable {q : Query} {s s' : Source} {maxResults : Nat}

/-! ### Running a query on a source -/

/-- The rows of a query on the dataset that it names, from any source. -/
def runOn (q : Query) (s : Source) (maxResults : Nat) : Except QueryError (List Row) :=
  match q.resolveAmong s.kind? with
  | .ok dataset => (s.records dataset >>= q.rowsOf maxResults).mapError .ofExecution
  | .error e => .error (.ofRule e)

/-- Running a query on a catalog is running it on the catalog as a source. -/
theorem run_eq_runOn (q : Query) (c : Catalog) (maxResults : Nat) :
    q.run c maxResults = q.runOn c.source maxResults := by
  have hexecute : ∀ id, q.execute c maxResults id = c.records id >>= q.rowsOf maxResults := by
    intro id
    unfold execute Catalog.records
    cases c.find? id <;> rfl
  unfold run runOn
  simp only [hexecute]
  rfl

/-- While its rules are checked, a query asks for the kind of no dataset but its own. -/
theorem resolveAmong_congr {kindOf? kindOf?' : String → Option Kind}
    (h : ∀ id, q.Names id → kindOf? id = kindOf?' id) :
    q.resolveAmong kindOf? = q.resolveAmong kindOf?' := by
  have hknown : q.knownDataset kindOf? = q.knownDataset kindOf?' := by
    unfold knownDataset
    cases hshared : q.sharedDataset with
    | error e => rfl
    | ok id =>
      -- the one id that is asked for is the one that all field keys have
      have hid : q.Names id := names_iff.2 (sharedDataset_eq_ok_iff.1 hshared)
      simp only [bind, Except.bind, h id hid]
  unfold resolveAmong
  rw [hknown]

/-- The dataset to which a query is resolved is the one that it names, and its kind is known. -/
theorem names_of_resolveAmong {kindOf? : String → Option Kind} {id : String}
    (h : q.resolveAmong kindOf? = .ok id) : q.Names id ∧ kindOf? id ≠ none := by
  obtain ⟨kind, hkind, hagrees⟩ := resolveAmong_eq_ok_iff.1 h
  exact ⟨names_iff.2 ⟨hagrees.named, hagrees.shared⟩, by simp [hkind]⟩

/-- **Sources that agree on the dataset of a query answer the query alike.** -/
theorem runOn_congr (h : ∀ id, q.Names id → s.AgreeOn s' id) :
    q.runOn s maxResults = q.runOn s' maxResults := by
  have hresolve : q.resolveAmong s.kind? = q.resolveAmong s'.kind? :=
    resolveAmong_congr fun id hid => (h id hid).kind
  unfold runOn
  rw [← hresolve]
  cases hok : q.resolveAmong s.kind? with
  | error e => rfl
  | ok id =>
    -- the records that are read are those of the dataset whose kind has been asked for
    obtain ⟨hnames, hknown⟩ := names_of_resolveAmong hok
    change (s.records id >>= _).mapError _ = (s'.records id >>= _).mapError _
    rw [(h id hnames).records hknown]

/-- A query that names no dataset, or several, fails in the same way on all sources. -/
theorem exists_runOn_eq_error (h : ∀ id, ¬q.Names id) (maxResults : Nat) :
    ∃ e, ∀ s, q.runOn s maxResults = .error e := by
  have hsame : ∀ s, q.runOn s maxResults = q.runOn Catalog.empty.source maxResults :=
    fun s => runOn_congr fun id hid => absurd hid (h id)
  cases hresolve : q.resolveAmong Catalog.empty.source.kind? with
  | ok id => exact absurd (names_of_resolveAmong hresolve).1 (h id)
  | error e =>
    refine ⟨.ofRule e, fun s => (hsame s).trans ?_⟩
    unfold runOn
    rw [hresolve]

/-- **A query sees the dataset that it names, and nothing else.** Sources that agree on it answer
the query alike. If there is no one dataset that all field keys name, all sources give the same
error. So on a catalog the answer stays the same through any calls, refused or not, that add and
remove other datasets. -/
theorem run_sees_named_dataset (q : Query) (maxResults : Nat) :
    (∀ (s s' : Source) (id : String), q.Names id → s.AgreeOn s' id →
      q.runOn s maxResults = q.runOn s' maxResults) ∧
    ((∀ id, ¬q.Names id) → ∃ e, ∀ s : Source, q.runOn s maxResults = .error e) ∧
    ∀ c : Catalog, q.run c maxResults = q.runOn c.source maxResults ∧
      ∀ calls : List Catalog.Call, (∀ call ∈ calls, ¬q.Names call.target) →
        q.run (calls.foldl Catalog.after c) maxResults = q.run c maxResults := by
  refine ⟨?_, fun h => exists_runOn_eq_error h maxResults,
    fun c => ⟨run_eq_runOn q c maxResults, ?_⟩⟩
  · intro s s' id hid hagree
    refine runOn_congr fun other hother => ?_
    -- a query names one dataset at most
    obtain rfl := hid.unique hother
    exact hagree
  · intro calls hcalls
    rw [run_eq_runOn, run_eq_runOn]
    refine runOn_congr fun id hid => Catalog.agreeOn_source (Catalog.find?_foldl_after ?_ c)
    rintro call hcall rfl
    exact hcalls call hcall hid

/-- Calls that are about another dataset than that of `sampleQuery`. The last one is refused. -/
def otherCalls : List Catalog.Call :=
  [.add ⟨"sfu", .courses, #[sampleSection "cpsc" 99]⟩, .remove "sfu", .remove "sfu"]

theorem eq_of_names_sampleQuery {id : String} (h : sampleQuery.Names id) : id = "ubc" :=
  (h.2 ⟨"ubc", .dept⟩ (mem_fieldKeys_iff.1 (by decide))).symm

theorem run_sees_named_dataset_otherCalls :
    sampleQuery.run (otherCalls.foldl Catalog.after (Catalog.built sampleCalls)) 5 =
      sampleQuery.run (Catalog.built sampleCalls) 5 := by
  have hothers : ∀ call ∈ otherCalls, call.target ≠ "ubc" := by decide
  obtain ⟨-, -, hcatalog⟩ := run_sees_named_dataset sampleQuery 5
  exact (hcatalog _).2 otherCalls fun call hcall hnames =>
    hothers call hcall (eq_of_names_sampleQuery hnames)

end Query

end CampusQuery
