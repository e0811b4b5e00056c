import Mathlib.Logic.Function.Basic
import CampusQuery.Proofs.Loading

/-!
# The store as a finite map

A database that is kept in memory answers requests to add a dataset, to remove one and to list what
there is. What it answers can be said without catalogs: at any time an id is bound to a kind and
records, or to nothing (`Bindings`), and `Bindings.Responds` says for each request what the answer
is and what is bound then. A dataset is added if its id is valid and free and it has records that
all fit its kind, and otherwise the first of these conditions that fails is reported; a dataset is
removed if its id is valid and bound; every other id keeps what it is bound to.

The database refines this map, and the simulation is a function: what a catalog binds
(`Catalog.bindings`). The answer to a request is one that the map may give
(`Database.exists_answer_responds`), and the map may give no other (`Database.answer_of_responds`).
By induction a sequence of requests of any length is answered as the map answers it
(`Database.session_refines_bindings`).
-/

namespace CampusQuery

/-! ### Bindings -/

/-- What ids are bound to: a kind and records, or nothing. -/
abbrev Bindings : Type :=
  String → Option (Kind × Array Record)

namespace Bindings

/-- The bindings with the id of a dataset bound to its kind and records. -/
def bind (m : Bindings) (d : Dataset) : Bindings :=
  Function.update m d.id (some (d.kind, d.records))

/-- The bindings with an id bound to nothing. -/
def unbind (m : Bindings) (id : String) : Bindings :=
  Function.update m id none

/-- The bound ids, in ascending order. -/
structure AreIds (m : Bindings) (ids : List String) : Prop where
  /-- The order. -/
  ascending : ids.Pairwise (· < ·)
  /-- Exactly the bound ids are there. -/
  mem_iff : ∀ id, id ∈ ids ↔ m id ≠ none

/-- The listing of what is bound, in ascending order of the ids. -/
structure IsListing (m : Bindings) (infos : List DatasetInfo) : Prop where
  /-- The order. -/
  ascending : infos.Pairwise fun a b => a.id < b.id
  /-- Exactly the bound ids are there, with their kind and their number of records. -/
  mem_iff : ∀ info, info ∈ infos ↔
    ∃ records, m info.id = some (info.kind, records) ∧ info.rows = records.size

theorem AreIds.unique {m : Bindings} {ids ids' : List String} (h : m.AreIds ids)
    (h' : m.AreIds ids') : ids = ids' :=
  eq_of_mem_iff_of_ascending (fun id => id) h.ascending h'.ascending fun id => by
    rw [h.mem_iff, h'.mem_iff]

theorem IsListing.unique {m : Bindings} {infos infos' : List DatasetInfo} (h : m.IsListing infos)
    (h' : m.IsListing infos') : infos = infos' :=
  eq_of_mem_iff_of_ascending DatasetInfo.id h.ascending h'.ascending fun info => by
    rw [h.mem_iff, h'.mem_iff]

end Bindings

namespace Database

/-! ### Requests -/

/-- What a database is asked to do. -/
inductive Request where
  /-- To add a dataset. -/
  | add (d : Dataset)
  /-- To remove the dataset of an id. -/
  | remove (id : String)
  /-- To list all datasets. -/
  | list

/-- What it answers. -/
inductive Answer where
  /-- The ids of all datasets after one was added. -/
  | added (outcome : Except StoreError (List String))
  /-- The id of the dataset that was removed. -/
  | removed (outcome : Except StoreError String)
  /-- The listing of all datasets. -/
  | listed (infos : List DatasetInfo)

/-- The answer to a request, with the database and the disk after it. -/
def answer (db : Database) (disk : Disk) : Request → Answer × Database × Disk
  | .add d =>
    let (outcome, after) := db.add disk d
    (.added outcome, after)
  | .remove id =>
    let (outcome, after) := db.remove disk id
    (.removed outcome, after)
  | .list => (.listed db.list, db, disk)

/-- The answers to requests that are made one after the other. -/
def session (db : Database) (disk : Disk) : List Request → List Answer × Database × Disk
  | [] => ([], db, disk)
  | request :: rest =>
    let (first, db, disk) := db.answer disk request
    let (others, after) := session db disk rest
    (first :: others, after)

end Database

/-! ### What a finite map answers -/

namespace Bindings

open Database (Request Answer)

/-- The answer to a request, and what is bound after it. -/
inductive Responds (m : Bindings) : Request → Answer → Bindings → Prop where
  /-- A dataset is added if nothing speaks against it. -/
  | added {d : Dataset} {ids : List String} : ValidId d.id → m d.id = none → d.records ≠ #[] →
      (∀ r ∈ d.records, r.Fits d.kind) → (m.bind d).AreIds ids →
      Responds m (.add d) (.added (.ok ids)) (m.bind d)
  /-- First, the id has to be valid. -/
  | invalid {d : Dataset} {fault : IdFault} : fault.Describes d.id →
      Responds m (.add d) (.added (.error (.invalidId d.id fault))) m
  /-- Second, it has to be free. -/
  | duplicate {d : Dataset} : ValidId d.id → m d.id ≠ none →
      Responds m (.add d) (.added (.error (.duplicate d.id))) m
  /-- Third, there have to be records. -/
  | noRecords {d : Dataset} : ValidId d.id → m d.id = none → d.records = #[] →
      Responds m (.add d) (.added (.error (.noRecords d.id))) m
  /-- Last, the records have to fit, and the first row that does not is reported. -/
  | misfit {d : Dataset} {row : Nat} {fault : SchemaFault} : ValidId d.id → m d.id = none →
      d.records ≠ #[] → d.IsFirstMisfit row fault →
      Responds m (.add d) (.added (.error (.schemaMismatch d.id d.kind row fault))) m
  /-- The dataset of a bound id is removed. -/
  | removed {id : String} : ValidId id → m id ≠ none →
      Responds m (.remove id) (.removed (.ok id)) (m.unbind id)
  /-- First, the id has to be valid. -/
  | removeInvalid {id : String} {fault : IdFault} : fault.Describes id →
      Responds m (.remove id) (.removed (.error (.invalidId id fault))) m
  /-- Second, it has to be bound. -/
  | notFound {id : String} : ValidId id → m id = none →
      Responds m (.remove id) (.removed (.error (.notFound id))) m
  /-- What is bound is listed. -/
  | listed {infos : List DatasetInfo} : m.IsListing infos → Responds m .list (.listed infos) m

/-- The answers to requests that are made one after the other, and what is bound in the end. -/
inductive Run : Bindings → List Request → List Answer → Bindings → Prop where
  /-- Nothing is asked. -/
  | nil {m : Bindings} : Run m [] [] m
  /-- The first request is answered, then the others. -/
  | cons {m m' m'' : Bindings} {request : Request} {answer : Answer} {rest : List Request}
      {answers : List Answer} : m.Responds request answer m' → Run m' rest answers m'' →
      Run m (request :: rest) (answer :: answers) m''

end Bindings

/-! ### What a catalog binds -/

namespace Catalog

/-- The bindings that a catalog holds. -/
def bindings (c : Catalog) : Bindings :=
  fun id => (c.find? id).map fun d => (d.kind, d.records)

theorem bindings_eq_none_iff {c : Catalog} {id : String} :
    c.bindings id = none ↔ c.find? id = none :=
  Option.map_eq_none_iff

theorem bindings_insert (c : Catalog) (d : Dataset) :
    (c.insert d).bindings = c.bindings.bind d := by
  funext id
  rw [bindings, find?_insert, Bindings.bind, Function.update_apply]
  by_cases h : d.id = id
  · simp [h]
  · rw [if_neg h, if_neg (Ne.symm h), bindings]

theorem bindings_erase (c : Catalog) (id : String) :
    (c.erase id).bindings = c.bindings.unbind id := by
  funext other
  rw [bindings, find?_erase, Bindings.unbind, Function.update_apply]
  by_cases h : id = other
  · simp [h]
  · rw [if_neg h, if_neg (Ne.symm h), bindings]

theorem areIds (c : Catalog) : c.bindings.AreIds c.ids := by
  refine ⟨c.ids_ascend, fun id => ?_⟩
  rw [mem_ids_iff, ne_eq, bindings_eq_none_iff, ← Option.ne_none_iff_exists']

theorem isListing (c : Catalog) : c.bindings.IsListing c.infos := by
  refine ⟨List.pairwise_map.2 c.ascending, fun info => ?_⟩
  rw [infos, List.mem_map]
  constructor
  · rintro ⟨d, hd, rfl⟩
    exact ⟨d.records, by simp [bindings, Dataset.info, mem_datasets_iff.1 hd], rfl⟩
  · rintro ⟨records, hfound, hrows⟩
    obtain ⟨d, hd, hpair⟩ := Option.map_eq_some_iff.1 hfound
    obtain ⟨hkind, rfl⟩ := Prod.mk.inj hpair
    have hid := find?_id hd
    refine ⟨d, mem_datasets_iff.2 (hid.symm ▸ hd), ?_⟩
    cases info
    simp_all [Dataset.info, Dataset.size]

end Catalog

/-! ### The database and the map -/

namespace Database

open Bindings (Responds Run)

/-- A database in memory. -/
def inMemory (maxResults : Nat) (c : Catalog) : Database :=
  ⟨⟨none, maxResults⟩, c⟩

variable {maxResults : Nat} {c next : Catalog} {disk : Disk}

theorem answer_add_of_ok {d : Dataset} (h : c.add d = .ok next) :
    (inMemory maxResults c).answer disk (.add d) =
      (.added (.ok next.ids), inMemory maxResults next, disk) := by
  simp only [answer, add, inMemory, h, publish]

theorem answer_add_of_error {d : Dataset} {e : StoreError} (h : c.add d = .error e) :
    (inMemory maxResults c).answer disk (.add d) =
      (.added (.error e), inMemory maxResults c, disk) := by
  simp only [answer, add, inMemory, h, refuse]

theorem answer_remove_of_ok {id : String} {d : Dataset} (h : c.remove id = .ok (d, next)) :
    (inMemory maxResults c).answer disk (.remove id) =
      (.removed (.ok d.id), inMemory maxResults next, disk) := by
  simp only [answer, remove, inMemory, h, publish]

theorem answer_remove_of_error {id : String} {e : StoreError} (h : c.remove id = .error e) :
    (inMemory maxResults c).answer disk (.remove id) =
      (.removed (.error e), inMemory maxResults c, disk) := by
  simp only [answer, remove, inMemory, h, refuse]

/-- The database answers a request as the map may. -/
theorem exists_answer_responds (maxResults : Nat) (c : Catalog) (disk : Disk) (request : Request) :
    ∃ a next, (inMemory maxResults c).answer disk request = (a, inMemory maxResults next, disk) ∧
      Responds c.bindings request a next.bindings := by
  cases request with
  | add d =>
    cases hadd : c.add d with
    | ok next =>
      refine ⟨_, _, answer_add_of_ok hadd, ?_⟩
      obtain ⟨hd, hfree, rfl⟩ := Catalog.add_eq_ok_iff.1 hadd
      -- the ids that are returned are those of the new catalog
      have hids := (c.insert d).areIds
      rw [Catalog.bindings_insert] at hids ⊢
      refine .added (idFault?_eq_none_iff.1 hd.validId) (Catalog.bindings_eq_none_iff.2 hfree) ?_
        hd.fits hids
      simpa using hd.nonempty
    | error e =>
      refine ⟨_, _, answer_add_of_error hadd, ?_⟩
      rcases Catalog.add_eq_error_iff.1 hadd with ⟨fault, hfault, rfl⟩ | ⟨hid, hrest⟩
      · exact .invalid (idFault?_eq_some_iff.1 hfault)
      · -- the checks of the catalog come in the order of the conditions on the map
        have hvalid := idFault?_eq_none_iff.1 hid
        simp only [← Catalog.bindings_eq_none_iff, ne_eq] at hrest
        rcases hrest with
          ⟨hused, rfl⟩ | ⟨hfree, ⟨hempty, rfl⟩ | ⟨hne, row, fault, hfirst, rfl⟩⟩
        · exact .duplicate hvalid hused
        · exact .noRecords hvalid hfree hempty
        · exact .misfit hvalid hfree hne hfirst
  | remove id =>
    cases hremove : c.remove id with
    | ok removed =>
      obtain ⟨d, next⟩ := removed
      refine ⟨_, _, answer_remove_of_ok hremove, ?_⟩
      obtain ⟨hid, hfound, rfl⟩ := Catalog.remove_eq_ok_iff.1 hremove
      have hbound : c.bindings id ≠ none := by
        rw [ne_eq, Catalog.bindings_eq_none_iff, hfound]
        exact nofun
      rw [Catalog.bindings_erase, Catalog.find?_id hfound]
      exact .removed (idFault?_eq_none_iff.1 hid) hbound
    | error e =>
      refine ⟨_, _, answer_remove_of_error hremove, ?_⟩
      rcases Catalog.remove_eq_error_iff.1 hremove with ⟨fault, hfault, rfl⟩ | ⟨hid, hfree, rfl⟩
      · exact .removeInvalid (idFault?_eq_some_iff.1 hfault)
      · exact .notFound (idFault?_eq_none_iff.1 hid) (Catalog.bindings_eq_none_iff.2 hfree)
  | list => exact ⟨_, c, rfl, .listed c.isListing⟩

/-- The database answers a request as the map has to. -/
theorem answer_of_responds (maxResults : Nat) (disk : Disk) {request : Request} {a : Answer}
    {m : Bindings} (h : Responds c.bindings request a m) :
    ∃ next, (inMemory maxResults c).answer disk request = (a, inMemory maxResults next, disk) ∧
      next.bindings = m := by
  cases h with
  | @added d ids hvalid hfree hne hfits hids =>
    have hsound : d.Sound := ⟨idFault?_eq_none_iff.2 hvalid, by simpa using hne, hfits⟩
    have hadd := Catalog.add_eq_ok_iff.2 ⟨hsound, Catalog.bindings_eq_none_iff.1 hfree, rfl⟩
    -- there is only one list of ids that the map may answer
    have hnext := (c.insert d).areIds
    rw [Catalog.bindings_insert] at hnext
    rw [hids.unique hnext]
    exact ⟨_, answer_add_of_ok hadd, Catalog.bindings_insert c d⟩
  | invalid hfault =>
    refine ⟨c, answer_add_of_error (Catalog.add_eq_error_iff.2 (Or.inl ?_)), rfl⟩
    exact ⟨_, idFault?_eq_some_iff.2 hfault, rfl⟩
  | duplicate hvalid hused =>
    refine ⟨c, answer_add_of_error (Catalog.add_eq_error_iff.2 (Or.inr ?_)), rfl⟩
    exact ⟨idFault?_eq_none_iff.2 hvalid, Or.inl ⟨hused ∘ Catalog.bindings_eq_none_iff.2, rfl⟩⟩
  | noRecords hvalid hfree hempty =>
    refine ⟨c, answer_add_of_error (Catalog.add_eq_error_iff.2 (Or.inr ?_)), rfl⟩
    exact ⟨idFault?_eq_none_iff.2 hvalid,
      Or.inr ⟨Catalog.bindings_eq_none_iff.1 hfree, Or.inl ⟨hempty, rfl⟩⟩⟩
  | misfit hvalid hfree hne hfirst =>
    refine ⟨c, answer_add_of_error (Catalog.add_eq_error_iff.2 (Or.inr ?_)), rfl⟩
    exact ⟨idFault?_eq_none_iff.2 hvalid,
      Or.inr ⟨Catalog.bindings_eq_none_iff.1 hfree, Or.inr ⟨hne, _, _, hfirst, rfl⟩⟩⟩
  | @removed id hvalid hbound =>
    obtain ⟨d, hfound⟩ := Option.ne_none_iff_exists'.1 (hbound ∘ Catalog.bindings_eq_none_iff.2)
    have hremove := Catalog.remove_eq_ok_iff.2 ⟨idFault?_eq_none_iff.2 hvalid, hfound, rfl⟩
    refine ⟨_, ?_, Catalog.bindings_erase c id⟩
    rw [answer_remove_of_ok hremove, Catalog.find?_id hfound]
  | removeInvalid hfault =>
    refine ⟨c, answer_remove_of_error (Catalog.remove_eq_error_iff.2 (Or.inl ?_)), rfl⟩
    exact ⟨_, idFault?_eq_some_iff.2 hfault, rfl⟩
  | notFound hvalid hfree =>
    refine ⟨c, answer_remove_of_error (Catalog.remove_eq_error_iff.2 (Or.inr ?_)), rfl⟩
    exact ⟨idFault?_eq_none_iff.2 hvalid, Catalog.bindings_eq_none_iff.1 hfree, rfl⟩
  | listed hinfos =>
    rw [hinfos.unique c.isListing]
    exact ⟨c, rfl, rfl⟩

/-- **The database is a finite map.** Requests in memory, as many as there are, are answered in the
one way in which a map from ids to kinds and records answers them, and what the catalog binds in the
end is what the map has; configuration and disk stay as they are. -/
theorem session_refines_bindings (maxResults : Nat) (c : Catalog) (disk : Disk)
    (requests : List Request) :
    ∃ answers next,
      (inMemory maxResults c).session disk requests =
        (answers, inMemory maxResults next, disk) ∧
      ∀ answers' m, Run c.bindings requests answers' m ↔
        answers' = answers ∧ m = next.bindings := by
  induction requests generalizing c with
  | nil =>
    refine ⟨[], c, rfl, fun answers' m => ⟨fun h => ?_, fun h => ?_⟩⟩
    · cases h
      exact ⟨rfl, rfl⟩
    · obtain ⟨rfl, rfl⟩ := h
      exact .nil
  | cons request rest ih =>
    obtain ⟨a, mid, hanswer, hresponds⟩ := exists_answer_responds maxResults c disk request
    obtain ⟨answers, next, hrest, hrun⟩ := ih mid
    refine ⟨a :: answers, next, ?_, fun answers' m => ⟨fun h => ?_, fun h => ?_⟩⟩
    · simp only [session, hanswer, hrest]
    · cases h with
      | cons hfirst hlater =>
        -- the map has no choice: what it responds is what the database answers
        obtain ⟨mid', hanswer', rfl⟩ := answer_of_responds maxResults disk hfirst
        obtain ⟨rfl, hdb⟩ := Prod.mk.inj (hanswer.symm.trans hanswer')
        obtain rfl : mid = mid' := congrArg Database.catalog (Prod.mk.inj hdb).1
        obtain ⟨rfl, rfl⟩ := (hrun _ _).1 hlater
        exact ⟨rfl, rfl⟩
    · obtain ⟨rfl, rfl⟩ := h
      exact .cons hresponds ((hrun _ _).2 ⟨rfl, rfl⟩)

end Database

end CampusQuery
