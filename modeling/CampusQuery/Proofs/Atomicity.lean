import CampusQuery.Proofs.Durability
import CampusQuery.Proofs.Interruption

/-!
# Calls that fail

A call first makes the changed catalog, then takes its steps on the disk, and then puts the catalog
in place. So it is made of a check and a plan (`Database.Plan`), and it can be run under whatever
befalls the steps of the plan (`Database.Call.runUnder`); where nothing befalls them it is run as it
is (`Database.Call.runUnder_nil`). What a call can come to is one of three things: it is refused
before any step, it fails in a step, or it puts the catalog of its plan in place
(`Database.Call.runUnder_cases`).

Two laws follow. A call that fails changes nothing that can be seen: the catalog in place is the one
before, and a load finds the same datasets as before (`Database.runUnder_error_unchanged`), because
all steps of a plan but the last are quiet (`Database.Call.plan_steps`). And whatever calls are made
and whatever becomes of them, each dataset in place is fit to be stored
(`Database.live_entry_sound`), because a plan is made only of checked datasets.
-/

namespace CampusQuery

namespace Database

/-! ### Plans -/

/-- What a call is going to do once the catalog has accepted it. -/
structure Plan where
  /-- The catalog that is put in place in the end. -/
  next : Catalog
  /-- The steps that change the archive before that. -/
  steps : List Disk.Step
  /-- Whether a thing that is missing counts as removed. -/
  allowsMissing : Bool

/-- Changes the archive under what befalls the steps. -/
def Plan.archive (p : Plan) (mishaps : List (Option Disk.Mishap)) (disk : Disk) :
    Except StoreError Unit × Disk :=
  match disk.runStepsUnder mishaps p.steps with
  | (none, next) => (.ok (), next)
  | (some .notFound, next) => (if p.allowsMissing then .ok () else .error .inputOutput, next)
  | (some .refused, next) => (.error .inputOutput, next)

/-- The plan that stores a dataset. -/
def planAdd (c : Catalog) (d : Dataset) : Except StoreError Plan :=
  (c.add d).map fun next => ⟨next, Archive.saveSteps d, false⟩

/-- The plan of a call on a catalog, unless the catalog or the call's own check refuses it. -/
def Call.plan (c : Catalog) : Call → Except StoreError Plan
  | add d => planAdd c d
  | addCourseFiles id texts => do
    checkId id
    let records ← (Course.parseFiles texts).mapError .undecodable
    planAdd c ⟨id, .courses, records.toArray⟩
  | remove id => (c.remove id).map fun removed =>
    ⟨removed.2, [.remove (Archive.fileName removed.1.id removed.1.kind)], true⟩

/-- What a call yields under what befalls its steps. -/
def Call.runUnder (mishaps : List (Option Disk.Mishap)) (db : Database) (disk : Disk) (c : Call) :
    Change Unit :=
  match c.plan db.catalog with
  | .error e => db.refuse disk e
  | .ok p => db.publish disk p.next () (p.archive mishaps)

/-- The value that is published with a catalog has no influence on what is done. -/
theorem publish_unit {α : Type} (db : Database) (disk : Disk) (next : Catalog) (value : α)
    (archive : Disk → Except StoreError Unit × Disk) :
    ((db.publish disk next value archive).1.map fun _ => (),
      (db.publish disk next value archive).2) = db.publish disk next () archive := by
  unfold publish
  split
  · rfl
  · split <;> rfl

theorem archive_nil_save (next : Catalog) (d : Dataset) :
    Plan.archive ⟨next, Archive.saveSteps d, false⟩ [] = fun disk => Archive.save disk d := by
  funext disk
  rw [Plan.archive, Disk.runStepsUnder_nil, Archive.save]
  rcases disk.runSteps (Archive.saveSteps d) with ⟨_ | _ | _, next⟩ <;> rfl

theorem archive_nil_remove (next : Catalog) (id : String) (kind : Kind) :
    Plan.archive ⟨next, [.remove (Archive.fileName id kind)], true⟩ [] =
      fun disk => Archive.remove disk id kind := by
  funext disk
  rw [Plan.archive, Disk.runStepsUnder_nil, Archive.remove]
  rcases disk.runSteps [.remove (Archive.fileName id kind)] with ⟨_ | _ | _, next⟩ <;> rfl

theorem runUnder_nil_add (db : Database) (disk : Disk) (d : Dataset) :
    (match planAdd db.catalog d with
      | .error e => db.refuse disk e
      | .ok p => db.publish disk p.next () (p.archive [])) = (Call.add d).run db disk := by
  rw [Call.run, Database.add, planAdd]
  cases db.catalog.add d with
  | error e => rfl
  | ok next =>
    change db.publish disk next () (Plan.archive ⟨next, Archive.saveSteps d, false⟩ []) = _
    rw [archive_nil_save, ← publish_unit db disk next next.ids]

/-- **Where nothing goes wrong a call is run as it is.** -/
theorem Call.runUnder_nil (db : Database) (disk : Disk) (c : Call) :
    c.runUnder [] db disk = c.run db disk := by
  cases c with
  | add d => exact runUnder_nil_add db disk d
  | addCourseFiles id texts =>
    rw [Call.run, Call.runUnder, Call.plan, Database.addCourseFiles]
    cases checkId id with
    | error e => rfl
    | ok =>
      cases Course.parseFiles texts with
      | error fault => rfl
      | ok records => exact runUnder_nil_add db disk ⟨id, .courses, records.toArray⟩
  | remove id =>
    rw [Call.run, Call.runUnder, Call.plan, Database.remove]
    cases db.catalog.remove id with
    | error e => rfl
    | ok removed =>
      obtain ⟨d, next⟩ := removed
      change db.publish disk next ()
        (Plan.archive ⟨next, [.remove (Archive.fileName d.id d.kind)], true⟩ []) = _
      rw [archive_nil_remove, ← publish_unit db disk next d.id]

/-- A plan stores a dataset that the catalog accepts, or takes one out. -/
theorem Call.plan_cases {c : Call} {catalog : Catalog} {p : Plan} (h : c.plan catalog = .ok p) :
    (∃ d next, catalog.add d = .ok next ∧ p = ⟨next, Archive.saveSteps d, false⟩) ∨
    ∃ id d next, catalog.remove id = .ok (d, next) ∧
      p = ⟨next, [.remove (Archive.fileName d.id d.kind)], true⟩ := by
  have hadd : ∀ {d p}, planAdd catalog d = .ok p →
      ∃ d next, catalog.add d = .ok next ∧ p = ⟨next, Archive.saveSteps d, false⟩ := by
    intro d p hp
    obtain ⟨next, hnext, rfl⟩ := map_eq_ok_iff.1 hp
    exact ⟨d, next, hnext, rfl⟩
  cases c with
  | add d => exact Or.inl (hadd h)
  | addCourseFiles id texts =>
    obtain ⟨-, -, h⟩ := bind_eq_ok_iff.1 h
    obtain ⟨records, -, h⟩ := bind_eq_ok_iff.1 h
    exact Or.inl (hadd h)
  | remove id =>
    obtain ⟨⟨d, next⟩, hremoved, rfl⟩ := map_eq_ok_iff.1 h
    exact Or.inr ⟨id, d, next, hremoved, rfl⟩

/-- A plan changes the archive by quiet steps and a last one that is made as a whole or not at
all. -/
theorem Call.plan_steps {c : Call} {catalog : Catalog} {p : Plan} (h : c.plan catalog = .ok p) :
    ∃ steps last, p.steps = steps ++ [last] ∧ (∀ step ∈ steps, step.Quiet) ∧ last.AllOrNothing := by
  rcases Call.plan_cases h with ⟨d, next, -, rfl⟩ | ⟨id, d, next, -, rfl⟩
  · -- the directory and the temporary file come first, and the renaming is what counts
    refine ⟨[_, _], _, rfl, ?_, .rename _ _⟩
    exact List.forall_mem_cons.2 ⟨.makeRoot, List.forall_mem_singleton.2 (.write _ _)⟩
  · exact ⟨[], _, rfl, by simp, .remove _⟩

/-- A plan is made for a sound catalog. -/
theorem Call.plan_sound {c : Call} {catalog : Catalog} {p : Plan} (h : c.plan catalog = .ok p)
    (hsound : catalog.Sound) : p.next.Sound := by
  rcases Call.plan_cases h with ⟨d, next, hnext, rfl⟩ | ⟨id, d, next, hremoved, rfl⟩
  · have hafter := hsound.after (.add d)
    rwa [Catalog.after, hnext] at hafter
  · have hafter := hsound.after (.remove id)
    rwa [Catalog.after, hremoved] at hafter

/-! ### What a call can come to -/

variable {config : Config} {db db' : Database} {disk disk' : Disk} {c : Call}
  {mishaps : List (Option Disk.Mishap)} {outcome : Except StoreError Unit}

/-- The archive fails only for one of the steps. -/
theorem Plan.archive_eq_error {p : Plan} {e : StoreError}
    (h : p.archive mishaps disk = (.error e, disk')) :
    ∃ fault, disk.runStepsUnder mishaps p.steps = (some fault, disk') := by
  rw [Plan.archive] at h
  split at h
  · exact nomatch (Prod.mk.inj h).1
  · next hsteps => exact ⟨_, by rw [hsteps, (Prod.mk.inj h).2]⟩
  · next hsteps => exact ⟨_, by rw [hsteps, (Prod.mk.inj h).2]⟩

/-- A call is refused, or it fails in a step, or it puts the catalog of its plan in place. -/
theorem Call.runUnder_cases (hrun : c.runUnder mishaps db disk = (outcome, db', disk')) :
    (∃ e, outcome = .error e ∧ db' = db ∧ disk' = disk) ∨
    (∃ p fault, c.plan db.catalog = .ok p ∧ (∃ e, outcome = .error e) ∧ db' = db ∧
      disk.runStepsUnder mishaps p.steps = (some fault, disk')) ∨
    ∃ p, c.plan db.catalog = .ok p ∧ outcome = .ok () ∧ db' = { db with catalog := p.next } := by
  rw [Call.runUnder] at hrun
  cases hplan : c.plan db.catalog with
  | error e =>
    rw [hplan] at hrun
    obtain ⟨rfl, hrest⟩ := Prod.mk.inj hrun
    obtain ⟨rfl, rfl⟩ := Prod.mk.inj hrest
    exact Or.inl ⟨e, rfl, rfl, rfl⟩
  | ok p =>
    rw [hplan] at hrun
    simp only [publish] at hrun
    split at hrun
    · obtain ⟨rfl, hrest⟩ := Prod.mk.inj hrun
      exact Or.inr (Or.inr ⟨p, rfl, rfl, (Prod.mk.inj hrest).1.symm⟩)
    · split at hrun
      · obtain ⟨rfl, hrest⟩ := Prod.mk.inj hrun
        exact Or.inr (Or.inr ⟨p, rfl, rfl, (Prod.mk.inj hrest).1.symm⟩)
      · next e after harchive =>
        obtain ⟨rfl, hrest⟩ := Prod.mk.inj hrun
        obtain ⟨rfl, rfl⟩ := Prod.mk.inj hrest
        obtain ⟨fault, hfault⟩ := Plan.archive_eq_error harchive
        exact Or.inr (Or.inl ⟨p, fault, rfl, ⟨e, rfl⟩, rfl, hfault⟩)

/-- **A call that fails changes nothing that can be seen.** Whatever befalls its steps, the database
is the one before, and a load finds what it found before. -/
theorem runUnder_error_unchanged {e : StoreError} (hdisk : disk.Grounded)
    (hrun : c.runUnder mishaps db disk = (.error e, db', disk')) :
    db' = db ∧ Archive.load disk' = Archive.load disk := by
  rcases Call.runUnder_cases hrun with
    ⟨-, -, rfl, rfl⟩ | ⟨p, fault, hplan, -, rfl, hsteps⟩ | ⟨p, -, hok, -⟩
  · exact ⟨rfl, rfl⟩
  · obtain ⟨steps, last, heq, hquiet, hlast⟩ := Call.plan_steps hplan
    rw [heq] at hsteps
    exact ⟨rfl, Disk.load_of_failed hquiet hlast hdisk hsteps⟩
  · exact nomatch hok

/-- A save whose write breaks off leaves its temporary file behind, and no load finds it. -/
theorem runUnder_error_unchanged_sampleDisk :
    sampleDisk.Grounded ∧ ∃ db' disk',
      (Call.add (sampleDataset "e" .rooms)).runUnder [none, some (.breakOff .refused "[")]
        (new sampleConfig) sampleDisk = (.error .inputOutput, db', disk') ∧
      disk'.find? ["e_rooms.json.tmp"] = some (.file "[") ∧
      db' = new sampleConfig ∧ Archive.load disk' = Archive.load sampleDisk := by
  have hdisk : sampleDisk.Grounded := by decide +kernel
  have hadd : Catalog.empty.add (sampleDataset "e" .rooms) =
      .ok (Catalog.empty.insert (sampleDataset "e" .rooms)) :=
    Catalog.add_eq_ok_iff.2 ⟨sound_sampleOf type_sampleValue (by decide) .rooms, rfl, rfl⟩
  have hsteps : sampleDisk.runStepsUnder [none, some (.breakOff .refused "[")]
      (Archive.saveSteps (sampleDataset "e" .rooms)) =
      (some .refused, sampleDisk.put ["e_rooms.json.tmp"] (.file "[")) := by
    decide +kernel
  have hrun : (Call.add (sampleDataset "e" .rooms)).runUnder [none, some (.breakOff .refused "[")]
      (new sampleConfig) sampleDisk =
      (.error .inputOutput, new sampleConfig,
        sampleDisk.put ["e_rooms.json.tmp"] (.file "[")) := by
    simp only [Call.runUnder, Call.plan, planAdd, new, hadd, Except.map, publish, sampleConfig,
      Plan.archive, hsteps]
  refine ⟨hdisk, _, _, hrun, ?_, runUnder_error_unchanged hdisk hrun⟩
  rw [Disk.find?_put, if_pos rfl]

/-! ### Catalogs that are in place -/

/-- The databases that calls lead to, from a new one or from one that has started on any disk,
whatever is on the disk at each call and whatever befalls its steps. -/
inductive Live (config : Config) : Database → Prop where
  /-- A new database. -/
  | new : Live config (.new config)
  /-- A database that has started. -/
  | start {db : Database} {disk : Disk} : Database.start config disk = .ok db → Live config db
  /-- A call, which succeeds or fails. -/
  | call {db db' : Database} {disk disk' : Disk} {outcome : Except StoreError Unit} (c : Call)
      (mishaps : List (Option Disk.Mishap)) : Live config db →
      c.runUnder mishaps db disk = (outcome, db', disk') → Live config db'

/-- A start takes only sound datasets from the disk. -/
theorem sound_of_start (h : Database.start config disk = .ok db) : db.catalog.Sound := by
  rw [Database.start] at h
  split at h
  · obtain rfl := Except.ok.inj h
    exact Catalog.sound_empty
  · obtain ⟨datasets, -, rfl⟩ := map_eq_ok_iff.1 h
    intro id d hd
    obtain ⟨before, after, -, ⟨hsound, -⟩, -⟩ := Archive.find?_catalogOf_iff.1 hd
    exact hsound

theorem Live.sound (h : Live config db) : db.catalog.Sound := by
  induction h with
  | new => exact Catalog.sound_empty
  | start hstart => exact sound_of_start hstart
  | call c mishaps _ hrun ih =>
    rcases Call.runUnder_cases hrun with ⟨-, -, rfl, -⟩ | ⟨-, -, -, -, rfl, -⟩ | ⟨p, hplan, -, rfl⟩
    · exact ih
    · exact ih
    · exact Call.plan_sound hplan ih

/-- **What is in place is fit to be there.** In every database that calls lead to, a dataset is
found under its own id, which is neither empty nor blank and has no underscore; the dataset has a
record, and every record has exactly the fields of the dataset's kind, with values of the fields'
types. -/
theorem live_entry_sound (h : Live config db) {id : String} {d : Dataset}
    (hd : db.catalog.find? id = some d) :
    d.id = id ∧ ValidId id ∧ 0 < d.records.size ∧ ∀ r ∈ d.records, r.Fits d.kind := by
  obtain rfl := Catalog.find?_id hd
  have hsound := h.sound d.id d hd
  refine ⟨rfl, idFault?_eq_none_iff.1 hsound.validId, ?_, hsound.fits⟩
  exact Array.size_pos_iff.2 (by simpa using hsound.nonempty)

/-- A database that has started, and has then refused another dataset of the same id. -/
theorem live_entry_sound_sampleDisk :
    ∃ db db', start sampleConfig sampleDisk = .ok db ∧
      (Call.add (sampleDataset "c" .rooms)).runUnder [] db sampleDisk =
        (.error (.duplicate "c"), db', sampleDisk) ∧
      Live sampleConfig db' ∧ ∃ d, db'.catalog.find? "c" = some d ∧
        d.id = "c" ∧ ValidId "c" ∧ 0 < d.records.size ∧ ∀ r ∈ d.records, r.Fits d.kind := by
  obtain ⟨-, -, db, hdb, hfound, -⟩ := exists_remove_sampleDisk
  have hused : db.catalog.find? "c" ≠ none := by
    rw [hfound]
    exact nofun
  have hadd : db.catalog.add (sampleDataset "c" .rooms) = .error (.duplicate "c") :=
    Catalog.add_eq_error_iff.2 (Or.inr ⟨by decide, Or.inl ⟨hused, rfl⟩⟩)
  have hrun : (Call.add (sampleDataset "c" .rooms)).runUnder [] db sampleDisk =
      (.error (.duplicate "c"), db, sampleDisk) := by
    rw [Call.runUnder, Call.plan, planAdd, hadd]
    rfl
  have hlive : Live sampleConfig db := .call _ _ (.start hdb) hrun
  exact ⟨db, db, hdb, hrun, hlive, _, hfound, live_entry_sound hlive hfound⟩

end Database

end CampusQuery
