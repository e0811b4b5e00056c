import CampusQuery.Proofs.Saving

/-!
# What is kept from one start to the next

A run begins with a start on an empty directory and goes on with calls that add and remove datasets,
refused or not, as long as the directory can be used (`Database.Reached`). After every call the
directory mirrors the catalog: it has one file for each dataset, with the text of that dataset, and
nothing else (`Database.Mirrors`, `Database.kept_of_reached`).

So what the next start finds is each dataset as it comes back from its text
(`Database.start_of_reached`): the store is the same if all values come back equal, which strings,
64-bit integers and numbers given with few digits do (`Value.durable_ofDecimal`), and a dataset with
a value that does not come back at all is lost. The ids that are added have to be free of slashes,
since a slash in an id makes another path of the file's name.
-/

namespace CampusQuery

/-! ### Values that are kept -/

/-- A value comes back from its text as an equal value. -/
def Value.Durable (v : Value) : Prop :=
  ∃ w, v.reread? = some w ∧ (w == v) = true

theorem Value.durable_text (s : String) : (Value.text s).Durable :=
  ⟨.text s, rfl, by simp [BEq.beq, Value.compare]⟩

theorem Value.durable_number {x : Binary64}
    (h : ∃ y, x.reread? = some y ∧ Binary64.eq y x = true) : (Value.number x).Durable := by
  obtain ⟨y, hy, heq⟩ := h
  refine ⟨.number y, by rw [reread?, hy, Option.map_some], ?_⟩
  rw [Binary64.eq, Bool.and_eq_true] at heq
  exact heq.2

theorem Value.durable_of_toExactInt? {x : Binary64} {i : Int} (h : x.toExactInt? = some i) :
    (Value.number x).Durable :=
  durable_number (Binary64.reread?_of_toExactInt? h)

/-- A number given with at most fifteen digits and twenty-two decimal places is kept. -/
theorem Value.durable_ofDecimal {c k : Nat} (hc : c ≤ 10 ^ (15 : Nat)) (hk : k ≤ 22)
    (negative : Bool) : (Value.number (.ofDecimal negative c (-k))).Durable :=
  durable_number (Binary64.reread?_ofDecimal hc hk negative)

theorem Value.type_of_reread? {v w : Value} (h : v.reread? = some w) : w.type = v.type := by
  cases v with
  | text s =>
    obtain rfl := Option.some.inj h
    rfl
  | number x =>
    obtain ⟨y, -, rfl⟩ := Option.map_eq_some_iff.1 h
    rfl

namespace Record

/-- All values of a record come back as equal values. -/
def Durable (r : Record) : Prop :=
  ∀ f v, r.get? f = some v → v.Durable

theorem Durable.exists_rereads {r : Record} (h : r.Durable) : ∃ r', r.Rereads r' := by
  have hentries : ∀ e ∈ r.entries, ∃ e' : Field × Value, e.1 = e'.1 ∧ e.2.reread? = some e'.2 := by
    rintro ⟨f, v⟩ hmem
    obtain ⟨w, hw, -⟩ := h f v (mem_entries_iff.1 hmem)
    exact ⟨(f, w), rfl, hw⟩
  obtain ⟨entries', hentries'⟩ := exists_forall₂ hentries
  exact ⟨ofEntries entries', rereads_ofEntries hentries'⟩

/-- What such a record comes back as is equal to it. -/
theorem Durable.beq {r r' : Record} (h : r.Durable) (hr : r.Rereads r') : (r' == r) = true := by
  have hall : ∀ f, (r'.get? f == r.get? f) = true := by
    intro f
    have hf := hr f
    cases hv : r.get? f with
    | none =>
      rw [hv, optionRel_none_left_iff] at hf
      rw [hf]
      rfl
    | some v =>
      rw [hv, optionRel_some_left_iff] at hf
      obtain ⟨w, hw, hreread⟩ := hf
      obtain ⟨w', hreread', heq⟩ := h f v hv
      obtain rfl : w' = w := Option.some.inj (hreread'.symm.trans hreread)
      rw [hw]
      exact heq
  exact List.all_eq_true.2 fun f _ => hall f

/-- What a record comes back as fits the kinds that the record fits. -/
theorem Rereads.fits {kind : Kind} {r r' : Record} (h : r.Rereads r') (hr : r.Fits kind) :
    r'.Fits kind := by
  constructor
  · intro f hf
    obtain ⟨v, hv, htype⟩ := hr.present f hf
    have hrel := h f
    rw [hv, optionRel_some_left_iff] at hrel
    obtain ⟨w, hw, hreread⟩ := hrel
    exact ⟨w, hw, (Value.type_of_reread? hreread).trans htype⟩
  · intro f hf
    have hrel := h f
    rwa [hr.absent f hf, optionRel_none_left_iff] at hrel

end Record

namespace Dataset

/-- What a sound dataset comes back as is sound. -/
theorem Rereads.sound {d e : Dataset} (h : d.Rereads e) (hd : d.Sound) : e.Sound := by
  have hlength := h.records.length_eq
  refine ⟨by rw [h.id]; exact hd.validId, ?_, fun r' hr' => ?_⟩
  · have hne := hd.nonempty
    simp only [Array.isEmpty_eq_false_iff, ne_eq, ← Array.size_eq_zero_iff,
      ← Array.length_toList] at hne ⊢
    rwa [← hlength]
  · obtain ⟨r, hr, hreread⟩ := exists_of_mem_right h.records (Array.mem_toList_iff.2 hr')
    rw [h.kind]
    exact hreread.fits (hd.fits r (Array.mem_toList_iff.1 hr))

/-- All values of a dataset come back as equal values. -/
def Durable (d : Dataset) : Prop :=
  ∀ r ∈ d.records, r.Durable

/-- Such a dataset comes back, and all that it comes back as is equal to it. -/
theorem Durable.exists_rereads {d : Dataset} (h : d.Durable) :
    ∃ e, d.Rereads e ∧ (e.records == d.records) = true := by
  have hrecords : ∀ r ∈ d.records.toList, ∃ r', r.Rereads r' ∧ (r' == r) = true := by
    intro r hr
    have hr := h r (Array.mem_toList_iff.1 hr)
    obtain ⟨r', hreread⟩ := hr.exists_rereads
    exact ⟨r', hreread, hr.beq hreread⟩
  obtain ⟨rs, hrs⟩ := exists_forall₂ hrecords
  have hbeq : ∀ {xs ys : List Record},
      List.Forall₂ (fun x y => x.Rereads y ∧ (y == x) = true) xs ys → (ys == xs) = true := by
    intro xs ys hxy
    induction hxy with
    | nil => rfl
    | cons hhead _ ih => simp [hhead.2, ih]
  refine ⟨⟨d.id, d.kind, rs.toArray⟩, ⟨rfl, rfl, hrs.imp fun _ _ h => h.1⟩, ?_⟩
  rw [← Array.beq_toList]
  exact hbeq hrs

end Dataset

namespace Database

/-! ### Runs -/

/-- A call to a database that may change it. -/
inductive Call where
  /-- Asks to store a dataset. -/
  | add (d : Dataset)
  /-- Asks to store the dataset of the sections in course files. -/
  | addCourseFiles (id : String) (texts : List String)
  /-- Asks to take out the dataset of an id. -/
  | remove (id : String)

/-- What a call yields, without the value that it returns. -/
def Call.run (db : Database) (disk : Disk) : Call → Change Unit
  | add d => ((db.add disk d).1.map fun _ => (), (db.add disk d).2)
  | addCourseFiles id texts =>
    ((db.addCourseFiles disk id texts).1.map fun _ => (), (db.addCourseFiles disk id texts).2)
  | remove id => ((db.remove disk id).1.map fun _ => (), (db.remove disk id).2)

/-- The id under which a call asks to store something has no slash. -/
def Call.Plain : Call → Prop
  | add d => '/' ∉ d.id.toList
  | addCourseFiles id _ => '/' ∉ id.toList
  | remove _ => True

/-- The databases and disks of a run that begins with a start on an empty directory, in which the
directory can be used at every call. -/
inductive Reached (config : Config) : Database → Disk → Prop where
  /-- The start. -/
  | start {db : Database} : Database.start config .emptyDirectory = .ok db →
      Reached config db .emptyDirectory
  /-- A call, refused or not. -/
  | call {db db' : Database} {disk disk' : Disk} {outcome : Except StoreError Unit} (c : Call) :
      Reached config db disk → c.Plain → c.run db disk = (outcome, db', disk') →
      outcome ≠ .error .inputOutput → Reached config db' disk'

/-- The directory has the files of the datasets of a catalog, and nothing else. -/
structure Mirrors (disk : Disk) (c : Catalog) : Prop where
  /-- It is a directory like any other. -/
  proper : disk.Proper
  /-- It exists. -/
  root : disk.find? [] = some .directory
  /-- The datasets are fit to be stored. -/
  sound : c.Sound
  /-- Their ids have no slashes. -/
  plain : ∀ id d, c.find? id = some d → '/' ∉ id.toList
  /-- Each of them has its file, and every file is that of one of them. -/
  files : ∀ name content, disk.find? [name] = some content ↔
    ∃ d, c.find? d.id = some d ∧ name = Archive.fileName d.id d.kind ∧
      content = .file (Archive.fileText d)

theorem Mirrors.empty : Mirrors .emptyDirectory .empty where
  proper := by decide
  root := rfl
  sound := Catalog.sound_empty
  plain := fun _ _ h => nomatch h
  files := by
    intro name content
    refine iff_of_false (fun h => ?_) fun ⟨_, h, _⟩ => nomatch h
    simp [Disk.find?, Disk.emptyDirectory] at h

/-- A save keeps the directory in step with the catalog. -/
theorem Mirrors.save {disk disk' : Disk} {c : Catalog} {d : Dataset} (h : Mirrors disk c)
    (hd : d.Sound) (hplain : '/' ∉ d.id.toList) (hfree : c.find? d.id = none)
    (hsave : Archive.save disk d = (.ok (), disk')) : Mirrors disk' (c.insert d) := by
  have hname := Archive.isPlain_fileName hplain d.kind
  have hfind := Archive.find?_save hname h.root hsave
  refine ⟨Archive.proper_save h.proper hname h.root hsave, ?_, ?_, ?_, ?_⟩
  · rw [hfind, if_neg (List.cons_ne_nil _ _), if_neg (List.cons_ne_nil _ _), h.root]
  · intro id e he
    rw [Catalog.find?_insert] at he
    split at he
    · obtain rfl := Option.some.inj he
      exact hd
    · exact h.sound id e he
  · intro id e he
    rw [Catalog.find?_insert] at he
    split at he
    · next hid => exact hid ▸ hplain
    · exact h.plain id e he
  · intro name content
    rw [hfind]
    simp only [List.singleton_inj]
    constructor
    · intro hcontent
      split at hcontent
      · next heq => exact ⟨d, by rw [Catalog.find?_insert, if_pos rfl], heq.symm,
          (Option.some.inj hcontent).symm⟩
      · split at hcontent
        · exact nomatch hcontent
        · -- the file was there before, and its dataset has another id
          obtain ⟨e, he, rfl, rfl⟩ := (h.files name content).1 hcontent
          have hne : d.id ≠ e.id := by
            intro heq
            rw [heq, he] at hfree
            exact nomatch hfree
          exact ⟨e, by rw [Catalog.find?_insert, if_neg hne, he], rfl, rfl⟩
    · rintro ⟨e, he, rfl, rfl⟩
      rw [Catalog.find?_insert] at he
      split at he
      · obtain rfl := Option.some.inj he
        rw [if_pos rfl]
      · next hne =>
        have hother : Archive.fileName d.id d.kind ≠ Archive.fileName e.id e.kind := fun heq =>
          hne (Archive.fileName_injective hd.validId (h.sound _ _ he).validId heq).1
        rw [if_neg hother, if_neg (Archive.fileName_ne_temporaryName _ _ _).symm]
        exact (h.files _ _).2 ⟨e, he, rfl, rfl⟩

/-- A removal keeps the directory in step with the catalog. -/
theorem Mirrors.remove {disk disk' : Disk} {c : Catalog} {d : Dataset} (h : Mirrors disk c)
    (hd : c.find? d.id = some d) (hremove : Archive.remove disk d.id d.kind = (.ok (), disk')) :
    Mirrors disk' (c.erase d.id) := by
  have hname := Archive.isPlain_fileName (h.plain _ _ hd) d.kind
  obtain rfl := Archive.remove_eq_ok hname h.root hremove
  refine ⟨h.proper.delete _, (Disk.find?_delete_root _).trans h.root, ?_, ?_, ?_⟩
  · intro id e he
    rw [Catalog.find?_erase] at he
    split at he
    · exact nomatch he
    · exact h.sound id e he
  · intro id e he
    rw [Catalog.find?_erase] at he
    split at he
    · exact nomatch he
    · exact h.plain id e he
  · intro name content
    rw [Disk.find?_delete]
    simp only [List.singleton_inj]
    constructor
    · intro hcontent
      split at hcontent
      · exact nomatch hcontent
      · next hne =>
        obtain ⟨e, he, rfl, rfl⟩ := (h.files name content).1 hcontent
        -- only one dataset has the id
        have hid : d.id ≠ e.id := by
          intro heq
          rw [← heq, hd] at he
          obtain rfl := Option.some.inj he
          exact hne rfl
        exact ⟨e, by rw [Catalog.find?_erase, if_neg hid, he], rfl, rfl⟩
    · rintro ⟨e, he, rfl, rfl⟩
      rw [Catalog.find?_erase] at he
      split at he
      · exact nomatch he
      · next hne =>
        have hother : Archive.fileName d.id d.kind ≠ Archive.fileName e.id e.kind := fun heq =>
          hne (Archive.fileName_injective (h.sound _ _ hd).validId (h.sound _ _ he).validId heq).1
        rw [if_neg hother]
        exact (h.files _ _).2 ⟨e, he, rfl, rfl⟩

/-! ### Calls -/

/-- The directory of a database mirrors its catalog. -/
structure Kept (config : Config) (db : Database) (disk : Disk) : Prop where
  /-- The database has the configuration. -/
  config : db.config = config
  /-- The directory has its datasets. -/
  mirrors : Mirrors disk db.catalog

variable {config : Config} {dir : String} {db db' : Database} {disk disk' : Disk}

/-- A refused call leaves everything as it is. -/
theorem Kept.refuse (h : Kept config db disk) {α : Type} {e : StoreError}
    {outcome : Except StoreError α} (hrun : db.refuse disk e = (outcome, db', disk')) :
    Kept config db' disk' := by
  obtain ⟨-, hrest⟩ := Prod.mk.inj hrun
  obtain ⟨rfl, rfl⟩ := Prod.mk.inj hrest
  exact h

theorem Kept.add (hdir : config.dataDir = some dir) (h : Kept config db disk) {d : Dataset}
    (hplain : '/' ∉ d.id.toList) {outcome : Except StoreError (List String)}
    (hrun : db.add disk d = (outcome, db', disk')) (houtcome : outcome ≠ .error .inputOutput) :
    Kept config db' disk' := by
  rw [Database.add] at hrun
  cases hadd : db.catalog.add d with
  | error e =>
    rw [hadd] at hrun
    exact h.refuse hrun
  | ok next =>
    rw [hadd] at hrun
    obtain ⟨hd, hfree, rfl⟩ := Catalog.add_eq_ok_iff.1 hadd
    obtain ⟨hsave, hconfig, hcatalog⟩ :=
      publish_eq (h.config ▸ hdir) (fun _ => Archive.save_error) hrun houtcome
    refine ⟨hconfig.trans h.config, ?_⟩
    rw [hcatalog]
    exact h.mirrors.save hd hplain hfree hsave

theorem Kept.remove (hdir : config.dataDir = some dir) (h : Kept config db disk) {id : String}
    {outcome : Except StoreError String} (hrun : db.remove disk id = (outcome, db', disk'))
    (houtcome : outcome ≠ .error .inputOutput) : Kept config db' disk' := by
  rw [Database.remove] at hrun
  cases hremove : db.catalog.remove id with
  | error e =>
    rw [hremove] at hrun
    exact h.refuse hrun
  | ok found =>
    obtain ⟨d, next⟩ := found
    rw [hremove] at hrun
    obtain ⟨-, hfound, rfl⟩ := Catalog.remove_eq_ok_iff.1 hremove
    obtain rfl := Catalog.find?_id hfound
    obtain ⟨harchive, hconfig, hcatalog⟩ :=
      publish_eq (h.config ▸ hdir) (fun _ => Archive.remove_error) hrun houtcome
    refine ⟨hconfig.trans h.config, ?_⟩
    rw [hcatalog]
    exact h.mirrors.remove hfound harchive

theorem Kept.addCourseFiles (hdir : config.dataDir = some dir) (h : Kept config db disk)
    {id : String} (hplain : '/' ∉ id.toList) {texts : List String}
    {outcome : Except StoreError (List String)}
    (hrun : db.addCourseFiles disk id texts = (outcome, db', disk'))
    (houtcome : outcome ≠ .error .inputOutput) : Kept config db' disk' := by
  rw [Database.addCourseFiles] at hrun
  -- it is refused for its id or its texts, or it is an addition
  split at hrun
  · exact h.refuse hrun
  · split at hrun
    · exact h.refuse hrun
    · next records _ =>
      exact h.add hdir (d := ⟨id, .courses, records.toArray⟩) hplain hrun houtcome

/-- The value that a call returns is of no account. -/
theorem exists_change_eq {α : Type} {x : Change α} {outcome : Except StoreError Unit}
    {e : StoreError} (h : (x.1.map fun _ => (), x.2) = (outcome, db', disk'))
    (houtcome : outcome ≠ .error e) :
    ∃ result, x = (result, db', disk') ∧ result ≠ .error e := by
  obtain ⟨result, rest⟩ := x
  obtain ⟨rfl, rfl⟩ := Prod.mk.inj h
  refine ⟨result, rfl, ?_⟩
  rintro rfl
  exact houtcome rfl

/-- A call that does not fail for the directory keeps it in step. -/
theorem Kept.call (hdir : config.dataDir = some dir) (h : Kept config db disk) {c : Call}
    (hplain : c.Plain) {outcome : Except StoreError Unit}
    (hrun : c.run db disk = (outcome, db', disk')) (houtcome : outcome ≠ .error .inputOutput) :
    Kept config db' disk' := by
  cases c with
  | add d =>
    obtain ⟨result, hresult, hne⟩ := exists_change_eq hrun houtcome
    exact h.add hdir hplain hresult hne
  | addCourseFiles id texts =>
    obtain ⟨result, hresult, hne⟩ := exists_change_eq hrun houtcome
    exact h.addCourseFiles hdir hplain hresult hne
  | remove id =>
    obtain ⟨result, hresult, hne⟩ := exists_change_eq hrun houtcome
    exact h.remove hdir hresult hne

theorem start_emptyDirectory (hdir : config.dataDir = some dir) :
    start config .emptyDirectory = .ok (new config) := by
  have hload : Archive.load .emptyDirectory = .ok [] := by
    simp [Archive.load, Disk.list, Disk.find?, Disk.emptyDirectory]
  simp only [start, hdir, hload]
  rfl

/-- **Along a run the directory mirrors the catalog.** -/
theorem kept_of_reached (hdir : config.dataDir = some dir) (h : Reached config db disk) :
    Kept config db disk := by
  induction h with
  | start hstart =>
    obtain rfl := Except.ok.inj ((start_emptyDirectory hdir).symm.trans hstart)
    exact ⟨rfl, Mirrors.empty⟩
  | call c _ hplain hrun houtcome ih => exact ih.call hdir hplain hrun houtcome

/-! ### The next start -/

/-- Usable in such a directory is what the datasets come back as. -/
theorem Mirrors.usable_iff {c : Catalog} (h : Mirrors disk c) {e : Dataset} :
    Archive.Usable disk e ↔ ∃ d, c.find? d.id = some d ∧ d.Rereads e := by
  constructor
  · rintro ⟨hsound, text, hfile, hread⟩
    obtain ⟨d, hd, hname, htext⟩ := (h.files _ _).1 hfile
    obtain ⟨hid, hkind⟩ := Archive.fileName_injective hsound.validId (h.sound _ _ hd).validId hname
    obtain rfl := Content.file.inj htext
    exact ⟨d, hd, hid, hkind, Record.parseList_listText_eq_ok_iff.1 hread⟩
  · rintro ⟨d, hd, hreread⟩
    refine ⟨hreread.sound (h.sound _ _ hd), Archive.fileText d, ?_,
      Record.parseList_listText_eq_ok_iff.2 hreread.records⟩
    rw [hreread.id, hreread.kind]
    exact (h.files _ _).2 ⟨d, hd, rfl, rfl⟩

/-- A start on such a directory finds the datasets as they come back, and nothing else. -/
theorem Mirrors.start {c : Catalog} (hdir : config.dataDir = some dir) (h : Mirrors disk c) :
    ∃ reopened, start config disk = .ok reopened ∧
      ∀ id e, reopened.catalog.find? id = some e ↔ ∃ d, c.find? id = some d ∧ d.Rereads e := by
  obtain ⟨reopened, hreopened, -, hfind⟩ := start_eq_ok hdir h.proper h.root
  refine ⟨reopened, hreopened, fun id e => ?_⟩
  rw [hfind]
  constructor
  · rintro ⟨rfl, husable, -⟩
    obtain ⟨d, hd, hreread⟩ := h.usable_iff.1 husable
    rw [hreread.id]
    exact ⟨d, hd, hreread⟩
  · rintro ⟨d, hd, hreread⟩
    obtain rfl := Catalog.find?_id hd
    refine ⟨hreread.id, h.usable_iff.2 ⟨d, hd, hreread⟩, fun x hx hxid => ?_⟩
    -- the directory has no second file for the id
    obtain ⟨d', hd', hreread'⟩ := h.usable_iff.1 hx
    rw [← hreread'.id, hxid, hd] at hd'
    obtain rfl := Option.some.inj hd'
    rw [hreread.kind, hreread'.kind]

/-- **What a start finds after a run.** Each dataset is found as it comes back from its text, and
nothing else. If all values of the datasets are kept, the ids, the kinds and the records are those
of the database at the end of the run. -/
theorem start_of_reached (hdir : config.dataDir = some dir) (h : Reached config db disk) :
    ∃ reopened, start config disk = .ok reopened ∧
      (∀ id e, reopened.catalog.find? id = some e ↔
        ∃ d, db.catalog.find? id = some d ∧ d.Rereads e) ∧
      ((∀ id d, db.catalog.find? id = some d → d.Durable) →
        reopened.catalog.ids = db.catalog.ids ∧
        ∀ id d, db.catalog.find? id = some d → ∃ e, reopened.catalog.find? id = some e ∧
          e.kind = d.kind ∧ (e.records == d.records) = true) := by
  obtain ⟨reopened, hreopened, hfind⟩ := (kept_of_reached hdir h).mirrors.start hdir
  refine ⟨reopened, hreopened, hfind, fun hdurable => ⟨?_, fun id d hd => ?_⟩⟩
  · refine Catalog.ids_eq_of_find? fun id => ?_
    constructor
    · rintro ⟨e, he⟩
      obtain ⟨d, hd, -⟩ := (hfind id e).1 he
      exact ⟨d, hd⟩
    · rintro ⟨d, hd⟩
      obtain ⟨e, hreread, -⟩ := (hdurable id d hd).exists_rereads
      exact ⟨e, (hfind id e).2 ⟨d, hd, hreread⟩⟩
  · obtain ⟨e, hreread, heq⟩ := (hdurable id d hd).exists_rereads
    exact ⟨e, (hfind id e).2 ⟨d, hd, hreread⟩, hreread.kind, heq⟩

/-! ### Runs of one call -/

theorem exists_reached_add {d : Dataset} (hd : d.Sound) (hplain : '/' ∉ d.id.toList)
    (hsave : (Archive.save .emptyDirectory d).1 = .ok ()) :
    ∃ db disk, Reached sampleConfig db disk ∧ db.catalog = Catalog.empty.insert d := by
  have hdir : sampleConfig.dataDir = some "data" := rfl
  have hadd : Catalog.empty.add d = .ok (Catalog.empty.insert d) :=
    Catalog.add_eq_ok_iff.2 ⟨hd, rfl, rfl⟩
  have hrun : (Call.add d).run (new sampleConfig) .emptyDirectory =
      (.ok (), ⟨sampleConfig, Catalog.empty.insert d⟩, (Archive.save .emptyDirectory d).2) := by
    have hpair : Archive.save .emptyDirectory d =
        (.ok (), (Archive.save .emptyDirectory d).2) := Prod.ext hsave rfl
    simp only [Call.run, Database.add, new, hadd, publish, hdir]
    rw [hpair]
    rfl
  exact ⟨_, _, .call (.add d) (.start (start_emptyDirectory hdir)) hplain hrun (by rintro ⟨⟩), rfl⟩

theorem durable_sampleValue (f : Field) : (sampleValue f).Durable := by
  have hone : (Binary64.ofInt 1).toExactInt? = some 1 := by decide +kernel
  rw [sampleValue]
  split
  · exact Value.durable_of_toExactInt? hone
  · exact Value.durable_text ""

/-- A dataset of strings and integers is there again. -/
theorem start_of_reached_sampleDataset :
    ∃ db disk, Reached sampleConfig db disk ∧ ∃ reopened, start sampleConfig disk = .ok reopened ∧
      ∃ e, reopened.catalog.find? "c" = some e ∧ e.kind = .courses ∧
        (e.records == (sampleDataset "c" .courses).records) = true := by
  have hdir : sampleConfig.dataDir = some "data" := rfl
  have hsound : (sampleDataset "c" .courses).Sound :=
    sound_sampleOf type_sampleValue (by decide) .courses
  obtain ⟨db, disk, hreached, hcatalog⟩ := exists_reached_add hsound (by decide) (by decide +kernel)
  obtain ⟨reopened, hreopened, -, hdurable⟩ := start_of_reached hdir hreached
  have hvalues : (sampleDataset "c" .courses).Durable := by
    intro r hr f v hv
    obtain rfl := Array.mem_singleton.1 hr
    obtain ⟨-, rfl⟩ := (get?_sampleOf sampleValue .courses f v).1 hv
    exact durable_sampleValue f
  have honly : ∀ id d, db.catalog.find? id = some d → d.Durable := by
    intro id d hd
    rw [hcatalog, Catalog.find?_insert] at hd
    split at hd
    · obtain rfl := Option.some.inj hd
      exact hvalues
    · exact nomatch hd
  have hfound : db.catalog.find? "c" = some (sampleDataset "c" .courses) := by
    rw [hcatalog, Catalog.find?_insert]
    exact if_pos rfl
  exact ⟨db, disk, hreached, reopened, hreopened,
    (hdurable honly).2 "c" (sampleDataset "c" .courses) hfound⟩

/-- The value of a field in a dataset that can not be read back. -/
def lostValue (f : Field) : Value :=
  if f.isNumeric then .number .nan else .text ""

/-- So a dataset that has been stored is not always there at the next start. -/
theorem not_forall_start_keeps :
    ¬∀ (config : Config) (dir : String) (db reopened : Database) (disk : Disk) (id : String),
      config.dataDir = some dir → Reached config db disk → start config disk = .ok reopened →
      reopened.catalog.contains id = db.catalog.contains id := by
  intro h
  have hdir : sampleConfig.dataDir = some "data" := rfl
  have htype : ∀ f, (lostValue f).type = f.valueType := by
    intro f
    cases f <;> rfl
  have hsound : (sampleOf lostValue "c" .courses).Sound :=
    sound_sampleOf htype (by decide) .courses
  obtain ⟨db, disk, hreached, hcatalog⟩ := exists_reached_add hsound (by decide) (by decide +kernel)
  obtain ⟨reopened, hreopened, hfind⟩ := (kept_of_reached hdir hreached).mirrors.start hdir
  have hfound : db.catalog.find? "c" = some (sampleOf lostValue "c" .courses) := by
    rw [hcatalog, Catalog.find?_insert]
    exact if_pos rfl
  have hsame := h _ _ _ _ _ "c" hdir hreached hreopened
  rw [Catalog.contains, Catalog.contains, hfound, Option.isSome_some, Option.isSome_iff_exists]
    at hsame
  obtain ⟨e, he⟩ := hsame
  obtain ⟨d, hd, hreread⟩ := (hfind "c" e).1 he
  obtain rfl : sampleOf lostValue "c" .courses = d := Option.some.inj (hfound.symm.trans hd)
  -- the average of the record is a value without a numeral
  obtain ⟨r', -, hr⟩ := exists_of_mem_left hreread.records (List.mem_singleton.2 rfl)
  have havg := hr .avg
  rw [(get?_sampleOf lostValue .courses .avg (.number .nan)).2 ⟨rfl, rfl⟩,
    optionRel_some_left_iff] at havg
  obtain ⟨w, -, hw⟩ := havg
  cases hw

end Database

end CampusQuery
