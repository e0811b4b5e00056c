import CampusQuery.Proofs.Loading

/-!
# What saving and removing do to the directory

Under an id without slashes the names of a dataset's file and of its temporary file are plain, and
they are different from each other and from those of all other datasets. So a save that succeeds
puts the file of the dataset in place and touches no other (`Archive.find?_save`), and a removal
that succeeds takes away that file only (`Archive.remove_eq_ok`).

From this follows what a removed dataset leaves behind (`Database.start_after_remove`): a directory
can hold usable datasets of several kinds under one id, of which only one is removed, so that the
next start finds another one.
-/

namespace CampusQuery

/-- There is only one kind besides any kind. -/
theorem Kind.eq_of_ne_of_ne {a b c : Kind} (ha : a ≠ c) (hb : b ≠ c) : a = b := by
  cases a <;> cases b <;> cases c <;> simp_all

namespace Archive

/-! ### Names -/

theorem isPlain_fileName {id : String} (hid : '/' ∉ id.toList) (kind : Kind) :
    Disk.IsPlain (fileName id kind) := by
  have hkind : '/' ∉ kind.name.toList := by
    cases kind <;> decide
  have hjson : ".json".toList = ['.', 'j', 's', 'o', 'n'] := by decide
  refine Disk.isPlain_of_length ?_ ?_
  · simp [fileName, hjson]
    omega
  · simp [fileName, hjson, hid, hkind]

theorem isPlain_temporaryName {name : String} (hname : Disk.IsPlain name) :
    Disk.IsPlain (temporaryName name) := by
  have htmp : ".tmp".toList = ['.', 't', 'm', 'p'] := by decide
  refine Disk.isPlain_of_length ?_ ?_
  · simp [temporaryName, htmp]
  · simp [temporaryName, htmp, hname.noSlash]

/-- No dataset's file has the name of a temporary one. -/
theorem fileName_ne_temporaryName (id name : String) (kind : Kind) :
    fileName id kind ≠ temporaryName name := by
  have hjson : (fileName id kind).toList.getLast? = some 'n' := by
    rw [fileName, String.toList_append, List.getLast?_append]
    rfl
  have htmp : (temporaryName name).toList.getLast? = some 'p' := by
    rw [temporaryName, String.toList_append, List.getLast?_append]
    rfl
  intro h
  rw [h, htmp] at hjson
  exact absurd hjson (by decide)

/-! ### The directory afterwards -/

variable {disk next : Disk}

/-- A removal that succeeds takes away the file of the dataset. -/
theorem remove_eq_ok {id : String} {kind : Kind} (hname : Disk.IsPlain (fileName id kind))
    (hroot : disk.find? [] = some .directory) (h : remove disk id kind = (.ok (), next)) :
    next = disk.delete [fileName id kind] := by
  obtain ⟨hok, hmissing⟩ := Disk.remove_plain_eq hname hroot
  rw [remove, Disk.runSteps, Disk.Step.run] at h
  cases hstep : disk.remove (fileName id kind) with
  | ok after =>
    rw [hstep] at h
    obtain rfl : after = next := (Prod.mk.inj h).2
    exact hok after hstep
  | error fault =>
    rw [hstep] at h
    cases fault with
    | notFound =>
      obtain rfl : disk = next := (Prod.mk.inj h).2
      exact (hmissing hstep).symm
    | refused => cases (Prod.mk.inj h).1

theorem remove_error {id : String} {kind : Kind} {e : StoreError}
    (h : (remove disk id kind).1 = .error e) : e = .inputOutput := by
  rw [remove] at h
  split at h
  · exact nomatch h
  · exact nomatch h
  · exact (Except.error.inj h).symm

theorem save_error {d : Dataset} {e : StoreError} (h : (save disk d).1 = .error e) :
    e = .inputOutput := by
  rw [save] at h
  split at h
  · exact nomatch h
  · exact (Except.error.inj h).symm

/-- A save that succeeds puts the file of the dataset in place, by way of the temporary file. -/
theorem save_eq_ok {d : Dataset} (hname : Disk.IsPlain (fileName d.id d.kind))
    (hroot : disk.find? [] = some .directory) (h : save disk d = (.ok (), next)) :
    next = (((disk.put [temporaryName (fileName d.id d.kind)] (.file (fileText d))).delete
      [temporaryName (fileName d.id d.kind)]).put [fileName d.id d.kind] (.file (fileText d))) := by
  have hsteps : disk.runSteps (saveSteps d) = (none, next) := by
    rw [save] at h
    split at h
    · next hsteps => rw [hsteps, (Prod.mk.inj h).2]
    · exact nomatch (Prod.mk.inj h).1
  have htmp := isPlain_temporaryName hname
  rw [saveSteps, Disk.runSteps_cons_eq_none_iff] at hsteps
  obtain ⟨made, hmade, hsteps⟩ := hsteps
  -- the directory is there already
  obtain rfl : disk = made := by
    rw [Disk.Step.run, Disk.makeRoot, hroot] at hmade
    exact Except.ok.inj hmade
  rw [Disk.runSteps_cons_eq_none_iff] at hsteps
  obtain ⟨written, hwritten, hsteps⟩ := hsteps
  obtain rfl := Disk.write_plain_eq htmp hroot hwritten
  rw [Disk.runSteps_cons_eq_none_iff] at hsteps
  obtain ⟨renamed, hrenamed, hsteps⟩ := hsteps
  obtain ⟨text, hfind, rfl⟩ := Disk.rename_plain_eq htmp hname
    ((Disk.find?_put_root _ _).trans hroot) hrenamed
  -- what is renamed is what has been written
  rw [Disk.find?_put, if_pos rfl] at hfind
  obtain rfl : fileText d = text := Content.file.inj (Option.some.inj hfind)
  exact (Prod.mk.inj hsteps).2.symm

theorem find?_save {d : Dataset} (hname : Disk.IsPlain (fileName d.id d.kind))
    (hroot : disk.find? [] = some .directory) (h : save disk d = (.ok (), next))
    (path : List String) :
    next.find? path =
      if [fileName d.id d.kind] = path then some (.file (fileText d))
      else if [temporaryName (fileName d.id d.kind)] = path then none
      else disk.find? path := by
  rw [save_eq_ok hname hroot h, Disk.find?_put, Disk.find?_delete, Disk.find?_put]
  split
  · rfl
  · split <;> rfl

theorem proper_save {d : Dataset} (hdisk : disk.Proper)
    (hname : Disk.IsPlain (fileName d.id d.kind)) (hroot : disk.find? [] = some .directory)
    (h : save disk d = (.ok (), next)) : next.Proper := by
  have hsingle : ∀ {name : String}, Disk.IsPlain name → ∀ part ∈ [name], Disk.IsPlain part := by
    intro name hplain part hpart
    rwa [List.mem_singleton.1 hpart]
  rw [save_eq_ok hname hroot h]
  exact ((hdisk.put (hsingle (isPlain_temporaryName hname)) _).delete _).put (hsingle hname) _

/-! ### Usable datasets afterwards -/

/-- What is usable after the file of a dataset is gone. -/
theorem usable_delete_fileName_iff {id : String} {kind : Kind} (hid : idFault? id = none)
    {e : Dataset} :
    Usable (disk.delete [fileName id kind]) e ↔ Usable disk e ∧ ¬(e.id = id ∧ e.kind = kind) := by
  constructor
  · rintro ⟨hsound, text, hfile, hread⟩
    rw [Disk.find?_delete] at hfile
    split at hfile
    · exact nomatch hfile
    · next hne =>
      refine ⟨⟨hsound, text, hfile, hread⟩, ?_⟩
      rintro ⟨rfl, rfl⟩
      exact hne rfl
  · rintro ⟨⟨hsound, text, hfile, hread⟩, hother⟩
    refine ⟨hsound, text, ?_, hread⟩
    rw [Disk.find?_delete, if_neg, hfile]
    intro heq
    obtain ⟨rfl, rfl⟩ := fileName_injective hid hsound.validId (List.singleton_inj.1 heq)
    exact hother ⟨rfl, rfl⟩

end Archive

/-! ### What a removal leaves behind -/

namespace Database

/-- A change of the archive that does not fail for the directory is made, and the catalog with
it. -/
theorem publish_eq {α : Type} {db db' : Database} {disk disk' : Disk} {next : Catalog} {value : α}
    {archive : Disk → Except StoreError Unit × Disk} {outcome : Except StoreError α} {dir : String}
    (hdir : db.config.dataDir = some dir)
    (harchive : ∀ e, (archive disk).1 = .error e → e = .inputOutput)
    (hrun : db.publish disk next value archive = (outcome, db', disk'))
    (houtcome : outcome ≠ .error .inputOutput) :
    archive disk = (.ok (), disk') ∧ db'.config = db.config ∧ db'.catalog = next := by
  simp only [publish, hdir] at hrun
  split at hrun
  · next harch =>
    obtain ⟨-, hrest⟩ := Prod.mk.inj hrun
    obtain ⟨rfl, rfl⟩ := Prod.mk.inj hrest
    exact ⟨harch, rfl, rfl⟩
  · next e _ harch =>
    obtain ⟨rfl, -⟩ := Prod.mk.inj hrun
    exact absurd (congrArg Except.error (harchive e (by rw [harch]))) houtcome

/-- A removal that succeeds has deleted the file in which the start had found the dataset. -/
theorem disk_after_remove {config : Config} {dir : String} {disk disk' : Disk}
    {db db' : Database} {id removed : String} (hdir : config.dataDir = some dir)
    (hdisk : disk.Proper) (hroot : disk.find? [] = some .directory)
    (hstart : start config disk = .ok db)
    (hremove : db.remove disk id = (.ok removed, db', disk')) :
    idFault? id = none ∧
      ∃ d, db.catalog.find? id = some d ∧ disk' = disk.delete [Archive.fileName id d.kind] := by
  obtain ⟨db₀, hdb, hconfig, hfind⟩ := start_eq_ok hdir hdisk hroot
  obtain rfl : db₀ = db := Except.ok.inj (hdb.symm.trans hstart)
  rw [remove] at hremove
  cases hcatalog : db₀.catalog.remove id with
  | error fault =>
    rw [hcatalog] at hremove
    exact nomatch (Prod.mk.inj hremove).1
  | ok found =>
    obtain ⟨d, catalog⟩ := found
    obtain ⟨hid, hfound, -⟩ := Catalog.remove_eq_ok_iff.1 hcatalog
    obtain ⟨rfl, ⟨-, text, hfile, -⟩, -⟩ := (hfind id d).1 hfound
    -- the name of a file that is there is plain
    have hname : Disk.IsPlain (Archive.fileName d.id d.kind) :=
      hdisk.plain _ ((Disk.find?_eq_some_iff hdisk).1 hfile) _ (List.mem_singleton.2 rfl)
    rw [hcatalog] at hremove
    obtain ⟨hok, -⟩ := publish_eq (hconfig ▸ hdir) (fun _ => Archive.remove_error) hremove nofun
    exact ⟨hid, d, hfound, Archive.remove_eq_ok hname hroot hok⟩

/-- **A start after a removal** finds all other ids as they were, and the removed id only if the
directory has held another usable dataset for it, which is then the one that is found. -/
theorem start_after_remove {config : Config} {dir : String} {disk disk' : Disk}
    {db db' : Database} {id removed : String} (hdir : config.dataDir = some dir)
    (hdisk : disk.Proper) (hroot : disk.find? [] = some .directory)
    (hstart : start config disk = .ok db)
    (hremove : db.remove disk id = (.ok removed, db', disk')) :
    ∃ reopened, start config disk' = .ok reopened ∧
      (∀ other, other ≠ id → reopened.catalog.find? other = db.catalog.find? other) ∧
      ∀ e, reopened.catalog.find? id = some e ↔
        e.id = id ∧ Archive.Usable disk e ∧ db.catalog.find? id ≠ some e := by
  obtain ⟨hid, d, hfound, rfl⟩ := disk_after_remove hdir hdisk hroot hstart hremove
  obtain ⟨db₀, hdb, -, hfind⟩ := start_eq_ok hdir hdisk hroot
  obtain rfl : db₀ = db := Except.ok.inj (hdb.symm.trans hstart)
  obtain ⟨rfl, husabled, -⟩ := (hfind id d).1 hfound
  have husable : ∀ e, Archive.Usable (disk.delete [Archive.fileName d.id d.kind]) e ↔
      Archive.Usable disk e ∧ ¬(e.id = d.id ∧ e.kind = d.kind) :=
    fun e => Archive.usable_delete_fileName_iff hid
  obtain ⟨reopened, hreopened, -, hfind'⟩ := start_eq_ok hdir (hdisk.delete _)
    ((Disk.find?_delete_root _).trans hroot)
  refine ⟨reopened, hreopened, fun other hother => Option.ext fun e => ?_, fun e => ?_⟩
  · have hsame : ∀ e, e.id = other → (Archive.Usable (disk.delete _) e ↔ Archive.Usable disk e) :=
      fun e he => (husable e).trans (and_iff_left fun h => hother (he.symm.trans h.1))
    rw [hfind', hfind]
    constructor
    · rintro ⟨he, hin, hfirst⟩
      exact ⟨he, (hsame e he).1 hin, fun x hx hxid => hfirst x ((hsame x hxid).2 hx) hxid⟩
    · rintro ⟨he, hin, hfirst⟩
      exact ⟨he, (hsame e he).2 hin, fun x hx hxid => hfirst x ((hsame x hxid).1 hx) hxid⟩
  · rw [hfind', hfound]
    constructor
    · rintro ⟨he, hin, -⟩
      obtain ⟨hin, hkind⟩ := (husable e).1 hin
      exact ⟨he, hin, fun heq => hkind (Option.some.inj heq ▸ ⟨rfl, rfl⟩)⟩
    · rintro ⟨he, hin, hne⟩
      -- the files of one id are told apart by their kinds
      have hkind : e.kind ≠ d.kind := fun h =>
        hne (congrArg some (husabled.2.unique hin.2 he.symm h.symm))
      refine ⟨he, (husable e).2 ⟨hin, fun h => hkind h.2⟩, fun x hx hxid => ?_⟩
      have hxkind : x.kind ≠ d.kind := fun h => ((husable x).1 hx).2 ⟨hxid, h⟩
      rw [Kind.eq_of_ne_of_ne hkind hxkind]

/-! ### Two kinds under one id -/

theorem usable_sampleDisk (kind : Kind) : Archive.Usable sampleDisk (sampleDataset "c" kind) := by
  refine usable_sampleDataset (by decide) ?_
  cases kind <;> decide +kernel

/-- On the sample disk the dataset of the first kind is found and can be removed. -/
theorem exists_remove_sampleDisk :
    sampleDisk.Proper ∧ sampleDisk.find? [] = some .directory ∧
    ∃ db, start sampleConfig sampleDisk = .ok db ∧
      db.catalog.find? "c" = some (sampleDataset "c" .courses) ∧
      ∃ db', db.remove sampleDisk "c" =
        (.ok "c", db', sampleDisk.delete [Archive.fileName "c" .courses]) := by
  have hproper : sampleDisk.Proper := by decide +kernel
  have hroot : sampleDisk.find? [] = some .directory := by decide +kernel
  have hdir : sampleConfig.dataDir = some "data" := rfl
  have hfirst : ∀ kind : Kind, Kind.courses.name ≤ kind.name := by
    intro kind
    cases kind <;> decide
  obtain ⟨db, hdb, hconfig, hfind⟩ := start_eq_ok hdir hproper hroot
  have hfound : db.catalog.find? "c" = some (sampleDataset "c" .courses) :=
    (hfind "c" _).2 ⟨rfl, usable_sampleDisk .courses, fun e _ _ => hfirst e.kind⟩
  have hcatalog : db.catalog.remove "c" = .ok (sampleDataset "c" .courses, db.catalog.erase "c") :=
    Catalog.remove_eq_ok_iff.2 ⟨by decide, hfound, rfl⟩
  have hfile : Archive.remove sampleDisk (sampleDataset "c" .courses).id
      (sampleDataset "c" .courses).kind =
      (.ok (), sampleDisk.delete [Archive.fileName "c" .courses]) := by
    decide +kernel
  refine ⟨hproper, hroot, db, hdb, hfound, { db with catalog := db.catalog.erase "c" }, ?_⟩
  simp only [remove, hcatalog, publish, hconfig, hdir, hfile]
  rfl

/-- A start after the removal finds the dataset of the other kind. -/
theorem start_after_remove_sampleDisk :
    ∃ db db' disk', start sampleConfig sampleDisk = .ok db ∧
      db.remove sampleDisk "c" = (.ok "c", db', disk') ∧
      ∃ reopened, start sampleConfig disk' = .ok reopened ∧
        reopened.catalog.find? "c" = some (sampleDataset "c" .rooms) := by
  obtain ⟨hproper, hroot, db, hdb, hfound, db', hremove⟩ := exists_remove_sampleDisk
  have hdir : sampleConfig.dataDir = some "data" := rfl
  obtain ⟨reopened, hreopened, -, hfind⟩ := start_after_remove hdir hproper hroot hdb hremove
  refine ⟨db, db', _, hdb, hremove, reopened, hreopened,
    (hfind _).2 ⟨rfl, usable_sampleDisk .rooms, ?_⟩⟩
  rw [hfound]
  exact fun h => nomatch congrArg Dataset.kind (Option.some.inj h)

/-- So a removal does not always keep the id from being found again. -/
theorem not_forall_remove_durable :
    ¬∀ (config : Config) (dir : String) (disk disk' : Disk) (db db' reopened : Database)
      (id removed : String), config.dataDir = some dir → disk.Proper →
      disk.find? [] = some .directory → start config disk = .ok db →
      db.remove disk id = (.ok removed, db', disk') → start config disk' = .ok reopened →
      reopened.catalog.contains id = false := by
  intro h
  obtain ⟨hproper, hroot, db, hdb, -, db', hremove⟩ := exists_remove_sampleDisk
  have hdir : sampleConfig.dataDir = some "data" := rfl
  obtain ⟨reopened, hreopened, -, hfind⟩ := start_eq_ok hdir (hproper.delete _)
    ((Disk.find?_delete_root _).trans hroot)
  have hgone := h _ _ _ _ _ _ _ _ _ hdir hproper hroot hdb hremove hreopened
  -- the file of the other kind is still usable
  have hleft : ∀ e, Archive.Usable (sampleDisk.delete [Archive.fileName "c" .courses]) e ↔
      Archive.Usable sampleDisk e ∧ ¬(e.id = "c" ∧ e.kind = .courses) :=
    fun e => Archive.usable_delete_fileName_iff (by decide)
  have hfound : reopened.catalog.find? "c" = some (sampleDataset "c" .rooms) := by
    refine (hfind "c" _).2 ⟨rfl, (hleft _).2 ⟨usable_sampleDisk .rooms, by rintro ⟨-, ⟨⟩⟩⟩, ?_⟩
    intro e he heid
    have hkind : e.kind = .rooms :=
      Kind.eq_of_ne_of_ne (fun h => ((hleft e).1 he).2 ⟨heid, h⟩) (by decide)
    rw [hkind]
    exact String.le_refl _
  rw [Catalog.contains, hfound] at hgone
  cases hgone

end Database

end CampusQuery
