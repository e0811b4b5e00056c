import CampusQuery.Database.Basic
import CampusQuery.Proofs.Directory
import CampusQuery.Proofs.FileName
import CampusQuery.Proofs.RecordText
import CampusQuery.Proofs.Store
import CampusQuery.Proofs.ValueOrder
import Mathlib.Data.List.Sort
import Mathlib.Data.List.Induction
import Mathlib.Data.String.Basic

/-!
# What is found at the start

A database that starts takes over what the files of its directory hold. A file is of use
(`Archive.Usable`) if its name is that of a dataset and its text has the records of a sound one. Of
the usable datasets of one id the catalog gets the one whose kind comes first in the alphabet, and
it gets nothing else (`Archive.find?_catalogOf_load`).

The files are read in whatever order the directory lists them, then sorted, then stored one after
the other as far as the store accepts them. The first step loses nothing, since the name of a file
determines its dataset (`Archive.mem_load_iff`). The last step keeps, of each id, the first dataset
that is sound (`Archive.find?_catalogOf_iff`), and after the sorting that is the one of the first
kind. So a file that is of no use has no effect on what is found, nor has the order of the files.
-/

namespace CampusQuery

/-! ### Adding one after the other -/

/-- Lists in which a key ascends are the same if they have the same members. -/
theorem eq_of_mem_iff_of_ascending {α : Type} (key : α → String) {xs ys : List α}
    (hxs : xs.Pairwise fun a b => key a < key b) (hys : ys.Pairwise fun a b => key a < key b)
    (h : ∀ a, a ∈ xs ↔ a ∈ ys) : xs = ys := by
  have hanti : Std.Antisymm fun a b : α => key a < key b :=
    ⟨fun a b hab hba => absurd (String.lt_trans hab hba) (String.lt_irrefl _)⟩
  have hirrefl : Std.Irrefl fun a b : α => key a < key b := ⟨fun a => String.lt_irrefl _⟩
  exact hxs.eq_of_mem_iff hys h

namespace Catalog

theorem find?_id {c : Catalog} {id : String} {d : Dataset} (h : c.find? id = some d) :
    d.id = id := by
  simpa using List.find?_some h

/-- Adding a dataset binds its id if the dataset is sound and the id is free. -/
theorem find?_after_add_iff {c : Catalog} {e d : Dataset} {id : String} :
    (c.after (.add e)).find? id = some d ↔
      c.find? id = some d ∨ c.find? id = none ∧ e.Sound ∧ e.id = id ∧ e = d := by
  rw [after]
  cases hadd : c.add e with
  | ok next =>
    obtain ⟨hsound, hfree, rfl⟩ := add_eq_ok_iff.1 hadd
    simp only [find?_insert]
    by_cases hid : e.id = id
    · subst hid
      simp [hfree, hsound]
    · simp [hid]
  | error fault =>
    have hrefused : ¬(e.Sound ∧ c.find? e.id = none) := by
      rintro ⟨hsound, hfree⟩
      cases hadd.symm.trans (add_eq_ok_iff.2 ⟨hsound, hfree, rfl⟩)
    refine ⟨Or.inl, fun h => h.resolve_right ?_⟩
    rintro ⟨hfree, hsound, rfl, -⟩
    exact hrefused ⟨hsound, hfree⟩

theorem mem_datasets_iff {c : Catalog} {d : Dataset} : d ∈ c.datasets ↔ c.find? d.id = some d := by
  refine ⟨fun hd => ?_, List.mem_of_find?_eq_some⟩
  have hsome : (c.find? d.id).isSome := List.find?_isSome.2 ⟨d, hd, beq_self_eq_true d.id⟩
  obtain ⟨e, he⟩ := Option.isSome_iff_exists.1 hsome
  -- the ids ascend, so no other dataset of the catalog has this one
  have hids : (c.datasets.map Dataset.id).Nodup := by
    refine List.pairwise_map.2 (c.ascending.imp ?_)
    intro a b hlt heq
    exact String.lt_irrefl _ (heq ▸ hlt)
  rw [he, List.inj_on_of_nodup_map hids (List.mem_of_find?_eq_some he) hd (find?_id he)]

/-- Catalogs in which the same is found are the same. -/
theorem ext_find? {c c' : Catalog} (h : ∀ id, c.find? id = c'.find? id) : c = c' := by
  have hdatasets : c.datasets = c'.datasets :=
    eq_of_mem_iff_of_ascending Dataset.id c.ascending c'.ascending fun d => by
      rw [mem_datasets_iff, mem_datasets_iff, h]
  cases c
  cases c'
  cases hdatasets
  rfl

theorem mem_ids_iff {c : Catalog} {id : String} : id ∈ c.ids ↔ ∃ d, c.find? id = some d := by
  rw [ids, List.mem_map]
  constructor
  · rintro ⟨d, hd, rfl⟩
    exact ⟨d, mem_datasets_iff.1 hd⟩
  · rintro ⟨d, hd⟩
    have hid := find?_id hd
    exact ⟨d, mem_datasets_iff.2 (hid.symm ▸ hd), hid⟩

theorem ids_ascend (c : Catalog) : c.ids.Pairwise (· < ·) :=
  List.pairwise_map.2 c.ascending

/-- Catalogs in which the same ids are found list the same ids. -/
theorem ids_eq_of_find? {c c' : Catalog}
    (h : ∀ id, (∃ d, c.find? id = some d) ↔ ∃ d, c'.find? id = some d) : c.ids = c'.ids :=
  eq_of_mem_iff_of_ascending (fun id => id) c.ids_ascend c'.ids_ascend fun id => by
    rw [mem_ids_iff, mem_ids_iff, h]

end Catalog

theorem isFirst_concat_iff {α : Type} {p : α → Prop} {xs : List α} {a b : α} :
    IsFirst p (xs ++ [a]) b ↔ IsFirst p xs b ∨ (∀ x ∈ xs, ¬p x) ∧ p a ∧ a = b := by
  constructor
  · rintro ⟨before, after, hsplit, hb, hbefore⟩
    -- the first item is the last one of all, or something comes behind it
    cases after using List.reverseRecOn with
    | nil =>
      obtain ⟨rfl, heq⟩ := List.append_inj' hsplit rfl
      obtain rfl := List.singleton_inj.1 heq
      exact Or.inr ⟨hbefore, hb, rfl⟩
    | append_singleton after c =>
      rw [← List.cons_append, ← List.append_assoc] at hsplit
      obtain ⟨rfl, -⟩ := List.append_inj' hsplit rfl
      exact Or.inl ⟨before, after, rfl, hb, hbefore⟩
  · rintro (⟨before, after, rfl, hb, hbefore⟩ | ⟨hnone, ha, rfl⟩)
    · exact ⟨before, after ++ [a], by simp, hb, hbefore⟩
    · exact ⟨xs, [], rfl, ha, hnone⟩

namespace Archive

/-- Of the datasets of an id, the first one that is sound gets into the catalog. -/
theorem find?_catalogOf_iff {datasets : List Dataset} {id : String} {d : Dataset} :
    (catalogOf datasets).find? id = some d ↔
      IsFirst (fun e => e.Sound ∧ e.id = id) datasets d := by
  induction datasets using List.reverseRecOn generalizing d with
  | nil =>
    refine iff_of_false (fun h => nomatch h) ?_
    rintro ⟨before, after, hsplit, -⟩
    simp at hsplit
  | append_singleton datasets e ih =>
    have hstep : catalogOf (datasets ++ [e]) = (catalogOf datasets).after (.add e) :=
      List.foldl_concat ..
    have hnone : (catalogOf datasets).find? id = none ↔
        ∀ x ∈ datasets, ¬(x.Sound ∧ x.id = id) := by
      constructor
      · intro hnone x hx hp
        obtain ⟨b, hb⟩ := exists_isFirst (p := fun e => e.Sound ∧ e.id = id) hx hp
        exact nomatch hnone.symm.trans (ih.2 hb)
      · intro hnone
        refine Option.eq_none_iff_forall_not_mem.2 fun b hb => ?_
        obtain ⟨before, after, rfl, hp, -⟩ := ih.1 hb
        exact hnone b (by simp) hp
    rw [hstep, Catalog.find?_after_add_iff, isFirst_concat_iff, ih, hnone, and_assoc]

/-! ### The files -/

/-- The file of a dataset holds the dataset's records. -/
def Stores (disk : Disk) (d : Dataset) : Prop :=
  ∃ text, disk.find? [fileName d.id d.kind] = some (.file text) ∧
    Record.parseList text = .ok d.records.toList

/-- A dataset that is stored and can be taken over. -/
def Usable (disk : Disk) (d : Dataset) : Prop :=
  d.Sound ∧ Stores disk d

theorem Stores.unique {disk : Disk} {d e : Dataset} (hd : Stores disk d) (he : Stores disk e)
    (hid : d.id = e.id) (hkind : d.kind = e.kind) : d = e := by
  obtain ⟨text, hfile, hread⟩ := hd
  obtain ⟨text', hfile', hread'⟩ := he
  rw [hid, hkind] at hfile
  obtain rfl : text = text' := Content.file.inj (Option.some.inj (hfile.symm.trans hfile'))
  have hrecords : d.records = e.records :=
    Array.toList_inj.1 (Except.ok.inj (hread.symm.trans hread'))
  cases d
  cases e
  simp_all

theorem loadFile?_eq_some_iff {name : String} {content : Content} {d : Dataset} :
    loadFile? name content = some d ↔
      name = fileName d.id d.kind ∧ idFault? d.id = none ∧
        ∃ text, content = .file text ∧ Record.parseList text = .ok d.records.toList := by
  rw [loadFile?, Option.bind_eq_some_iff, Prod.exists]
  constructor
  · rintro ⟨id, kind, hname, h⟩
    obtain ⟨rfl, hvalid⟩ := parseFileName?_eq_some_iff.1 hname
    cases content with
    | directory => exact nomatch h
    | file text =>
      cases hread : Record.parseList text with
      | error fault => simp [hread] at h
      | ok records =>
        obtain rfl : (⟨id, kind, records.toArray⟩ : Dataset) = d := by simpa [hread] using h
        exact ⟨rfl, hvalid, text, rfl, hread⟩
  · rintro ⟨rfl, hvalid, text, rfl, hread⟩
    exact ⟨d.id, d.kind, parseFileName?_eq_some_iff.2 ⟨rfl, hvalid⟩, by simp [hread]⟩

/-- Taking away a file without a usable dataset leaves what is usable. -/
theorem usable_delete_iff {disk : Disk} {name : String}
    (hname : ∀ d, Usable disk d → fileName d.id d.kind ≠ name) {d : Dataset} :
    Usable (disk.delete [name]) d ↔ Usable disk d := by
  constructor
  · rintro ⟨hsound, text, hfile, hread⟩
    rw [Disk.find?_delete] at hfile
    split at hfile
    · exact nomatch hfile
    · exact ⟨hsound, text, hfile, hread⟩
  · intro h
    obtain ⟨hsound, text, hfile, hread⟩ := id h
    refine ⟨hsound, text, ?_, hread⟩
    rw [Disk.find?_delete, if_neg fun heq => hname d h (List.singleton_inj.1 heq).symm, hfile]

/-- The order in which datasets are taken over. -/
def compareByKey : Dataset → Dataset → Ordering :=
  compareLex (compareOn Dataset.id) (compareOn fun d => d.kind.name)

instance : Std.TransCmp compareByKey :=
  inferInstanceAs (Std.TransCmp (compareLex _ _))

/-- Datasets of one id are in the order of their kinds. -/
theorem precedes_iff_of_id_eq {a b : Dataset} (h : a.id = b.id) :
    precedes a b = true ↔ a.kind.name ≤ b.kind.name := by
  have hself : compare b.id b.id = .eq := Std.ReflCmp.compare_self
  have hkind : (compare a.kind.name b.kind.name).isLE = true ↔ a.kind.name ≤ b.kind.name :=
    Std.LawfulBCmp.isLE_iff_le
  rw [precedes, h, hself, Ordering.eq_then, hkind]

/-- What is loaded are the stored datasets with a valid id, those of one id in the order of their
kinds. -/
theorem mem_load_iff {disk : Disk} (hdisk : disk.Proper)
    (hroot : disk.find? [] = some .directory) :
    ∃ datasets, load disk = .ok datasets ∧ datasets.Pairwise (fun a b => precedes a b = true) ∧
      ∀ d, d ∈ datasets ↔ idFault? d.id = none ∧ Stores disk d := by
  obtain ⟨things, hlist, hthings⟩ := Disk.mem_list_iff hdisk hroot
  refine ⟨(things.filterMap fun t => loadFile? t.1 t.2).mergeSort precedes, by rw [load, hlist],
    pairwise_mergeSort_isLE compareByKey _, fun d => ?_⟩
  rw [(List.mergeSort_perm _ _).mem_iff, List.mem_filterMap]
  simp only [loadFile?_eq_some_iff, Prod.exists, hthings]
  constructor
  · rintro ⟨name, content, hfile, rfl, hvalid, text, rfl, hread⟩
    exact ⟨hvalid, text, hfile, hread⟩
  · rintro ⟨hvalid, text, hfile, hread⟩
    exact ⟨_, _, hfile, rfl, hvalid, text, rfl, hread⟩

/-- Of the usable datasets of an id, the one of the first kind gets into the catalog. -/
theorem find?_catalogOf_load {disk : Disk} (hdisk : disk.Proper)
    (hroot : disk.find? [] = some .directory) :
    ∃ datasets, load disk = .ok datasets ∧
      ∀ id d, (catalogOf datasets).find? id = some d ↔
        d.id = id ∧ Usable disk d ∧
          ∀ e, Usable disk e → e.id = id → d.kind.name ≤ e.kind.name := by
  obtain ⟨datasets, hload, hsorted, hmem⟩ := mem_load_iff hdisk hroot
  have husable : ∀ e, Usable disk e ↔ e ∈ datasets ∧ e.Sound := fun e =>
    ⟨fun h => ⟨(hmem e).2 ⟨h.1.validId, h.2⟩, h.1⟩, fun h => ⟨h.2, ((hmem e).1 h.1).2⟩⟩
  -- the first sound dataset of an id is usable, and of the first kind since they are sorted
  have hfirst : ∀ {id b}, IsFirst (fun e => e.Sound ∧ e.id = id) datasets b →
      b.id = id ∧ Usable disk b ∧
        ∀ e, Usable disk e → e.id = id → b.kind.name ≤ e.kind.name := by
    rintro id b ⟨before, after, hsplit, ⟨hsound, hid⟩, hbefore⟩
    have hb : b ∈ datasets := by simp [hsplit]
    refine ⟨hid, (husable b).2 ⟨hb, hsound⟩, fun e he heid => ?_⟩
    obtain ⟨hein, hesound⟩ := (husable e).1 he
    rw [hsplit, List.mem_append, List.mem_cons] at hein
    rcases hein with hin | rfl | hin
    · exact absurd ⟨hesound, heid⟩ (hbefore e hin)
    · exact String.le_refl _
    · rw [hsplit, List.pairwise_append, List.pairwise_cons] at hsorted
      exact (precedes_iff_of_id_eq (hid.trans heid.symm)).1 (hsorted.2.1.1 e hin)
  refine ⟨datasets, hload, fun id d => ?_⟩
  rw [find?_catalogOf_iff]
  refine ⟨hfirst, ?_⟩
  rintro ⟨hid, hd, hleast⟩
  obtain ⟨hin, hsound⟩ := (husable d).1 hd
  obtain ⟨b, hb⟩ := exists_isFirst (p := fun e => e.Sound ∧ e.id = id) hin ⟨hsound, hid⟩
  obtain ⟨hbid, hbusable, hbleast⟩ := hfirst hb
  -- two datasets of one id and one kind are in the same file
  have hkind : b.kind = d.kind :=
    Kind.name_injective (String.le_antisymm (hbleast d hd hid) (hleast b hbusable hbid))
  rwa [hbusable.2.unique hd.2 (hbid.trans hid.symm) hkind] at hb

end Archive

/-! ### The start -/

namespace Database

/-- A database starts with what is usable on the disk. -/
theorem start_eq_ok {config : Config} {dir : String} {disk : Disk}
    (hdir : config.dataDir = some dir) (hdisk : disk.Proper)
    (hroot : disk.find? [] = some .directory) :
    ∃ db, start config disk = .ok db ∧ db.config = config ∧
      ∀ id d, db.catalog.find? id = some d ↔
        d.id = id ∧ Archive.Usable disk d ∧
          ∀ e, Archive.Usable disk e → e.id = id → d.kind.name ≤ e.kind.name := by
  obtain ⟨datasets, hload, hfind⟩ := Archive.find?_catalogOf_load hdisk hroot
  exact ⟨⟨config, Archive.catalogOf datasets⟩, by simp [start, hdir, hload, Except.map], rfl, hfind⟩

/-- Disks on which the same is usable make the same start. -/
theorem start_congr {config : Config} {dir : String} {disk other : Disk}
    (hdir : config.dataDir = some dir) (hdisk : disk.Proper) (hother : other.Proper)
    (hroot : disk.find? [] = some .directory) (hroot' : other.find? [] = some .directory)
    (husable : ∀ d, Archive.Usable other d ↔ Archive.Usable disk d) :
    start config other = start config disk := by
  obtain ⟨db, hdb, hconfig, hfind⟩ := start_eq_ok hdir hdisk hroot
  obtain ⟨db', hdb', hconfig', hfind'⟩ := start_eq_ok hdir hother hroot'
  have hcatalog : db'.catalog = db.catalog := by
    refine Catalog.ext_find? fun id => Option.ext fun d => ?_
    rw [hfind, hfind']
    simp only [husable]
  have hsame : db' = db := by
    cases db
    cases db'
    simp_all
  rw [hdb, hdb', hsame]

/-- **A database starts with the usable dataset of the first kind of every id, and with nothing
else.** It does so in whatever order the directory is listed, and a file that holds no usable
dataset might as well not be there. -/
theorem start_takes_first_kinds {config : Config} {dir : String} {disk : Disk}
    (hdir : config.dataDir = some dir) (hdisk : disk.Proper)
    (hroot : disk.find? [] = some .directory) :
    ∃ db, start config disk = .ok db ∧
      (∀ id d, db.catalog.find? id = some d ↔
        d.id = id ∧ Archive.Usable disk d ∧
          ∀ e, Archive.Usable disk e → e.id = id → d.kind.name ≤ e.kind.name) ∧
      (∀ other : Disk, other.things.Perm disk.things → start config other = .ok db) ∧
      ∀ name, (∀ d, Archive.Usable disk d → Archive.fileName d.id d.kind ≠ name) →
        start config (disk.delete [name]) = .ok db := by
  obtain ⟨db, hdb, -, hfind⟩ := start_eq_ok hdir hdisk hroot
  refine ⟨db, hdb, hfind, fun other hperm => ?_, fun name hname => ?_⟩
  · have hsame := Disk.find?_perm hdisk hperm
    rw [← hdb]
    refine start_congr hdir hdisk (hdisk.perm hperm) hroot ((hsame []).trans hroot) fun d => ?_
    simp only [Archive.Usable, Archive.Stores, hsame]
  · rw [← hdb]
    refine start_congr hdir hdisk (hdisk.delete _) hroot ?_ fun d => ?_
    · rw [Disk.find?_delete, if_neg (by simp), hroot]
    · exact Archive.usable_delete_iff hname

/-! ### Samples -/

/-- A dataset of one record, which has a value for each field of the kind. -/
def sampleOf (value : Field → Value) (id : String) (kind : Kind) : Dataset :=
  ⟨id, kind, #[Record.ofEntries (kind.fields.map fun f => (f, value f))]⟩

theorem get?_sampleOf (value : Field → Value) (kind : Kind) (f : Field) (v : Value) :
    (Record.ofEntries (kind.fields.map fun f => (f, value f))).get? f = some v ↔
      f.belongsTo kind = true ∧ value f = v := by
  have hnodup : ((kind.fields.map fun f => (f, value f)).map Prod.fst).Nodup := by
    have hfst : (Prod.fst ∘ fun f => (f, value f)) = id := rfl
    rw [List.map_map, hfst, List.map_id]
    cases kind <;> decide
  rw [Record.get?_ofEntries hnodup, ← Field.mem_fields_iff]
  simp

theorem sound_sampleOf {value : Field → Value} (htype : ∀ f, (value f).type = f.valueType)
    {id : String} (hid : idFault? id = none) (kind : Kind) : (sampleOf value id kind).Sound := by
  refine ⟨hid, rfl, fun r hr => ?_⟩
  obtain rfl := Array.mem_singleton.1 hr
  refine ⟨fun f hf => ⟨_, (get?_sampleOf value kind f _).2 ⟨hf, rfl⟩, htype f⟩, fun f hf => ?_⟩
  refine Option.eq_none_iff_forall_ne_some.2 fun v hv => ?_
  exact nomatch hf.symm.trans ((get?_sampleOf value kind f v).1 hv).1

/-- The value of a field that has the same value in all samples. -/
def sampleValue (f : Field) : Value :=
  if f.isNumeric then .number (.ofInt 1) else .text ""

theorem type_sampleValue (f : Field) : (sampleValue f).type = f.valueType := by
  cases f <;> rfl

theorem reread?_sampleValue (f : Field) : (sampleValue f).reread? = some (sampleValue f) := by
  have hone : (Binary64.ofInt 1).reread? = some (.ofInt 1) := by decide +kernel
  rw [sampleValue]
  split
  · rw [Value.reread?, hone, Option.map_some]
  · rfl

/-- A dataset in which all fields of a type have the same value. -/
def sampleDataset (id : String) (kind : Kind) : Dataset :=
  sampleOf sampleValue id kind

/-- A thing on a disk that is the file of such a dataset. -/
def sampleFile (id : String) (kind : Kind) : List String × Content :=
  ([Archive.fileName id kind], .file (Archive.fileText (sampleDataset id kind)))

/-- A sample is usable where its file is. -/
theorem usable_sampleDataset {disk : Disk} {id : String} {kind : Kind} (hid : idFault? id = none)
    (hfile : disk.find? (sampleFile id kind).1 = some (sampleFile id kind).2) :
    Archive.Usable disk (sampleDataset id kind) := by
  refine ⟨sound_sampleOf type_sampleValue hid kind, _, hfile,
    Record.parseList_listText_eq_ok_iff.2 (.cons (fun f => ?_) .nil)⟩
  cases hv : (Record.ofEntries (kind.fields.map fun f => (f, sampleValue f))).get? f with
  | none => exact .none
  | some v =>
    obtain ⟨-, rfl⟩ := (get?_sampleOf sampleValue kind f v).1 hv
    exact .some (reread?_sampleValue f)

/-- A disk with datasets of both kinds for one id, and with a file that is cut off. -/
def sampleDisk : Disk :=
  ⟨[sampleFile "c" .rooms, (["d_courses.json"], .file "["), ([], .directory),
    sampleFile "c" .courses]⟩

/-- A configuration with an archive. -/
def sampleConfig : Config := ⟨some "data", 10⟩

theorem start_sampleDisk :
    sampleDisk.Proper ∧ sampleDisk.find? [] = some .directory ∧
    ∃ db, start sampleConfig sampleDisk = .ok db ∧
      db.catalog.find? "c" = some (sampleDataset "c" .courses) ∧
      start sampleConfig ⟨sampleDisk.things.reverse⟩ = .ok db := by
  have hdir : sampleConfig.dataDir = some "data" := rfl
  have hproper : sampleDisk.Proper := by decide +kernel
  have hroot : sampleDisk.find? [] = some .directory := by decide +kernel
  have hfirst : ∀ kind : Kind, Kind.courses.name ≤ kind.name := by
    intro kind
    cases kind <;> decide
  obtain ⟨db, hdb, hfind, horder, -⟩ := start_takes_first_kinds hdir hproper hroot
  refine ⟨hproper, hroot, db, hdb, ?_, horder _ (List.reverse_perm _)⟩
  exact (hfind "c" _).2 ⟨rfl, usable_sampleDataset (by decide) (by decide +kernel),
    fun e _ _ => hfirst e.kind⟩

end Database

end CampusQuery
