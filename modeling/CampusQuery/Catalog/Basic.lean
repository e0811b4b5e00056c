import CampusQuery.Catalog.Dataset

/-!
# Catalogs

A catalog holds datasets under their ids, each id once, in the order of the ids. `Catalog.find?`
looks one up, `Catalog.insert` puts one in place of any of its id, and `Catalog.erase` takes one
out; `find?_insert` and `find?_erase` say that neither touches another id.

`Catalog.add` and `Catalog.remove` are the operations of a store: they first check what is asked
of them. A dataset is stored only under a valid id that is not in use, with at least one record,
and if all its records fit its kind.
-/

namespace CampusQuery

/-! ### Lists of datasets in the order of their ids -/

/-- The ids of a list of datasets ascend. -/
def Ascending (datasets : List Dataset) : Prop :=
  datasets.Pairwise fun a b => a.id < b.id

/-- The list with a dataset put in place of any of its id. -/
def insertDataset (d : Dataset) : List Dataset → List Dataset
  | [] => [d]
  | e :: rest =>
    if d.id < e.id then d :: e :: rest
    else if d.id = e.id then d :: rest
    else e :: insertDataset d rest

theorem mem_insertDataset {d x : Dataset} {datasets : List Dataset}
    (h : x ∈ insertDataset d datasets) : x = d ∨ x ∈ datasets := by
  induction datasets with
  | nil => simpa [insertDataset] using h
  | cons e rest ih =>
    simp only [insertDataset] at h
    split at h
    · simpa using h
    · split at h
      · rcases List.mem_cons.1 h with rfl | h
        · exact Or.inl rfl
        · exact Or.inr (List.mem_cons_of_mem _ h)
      · rcases List.mem_cons.1 h with rfl | h
        · exact Or.inr (List.mem_cons_self ..)
        · exact (ih h).imp id (List.mem_cons_of_mem _)

theorem ascending_insertDataset {d : Dataset} {datasets : List Dataset}
    (h : Ascending datasets) : Ascending (insertDataset d datasets) := by
  induction datasets with
  | nil => simp [Ascending, insertDataset]
  | cons e rest ih =>
    obtain ⟨he, hrest⟩ := List.pairwise_cons.1 h
    simp only [insertDataset]
    split
    · next hlt =>
      refine List.pairwise_cons.2 ⟨fun x hx => ?_, h⟩
      rcases List.mem_cons.1 hx with rfl | hx
      · exact hlt
      · exact String.lt_trans hlt (he x hx)
    · split
      · next heq =>
        exact List.pairwise_cons.2 ⟨fun x hx => heq ▸ he x hx, hrest⟩
      · next hlt hne =>
        refine List.pairwise_cons.2 ⟨fun x hx => ?_, ih hrest⟩
        rcases mem_insertDataset hx with rfl | hx
        · have hle := String.not_lt.1 hlt
          rcases Std.lt_trichotomy e.id x.id with h1 | h1 | h1
          · exact h1
          · exact absurd h1.symm hne
          · exact absurd h1 hlt
        · exact he x hx

/-! ### Catalogs -/

/-- Datasets under their ids. -/
structure Catalog where
  /-- The datasets, in the order of their ids. -/
  datasets : List Dataset
  /-- Each id occurs once. -/
  ascending : Ascending datasets

namespace Catalog

/-- The catalog without datasets. -/
def empty : Catalog := ⟨[], List.Pairwise.nil⟩

/-- The dataset of a given id. -/
def find? (c : Catalog) (id : String) : Option Dataset :=
  c.datasets.find? fun d => d.id == id

/-- The kind of the dataset of a given id. -/
def kind? (c : Catalog) (id : String) : Option Kind :=
  (c.find? id).map Dataset.kind

/-- Whether there is a dataset of a given id. -/
def contains (c : Catalog) (id : String) : Bool :=
  (c.find? id).isSome

/-- The ids in use, in order. -/
def ids (c : Catalog) : List String :=
  c.datasets.map Dataset.id

/-- The listing of all datasets, in the order of their ids. -/
def infos (c : Catalog) : List DatasetInfo :=
  c.datasets.map Dataset.info

/-- The number of datasets. -/
def size (c : Catalog) : Nat :=
  c.datasets.length

/-- The number of records of all datasets together. -/
def rows (c : Catalog) : Nat :=
  c.datasets.foldr (fun d total => d.size + total) 0

/-- The catalog with a dataset put in place of any of its id. -/
def insert (c : Catalog) (d : Dataset) : Catalog :=
  ⟨insertDataset d c.datasets, ascending_insertDataset c.ascending⟩

/-- The catalog without the dataset of a given id. -/
def erase (c : Catalog) (id : String) : Catalog :=
  ⟨c.datasets.filter fun d => d.id != id, c.ascending.filter _⟩

/-- Looking up finds what was put in last under an id. -/
theorem find?_insert (c : Catalog) (d : Dataset) (id : String) :
    (c.insert d).find? id = if d.id = id then some d else c.find? id := by
  obtain ⟨datasets, ascending⟩ := c
  simp only [find?, insert]
  induction datasets with
  | nil => by_cases h : d.id = id <;> simp [insertDataset, h]
  | cons e rest ih =>
    obtain ⟨he, hrest⟩ := List.pairwise_cons.1 ascending
    have ih := ih hrest
    simp only [insertDataset]
    by_cases h : d.id = id
    · subst h
      simp only [if_true] at ih ⊢
      split
      · simp
      · split
        · simp
        · next hne =>
          have : (e.id == d.id) = false := by simpa using fun h => hne h.symm
          simp [this, ih]
    · simp only [h, if_false] at ih ⊢
      split
      · simp [h]
      · split
        · next heq =>
          have : (e.id == id) = false := by simpa [← heq] using h
          simp [this, h]
        · by_cases hid : e.id = id <;> simp [hid, ih]

/-- Taking a dataset out leaves all others. -/
theorem find?_erase (c : Catalog) (id other : String) :
    (c.erase id).find? other = if id = other then none else c.find? other := by
  obtain ⟨datasets, ascending⟩ := c
  simp only [find?, erase, List.find?_filter]
  by_cases h : id = other
  · subst h
    simp
  · rw [if_neg h]
    congr 1
    funext d
    by_cases hd : d.id = other
    · simp [hd, Ne.symm h]
    · simp [hd]

/-! ### The operations of a store -/

/-- Stores a dataset: its id is valid and not in use, it has records, and they fit its kind. -/
def add (c : Catalog) (d : Dataset) : Except StoreError Catalog := do
  checkId d.id
  if c.contains d.id then throw (.duplicate d.id)
  if d.records.isEmpty then throw (.noRecords d.id)
  d.checkSchema
  return c.insert d

/-- Takes a stored dataset out: its id is valid and in use. -/
def remove (c : Catalog) (id : String) : Except StoreError (Dataset × Catalog) := do
  checkId id
  match c.find? id with
  | some d => return (d, c.erase id)
  | none => throw (.notFound id)

end Catalog

end CampusQuery
