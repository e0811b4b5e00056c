import CampusQuery.Execution.Group
import CampusQuery.Proofs.Distinct
import CampusQuery.Proofs.Outcome
import CampusQuery.Proofs.ValueOrder

/-!
# Groups are the classes of equal tuples

A grouping reads the tuple of a record's values in its fields (`Record.tuple`) and yields one row
per distinct tuple, in the order in which the tuples first occur. The row of a tuple has the values
of the tuple under the fields, and each computed value is that of all the records with an equal
tuple, in their order (`Grouping.RowOf`, `Grouping.IsPartition`).

`Grouping.rows_eq_ok_iff` says that this is what `Grouping.rows` computes, and that it fails only
if a record lacks a field of the grouping or a value cannot be computed. The collection of groups is
first parted into reading all keys and placing the records (`Group.collect_eq`); where the records
are placed is then an induction on the list from its end (`Group.placed_eq`).
-/

namespace CampusQuery

/-! ### Tuples -/

/-- The values of a record in some fields, as far as it has them. -/
def Record.tuple (fields : List Field) (r : Record) : List (Option Value) :=
  fields.map r.get?

theorem Record.read_eq_ok_iff {f : Field} {r : Record} {v : Value} :
    r.read f = .ok v ↔ r.get? f = some v := by
  rw [Record.read]
  cases r.get? f <;> simp

theorem Group.keyOf_eq_ok_iff {fields : List Field} {r : Record} {key : List Value} :
    Group.keyOf fields r = .ok key ↔ r.tuple fields = key.map some := by
  simp only [Group.keyOf, mapM_eq_ok_iff, Record.read_eq_ok_iff, Record.tuple]
  exact forall₂_eq_iff_map_eq

/-- Tuples of values are equal when they are so as tuples of optional values. -/
theorem map_some_beq_map_some (k l : List Value) : (k.map some == l.map some) = (k == l) := by
  induction k generalizing l with
  | nil => cases l <;> rfl
  | cons v k ih =>
    cases l with
    | nil => rfl
    | cons w l => simp [ih]

/-! ### Placing records -/

namespace Group

/-- The groups that records fall into, each with its key. -/
def placed (keyed : List (List Value × Record)) : List Group :=
  keyed.foldl (fun groups p => place p.1 p.2 groups) []

/-- Collecting groups is reading all keys and then placing the records. -/
theorem collect_eq (fields : List Field) (records : List Record) :
    collect fields records =
      (records.mapM (keyOf fields)).map fun keys => placed (keys.zip records) := by
  -- the loop carries the groups so far, so the statement is about any of them
  have loop : ∀ (records : List Record) (groups : List Group),
      records.foldlM (fun groups r => do return place (← keyOf fields r) r groups) groups =
        (records.mapM (keyOf fields)).map fun keys =>
          (keys.zip records).foldl (fun groups p => place p.1 p.2 groups) groups := by
    intro records
    induction records with
    | nil => exact fun groups => rfl
    | cons r rest ih =>
      intro groups
      rw [List.foldlM_cons, List.mapM_cons]
      cases keyOf fields r with
      | error e => rfl
      | ok key =>
        change rest.foldlM _ (place key r groups) = _
        rw [ih]
        cases rest.mapM (keyOf fields) <;> rfl
  exact loop records []

/-- The records of a key, in their order. -/
def withKey (keyed : List (List Value × Record)) (key : List Value) : Array Record :=
  ((keyed.filter fun p => p.1 == key).map Prod.snd).toArray

theorem withKey_concat (keyed : List (List Value × Record)) (p : List Value × Record)
    (key : List Value) :
    withKey (keyed ++ [p]) key =
      if p.1 == key then (withKey keyed key).push p.2 else withKey keyed key := by
  by_cases h : p.1 == key <;> simp [withKey, h]

/-- A record of a key that is there goes to the end of that group alone. -/
theorem place_of_any {keys : List (List Value)} {members : List Value → Array Record}
    {key : List Value} {r : Record} (hkeys : keys.Pairwise fun k l => (k == l) = false)
    (hkey : keys.any (· == key)) :
    place key r (keys.map fun k => ⟨k, members k⟩) =
      keys.map fun k => ⟨k, if key == k then (members k).push r else members k⟩ := by
  induction keys with
  | nil => simp at hkey
  | cons k rest ih =>
    obtain ⟨hk, hrest⟩ := List.pairwise_cons.1 hkeys
    simp only [List.map_cons, place]
    by_cases heq : k == key
    · rw [if_pos heq, if_pos (BEq.symm heq)]
      -- the other keys differ from `k`, so they differ from `key`
      refine congrArg _ (List.map_congr_left fun l hl => ?_)
      have hne : (key == l) = false := by
        rw [← BEq.congr_left heq]
        exact hk l hl
      rw [if_neg (by simp [hne])]
    · have hany : rest.any (· == key) := by
        rw [List.any_cons, Bool.or_eq_true] at hkey
        exact hkey.resolve_left heq
      rw [if_neg heq, if_neg (fun h => heq (BEq.symm h)), ih hrest hany]

/-- A record of a new key opens a group at the end. -/
theorem place_of_not_any {keys : List (List Value)} {members : List Value → Array Record}
    {key : List Value} {r : Record} (hkey : keys.any (· == key) = false) :
    place key r (keys.map fun k => ⟨k, members k⟩) =
      (keys.map fun k => ⟨k, members k⟩) ++ [⟨key, #[r]⟩] := by
  induction keys with
  | nil => rfl
  | cons k rest ih =>
    rw [List.any_cons, Bool.or_eq_false_iff] at hkey
    simp only [List.map_cons, place, hkey.1, List.cons_append]
    rw [if_neg Bool.false_ne_true, ih hkey.2]

/-- **Where records are placed.** There is one group per distinct key, in the order of first
occurrence, and it holds all records of that key in their order. -/
theorem placed_eq (keyed : List (List Value × Record)) :
    placed keyed =
      (keyed.map Prod.fst).eraseDups.map fun key => ⟨key, withKey keyed key⟩ := by
  induction keyed using List.reverseRecOn with
  | nil => rfl
  | append_singleton keyed p ih =>
    have hplace : placed (keyed ++ [p]) = place p.1 p.2 (placed keyed) := by
      rw [placed, List.foldl_append]
      rfl
    rw [hplace, ih, List.map_append, List.map_singleton, eraseDups_concat]
    simp only [withKey_concat]
    -- the last record has a key that is there, or one that opens a group
    by_cases hany : (keyed.map Prod.fst).eraseDups.any (· == p.1)
    · rw [if_pos hany]
      exact place_of_any (pairwise_eraseDups_bne _) hany
    · have hany := Bool.eq_false_iff.2 hany
      have hnew : withKey keyed p.1 = #[] := by
        rw [any_beq_eraseDups] at hany
        simpa [withKey] using hany
      rw [if_neg (by simp [hany]), place_of_not_any hany, List.map_append, List.map_singleton,
        if_pos BEq.rfl, hnew]
      refine congrArg (· ++ _) (List.map_congr_left fun k hk => ?_)
      have hne : (p.1 == k) = false :=
        BEq.symm_false (by simpa using List.any_eq_false.1 hany k hk)
      rw [if_neg (by simp [hne])]

/-! ### Rows -/

/-- The row of a group computes each rule from the members of the group. -/
theorem row_eq_ok_iff {grouping : Grouping} {g : Group} {row : GroupRow} :
    g.row grouping = .ok row ↔
      row.keys = (grouping.keys.map FieldKey.field).zip g.key ∧
      List.Forall₂ (fun rule c => c.1 = rule.name ∧
        rule.aggregation.apply rule.target.field g.members.toList = .ok c.2)
        grouping.rules row.computed := by
  -- a computed value carries the name of its rule
  have hrule : ∀ (rule : Rule) (c : String × Value),
      (do return (rule.name, ← rule.aggregation.apply rule.target.field g.members.toList) :
        Except ExecutionError (String × Value)) = .ok c ↔
      c.1 = rule.name ∧ rule.aggregation.apply rule.target.field g.members.toList = .ok c.2 := by
    rintro rule ⟨name, v⟩
    rw [bind_eq_ok_iff]
    constructor
    · rintro ⟨w, hw, h⟩
      obtain ⟨rfl, rfl⟩ := Prod.mk.inj (Except.ok.inj h)
      exact ⟨rfl, hw⟩
    · rintro ⟨rfl, hv⟩
      exact ⟨v, hv, rfl⟩
  rw [Group.row, bind_eq_ok_iff]
  simp only [mapM_eq_ok_iff, hrule]
  constructor
  · rintro ⟨computed, hcomputed, h⟩
    obtain rfl := Except.ok.inj h
    exact ⟨rfl, hcomputed⟩
  · rintro ⟨hkeys, hcomputed⟩
    exact ⟨row.computed, hcomputed, by rw [← hkeys]; rfl⟩

end Group

namespace Grouping

/-- The fields that the records of a group agree on. -/
def fields (g : Grouping) : List Field :=
  g.keys.map FieldKey.field

/-- A row is that of a tuple among some records: it has the values of the tuple under the fields of
the grouping, and under each rule's name the value computed from the records with that tuple. -/
structure RowOf (g : Grouping) (records : List Record) (tuple : List (Option Value))
    (row : GroupRow) : Prop where
  /-- The fields of the grouping in their order. -/
  fields : row.keys.map Prod.fst = g.fields
  /-- The values of the tuple. -/
  values : row.keys.map (fun k => some k.2) = tuple
  /-- The rules in their order, each computed from all records with the tuple. -/
  computed : List.Forall₂ (fun rule c => c.1 = rule.name ∧
    rule.aggregation.apply rule.target.field
      (records.filter fun r => r.tuple g.fields == tuple) = .ok c.2) g.rules row.computed

/-- There is one row per distinct tuple of the records, in the order of first occurrence. -/
def IsPartition (g : Grouping) (records : List Record) (rows : List GroupRow) : Prop :=
  List.Forall₂ (g.RowOf records) (records.map (Record.tuple g.fields)).eraseDups rows

theorem map_some_snd (keys : List (Field × Value)) :
    keys.map (fun k => some k.2) = (keys.map Prod.snd).map some := by
  rw [List.map_map]
  rfl

/-- The row of a tuple has the fields of the grouping with the values of the tuple. -/
theorem RowOf.keys_eq {g : Grouping} {records : List Record} {key : List Value} {row : GroupRow}
    (h : g.RowOf records (key.map some) row) : row.keys = g.fields.zip key := by
  have hvalues : row.keys.map Prod.snd = key := by
    refine List.map_injective_iff.2 (fun _ _ => Option.some.inj) ?_
    rw [← map_some_snd, h.values]
  -- a list of pairs is the zip of what it has on either side
  exact List.zip_of_prod h.fields hvalues

/-- A tuple has one row. -/
theorem RowOf.unique {g : Grouping} {records : List Record} {tuple : List (Option Value)}
    {row row' : GroupRow} (h : g.RowOf records tuple row) (h' : g.RowOf records tuple row') :
    row = row' := by
  obtain ⟨key, rfl⟩ : ∃ key : List Value, tuple = key.map some :=
    ⟨_, h.values.symm.trans (map_some_snd _)⟩
  have hcomputed : row.computed = row'.computed := by
    refine List.right_unique_forall₂' ?_ h.computed h'.computed
    rintro rule ⟨_, v⟩ ⟨_, w⟩ ⟨rfl, hv⟩ ⟨rfl, hw⟩
    exact congrArg _ (Except.ok.inj (hv.symm.trans hw))
  cases row
  cases row'
  rw [GroupRow.mk.injEq]
  exact ⟨h.keys_eq.trans h'.keys_eq.symm, hcomputed⟩

theorem IsPartition.unique {g : Grouping} {records : List Record} {rows rows' : List GroupRow}
    (h : g.IsPartition records rows) (h' : g.IsPartition records rows') : rows = rows' :=
  List.right_unique_forall₂' (R := g.RowOf records) (fun _ _ _ => RowOf.unique) h h'

/-- Where all keys can be read, the tuples of the records are those of the keys. -/
theorem map_tuple_eq {fields : List Field} {records : List Record} {keys : List (List Value)}
    (h : List.Forall₂ (fun r key => Group.keyOf fields r = .ok key) records keys) :
    records.map (Record.tuple fields) = keys.map (List.map some) :=
  forall₂_eq_iff_map_eq.1 (h.imp fun _ _ => Group.keyOf_eq_ok_iff.1)

/-- Where all keys can be read, the records of a key are those with its tuple. -/
theorem withKey_zip {fields : List Field} {records : List Record} {keys : List (List Value)}
    (h : List.Forall₂ (fun r key => Group.keyOf fields r = .ok key) records keys)
    (key : List Value) :
    (Group.withKey (keys.zip records) key).toList =
      records.filter fun r => r.tuple fields == key.map some := by
  rw [Group.withKey, List.toList_toArray]
  induction h with
  | nil => rfl
  | @cons r k _ _ hkey _ ih =>
    have htuple : (r.tuple fields == key.map some) = (k == key) := by
      rw [Group.keyOf_eq_ok_iff.1 hkey, map_some_beq_map_some]
    rw [List.zip_cons_cons, List.filter_cons, List.filter_cons, htuple]
    cases k == key <;> simp [ih]

/-- The row of a placed group is the row of its tuple. -/
theorem row_iff_rowOf {g : Grouping} {records : List Record} {keys : List (List Value)}
    (h : List.Forall₂ (fun r key => Group.keyOf g.fields r = .ok key) records keys)
    {key : List Value} (hlength : key.length = g.fields.length) (row : GroupRow) :
    Group.row g ⟨key, Group.withKey (keys.zip records) key⟩ = .ok row ↔
      g.RowOf records (key.map some) row := by
  rw [Group.row_eq_ok_iff, withKey_zip h]
  constructor
  · rintro ⟨hkeys, hcomputed⟩
    refine ⟨?_, ?_, hcomputed⟩
    · rw [hkeys]
      exact List.map_fst_zip (Nat.le_of_eq hlength.symm)
    · rw [map_some_snd, hkeys]
      exact congrArg _ (List.map_snd_zip (Nat.le_of_eq hlength))
  · intro hrow
    exact ⟨hrow.keys_eq, hrow.computed⟩

/-- A key can be read when the record lacks no field. -/
theorem exists_keyOf_iff {fields : List Field} {r : Record} :
    (∃ key, Group.keyOf fields r = .ok key) ↔ ∀ f ∈ fields, (r.get? f).isSome := by
  simp only [Group.keyOf, mapM_eq_ok_iff, Record.read_eq_ok_iff]
  exact (forall_mem_iff_exists_forall₂ Option.isSome_iff_exists).symm

/-- All keys can be read when no record lacks a field. -/
theorem exists_keys_iff {fields : List Field} {records : List Record} :
    (∃ keys, List.Forall₂ (fun r key => Group.keyOf fields r = .ok key) records keys) ↔
      ∀ r ∈ records, ∀ f ∈ fields, (r.get? f).isSome :=
  (forall_mem_iff_exists_forall₂ exists_keyOf_iff.symm).symm

/-- Where all keys can be read, the rows of the groups are those of the tuples. -/
theorem rows_placed_iff {g : Grouping} {records : List Record} {keys : List (List Value)}
    (h : List.Forall₂ (fun r key => Group.keyOf g.fields r = .ok key) records keys)
    {rows : List GroupRow} :
    List.Forall₂ (fun group row => Group.row g group = .ok row)
      (Group.placed (keys.zip records)) rows ↔ g.IsPartition records rows := by
  have hfst : (keys.zip records).map Prod.fst = keys :=
    List.map_fst_zip (Nat.le_of_eq h.length_eq.symm)
  have htuples : (records.map (Record.tuple g.fields)).eraseDups =
      keys.eraseDups.map (List.map some) := by
    rw [map_tuple_eq h]
    exact eraseDups_map fun k _ l _ => map_some_beq_map_some k l
  rw [IsPartition, htuples, Group.placed_eq, hfst, List.forall₂_map_left_iff,
    List.forall₂_map_left_iff]
  refine forall₂_congr_of_mem fun key hkey row => row_iff_rowOf h ?_ row
  -- a key that can be read has a value for every field
  have hmem := List.mem_map_of_mem (f := List.map some) (mem_of_mem_eraseDups hkey)
  rw [← map_tuple_eq h] at hmem
  obtain ⟨r, -, hr⟩ := List.mem_map.1 hmem
  simpa [Record.tuple] using (congrArg List.length hr).symm

/-- **What a grouping yields.** Rows come out exactly if every selected record has every field of
the grouping and every rule can be computed, and then they are those of the distinct tuples. -/
theorem rows_eq_ok_iff {g : Grouping} {records : Array Record} {positions : List Nat}
    {rows : List GroupRow} :
    g.rows records positions = .ok rows ↔
      (∀ r ∈ recordsAt records positions, ∀ f ∈ g.fields, (r.get? f).isSome) ∧
      g.IsPartition (recordsAt records positions) rows := by
  rw [Grouping.rows, bind_eq_ok_iff]
  change (∃ groups, Group.collect g.fields _ = _ ∧ _) ↔ _
  simp only [Group.collect_eq, map_eq_ok_iff, mapM_eq_ok_iff, ← exists_keys_iff]
  constructor
  · rintro ⟨_, ⟨keys, hkeys, rfl⟩, hrows⟩
    exact ⟨⟨keys, hkeys⟩, (rows_placed_iff hkeys).1 hrows⟩
  · rintro ⟨⟨keys, hkeys⟩, hrows⟩
    exact ⟨_, ⟨keys, hkeys, rfl⟩, (rows_placed_iff hkeys).2 hrows⟩

end Grouping

end CampusQuery
