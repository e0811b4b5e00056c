import CampusQuery.Proofs.Grouping
import CampusQuery.Proofs.ValueDigest

/-!
# Groups found through a table

The groups of a grouping can be searched for a key from the first one on (`Group.place`), or a table
from keys to places can be kept beside them (`GroupTable`), which finds a group without looking at
the others. A table goes by digests, so that both come to the same rests on equal keys having the
same digest, as values have (the instances of `LawfulHashable`).

What a table has to say about its groups is a field of `GroupTable`: the entry of a key is the place
that a search for it comes to. A record that is placed keeps this up, whether it joins a group or
opens one, so the groups are those of `Group.collect` (`GroupTable.collect_groups`) and the rows
those of `Grouping.rows` (`Grouping.rowsByTable_eq`). The values that a count tells apart can be put
into a table in the same way (`Value.size_toTable`).
-/

namespace CampusQuery

/-- Equal tuples have the same digest. -/
instance lawfulHashableList {α : Type} [BEq α] [Hashable α] [LawfulHashable α] :
    LawfulHashable (List α) where
  hash_eq k l h := by
    -- the digest is put together from the left, so the statement is about any start of it
    have loop : ∀ (k l : List α), (k == l) = true → ∀ digest : UInt64,
        k.foldl (fun d a => mixHash d (hash a)) digest =
          l.foldl (fun d a => mixHash d (hash a)) digest := by
      intro k
      induction k with
      | nil =>
        intro l h digest
        obtain rfl : l = [] := by simpa using h
        rfl
      | cons a k ih =>
        intro l h digest
        cases l with
        | nil => exact nomatch h
        | cons b l =>
          rw [List.cons_beq_cons, Bool.and_eq_true] at h
          rw [List.foldl_cons, List.foldl_cons, LawfulHashable.hash_eq a b h.1]
          exact ih l h.2 _
    exact loop k l h 7

/-! ### A place for each key -/

namespace Group

/-- Puts a record to the end of a group. -/
def add (r : Record) (g : Group) : Group := { g with members := g.members.push r }

/-- The place of the group of a key. -/
def find? (key : List Value) (groups : List Group) : Option Nat :=
  groups.findIdx? fun g => g.key == key

/-- Equal keys have the same place. -/
theorem find?_congr {key key' : List Value} (h : (key == key') = true) (groups : List Group) :
    find? key groups = find? key' groups := by
  have hkeys : (fun g : Group => g.key == key) = fun g => g.key == key' :=
    funext fun g => BEq.congr_right h
  rw [find?, find?, hkeys]

/-- A group that gets a record keeps its key. -/
theorem find?_modify_add (key : List Value) (r : Record) (slot : Nat) (groups : List Group) :
    find? key (groups.modify slot (add r)) = find? key groups := by
  induction groups generalizing slot with
  | nil => rw [List.modify_nil]
  | cons g rest ih =>
    cases slot with
    | zero => rw [List.modify_zero_cons, find?, find?, List.findIdx?_cons, List.findIdx?_cons, add]
    | succ slot =>
      unfold find? at ih ⊢
      rw [List.modify_succ_cons, List.findIdx?_cons, List.findIdx?_cons, ih]

/-- A new group is found after all others. -/
theorem find?_concat (key : List Value) (groups : List Group) (g : Group) :
    find? key (groups ++ [g]) =
      (find? key groups).or (if g.key == key then some groups.length else none) := by
  rw [find?, find?, List.findIdx?_append, List.findIdx?_singleton]
  congr 1
  cases g.key == key with
  | false => rfl
  | true => exact congrArg some (Nat.zero_add _)

/-- A record joins the group at the place of its key, or opens a group. -/
theorem place_eq (key : List Value) (r : Record) (groups : List Group) :
    place key r groups =
      match find? key groups with
      | some slot => groups.modify slot (add r)
      | none => groups ++ [⟨key, #[r]⟩] := by
  induction groups with
  | nil => rfl
  | cons g rest ih =>
    rw [place, find?, List.findIdx?_cons]
    split
    · rfl
    · rw [ih, find?]
      cases rest.findIdx? fun g => g.key == key <;> rfl

end Group

/-! ### The table -/

/-- Groups with a table of the places of their keys. -/
structure GroupTable where
  /-- The groups, in the order in which they were opened. -/
  groups : List Group
  /-- The places by the keys. -/
  slots : Std.HashMap (List Value) Nat
  /-- The table has the place of each key. -/
  slots_eq : ∀ key, slots[key]? = Group.find? key groups

namespace GroupTable

/-- No groups. -/
def empty : GroupTable where
  groups := []
  slots := ∅
  slots_eq _ := Std.HashMap.getElem?_empty

/-- A key without a place gets the one after the last group. -/
theorem slots_eq_insert {t : GroupTable} {key : List Value} (r : Record)
    (h : t.slots[key]? = none) (key' : List Value) :
    (t.slots.insert key t.groups.length)[key']? =
      Group.find? key' (t.groups ++ [⟨key, #[r]⟩]) := by
  rw [Std.HashMap.getElem?_insert, Group.find?_concat]
  split
  · next hkey =>
    -- an equal key has no place yet either
    rw [← Group.find?_congr hkey, ← t.slots_eq, h, Option.none_or]
  · rw [Option.or_none, t.slots_eq]

/-- Puts a record into the group at the place of its key, a new one at the end if there is none. -/
def place (key : List Value) (r : Record) (t : GroupTable) : GroupTable :=
  match h : t.slots[key]? with
  | some slot =>
    { t with
      groups := t.groups.modify slot (Group.add r)
      slots_eq key' := (t.slots_eq key').trans (Group.find?_modify_add key' r slot t.groups).symm }
  | none => ⟨t.groups ++ [⟨key, #[r]⟩], t.slots.insert key t.groups.length, slots_eq_insert r h⟩

/-- **One record.** It is placed as a search would place it. -/
theorem place_groups (key : List Value) (r : Record) (t : GroupTable) :
    (t.place key r).groups = Group.place key r t.groups := by
  rw [Group.place_eq, place]
  split
  · next slot h => rw [← t.slots_eq, h]
  · next h =>
    have hfind : Group.find? key t.groups = none := (t.slots_eq key).symm.trans h
    rw [hfind]

/-- The groups of a list of records, with their table. -/
def collect (fields : List Field) (records : List Record) : Except ExecutionError GroupTable :=
  records.foldlM (fun t r => do return place (← Group.keyOf fields r) r t) empty

/-- **All records.** The groups are those that are found by searching. -/
theorem collect_groups (fields : List Field) (records : List Record) :
    (collect fields records).map groups = Group.collect fields records := by
  have loop : ∀ (records : List Record) (t : GroupTable),
      (records.foldlM (fun t r => do return place (← Group.keyOf fields r) r t) t).map groups =
        records.foldlM (fun groups r => do
          return Group.place (← Group.keyOf fields r) r groups) t.groups := by
    intro records
    induction records with
    | nil => exact fun t => rfl
    | cons r rest ih =>
      intro t
      rw [List.foldlM_cons, List.foldlM_cons]
      cases Group.keyOf fields r with
      | error e => rfl
      | ok key =>
        have hrest := ih (t.place key r)
        rw [place_groups] at hrest
        exact hrest
  exact loop records empty

end GroupTable

/-- The rows of the groups of the records at the given positions, found through a table. -/
def Grouping.rowsByTable (g : Grouping) (records : Array Record) (positions : List Nat) :
    Except ExecutionError (List GroupRow) := do
  let table ← GroupTable.collect g.fields (recordsAt records positions)
  table.groups.mapM (Group.row g)

theorem Grouping.rowsByTable_eq (g : Grouping) (records : Array Record) (positions : List Nat) :
    g.rowsByTable records positions = g.rows records positions := by
  change _ = Group.collect g.fields (recordsAt records positions) >>= _
  rw [← GroupTable.collect_groups, rowsByTable]
  cases GroupTable.collect g.fields (recordsAt records positions) <;> rfl

/-! ### Counting through a table -/

namespace Value

/-- A table of values, equal ones once. -/
def toTable (values : List Value) : Std.HashSet Value :=
  values.foldl (fun table v => table.insert v) ∅

theorem toTable_concat (values : List Value) (v : Value) :
    toTable (values ++ [v]) = (toTable values).insert v :=
  List.foldl_concat ..

/-- A table has the values that are equal to one of the list. -/
theorem mem_toTable_iff {values : List Value} {v : Value} :
    v ∈ toTable values ↔ values.any (· == v) = true := by
  induction values using List.reverseRecOn with
  | nil => exact iff_of_false Std.HashSet.not_mem_empty Bool.false_ne_true
  | append_singleton values w ih =>
    rw [toTable_concat, Std.HashSet.mem_insert, ih, List.any_append, Bool.or_eq_true, List.any_cons,
      List.any_nil, Bool.or_false]
    exact or_comm

/-- There are as many values in a table as there are different ones. -/
theorem size_toTable (values : List Value) : (toTable values).size = (distinct values).length := by
  rw [distinct, foldl_new_eq_eraseDups]
  induction values using List.reverseRecOn with
  | nil => exact Std.HashSet.size_empty
  | append_singleton values v ih =>
    rw [toTable_concat, Std.HashSet.size_insert, eraseDups_concat, any_beq_eraseDups, ih]
    simp only [mem_toTable_iff]
    split
    · rfl
    · rw [List.length_append, List.length_singleton]

end Value

end CampusQuery
