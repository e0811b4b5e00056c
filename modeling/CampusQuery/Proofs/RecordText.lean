import CampusQuery.Proofs.JsonText
import CampusQuery.Proofs.KeyText
import CampusQuery.Proofs.NumberText
import CampusQuery.Proofs.Store
import CampusQuery.Record.Text

/-!
# Records read back from their text

The text of a list of records spells a tree (`Record.spells_listText`), so whether it can be read is
a question about one value after the other. A string always comes back as itself, a number as the
number that its numeral is worth, and one that is not finite has no numeral and does not come back
at all. So a list of records can be read back exactly if all its values can, and then as the records
with those values (`Record.parseList_listText_eq_ok_iff`).
-/

namespace CampusQuery

/-! ### Values -/

namespace Value

/-- The value that the JSON text of a value gives, if it gives one. -/
def reread? : Value → Option Value
  | number x => x.reread?.map .number
  | text s => some (.text s)

/-- The tree that the JSON text of a value spells. -/
def tree : Value → Tree
  | number x =>
    match x.numeral? with
    | some n => .number n
    | none => .null
  | text s => .string (some s)

theorem spells_jsonText (v : Value) : Spells v.jsonText v.tree := by
  cases v with
  | text s => exact spells_string s
  | number x =>
    rw [tree]
    rcases x.numeral?_jsonText with ⟨n, hn, hplain, htext⟩ | ⟨hnone, -, htext⟩
    · rw [htext, hn]
      exact spells_number hplain
    · rw [htext, hnone]
      exact spells_null

theorem ofTree_tree_eq_ok_iff {v w : Value} : ofTree v.tree = .ok w ↔ v.reread? = some w := by
  cases v with
  | text s => simp [tree, ofTree, reread?]
  | number x =>
    rw [tree, reread?, Binary64.reread?]
    cases x.numeral? with
    | none => simp [ofTree]
    | some n =>
      simp only [ofTree, Tree.numberOf, Option.bind_some]
      split <;> simp [Except.map]

end Value

/-! ### Entries -/

namespace Record

theorem mem_entries_iff {r : Record} {f : Field} {v : Value} :
    (f, v) ∈ r.entries ↔ r.get? f = some v := by
  simp only [entries, List.mem_filterMap, Option.map_eq_some_iff, Prod.mk.injEq]
  constructor
  · rintro ⟨g, -, w, hw, rfl, rfl⟩
    exact hw
  · exact fun h => ⟨f, Field.mem_all f, v, h, rfl, rfl⟩

theorem fields_eq_filter (r : Record) :
    r.fields = Field.all.filter fun f => (r.get? f).isSome := by
  rw [fields, entries, List.map_filterMap, ← List.filterMap_eq_filter]
  congr 1
  funext f
  cases hv : r.get? f <;> simp [Option.guard, hv]

theorem nodup_fields (r : Record) : r.fields.Nodup := by
  have hall : Field.all.Nodup := by decide
  rw [fields_eq_filter]
  exact hall.filter _

theorem get?_foldl_set {entries : List (Field × Value)} (h : (entries.map Prod.fst).Nodup)
    {r : Record} {f : Field} {v : Value} :
    (entries.foldl (fun r e => r.set e.1 e.2) r).get? f = some v ↔
      (f, v) ∈ entries ∨ f ∉ entries.map Prod.fst ∧ r.get? f = some v := by
  induction entries generalizing r with
  | nil => simp
  | cons e entries ih =>
    obtain ⟨g, w⟩ := e
    obtain ⟨hg, hrest⟩ := List.nodup_cons.1 h
    rw [List.foldl_cons, ih hrest, get?_set]
    by_cases hgf : g = f
    · subst hgf
      -- the entry is the only one of its field
      have hnone : (g, v) ∉ entries := fun hmem => hg (List.mem_map.2 ⟨_, hmem, rfl⟩)
      simp [hnone, hg, eq_comm]
    · simp [hgf, Ne.symm hgf]

/-- A record holds its entries, if no field has two. -/
theorem get?_ofEntries {entries : List (Field × Value)} (h : (entries.map Prod.fst).Nodup)
    {f : Field} {v : Value} : (ofEntries entries).get? f = some v ↔ (f, v) ∈ entries := by
  simp [ofEntries, get?_foldl_set h]

theorem ofEntries_entries (r : Record) : ofEntries r.entries = r :=
  ext_get? fun f => Option.ext fun v => by
    rw [get?_ofEntries r.nodup_fields, mem_entries_iff]

end Record

/-! ### Records -/

namespace Record

/-- A record comes back as another, value by value. -/
def Rereads (r r' : Record) : Prop :=
  ∀ f, Option.Rel (fun v w => v.reread? = some w) (r.get? f) (r'.get? f)

/-- The members that the JSON text of some entries spells. -/
def memberTrees (entries : List (Field × Value)) : List (Option String × Tree) :=
  entries.map fun e => (some e.1.label, e.2.tree)

/-- The tree that the JSON text of a record spells. -/
def tree (r : Record) : Tree :=
  .object (.ofList (memberTrees r.entries))

theorem spells_jsonText (r : Record) : Spells r.jsonText r.tree := by
  refine spells_object ?_
  rw [memberTrees, List.forall₂_map_left_iff, List.forall₂_map_right_iff]
  exact List.forall₂_same.2 fun e _ => ⟨rfl, e.2.spells_jsonText⟩

theorem spells_listText (rs : List Record) :
    Spells (listText rs) (.array (.ofList (rs.map tree))) := by
  refine spells_array ?_
  rw [List.forall₂_map_left_iff, List.forall₂_map_right_iff]
  exact List.forall₂_same.2 fun r _ => r.spells_jsonText

/-- Reading members sets the fields to what comes back of their values. -/
theorem ofMembers_eq_ok_iff {entries : List (Field × Value)} {before after : Record} :
    ofMembers before (.ofList (memberTrees entries)) = .ok after ↔
      ∃ entries' : List (Field × Value),
        List.Forall₂ (fun e e' => e.1 = e'.1 ∧ e.2.reread? = some e'.2) entries entries' ∧
        after = entries'.foldl (fun r e => r.set e.1 e.2) before := by
  induction entries generalizing before with
  | nil =>
    have hmembers : ofMembers before .done = .ok after ↔ before = after := by
      rw [ofMembers, Except.ok.injEq]
    simp only [memberTrees, List.map_nil, Members.ofList, List.foldr_nil, hmembers,
      List.forall₂_nil_left_iff, exists_eq_left, List.foldl_nil, eq_comm]
  | cons e entries ih =>
    obtain ⟨f, v⟩ := e
    have hmember : ofMembers before (.ofList (memberTrees ((f, v) :: entries))) = .ok after ↔
        ∃ w, v.reread? = some w ∧
          ofMembers (before.set f w) (.ofList (memberTrees entries)) = .ok after := by
      simp only [memberTrees, List.map_cons, Members.ofList, List.foldr_cons, ofMembers,
        Tree.textOf]
      rw [bind_eq_ok_iff]
      simp only [Except.ok.injEq, exists_eq_left', Field.ofLabel?_eq_some_iff.2 rfl,
        bind_eq_ok_iff, Value.ofTree_tree_eq_ok_iff]
    rw [hmember]
    simp only [ih, List.forall₂_cons_left_iff]
    constructor
    · rintro ⟨w, hw, entries', hentries, rfl⟩
      exact ⟨(f, w) :: entries', ⟨(f, w), entries', ⟨rfl, hw⟩, hentries, rfl⟩, rfl⟩
    · rintro ⟨_, ⟨⟨_, w⟩, entries', ⟨rfl, hw⟩, hentries, rfl⟩, rfl⟩
      exact ⟨w, hw, entries', hentries, rfl⟩

/-- Entries that come back of those of a record are those of a record that comes back. -/
theorem rereads_ofEntries {r : Record} {entries' : List (Field × Value)}
    (h : List.Forall₂ (fun e e' => e.1 = e'.1 ∧ e.2.reread? = some e'.2) r.entries entries') :
    r.Rereads (ofEntries entries') := by
  intro f
  have hfields : r.fields = entries'.map Prod.fst :=
    forall₂_eq_iff_map_eq.1 (h.imp fun _ _ h => h.1)
  have hnodup : (entries'.map Prod.fst).Nodup := hfields ▸ r.nodup_fields
  cases hv : r.get? f with
  | none =>
    have hnot : f ∉ entries'.map Prod.fst := by
      rw [← hfields, mem_fields_iff, hv]
      exact Bool.false_ne_true
    have hnone : (ofEntries entries').get? f = none :=
      Option.eq_none_iff_forall_ne_some.2 fun w hw =>
        hnot (List.mem_map.2 ⟨_, (get?_ofEntries hnodup).1 hw, rfl⟩)
    rw [hnone]
    exact .none
  | some v =>
    obtain ⟨⟨_, w⟩, hmem, rfl, hw⟩ := exists_of_mem_left h (mem_entries_iff.2 hv)
    rw [(get?_ofEntries hnodup).2 hmem]
    exact .some hw

theorem ofTree_tree_eq_ok_iff {r r' : Record} : ofTree r.tree = .ok r' ↔ r.Rereads r' := by
  rw [tree, ofTree, ofMembers_eq_ok_iff]
  constructor
  · rintro ⟨entries', hentries, rfl⟩
    exact rereads_ofEntries hentries
  · intro h
    refine ⟨r'.entries, ?_, (ofEntries_entries r').symm⟩
    -- both lists go through all fields
    have hall : ∀ fields : List Field, List.Forall₂
        (fun e e' : Field × Value => e.1 = e'.1 ∧ e.2.reread? = some e'.2)
        (fields.filterMap fun f => (r.get? f).map (f, ·))
        (fields.filterMap fun f => (r'.get? f).map (f, ·)) := by
      intro fields
      induction fields with
      | nil => exact .nil
      | cons f fields ih =>
        have hf := h f
        cases hv : r.get? f with
        | none =>
          rw [hv, optionRel_none_left_iff] at hf
          simpa only [List.filterMap_cons, hv, hf, Option.map_none] using ih
        | some v =>
          rw [hv, optionRel_some_left_iff] at hf
          obtain ⟨w, hw, hreread⟩ := hf
          simp only [List.filterMap_cons, hv, hw, Option.map_some]
          exact .cons ⟨rfl, hreread⟩ ih
    exact hall Field.all

/-- **Records can be read back from their text if their values can, and come back with these.** -/
theorem parseList_listText_eq_ok_iff {rs rs' : List Record} :
    parseList (String.ofList (listText rs)) = .ok rs' ↔ List.Forall₂ Rereads rs rs' := by
  rw [parseList, Json.decode_of_spells (spells_listText rs), Tree.toListOf,
    Tree.decodeItems_ofList, mapM_eq_ok_iff, List.forall₂_map_left_iff]
  simp only [ofTree_tree_eq_ok_iff]

end Record

/-- A dataset comes back as another, record by record. -/
structure Dataset.Rereads (d d' : Dataset) : Prop where
  /-- The id is the same. -/
  id : d'.id = d.id
  /-- The kind is the same. -/
  kind : d'.kind = d.kind
  /-- The records come back in their order. -/
  records : List.Forall₂ Record.Rereads d.records.toList d'.records.toList

end CampusQuery
