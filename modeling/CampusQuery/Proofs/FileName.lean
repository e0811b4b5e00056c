import CampusQuery.Archive.Basic
import CampusQuery.Proofs.KeyText

/-!
# Names of files

A file's name says which dataset it holds, and says it of one dataset only: `Archive.parseFileName?`
reads the id and kind that `Archive.fileName` has written, if the id is valid, and reads nothing
else (`Archive.parseFileName?_eq_some_iff`). So a name that can be read is that of one dataset, and
no two datasets share a file.

The id is what stands before the last underscore. No kind holds an underscore, so that one is the
underscore which was written between them, whatever the id.
-/

namespace CampusQuery

theorem Kind.ofName?_eq_some_iff {name : String} {kind : Kind} :
    Kind.ofName? name = some kind ↔ kind.name = name := by
  constructor
  · intro h
    simpa using List.find?_some h
  · rintro rfl
    cases kind <;> decide +kernel

theorem Kind.underscore_not_mem_name (kind : Kind) : '_' ∉ kind.name.toList := by
  cases kind <;> decide +kernel

theorem Kind.name_injective {kind kind' : Kind} (h : kind.name = kind'.name) : kind = kind' :=
  Option.some.inj ((Kind.ofName?_eq_some_iff.2 rfl).symm.trans (Kind.ofName?_eq_some_iff.2 h.symm))

namespace Archive

/-- A text is split at the last place of a character. -/
theorem splitLast?_eq_some_iff {mark : Char} {text front back : List Char} :
    splitLast? mark text = some (front, back) ↔ text = front ++ mark :: back ∧ mark ∉ back := by
  -- from the end of the text, the last place is the first one
  have hreverse : text = front ++ mark :: back ∧ mark ∉ back ↔
      text.reverse = back.reverse ++ mark :: front.reverse ∧ mark ∉ back.reverse := by
    rw [List.mem_reverse, ← List.reverse_inj]
    simp
  rw [hreverse, ← takeWhile_dropWhile_iff, splitLast?]
  cases text.reverse.dropWhile (· != mark) with
  | nil => simp
  | cons c rest =>
    simp only [Option.some.injEq, Prod.mk.injEq, List.cons.injEq,
      List.reverse_eq_iff]
    tauto

theorem stem?_eq_some_iff {name : String} {stem : List Char} :
    stem? name = some stem ↔ name.toList = stem ++ ".json".toList ∧ stem ≠ [] := by
  have hjson : ".json".toList = '.' :: "json".toList := by decide +kernel
  have hdot : '.' ∉ "json".toList := by decide +kernel
  rw [stem?, hjson]
  constructor
  · intro h
    cases hsplit : splitLast? '.' name.toList with
    | none =>
      rw [hsplit] at h
      exact nomatch h
    | some sides =>
      obtain ⟨front, extension⟩ := sides
      rw [hsplit] at h
      simp only [Option.ite_none_right_eq_some, Option.some.injEq] at h
      obtain ⟨⟨hne, rfl⟩, rfl⟩ := h
      exact ⟨(splitLast?_eq_some_iff.1 hsplit).1, hne⟩
  · rintro ⟨hname, hne⟩
    rw [splitLast?_eq_some_iff.2 ⟨hname, hdot⟩]
    exact if_pos ⟨hne, rfl⟩

/-- **A name is read exactly if it is that of a dataset with a valid id**, and then as the name of
that dataset. -/
theorem parseFileName?_eq_some_iff {name id : String} {kind : Kind} :
    parseFileName? name = some (id, kind) ↔ name = fileName id kind ∧ idFault? id = none := by
  have hname : name = fileName id kind ↔
      name.toList = (id.toList ++ '_' :: kind.name.toList) ++ ".json".toList := by
    rw [← String.toList_inj]
    simp [fileName]
  rw [hname, parseFileName?]
  simp only [Option.bind_eq_some_iff, stem?_eq_some_iff, Prod.exists, splitLast?_eq_some_iff]
  constructor
  · rintro ⟨stem, ⟨hstem, -⟩, idChars, kindChars, ⟨rfl, -⟩, h⟩
    split at h
    · next hvalid =>
      obtain ⟨k, hk, heq⟩ := Option.map_eq_some_iff.1 h
      obtain ⟨rfl, rfl⟩ := Prod.mk.inj heq
      rw [Kind.ofName?_eq_some_iff.1 hk, String.toList_ofList, String.toList_ofList]
      exact ⟨hstem, hvalid⟩
    · exact nomatch h
  · rintro ⟨hstem, hvalid⟩
    refine ⟨_, ⟨hstem, by simp⟩, _, _, ⟨rfl, kind.underscore_not_mem_name⟩, ?_⟩
    rw [String.ofList_toList, String.ofList_toList, if_pos hvalid,
      Kind.ofName?_eq_some_iff.2 rfl]
    rfl

theorem fileName_injective {id id' : String} {kind kind' : Kind} (h : idFault? id = none)
    (h' : idFault? id' = none) (heq : fileName id kind = fileName id' kind') :
    id = id' ∧ kind = kind' := by
  have hread := (parseFileName?_eq_some_iff.2 ⟨heq, h'⟩).symm.trans
    (parseFileName?_eq_some_iff.2 ⟨rfl, h⟩)
  obtain ⟨rfl, rfl⟩ := Prod.mk.inj (Option.some.inj hread)
  exact ⟨rfl, rfl⟩

end Archive

end CampusQuery
