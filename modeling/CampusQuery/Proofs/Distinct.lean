import Mathlib.Data.List.Forall2
import Mathlib.Data.List.Induction

/-!
# Lists without repetitions

Distinct columns, distinct values and the keys of groups are all collected in the same way: from
left to right, an item is put at the end unless an equal one is there already. This is
`List.eraseDups` for any equality that is an equivalence (`foldl_new_eq_eraseDups`), and the lemmas
here say what that list is, without asking that equal items are identical.
-/

namespace CampusQuery

variable {α β : Type} [BEq α] [BEq β]

/-- Collecting from left to right erases the duplicates. -/
theorem foldl_new_eq_eraseDups [EquivBEq α] (as : List α) :
    as.foldl (fun kept a => if kept.any (· == a) then kept else kept ++ [a]) [] =
      as.eraseDups := by
  -- the loop of the library keeps what it has collected in reverse
  have loop : ∀ (as kept : List α),
      as.foldl (fun kept a => if kept.any (· == a) then kept else kept ++ [a]) kept.reverse =
        List.eraseDupsBy.loop (· == ·) as kept := by
    intro as
    induction as with
    | nil => exact fun kept => rfl
    | cons a rest ih =>
      intro kept
      have hany : kept.reverse.any (· == a) = kept.any (a == ·) := by
        simp only [List.any_reverse, BEq.comm]
      rw [List.foldl_cons, List.eraseDupsBy.loop, hany]
      cases kept.any (a == ·) with
      | true => exact ih kept
      | false => simpa using ih (a :: kept)
  exact loop as []

/-- One more item is put at the end unless an equal one is there. -/
theorem eraseDups_concat [EquivBEq α] (as : List α) (a : α) :
    (as ++ [a]).eraseDups =
      if as.eraseDups.any (· == a) then as.eraseDups else as.eraseDups ++ [a] := by
  rw [← foldl_new_eq_eraseDups, ← foldl_new_eq_eraseDups, List.foldl_append]
  rfl

/-- Nothing is lost up to equality. -/
theorem any_beq_eraseDups [EquivBEq α] (as : List α) (a : α) :
    as.eraseDups.any (· == a) = as.any (· == a) := by
  induction as using List.reverseRecOn with
  | nil => rfl
  | append_singleton as b ih =>
    rw [eraseDups_concat, List.any_append]
    by_cases hb : as.eraseDups.any (· == b)
    · rw [if_pos hb, ih]
      -- what equals `b` is there already
      cases hba : b == a with
      | false => simp [hba]
      | true =>
        obtain ⟨c, hc, hcb⟩ := List.any_eq_true.1 hb
        have hany : as.any (· == a) := by
          rw [← ih]
          exact List.any_eq_true.2 ⟨c, hc, BEq.trans hcb hba⟩
        simp [hany]
    · rw [if_neg hb, List.any_append, ih]

/-- No two items that are kept are equal. -/
theorem pairwise_eraseDups_bne [EquivBEq α] (as : List α) :
    as.eraseDups.Pairwise fun a b => (a == b) = false := by
  induction as using List.reverseRecOn with
  | nil => exact List.Pairwise.nil
  | append_singleton as a ih =>
    rw [eraseDups_concat]
    by_cases ha : as.eraseDups.any (· == a)
    · rwa [if_pos ha]
    · rw [if_neg ha]
      refine List.pairwise_append.2 ⟨ih, List.pairwise_singleton _ _, fun b hb c hc => ?_⟩
      obtain rfl := List.mem_singleton.1 hc
      simp only [List.any_eq_true, not_exists, not_and, Bool.not_eq_true] at ha
      exact ha b hb

/-- What is kept was in the list. -/
theorem mem_of_mem_eraseDups [EquivBEq α] {as : List α} {a : α} (h : a ∈ as.eraseDups) :
    a ∈ as := by
  induction as using List.reverseRecOn with
  | nil => exact h
  | append_singleton as b ih =>
    rw [eraseDups_concat] at h
    split at h
    · exact List.mem_append_left _ (ih h)
    · rcases List.mem_append.1 h with h | h
      · exact List.mem_append_left _ (ih h)
      · exact List.mem_append_right _ h

/-- Of the items that equal one that is kept, that one is kept. -/
theorem eraseDups_filter_beq [EquivBEq α] {as : List α} {a : α} (h : a ∈ as.eraseDups) :
    (as.filter (· == a)).eraseDups = [a] := by
  induction as using List.reverseRecOn with
  | nil => exact nomatch h
  | append_singleton as b ih =>
    -- the item is kept either from before, or because nothing before equals it
    have hcases : a ∈ as.eraseDups ∨ a = b ∧ as.any (· == b) = false := by
      rw [eraseDups_concat, any_beq_eraseDups] at h
      split at h
      · exact Or.inl h
      · next hnew =>
        rw [List.mem_append, List.mem_singleton] at h
        exact h.imp_right fun hab => ⟨hab, Bool.eq_false_iff.2 hnew⟩
    rw [List.filter_append]
    rcases hcases with hold | ⟨rfl, hnew⟩
    · cases hba : b == a with
      | false => simp [hba, ih hold]
      | true => simp [hba, eraseDups_concat, ih hold, BEq.symm hba]
    · have hnone : as.filter (· == a) = [] := by simpa using hnew
      have hlast : [a].filter (· == a) = [a] := List.filter_eq_self.2 fun c hc => by
        rw [List.mem_singleton.1 hc]
        exact BEq.rfl
      rw [hnone, List.nil_append, hlast]
      rfl

/-- A function that keeps equality and inequality keeps what is kept. -/
theorem eraseDups_map [EquivBEq α] [EquivBEq β] {f : α → β} {as : List α}
    (hf : ∀ a ∈ as, ∀ b ∈ as, (f a == f b) = (a == b)) :
    (as.map f).eraseDups = as.eraseDups.map f := by
  induction as using List.reverseRecOn with
  | nil => rfl
  | append_singleton as a ih =>
    have ih := ih fun b hb c hc => hf b (List.mem_append_left _ hb) c (List.mem_append_left _ hc)
    have hany : (as.eraseDups.map f).any (· == f a) = as.eraseDups.any (· == a) := by
      rw [List.any_map, Bool.eq_iff_iff, List.any_eq_true, List.any_eq_true]
      refine exists_congr fun b => and_congr_right fun hb => ?_
      have hb := List.mem_append_left [a] (mem_of_mem_eraseDups hb)
      rw [Function.comp_apply, hf b hb a (List.mem_append_right _ (List.mem_singleton_self a))]
    rw [List.map_append, List.map_singleton, eraseDups_concat, eraseDups_concat, ih, hany]
    split <;> simp

/-! ### Rearranged lists -/

/-- Lists without repetitions that have the same items match item by item once one of them is
rearranged. -/
theorem exists_perm_forall₂_beq [EquivBEq α] {as bs : List α}
    (has : as.Pairwise fun a b => (a == b) = false) (hbs : bs.Pairwise fun a b => (a == b) = false)
    (hany : ∀ c, as.any (· == c) = bs.any (· == c)) :
    ∃ cs, cs.Perm bs ∧ List.Forall₂ (fun a c => (a == c) = true) as cs := by
  induction as generalizing bs with
  | nil =>
    have hnil : bs = [] := List.eq_nil_iff_forall_not_mem.2 fun b hb => by
      have hb : bs.any (· == b) = true := List.any_eq_true.2 ⟨b, hb, BEq.rfl⟩
      exact Bool.false_ne_true ((hany b).trans hb)
    exact ⟨[], hnil ▸ .nil, .nil⟩
  | cons a as ih =>
    obtain ⟨ha, has⟩ := List.pairwise_cons.1 has
    have hfirst : bs.any (· == a) = true := by
      rw [← hany, List.any_cons, BEq.rfl, Bool.true_or]
    obtain ⟨b, hb, hba⟩ := List.any_eq_true.1 hfirst
    obtain ⟨before, after, rfl⟩ := List.append_of_mem hb
    obtain ⟨hb, hrest⟩ := List.pairwise_cons.1
      (List.perm_middle.pairwise hbs fun h => BEq.symm_false h)
    have hany : ∀ c, as.any (· == c) = (before ++ after).any (· == c) := by
      intro c
      have hc := hany c
      rw [List.any_cons, List.any_append, List.any_cons, Bool.or_left_comm, ← List.any_append,
        BEq.congr_left hba] at hc
      cases hac : a == c with
      | false => simpa [hac] using hc
      | true =>
        -- no other item of either list equals the one taken out
        have hleft : as.any (· == c) = false := List.any_eq_false.2 fun x hx hxc =>
          Bool.false_ne_true ((ha x hx).symm.trans (BEq.trans hac (BEq.symm hxc)))
        have hright : (before ++ after).any (· == c) = false := List.any_eq_false.2 fun x hx hxc =>
          Bool.false_ne_true ((hb x hx).symm.trans (BEq.trans hba (BEq.trans hac (BEq.symm hxc))))
        rw [hleft, hright]
    obtain ⟨cs, hperm, hcs⟩ := ih has hrest hany
    exact ⟨b :: cs, (hperm.cons b).trans List.perm_middle.symm, .cons (BEq.symm hba) hcs⟩

/-- What is kept of a rearranged list matches what is kept of the list. -/
theorem exists_perm_eraseDups [EquivBEq α] {as bs : List α} (h : as.Perm bs) :
    ∃ cs, cs.Perm bs.eraseDups ∧ List.Forall₂ (fun a c => (a == c) = true) as.eraseDups cs := by
  refine exists_perm_forall₂_beq (pairwise_eraseDups_bne as) (pairwise_eraseDups_bne bs) ?_
  intro c
  rw [any_beq_eraseDups, any_beq_eraseDups, h.any_eq]

end CampusQuery
