import CampusQuery.Json.Decode
import CampusQuery.Proofs.NumeralText
import CampusQuery.Proofs.Outcome

/-!
# JSON text and the tree it spells

A text spells a tree if reading it, wherever a value may begin, completes that tree and nothing
else (`Spells`). The writers of JSON text spell what they say: strings (`spells_string`), plain
numerals (`spells_number`), and arrays and objects of texts that spell something themselves
(`spells_array`, `spells_object`). What a decoder makes of such a text is what it makes of the tree
(`Json.decode_of_spells`).

The definition speaks of any containers that are already open and of any text to come, so that the
proofs for arrays and objects can go through their parts one after the other.
-/

namespace CampusQuery

/-! ### Tokens one by one -/

namespace Token

/-- Tokens are read behind those already read. -/
theorem toList_readAll (tokens : Array Token) (text : List Char) :
    (readAll tokens text).toList = tokens.toList ++ ofText text := by
  rw [ofText]
  -- the induction is on the text, with any tokens before it
  induction h : text.length using Nat.strong_induction_on generalizing tokens text with
  | _ length ih =>
    subst h
    cases text with
    | nil => simp [readAll]
    | cons c rest =>
      rw [readAll, readAll]
      split
      · exact ih _ (by simp) tokens rest rfl
      · split
        · next t tail hread =>
          have hshort : tail.length < (c :: rest).length :=
            Nat.lt_succ_of_le (length_read? hread)
          rw [ih _ hshort (tokens.push t) tail rfl, ih _ hshort (#[].push t) tail rfl]
          simp
        · simp

theorem ofText_cons {c : Char} {rest tail : List Char} {t : Token} (hblank : isBlank c = false)
    (hread : read? c rest = some (t, tail)) : ofText (c :: rest) = t :: ofText tail := by
  rw [ofText, readAll]
  simp only [hblank, Bool.false_eq_true, if_false]
  split
  · next hread' =>
    rw [hread] at hread'
    obtain ⟨rfl, rfl⟩ := Prod.mk.inj (Option.some.inj hread')
    simp [toList_readAll]
  · next hnone => cases hread.symm.trans hnone

end Token

namespace Progress

/-- How far the reading has come behind more text. -/
def read (p : Progress) (text : List Char) : Progress :=
  (Token.ofText text).foldl step p

theorem read_nil (p : Progress) : p.read [] = p := by
  simp [read, Token.ofText, Token.readAll]

theorem read_cons (p : Progress) {c : Char} {rest tail : List Char} {t : Token}
    (hblank : Token.isBlank c = false) (hread : Token.read? c rest = some (t, tail)) :
    p.read (c :: rest) = (p.step t).read tail := by
  rw [read, Token.ofText_cons hblank hread, List.foldl_cons, read]

/-- A token of a single character. -/
theorem read_mark (p : Progress) (c : Char) (t : Token) (rest : List Char)
    (hblank : Token.isBlank c = false) (hread : Token.read? c rest = some (t, rest)) :
    p.read (c :: rest) = (p.step t).read rest :=
  p.read_cons hblank hread

end Progress

/-! ### Spelling -/

/-- Reading the text where a value may begin completes the tree. -/
def Spells (text : List Char) (t : Tree) : Prop :=
  ∀ stack rest, Ends rest →
    (Progress.within .value stack).read (text ++ rest) = (Progress.push t stack).read rest ∧
    (Progress.within .valueOrClose stack).read (text ++ rest) = (Progress.push t stack).read rest

/-- A value of a single token. -/
theorem spells_of_token {c : Char} {text : List Char} (token : Token) {t : Tree}
    (hblank : Token.isBlank c = false)
    (hread : ∀ rest, Ends rest → Token.read? c (text ++ rest) = some (token, rest))
    (hstart : ∀ stack, Progress.startValue token stack = Progress.push t stack)
    (hclose : token ≠ .closeBracket) : Spells (c :: text) t := by
  intro stack rest hrest
  have hvalue : (Progress.within .value stack).step token = Progress.push t stack := hstart stack
  have hfirst : (Progress.within .valueOrClose stack).step token = Progress.push t stack := by
    rw [← hstart, Progress.step]
    exact hclose
  rw [List.cons_append, Progress.read_cons _ hblank (hread rest hrest),
    Progress.read_cons _ hblank (hread rest hrest), hvalue, hfirst]
  exact ⟨rfl, rfl⟩

/-! ### Strings -/

namespace Token

theorem hexValue?_digitChar {n : Nat} (hn : n < 16) : hexValue? (Nat.digitChar n) = some n := by
  interval_cases n <;> decide

theorem pushUnit_of_lt {p : PartialString} {unit : Nat} (h : unit < 32) :
    p.pushUnit unit = p.push (Char.ofNat unit) := by
  rw [PartialString.pushUnit, if_neg (by omega), if_neg (by omega)]

/-- A control character is read back from its number. -/
theorem readString?_unit {p : PartialString} {c : Char} (hc : c.toNat < 32) (text : List Char) :
    readString? p .plain ('\\' :: 'u' :: '0' :: '0' :: Nat.digitChar (c.toNat / 16) ::
      Nat.digitChar (c.toNat % 16) :: text) = readString? (p.push c) .plain text := by
  have hhigh := hexValue?_digitChar (n := c.toNat / 16) (by omega)
  have hlow := hexValue?_digitChar (n := c.toNat % 16) (by omega)
  have hzero : hexValue? '0' = some 0 := rfl
  have hunit : p.pushUnit (c.toNat / 16 * 16 + c.toNat % 16) = p.push c := by
    rw [Nat.div_add_mod', pushUnit_of_lt hc, Char.ofNat_toNat]
  simp [readString?, hzero, hhigh, hlow, hunit]

/-- A character is read back from its escape. -/
theorem readString?_escape (p : PartialString) (c : Char) (text : List Char) :
    readString? p .plain (Json.escape c ++ text) = readString? (p.push c) .plain text := by
  have hofNat : ∀ {n}, c.toNat = n → c = Char.ofNat n := fun h => by rw [← h, Char.ofNat_toNat]
  rw [Json.escape]
  -- the cases are the escapes in the order in which the writer tries them
  split
  · next h => subst h; rfl
  split
  · next h => subst h; rfl
  split
  · next h => rw [hofNat h]; rfl
  split
  · next h => rw [hofNat h]; rfl
  split
  · next h => rw [hofNat h]; rfl
  split
  · next h => rw [hofNat h]; rfl
  split
  · next h => rw [hofNat h]; rfl
  split
  · next hcontrol => exact readString?_unit hcontrol text
  · next hquote hslash _ _ _ _ _ hplain =>
    rw [List.singleton_append, readString?, if_neg hquote, if_neg hslash, if_neg hplain]

/-- A string is read back from its text. -/
theorem readString?_escapes (s rest : List Char) {p : PartialString} (hsound : p.sound = true)
    (hpending : p.pending = none) :
    readString? p .plain (s.flatMap Json.escape ++ '"' :: rest) =
      some (some (String.ofList (p.reversed.reverse ++ s)), rest) := by
  induction s generalizing p with
  | nil => simp [readString?, PartialString.text?, hsound, hpending]
  | cons c s ih =>
    rw [List.flatMap_cons, List.append_assoc, readString?_escape,
      ih (by simp [PartialString.push, hsound, hpending]) rfl]
    simp [PartialString.push]

theorem read?_string (s : String) (rest : List Char) :
    read? '"' (s.toList.flatMap Json.escape ++ '"' :: rest) = some (string (some s), rest) := by
  have h := readString?_escapes s.toList rest (p := .start) rfl rfl
  simp only [PartialString.start, List.reverse_nil, List.nil_append, String.ofList_toList] at h
  simp [read?, PartialString.start, h]

end Token

theorem spells_string (s : String) : Spells (Json.stringText s) (.string (some s)) := by
  refine spells_of_token (.string (some s)) rfl (fun rest _ => ?_) (fun _ => rfl) nofun
  have h := Token.read?_string s rest
  simpa using h

/-! ### Numbers and other words -/

namespace Token

theorem isBlank_of_isDigit {c : Char} (h : c.isDigit = true) : isBlank c = false := by
  by_contra hblank
  simp only [isBlank, Bool.not_eq_false, Bool.or_eq_true, beq_iff_eq] at hblank
  rcases hblank with ((rfl | rfl) | rfl) | rfl <;> exact absurd h (by decide)

theorem read?_of_isDigit {c : Char} (h : c.isDigit = true) (rest : List Char) :
    read? c rest = (readNumeral? false (c :: rest)).map fun (n, tail) => (number n, tail) := by
  unfold read?
  -- all other tokens begin with a character that is no digit
  split
  all_goals first
    | exact absurd h (by decide)
    | rfl

end Token

theorem spells_number {n : Numeral} (hn : n.Plain) :
    Spells (signText n.negative ++ n.spelling) (.number n) := by
  have hread : ∀ rest, Ends rest →
      Token.readNumeral? n.negative (n.spelling ++ rest) = some (n, rest) :=
    fun rest => Token.readNumeral?_spelling hn
  cases hneg : n.negative with
  | true =>
    refine spells_of_token (.number n) rfl (fun rest hrest => ?_) (fun _ => rfl) nofun
    have h := hread rest hrest
    rw [hneg] at h
    simp [Token.read?, h]
  | false =>
    -- the numeral begins with a digit
    obtain ⟨c, whole, hwhole⟩ := List.exists_cons_of_ne_nil hn.nonempty
    have hdigit : c.isDigit = true := hn.whole c (by simp [hwhole])
    have htext : signText false ++ n.spelling =
        c :: (whole ++ (fractionText n.fraction ++ powerText n.power)) := by
      rw [Numeral.spelling, hwhole]
      rfl
    have hspelling : n.spelling =
        c :: (whole ++ (fractionText n.fraction ++ powerText n.power)) := by
      rw [← htext]
      rfl
    rw [htext]
    refine spells_of_token (.number n) (Token.isBlank_of_isDigit hdigit)
      (fun rest hrest => ?_) (fun _ => rfl) nofun
    have h := hread rest hrest
    rw [hneg, hspelling] at h
    rw [Token.read?_of_isDigit hdigit, ← List.cons_append, h]
    rfl

theorem spells_null : Spells ['n', 'u', 'l', 'l'] .null :=
  spells_of_token .null rfl (fun _ _ => rfl) (fun _ => rfl) nofun

/-! ### Arrays and objects -/

/-- The items of a closed array. -/
def Items.ofList (items : List Tree) : Items :=
  items.foldr .cons .done

/-- The members of a closed object. -/
def Members.ofList (members : List (Option String × Tree)) : Members :=
  members.foldr (fun m rest => .cons m.1 m.2 rest) .done

theorem commaSeparated_cons (item : List Char) (rest : List (List Char)) :
    Json.commaSeparated (item :: rest) = item ++ rest.flatMap (',' :: ·) := by
  induction rest generalizing item with
  | nil => simp [Json.commaSeparated]
  | cons next rest ih =>
    rw [Json.commaSeparated, ih, List.flatMap_cons, List.cons_append]
    exact List.cons_ne_nil next rest

namespace Progress

/-- More items of an open array. -/
theorem read_items {texts : List (List Char)} {items : List Tree}
    (h : List.Forall₂ Spells texts items) (before : List Tree) (stack : List Frame)
    (rest : List Char) :
    (within .commaOrClose (.array before :: stack)).read (texts.flatMap (',' :: ·) ++ ']' :: rest) =
      (push (.array (Items.prepend before (.ofList items))) stack).read rest := by
  induction h generalizing before with
  | nil => exact read_mark _ ']' .closeBracket rest rfl rfl
  | @cons text item texts items hitem htexts ih =>
    have hends : Ends (texts.flatMap (',' :: ·) ++ ']' :: rest) := by
      cases texts <;> simp
    rw [List.flatMap_cons, List.cons_append, List.cons_append, List.append_assoc,
      read_mark _ ',' .comma _ rfl rfl]
    exact ((hitem (.array before :: stack) _ hends).1).trans (ih (item :: before))

end Progress

theorem spells_array {texts : List (List Char)} {items : List Tree}
    (h : List.Forall₂ Spells texts items) :
    Spells (Json.arrayText texts) (.array (.ofList items)) := by
  intro stack rest hrest
  have hbody : (Progress.within .valueOrClose (.array [] :: stack)).read
      (Json.commaSeparated texts ++ ']' :: rest) =
        (Progress.push (.array (.ofList items)) stack).read rest := by
    cases h with
    | nil => exact Progress.read_mark _ ']' .closeBracket rest rfl rfl
    | @cons text item texts items hitem htexts =>
      have hends : Ends (texts.flatMap (',' :: ·) ++ ']' :: rest) := by
        cases texts <;> simp
      rw [commaSeparated_cons, List.append_assoc, (hitem _ _ hends).2]
      exact Progress.read_items htexts [item] stack rest
  have htext : Json.arrayText texts ++ rest =
      '[' :: (Json.commaSeparated texts ++ ']' :: rest) := by
    simp [Json.arrayText]
  rw [htext, Progress.read_mark _ '[' .openBracket _ rfl rfl,
    Progress.read_mark _ '[' .openBracket _ rfl rfl]
  exact ⟨hbody, hbody⟩

/-- A member of an object spells a name and a tree. -/
def SpellsMember (m : String × List Char) (t : Option String × Tree) : Prop :=
  t.1 = some m.1 ∧ Spells m.2 t.2

namespace Progress

/-- A member of an open object. -/
theorem read_member {m : String × List Char} {t : Option String × Tree} (h : SpellsMember m t)
    (before : List (Option String × Tree)) (stack : List Frame) {rest : List Char}
    (hrest : Ends rest) {expect : Expect} (hexpect : expect = .name ∨ expect = .nameOrClose) :
    (within expect (.object before :: stack)).read (Json.memberText m.1 m.2 ++ rest) =
      (within .commaOrClose (.object (t :: before) :: stack)).read rest := by
  obtain ⟨name, text⟩ := m
  obtain ⟨name', value⟩ := t
  obtain ⟨rfl, hvalue⟩ := h
  have hname := Token.read?_string name (':' :: (text ++ rest))
  have htext : Json.memberText name text ++ rest =
      '"' :: (name.toList.flatMap Json.escape ++ '"' :: ':' :: (text ++ rest)) := by
    simp [Json.memberText, Json.stringText]
  have hstart : (within expect (.object before :: stack)).step (.string (some name)) =
      within .colon (.member before (some name) :: stack) := by
    rcases hexpect with rfl | rfl <;> rfl
  rw [htext, read_cons _ rfl hname, hstart, read_mark _ ':' .colon _ rfl rfl]
  exact (hvalue (.member before (some name) :: stack) rest hrest).1

/-- More members of an open object. -/
theorem read_members {members : List (String × List Char)} {trees : List (Option String × Tree)}
    (h : List.Forall₂ SpellsMember members trees) (before : List (Option String × Tree))
    (stack : List Frame) (rest : List Char) :
    (within .commaOrClose (.object before :: stack)).read
      ((members.map fun m => Json.memberText m.1 m.2).flatMap (',' :: ·) ++ '\x7d' :: rest) =
        (push (.object (Members.prepend before (.ofList trees))) stack).read rest := by
  induction h generalizing before with
  | nil => exact read_mark _ '\x7d' .closeBrace rest rfl rfl
  | @cons m t members trees hmember hmembers ih =>
    have hends : Ends ((members.map fun m => Json.memberText m.1 m.2).flatMap (',' :: ·) ++
        '\x7d' :: rest) := by
      cases members <;> simp
    rw [List.map_cons, List.flatMap_cons, List.cons_append, List.cons_append, List.append_assoc,
      read_mark _ ',' .comma _ rfl rfl]
    exact (read_member hmember before stack hends (.inl rfl)).trans (ih (t :: before))

end Progress

theorem spells_object {members : List (String × List Char)} {trees : List (Option String × Tree)}
    (h : List.Forall₂ SpellsMember members trees) :
    Spells (Json.objectText members) (.object (.ofList trees)) := by
  intro stack rest hrest
  have hbody : (Progress.within .nameOrClose (.object [] :: stack)).read
      (Json.commaSeparated (members.map fun m => Json.memberText m.1 m.2) ++ '\x7d' :: rest) =
        (Progress.push (.object (.ofList trees)) stack).read rest := by
    cases h with
    | nil => exact Progress.read_mark _ '\x7d' .closeBrace rest rfl rfl
    | @cons m t members trees hmember hmembers =>
      have hends : Ends ((members.map fun m => Json.memberText m.1 m.2).flatMap (',' :: ·) ++
          '\x7d' :: rest) := by
        cases members <;> simp
      rw [List.map_cons, commaSeparated_cons, List.append_assoc,
        Progress.read_member hmember [] stack hends (.inr rfl)]
      exact Progress.read_members hmembers [t] stack rest
  have htext : Json.objectText members ++ rest =
      '\x7b' :: (Json.commaSeparated (members.map fun m => Json.memberText m.1 m.2) ++
        '\x7d' :: rest) := by
    simp [Json.objectText]
  rw [htext, Progress.read_mark _ '\x7b' .openBrace _ rfl rfl,
    Progress.read_mark _ '\x7b' .openBrace _ rfl rfl]
  exact ⟨hbody, hbody⟩

/-! ### Decoding -/

theorem Tree.decodeItems_ofList {α : Type} (decoder : Tree → Except Fault α) (items : List Tree) :
    decodeItems decoder (.ofList items) = items.mapM decoder := by
  induction items with
  | nil => rfl
  | cons item items ih =>
    rw [List.mapM_cons, ← ih]
    rfl

/-- A text is decoded as the tree that it spells. -/
theorem Json.decode_of_spells {α : Type} {text : List Char} {t : Tree} (h : Spells text t)
    (decoder : Tree → Except Fault α) : decode decoder (String.ofList text) = decoder t := by
  have hread := (h [] [] ends_nil).1
  rw [List.append_nil, Progress.read_nil] at hread
  have hdocument : Document.ofText (String.ofList text) = ⟨t, true⟩ := by
    rw [Document.ofText, Document.ofTokens, String.toList_ofList]
    exact congrArg Document.ofProgress hread
  rw [decode, hdocument]
  cases decoder t <;> rfl

end CampusQuery
