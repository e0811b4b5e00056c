import CampusQuery.Json.Token

/-!
# Trees of JSON text

A `Tree` is what a JSON text says before anyone asks what it should have said. It exists for every
text: where the text is malformed or ends too early the tree is *cut*, and nothing after that place
is in it. So a reader that walks a tree from left to right meets the first problem of the text
first, be it a cut or a value that the reader has no use for.

`Document.ofText` builds the tree with a stack of the containers that are open (`Frame`), one token
at a time; every token either fits what is expected next or cuts the tree.
-/

namespace CampusQuery

mutual

/-- A JSON text, as far as it is well formed. -/
inductive Tree where
  /-- The text is malformed before the value begins to make sense. -/
  | cut
  | null
  | bool (b : Bool)
  | number (n : Numeral)
  | string (s : Option String)
  | array (items : Items)
  | object (members : Members)

/-- The items of an array. -/
inductive Items where
  /-- The array is closed. -/
  | done
  /-- The text is malformed here. -/
  | cut
  | cons (item : Tree) (rest : Items)

/-- The members of an object. -/
inductive Members where
  /-- The object is closed. -/
  | done
  /-- The text is malformed here. -/
  | cut
  | cons (name : Option String) (value : Tree) (rest : Members)

end

/-- Items given last one first, in front of others. -/
def Items.prepend (reversed : List Tree) (rest : Items) : Items :=
  reversed.foldl (fun items t => .cons t items) rest

/-- Members given last one first, in front of others. -/
def Members.prepend (reversed : List (Option String × Tree)) (rest : Members) : Members :=
  reversed.foldl (fun members m => .cons m.1 m.2 members) rest

/-- A container that is still open, with what it holds so far, last one first. -/
inductive Frame where
  /-- An array. -/
  | array (reversed : List Tree)
  /-- An object between members. -/
  | object (reversed : List (Option String × Tree))
  /-- An object whose next member has its name but not its value. -/
  | member (reversed : List (Option String × Tree)) (name : Option String)

/-- What may come next. -/
inductive Expect where
  | value
  | valueOrClose
  | nameOrClose
  | name
  | colon
  | commaOrClose

/-- How far the reading of a text has come. -/
inductive Progress where
  /-- Inside the root value, with the innermost open container first. -/
  | within (expect : Expect) (stack : List Frame)
  /-- The root value is complete. -/
  | complete (root : Tree)
  /-- A token did not fit. -/
  | stopped (root : Tree)

namespace Progress

/-- The root of a tree that is cut behind a value. -/
def cutAfter (value : Tree) : List Frame → Tree
  | [] => value
  | .array items :: stack => cutAfter (.array (Items.prepend (value :: items) .cut)) stack
  | .object members :: stack => cutAfter (.object (Members.prepend members .cut)) stack
  | .member members name :: stack =>
    cutAfter (.object (Members.prepend ((name, value) :: members) .cut)) stack

/-- The root of a tree that is cut here. -/
def cutHere : List Frame → Tree
  | [] => .cut
  | .array items :: stack => cutAfter (.array (Items.prepend items .cut)) stack
  | .object members :: stack => cutAfter (.object (Members.prepend members .cut)) stack
  | .member members name :: stack =>
    cutAfter (.object (Members.prepend ((name, .cut) :: members) .cut)) stack

/-- A value is complete. -/
def push (value : Tree) : List Frame → Progress
  | [] => complete value
  | .array items :: stack => within .commaOrClose (.array (value :: items) :: stack)
  | .member members name :: stack =>
    within .commaOrClose (.object ((name, value) :: members) :: stack)
  | .object members :: stack => stopped (cutHere (.object members :: stack))

/-- A token where a value begins. -/
def startValue (t : Token) (stack : List Frame) : Progress :=
  match t with
  | .null => push .null stack
  | .bool b => push (.bool b) stack
  | .number n => push (.number n) stack
  | .string s => push (.string s) stack
  | .openBracket => within .valueOrClose (.array [] :: stack)
  | .openBrace => within .nameOrClose (.object [] :: stack)
  | _ => stopped (cutHere stack)

/-- A token that closes the innermost container. -/
def close (t : Token) (stack : List Frame) : Progress :=
  match t, stack with
  | .closeBracket, .array items :: rest => push (.array (Items.prepend items .done)) rest
  | .closeBrace, .object members :: rest => push (.object (Members.prepend members .done)) rest
  | _, _ => stopped (cutHere stack)

/-- A token where the name of a member begins. -/
def startMember (t : Token) (stack : List Frame) : Progress :=
  match t, stack with
  | .string name, .object members :: rest => within .colon (.member members name :: rest)
  | _, _ => stopped (cutHere stack)

/-- One more token. -/
def step : Progress → Token → Progress
  | within .value stack, t => startValue t stack
  | within .valueOrClose stack, .closeBracket => close .closeBracket stack
  | within .valueOrClose stack, t => startValue t stack
  | within .nameOrClose stack, .closeBrace => close .closeBrace stack
  | within .nameOrClose stack, t => startMember t stack
  | within .name stack, t => startMember t stack
  | within .colon stack, .colon => within .value stack
  | within .colon stack, _ => stopped (cutHere stack)
  | within .commaOrClose (.array items :: stack), .comma => within .value (.array items :: stack)
  | within .commaOrClose (.object members :: stack), .comma =>
    within .name (.object members :: stack)
  | within .commaOrClose stack, t => close t stack
  | complete root, _ => stopped root
  | stopped root, _ => stopped root

end Progress

/-- A whole text: its tree, and whether the text ends behind it. -/
structure Document where
  /-- The root value. -/
  root : Tree
  /-- Nothing but blanks follows the root value. -/
  ended : Bool

namespace Document

/-- What has been read when the tokens are used up. -/
def ofProgress : Progress → Document
  | .within _ stack => ⟨Progress.cutHere stack, false⟩
  | .complete root => ⟨root, true⟩
  | .stopped root => ⟨root, false⟩

/-- The document of a list of tokens. -/
def ofTokens (tokens : List Token) : Document :=
  ofProgress (tokens.foldl Progress.step (.within .value []))

/-- The document of a text. -/
def ofText (text : String) : Document :=
  ofTokens (Token.ofText text.toList)

end Document

end CampusQuery
