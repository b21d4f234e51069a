import CompositeScan.Json.Token

/-!
# JSON values

A JSON value is a tree whose leaves are tokens. Writing lists its tokens without blanks. Reading
takes the tokens one by one; what was opened and not yet closed is kept as a stack of frames, so
nesting of any depth is read by one pass over the tokens.
-/

namespace CompositeScan.Json

/-- A JSON value. The members of an object keep their order, and may repeat a name. -/
inductive Value where
  | null
  | boolean (b : Bool)
  | number (literal : Text)
  | string (pieces : List Piece)
  | array (items : List Value)
  | object (members : List (List Piece × Value))

namespace Value

/-! ## Writing -/

mutual

/-- The tokens of a value. -/
def tokens : Value → List Token
  | null => [.null]
  | boolean b => [.boolean b]
  | number literal => [.number literal]
  | string pieces => [.string pieces]
  | array [] => [.beginArray, .endArray]
  | array (v :: items) => .beginArray :: (tokens v ++ moreItems items)
  | object [] => [.beginObject, .endObject]
  | object ((name, v) :: members) =>
    .beginObject :: .string name :: .colon :: (tokens v ++ moreMembers members)

/-- The tokens of the items after the first, to the end of the array. -/
def moreItems : List Value → List Token
  | [] => [.endArray]
  | v :: items => .comma :: (tokens v ++ moreItems items)

/-- The tokens of the members after the first, to the end of the object. -/
def moreMembers : List (List Piece × Value) → List Token
  | [] => [.endObject]
  | (name, v) :: members =>
    .comma :: .string name :: .colon :: (tokens v ++ moreMembers members)

end

/-- A value as a text without blanks. -/
def write (v : Value) : Text := v.tokens.flatMap Token.write

/-! ## Reading -/

/-- An array or object that is not yet closed, with what came before in reverse. -/
inductive Frame where
  /-- An array, in which an item is being read. -/
  | array (items : List Value)
  /-- An object, in which the value of the member `name` is being read. -/
  | object (members : List (List Piece × Value)) (name : List Piece)

/-- What comes next, inside the frames, innermost first. -/
inductive Reading where
  /-- A value. -/
  | value (frames : List Frame)
  /-- The first item of an array, or its end. -/
  | firstItem (frames : List Frame)
  /-- The first name of an object, or its end. -/
  | firstName (frames : List Frame)
  /-- The next name of an object. -/
  | nextName (members : List (List Piece × Value)) (frames : List Frame)
  /-- The colon after a name. -/
  | colon (members : List (List Piece × Value)) (name : List Piece) (frames : List Frame)
  /-- What may follow a value. -/
  | after (v : Value) (frames : List Frame)

namespace Reading

/-- Takes the first token of a value. -/
def openValue (frames : List Frame) : Token → Option Reading
  | .null => some (.after .null frames)
  | .boolean b => some (.after (.boolean b) frames)
  | .number literal => some (.after (.number literal) frames)
  | .string pieces => some (.after (.string pieces) frames)
  | .beginArray => some (.firstItem frames)
  | .beginObject => some (.firstName frames)
  | _ => none

/-- Takes the token after a value. -/
def closeValue (v : Value) : List Frame → Token → Option Reading
  | .array items :: frames, .comma => some (.value (.array (v :: items) :: frames))
  | .array items :: frames, .endArray => some (.after (.array (v :: items).reverse) frames)
  | .object members name :: frames, .comma => some (.nextName ((name, v) :: members) frames)
  | .object members name :: frames, .endObject =>
    some (.after (.object ((name, v) :: members).reverse) frames)
  | _, _ => none

/-- Takes a token. -/
def take : Reading → Token → Option Reading
  | value frames, token => openValue frames token
  | firstItem frames, .endArray => some (.after (.array []) frames)
  | firstItem frames, token => openValue (.array [] :: frames) token
  | firstName frames, .endObject => some (.after (.object []) frames)
  | firstName frames, .string name => some (.colon [] name frames)
  | firstName _, _ => none
  | nextName members frames, .string name => some (.colon members name frames)
  | nextName _ _, _ => none
  | colon members name frames, .colon => some (.value (.object members name :: frames))
  | colon _ _ _, _ => none
  | after v frames, token => closeValue v frames token

end Reading

/-- The value that tokens write. -/
def ofTokens? (tokens : List Token) : Option Value :=
  match tokens.foldlM Reading.take (.value []) with
  | some (.after v []) => some v
  | _ => none

/-- The value that a text writes. -/
def ofText? (t : Text) : Option Value := (Token.ofText? t).bind ofTokens?

/-! ## Records -/

/-- The text of a string. -/
def text? : Value → Option Text
  | string pieces => Piece.text? pieces
  | _ => none

/-- The value is null. -/
def isNull : Value → Bool
  | null => true
  | _ => false

/-- A string with the given text. -/
def ofText (t : Text) : Value := string (Piece.ofText t)

/-- A string with the given name. -/
def ofName (name : String) : Value := ofText name.toList

/-- An object with the given members. -/
def ofMembers (members : List (String × Value)) : Value :=
  object (members.map fun m ↦ (Piece.ofText m.1.toList, m.2))

/-- The members of an object with their names as texts. -/
def namedMembers? (members : List (List Piece × Value)) : Option (List (String × Value)) :=
  members.mapM fun m ↦ (Piece.text? m.1).map fun name ↦ (String.ofList name, m.2)

/-- The values of the given members of a record. A record is an object, in which other members are
ignored and none of these may be repeated, or a list of the values in the order of the names, of
which the last may be missing. -/
def record? (names : List String) : Value → Option (List (Option Value))
  | object members => do
    let named ← namedMembers? members
    let values := names.map fun name ↦ named.filter fun m ↦ m.1 = name
    if values.all fun ms ↦ ms.length ≤ 1 then
      some (values.map fun ms ↦ ms.head?.map Prod.snd)
    else none
  | array items =>
    if items.length ≤ names.length then
      some (items.map some ++ List.replicate (names.length - items.length) none)
    else none
  | _ => none

/-- The name and the payload of a variant: a name alone, or an object with one member. -/
def variant? : Value → Option (String × Option Value)
  | string pieces => (Piece.text? pieces).map fun name ↦ (String.ofList name, none)
  | object [(name, v)] => (Piece.text? name).map fun name ↦ (String.ofList name, some v)
  | _ => none

end Value

end CompositeScan.Json
