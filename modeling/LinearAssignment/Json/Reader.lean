import LinearAssignment.Json.Skip

/-! # Reading values of an expected kind

Each reader knows what it expects and says so when it finds something else. What it finds instead
is read as far as the message needs, and a problem inside it comes first.
-/

namespace LinearAssignment.Json

/-- The refusal of a value of another type than expected. -/
def unexpected (expected : String) (text : List Char) : ReadError :=
  let refusal (found : Found) : ReadError := .mismatch (.type found expected)
  let word (found : Found) : Except ReadError (List Char) → ReadError
    | .ok _ => refusal found
    | .error problem => problem
  match text with
  | [] => .truncated
  | 'n' :: rest => word .null (skipWord ['u', 'l', 'l'] rest)
  | 't' :: rest => word (.boolean true) (skipWord ['r', 'u', 'e'] rest)
  | 'f' :: rest => word (.boolean false) (skipWord ['a', 'l', 's', 'e'] rest)
  | '"' :: rest =>
    match readString rest with
    | .ok (value, _) => refusal (.text value)
    | .error problem => problem
  | '[' :: _ => refusal .sequence
  | '\x7b' :: _ => refusal .map
  | c :: _ =>
    if c = '-' || c.isDigit then
      match readNumber text with
      | .ok (number, _) => refusal number.found
      | .error problem => problem
    else .malformed

/-- A truth value. -/
def readBoolean : Reader Bool := fun text =>
  match skipBlank text with
  | 't' :: rest => do return (true, ← skipWord ['r', 'u', 'e'] rest)
  | 'f' :: rest => do return (false, ← skipWord ['a', 'l', 's', 'e'] rest)
  | start => .error (unexpected "a boolean" start)

/-- A number that `accept` takes. -/
def readNumberAs {α : Type} (expected : String) (accept : Number → Except ReadError α) :
    Reader α := fun text =>
  match skipBlank text with
  | [] => .error .truncated
  | c :: rest =>
    if c = '-' || c.isDigit then do
      let (number, rest) ← readNumber (c :: rest)
      return (← accept number, rest)
    else .error (unexpected expected (c :: rest))

/-- Any number. -/
def readReal : Reader Float := readNumberAs "f64" fun number => .ok number.toFloat

/-- A natural number below a bound. -/
def readNatural (expected : String) (bound : Nat) : Reader Nat :=
  readNumberAs expected fun number =>
    match number with
    | .natural value =>
      if value < bound then .ok value else .error (.mismatch (.value value expected))
    | .negative value => .error (.mismatch (.value value expected))
    | .real value => .error (.mismatch (.type (.real value) expected))

/-- A string. -/
def readText : Reader String := fun text =>
  match skipBlank text with
  | '"' :: rest => readString rest
  | start => .error (unexpected "a string" start)

/-- The value `null`. -/
def readNull (expected : String) : Reader Unit := fun text =>
  match skipBlank text with
  | 'n' :: rest => do return ((), ← skipWord ['u', 'l', 'l'] rest)
  | start => .error (unexpected expected start)

/-- Either `null` or an item. -/
def readOptional {α : Type} (item : Reader α) : Reader (Option α) := fun text =>
  match skipBlank text with
  | 'n' :: rest => do return (none, ← skipWord ['u', 'l', 'l'] rest)
  | start => do
    let (value, rest) ← item start
    return (some value, rest)

/-! ## Arrays -/

/-- Whether another item of an array follows, and the text from there. -/
def nextItem (first : Bool) (text : List Char) : Except ReadError (Bool × List Char) :=
  match skipBlank text with
  | [] => .error .truncated
  | ']' :: rest => .ok (false, ']' :: rest)
  | c :: rest =>
    if first then .ok (true, c :: rest)
    else if c = ',' then
      match skipBlank rest with
      | [] => .error .truncated
      | ']' :: _ => .error .malformed
      | start => .ok (true, start)
    else .error .malformed

/-- The end of an array; items beyond those expected are refused. -/
def closeArray (text : List Char) : Except ReadError (List Char) :=
  match skipBlank text with
  | ']' :: rest => .ok rest
  | rest => .error (missingAt rest)

/-- All items of an array up to its end. Every item takes a character, which bounds the budget. -/
def readItems {α : Type} (item : Reader α) : Nat → Bool → List α → Reader (List α)
  | 0, _, _, _ => .error .truncated
  | budget + 1, first, reversed, text => do
    let (more, text) ← nextItem first text
    if more then
      let (value, rest) ← item text
      readItems item budget false (value :: reversed) rest
    else
      return (reversed.reverse, ← closeArray text)

/-- An array of any length. -/
def readList {α : Type} (item : Reader α) : Reader (List α) := fun text =>
  match skipBlank text with
  | '[' :: rest => readItems item (rest.length + 1) true [] rest
  | start => .error (unexpected "a sequence" start)

/-! ## Objects -/

/-- The key of an object that must have one. Anything else in its place is no JSON object, so it is
not looked at any further. -/
def readKey : Reader String := fun text =>
  match skipBlank text with
  | '"' :: rest => readString rest
  | rest => .error (missingAt rest)

/-- The next key of an object, or nothing at its end. -/
def nextKey (first : Bool) : Reader (Option String) := fun text =>
  let key : Reader (Option String) := fun text => do
    let (name, rest) ← readKey text
    return (some name, rest)
  match skipBlank text with
  | [] => .error .truncated
  | '\x7d' :: rest => .ok (none, rest)
  | ',' :: rest => if first then .error .malformed else key rest
  | start => if first then key start else .error .malformed

/-- All members of an object up to its end. `member` says how the value of a key is read into what
has been read before; the value of a key that it does not know is passed over. -/
def readMembersWithin {σ : Type} (member : String → σ → Option (Reader σ)) :
    Nat → Bool → σ → Reader σ
  | 0, _, _, _ => .error .truncated
  | budget + 1, first, state, text => do
    match ← nextKey first text with
    | (none, rest) => return (state, rest)
    | (some key, rest) =>
      match member key state with
      | some read =>
        let (state, rest) ← read rest
        readMembersWithin member budget false state rest
      | none =>
        readMembersWithin member budget false state (← skipValue (← skipColon rest))

/-- The members behind an opening brace. -/
def readMembers {σ : Type} (member : String → σ → Option (Reader σ)) (state : σ) : Reader σ :=
  fun text => readMembersWithin member (text.length + 1) true state text

/-- The value of a known key, behind its colon. -/
def readMember {α : Type} (value : Reader α) : Reader α := fun text => do
  value (← skipColon text)

end LinearAssignment.Json
