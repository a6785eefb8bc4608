import LinearAssignment.Json.Lexeme

/-! # Passing over values

The value of an unknown member must be JSON, nested to any depth, and is otherwise ignored: its
numbers may lie beyond every range and its strings may hold half a surrogate pair. The enclosures
that are open are kept on an explicit stack, so depth costs no recursion.
-/

namespace LinearAssignment.Json

/-- Pass over a string up to its closing quote. The budget counts characters of the text. -/
def skipStringWithin : Nat → List Char → Except ReadError (List Char)
  | 0, _ => .error .truncated
  | budget + 1, text =>
    match text with
    | [] => .error .truncated
    | '"' :: rest => .ok rest
    | ['\\'] => .error .truncated
    | '\\' :: 'u' :: rest => do
      let (_, rest) ← readUnit rest
      skipStringWithin budget rest
    | '\\' :: c :: rest =>
      if (escapeLetter? c).isSome then skipStringWithin budget rest else .error .malformed
    | c :: rest => if c.toNat < 32 then .error .malformed else skipStringWithin budget rest

/-- Pass over the string that follows an opening quote. -/
def skipString (text : List Char) : Except ReadError (List Char) :=
  skipStringWithin text.length text

/-- Pass over a number. Nothing is expected behind it, so one that breaks off is malformed. -/
def skipNumber (text : List Char) : Except ReadError (List Char) :=
  match readLiteral text with
  | .ok (_, rest) => .ok rest
  | .error _ => .error .malformed

/-- Pass over a value that holds no others. -/
def skipScalar (text : List Char) : Except ReadError (List Char) :=
  match text with
  | [] => .error .truncated
  | 'n' :: rest => skipWord ['u', 'l', 'l'] rest
  | 't' :: rest => skipWord ['r', 'u', 'e'] rest
  | 'f' :: rest => skipWord ['a', 'l', 's', 'e'] rest
  | '"' :: rest => skipString rest
  | c :: _ => if c = '-' || c.isDigit then skipNumber text else .error .malformed

/-- Pass over the colon between a key and its value. -/
def skipColon (text : List Char) : Except ReadError (List Char) :=
  match skipBlank text with
  | ':' :: rest => .ok rest
  | rest => .error (missingAt rest)

/-- Pass over a key and its colon. -/
def skipKey (text : List Char) : Except ReadError (List Char) :=
  match skipBlank text with
  | '"' :: rest => do skipColon (← skipString rest)
  | rest => .error (missingAt rest)

/-- The two kinds of values that hold others. -/
inductive Enclosure where
  | array
  | object
deriving DecidableEq, Repr

/-- The character that ends an enclosure. -/
def Enclosure.closing : Enclosure → Char
  | .array => ']'
  | .object => '\x7d'

/-- Where one stands inside the open enclosures. -/
inductive Position where
  /-- Before a value. -/
  | value
  /-- Behind an opening bracket. -/
  | opened
  /-- Behind a value. -/
  | ended

/-- Pass over what comes before the value of an item: nothing in an array, a key in an object. -/
def skipLabel (enclosure : Enclosure) (text : List Char) : Except ReadError (List Char) :=
  match enclosure with
  | .array => .ok text
  | .object => skipKey text

/-- Go on until every open enclosure is closed. Two steps take at least one character of the text,
which bounds the budget. -/
def skipFrom : Nat → Position → List Enclosure → List Char → Except ReadError (List Char)
  | 0, _, _, _ => .error .truncated
  | budget + 1, .value, enclosing, text =>
    match skipBlank text with
    | '[' :: rest => skipFrom budget .opened (.array :: enclosing) rest
    | '\x7b' :: rest => skipFrom budget .opened (.object :: enclosing) rest
    | start => do skipFrom budget .ended enclosing (← skipScalar start)
  | budget + 1, .opened, enclosing, text =>
    match enclosing, skipBlank text with
    | [], rest => .ok rest
    | _ :: _, [] => .error .truncated
    | enclosure :: outer, c :: rest =>
      if c = enclosure.closing then skipFrom budget .ended outer rest
      else do skipFrom budget .value enclosing (← skipLabel enclosure (c :: rest))
  | budget + 1, .ended, enclosing, text =>
    match enclosing, skipBlank text with
    | [], _ => .ok text
    | _ :: _, [] => .error .truncated
    | enclosure :: outer, c :: rest =>
      if c = ',' then do skipFrom budget .value enclosing (← skipLabel enclosure rest)
      else if c = enclosure.closing then skipFrom budget .ended outer rest
      else .error .malformed

/-- Pass over one value. -/
def skipValue (text : List Char) : Except ReadError (List Char) :=
  skipFrom (2 * text.length + 2) .value [] text

end LinearAssignment.Json
