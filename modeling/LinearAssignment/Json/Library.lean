import LinearAssignment.Json.Shape

/-! # Libraries that write and read JSON

Options and results are turned into texts and back by a library. It is a parameter: all that is
said of it here is which texts and which values it is asked for. The library that runs is one of
many, and rounds every number that it reads correctly.
-/

namespace LinearAssignment

namespace Json

/-- How a text is laid out. -/
inductive Layout where
  /-- Without any blank. -/
  | compact
  /-- With two spaces for each level of nesting. -/
  | indented

/-- The text of a value that is nested so deep in a layout. -/
def textAt (layout : Layout) (level : Nat) (value : Json) : List Char :=
  match layout with
  | .compact => compactText value
  | .indented => indentedText level value

end Json

/-- A library that writes and reads values under their shapes. -/
structure JsonLibrary where
  /-- The text of a value that is nested so deep in a layout. -/
  print (layout : Json.Layout) (level : Nat) (shape : Json.Shape) : shape.Value → List Char
  /-- Read the value at the start of a text, where so many levels of nesting may still open. -/
  parse (depth : Nat) (shape : Json.Shape) : Json.Reader shape.Value
  /-- Read a whole text as one value. -/
  decode (shape : Json.Shape) (text : String) : Except Json.ReadError shape.Value

/-- A library that sets no limit to nesting. -/
def Json.library : JsonLibrary where
  print layout level shape value := (shape.write value).textAt layout level
  parse _ shape := shape.read
  decode := Shape.decode

end LinearAssignment
