/-!
# Outlines of values

An outline is the described shape of a value: a word, a named record, a named
tuple, or a record whose fields are withheld. It is written on one line or
indented, with one field a line; both forms show the same words in the same
order.
-/

namespace CachePool.Text

/-- The described shape of a value. -/
inductive Outline where
  /-- A word that is written as it stands. -/
  | word (text : String)
  /-- A record with its fields in the order of their declaration. -/
  | record (name : String) (fields : List (String × Outline))
  /-- A named tuple. -/
  | tuple (name : String) (items : List Outline)
  /-- A record that does not show its fields. -/
  | closed (name : String)

namespace Outline

/-- A number is described by its digits. -/
def number (n : Nat) : Outline := word (toString n)

/-- A truth value is described by its name. -/
def truth (b : Bool) : Outline := word (if b then "true" else "false")

/-- Join pieces with a separator between them. -/
def join (separator : String) : List String → String
  | [] => ""
  | [piece] => piece
  | piece :: rest => piece ++ separator ++ join separator rest

mutual

/-- The outline on one line. -/
def inline : Outline → String
  | word text => text
  | record name [] => name
  | record name fields => name ++ " \x7b " ++ join ", " (inlineFields fields) ++ " \x7d"
  | tuple name items => name ++ "(" ++ join ", " (inlineItems items) ++ ")"
  | closed name => name ++ " \x7b .. \x7d"

/-- The fields of a record, each on one line. -/
def inlineFields : List (String × Outline) → List String
  | [] => []
  | (name, value) :: rest => (name ++ ": " ++ value.inline) :: inlineFields rest

/-- The items of a tuple, each on one line. -/
def inlineItems : List Outline → List String
  | [] => []
  | value :: rest => value.inline :: inlineItems rest

end

/-- The blanks before a line at a depth, four for each level. -/
def margin (depth : Nat) : String := String.ofList (List.replicate (4 * depth) ' ')

mutual

/-- The outline with one field a line, for a record that opens at the given depth. -/
def indentedAt (depth : Nat) : Outline → String
  | word text => text
  | record name [] => name
  | record name fields =>
    name ++ " \x7b\n" ++ indentedFields (depth + 1) fields ++ margin depth ++ "\x7d"
  | tuple name items =>
    name ++ "(\n" ++ indentedItems (depth + 1) items ++ margin depth ++ ")"
  | closed name => name ++ " \x7b .. \x7d"

/-- The fields of a record, one a line, each closed by a comma. -/
def indentedFields (depth : Nat) : List (String × Outline) → String
  | [] => ""
  | (name, value) :: rest =>
    margin depth ++ name ++ ": " ++ value.indentedAt depth ++ ",\n" ++ indentedFields depth rest

/-- The items of a tuple, one a line, each closed by a comma. -/
def indentedItems (depth : Nat) : List Outline → String
  | [] => ""
  | value :: rest =>
    margin depth ++ value.indentedAt depth ++ ",\n" ++ indentedItems depth rest

end

/-- The outline with one field a line. -/
def indented (o : Outline) : String := o.indentedAt 0

end Outline

/-- The two written forms of an outline. -/
inductive Form where
  | inline
  | indented
  deriving DecidableEq

/-- An outline written in one of the two forms. -/
def Outline.write (o : Outline) : Form → String
  | .inline => o.inline
  | .indented => o.indented

end CachePool.Text
