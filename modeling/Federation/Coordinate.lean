import Federation.Name

/-!
# Coordinates

A coordinate points at a part of a schema, in the notation of diagnostics: `User`, `User.name`,
`User.name(first:)`.
-/

namespace Federation

/-- A part of a schema. -/
inductive Coordinate where
  | type (type : Name)
  | field (type field : Name)
  | argument (type field argument : Name)
  | enumValue (type value : Name)
  | inputField (type field : Name)
  | schema
deriving DecidableEq

namespace Coordinate

/-- The coordinate as it is written. -/
def text : Coordinate → String
  | type t => t.text
  | field t f => t.text ++ "." ++ f.text
  | argument t f a => t.text ++ "." ++ f.text ++ "(" ++ a.text ++ ":)"
  | enumValue t v => t.text ++ "." ++ v.text
  | inputField t f => t.text ++ "." ++ f.text
  | schema => "schema"

/-- What kind of part a coordinate points at, as the first word of a sentence. -/
def noun : Coordinate → String
  | type _ => "Type"
  | field .. => "Field"
  | argument .. => "Argument"
  | enumValue .. => "Enum value"
  | inputField .. => "Input field"
  | schema => "Schema"

end Coordinate

end Federation
