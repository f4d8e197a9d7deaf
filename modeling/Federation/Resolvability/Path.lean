import Federation.Name

/-!
# Paths

Where a walk through the graph is, from the root field on: `Query.humans ... on Friend pets`.
A field is set off by a point, except below a fragment, where it is set off by a space.
-/

namespace Federation

/-- A way through the graph that starts at a root field. -/
inductive Path where
  /-- A field of a root operation type. -/
  | root (type field : Name)
  /-- A field below a path. -/
  | field (parent : Path) (name : Name)
  /-- A possible type of the abstract type that a path ends in. -/
  | fragment (parent : Path) (type : Name)
deriving DecidableEq

namespace Path

/-- Whether the path ends in a fragment. -/
def endsInFragment : Path → Bool
  | fragment .. => true
  | _ => false

/-- The path as it is written. -/
def render : Path → String
  | root t f => t.text ++ "." ++ f.text
  | field p f => p.render ++ (if p.endsInFragment then " " else ".") ++ f.text
  | fragment p t => p.render ++ " ... on " ++ t.text

/-- The path into a possible type, where there is one to go into. -/
def into (p : Path) : Option Name → Path
  | none => p
  | some t => fragment p t

end Path

end Federation
