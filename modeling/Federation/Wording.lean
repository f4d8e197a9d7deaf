/-!
# Wording

The pieces of English that diagnostics share: a name in quotes, an enumeration such as
`a, b and c`, and a list of subgraphs with its noun in the right number.
-/

namespace Federation.Wording

/-- A text between double quotes, as it stands. -/
def quoted (s : String) : String := "\"" ++ s ++ "\""

/-- An English enumeration: commas between the items, and `and` before the last of several. -/
def enumeration : List String → String
  | [] => ""
  | [a] => a
  | [a, b] => a ++ " and " ++ b
  | a :: b :: c :: rest => a ++ ", " ++ enumeration (b :: c :: rest)

/-- Subgraph names with their noun: `subgraph "a"`, `subgraphs "a" and "b"`.  Anything but a
single name takes the plural. -/
def subgraphs (names : List String) : String :=
  let noun := if names.length = 1 then "subgraph" else "subgraphs"
  noun ++ " " ++ enumeration (names.map quoted)

end Federation.Wording
