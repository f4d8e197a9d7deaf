import Federation.Document.Printer
import Federation.Vocabulary

/-!
# Federation versions

In Federation 1 every field may be resolved by several subgraphs; in Federation 2 such a field
has to be marked as shareable.  A version also fixes the directives that a supergraph defines:
`@tag`, and from version 2 on `@inaccessible`.
-/

namespace Federation

/-- The federation version that a subgraph is written against. -/
inductive FederationVersion where
  | v1 | v2
deriving DecidableEq

namespace FederationVersion

/-- Nothing in a subgraph asks for more than version 1. -/
instance : Inhabited FederationVersion := ⟨v1⟩

/-- The version in words. -/
def text : FederationVersion → String
  | v1 => "Federation 1"
  | v2 => "Federation 2"

/-- The highest version of some subgraphs. -/
def highest (vs : List FederationVersion) : FederationVersion := if v2 ∈ vs then v2 else v1

/-- The places where `@tag` and `@inaccessible` may stand. -/
def markLocations : List DirectiveLocation :=
  [.argumentDefinition, .enum, .enumValue, .fieldDefinition, .inputFieldDefinition, .inputObject,
    .interface, .object, .scalar, .union]

/-- The definition of `@tag`. -/
def tagDefinition : DirectiveDefinition where
  description := none
  name := tagName
  arguments := [(⟨"name", by decide⟩,
    ⟨none, .named ⟨"String", by decide⟩ true, none, []⟩)]
  repeatable := true
  locations := markLocations

/-- The definition of `@inaccessible`. -/
def inaccessibleDefinition : DirectiveDefinition where
  description := none
  name := inaccessibleName
  arguments := []
  repeatable := false
  locations := markLocations

/-- The directives that every supergraph of a version defines. -/
def directiveDefinitions : FederationVersion → List DirectiveDefinition
  | v1 => [tagDefinition]
  | v2 => [tagDefinition, inaccessibleDefinition]

/-- The definitions that every supergraph of a version starts with, as a text with a line for
each. -/
def baseSchema (v : FederationVersion) : String :=
  "\n" ++ String.join (v.directiveDefinitions.map fun d => d.render ++ "\n")

end FederationVersion

end Federation
