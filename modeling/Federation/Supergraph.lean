import Federation.Graph

/-!
# Supergraphs

The schema that a composition ends in: the directives that the version of the graph defines, and
the types of the graph in first-seen order.
-/

namespace Federation

namespace TypeNode

/-- The body of the definition of a type of the graph. -/
def body (t : TypeNode) : TypeBody :=
  match t.kind with
  | .object => .object t.interfaces.names (t.fields.entries.map fun f => (f.1, f.2.definition))
  | .interface =>
    .interface t.interfaces.names (t.fields.entries.map fun f => (f.1, f.2.definition))
  | .union => .union t.members.names
  | .scalar => .scalar
  | .enum => .enum t.values.entries
  | .inputObject => .inputObject (t.inputs.entries.map fun f => (f.1, f.2.definition))

/-- The definition of a type of the graph. -/
def definition (name : Name) (t : TypeNode) : TypeDefinition :=
  ⟨t.description, ⟨name, t.directives, t.body⟩⟩

end TypeNode

/-- A composed schema. -/
structure Supergraph where
  version : FederationVersion
  types : List TypeDefinition
deriving DecidableEq

namespace Supergraph

/-- The schema that a graph composes to. -/
def ofGraph (g : Graph) : Supergraph where
  version := g.version
  types := g.types.entries.map fun t => t.2.definition t.1

/-- All definitions of the schema, those of directives first. -/
def document (s : Supergraph) : Document :=
  s.version.directiveDefinitions.map .directive ++ s.types.map .type

/-- The schema as a text: its definitions with an empty line between each two. -/
def render (s : Supergraph) : String :=
  "\n\n".intercalate (s.version.directiveDefinitions.map DirectiveDefinition.render ++
    s.types.map TypeDefinition.render) ++ "\n"

end Supergraph

end Federation
