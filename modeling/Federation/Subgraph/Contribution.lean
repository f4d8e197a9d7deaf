import Federation.Subgraph.Schema

/-!
# Contributions

What a schema contributes to the supergraph: its declarations with the directives that the
supergraph keeps, and with shareability and externality settled.  A field of a key is always
shareable and never external, and in Federation 1 every field is shareable.
-/

namespace Federation

/-- An argument or input field with the directives that the supergraph keeps. -/
def InputValue.contribution (v : InputValue) : InputValue :=
  { v with directives := persistedDirectives v.directives }

/-- A field definition with the directives that the supergraph keeps. -/
def FieldDefinition.contribution (f : FieldDefinition) : FieldDefinition :=
  { f with
    arguments := f.arguments.map fun a => (a.1, a.2.contribution)
    directives := persistedDirectives f.directives }

/-- An enum value with the directives that the supergraph keeps. -/
def EnumValueDefinition.contribution (v : EnumValueDefinition) : EnumValueDefinition :=
  { v with directives := persistedDirectives v.directives }

/-- A field as it is contributed, where `inKey` says whether a key selects it. -/
def FieldDeclaration.contribution (version : FederationVersion) (inKey : Bool)
    (f : FieldDeclaration) : FieldDeclaration :=
  { f with
    definition := f.definition.contribution
    shareable := f.shareable || inKey || version = .v1
    external := f.external && !inKey }

namespace TypeDeclaration

/-- The fields that the keys of a type select on the type itself. -/
def keyFieldNames (t : TypeDeclaration) : List Name := t.keys.flatMap fun k => k.fields.fieldNames

/-- A type as it is contributed. -/
def contribution (version : FederationVersion) (t : TypeDeclaration) : TypeDeclaration :=
  { t with
    directives := persistedDirectives t.directives
    fields := t.fields.mapEntries fun n f => f.contribution version (t.keyFieldNames.contains n)
    values := t.values.map EnumValueDefinition.contribution
    inputs := t.inputs.map InputValue.contribution }

end TypeDeclaration

/-- What a schema contributes to the supergraph. -/
def Schema.contribution (s : Schema) : Schema :=
  { s with types := s.types.map (TypeDeclaration.contribution s.version) }

end Federation
