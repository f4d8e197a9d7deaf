import Federation.Document.Definition
import Federation.FieldSet
import Federation.Table

/-!
# Declarations

What a subgraph declares about its types, with the extensions of each type folded into one
`TypeDeclaration`.  The kind of a type fixes which of the components it can have; the others are
empty.
-/

namespace Federation

/-- A field as a subgraph declares it. -/
structure FieldDeclaration where
  /-- Arguments, type, description and directives. -/
  definition : FieldDefinition
  /-- Whether other subgraphs may resolve the field as well. -/
  shareable : Bool
  /-- Whether the field is only mentioned here, and resolved elsewhere. -/
  external : Bool
  /-- What the field resolves along with itself below it. -/
  provides : Option FieldSet := none
  /-- What has to be fetched from elsewhere before the field can be resolved. -/
  requires : Option FieldSet := none
  /-- The subgraph from which the field is taken over. -/
  overrides : Option String := none
deriving DecidableEq

/-- A type as a subgraph declares it. -/
structure TypeDeclaration where
  kind : TypeKind
  description : Option String := none
  directives : List Directive := []
  interfaces : List Name := []
  fields : Table FieldDeclaration := ∅
  members : List Name := []
  values : Table EnumValueDefinition := ∅
  inputs : Table InputValue := ∅
  keys : List EntityKey := []
deriving DecidableEq

namespace TypeDeclaration

/-- The keys from which the subgraph can resolve the type on its own. -/
def resolvableKeys (t : TypeDeclaration) : List EntityKey := t.keys.filter (·.resolvable)

/-- Whether the subgraph can resolve the type on its own. -/
def isEntity (t : TypeDeclaration) : Bool := t.keys.any (·.resolvable)

/-- All directives applied to the type and to the parts of it. -/
def appliedDirectives (t : TypeDeclaration) : List Directive :=
  t.directives ++
    t.fields.values.flatMap (fun f =>
      f.definition.directives ++ f.definition.arguments.flatMap fun a => a.2.directives) ++
    t.values.values.flatMap (·.directives) ++
    t.inputs.values.flatMap (·.directives)

end TypeDeclaration

end Federation
