import Federation.Vocabulary

/-!
# Placement of federation directives

For every directive that federation defines, a `DirectiveRule` says where it may be applied,
whether its use makes a subgraph a Federation 2 subgraph, and whether composition honours it.
Directives without a rule may stand anywhere and mean nothing to composition.
-/

namespace Federation

/-- A place where directives are applied. -/
inductive DirectiveTarget where
  /-- A type of some kind. -/
  | type (kind : TypeKind)
  | objectField | interfaceField | argument | enumValue | inputField | schema
deriving DecidableEq

namespace DirectiveTarget

/-- The place in words. -/
def text : DirectiveTarget → String
  | type kind => kind.text ++ " type"
  | objectField => "object field"
  | interfaceField => "interface field"
  | argument => "argument"
  | enumValue => "enum value"
  | inputField => "input field"
  | schema => "schema"

/-- The place that a field of a kind of type is. -/
def ofFieldOf (kind : TypeKind) : DirectiveTarget :=
  if kind = .interface then interfaceField else objectField

/-- Every place but the schema. -/
def anywhere : List DirectiveTarget :=
  TypeKind.all.map type ++ [objectField, interfaceField, argument, enumValue, inputField]

end DirectiveTarget

/-- What composition knows about a federation directive. -/
structure DirectiveRule where
  /-- The canonical name of the directive. -/
  name : String
  /-- The places where it may be applied. -/
  targets : List DirectiveTarget
  /-- Whether its use makes a subgraph a Federation 2 subgraph. -/
  needsVersion2 : Bool
  /-- Whether composition honours it. -/
  supported : Bool := true
  /-- Whether it may be applied to one place more than once. -/
  repeatable : Bool := true

namespace DirectiveRule

/-- The rules of all federation directives. -/
def all : List DirectiveRule :=
  [{ name := "key", targets := [.type .object, .type .interface], needsVersion2 := false },
    { name := "extends", targets := [.type .object, .type .interface], needsVersion2 := false },
    { name := "shareable", targets := [.type .object, .objectField], needsVersion2 := true },
    { name := "external", targets := [.type .object, .objectField], needsVersion2 := false },
    { name := "provides", targets := [.objectField], needsVersion2 := false, repeatable := false },
    { name := "requires", targets := [.objectField], needsVersion2 := false, repeatable := false },
    { name := "override", targets := [.objectField], needsVersion2 := true, repeatable := false },
    { name := "inaccessible", targets := DirectiveTarget.anywhere, needsVersion2 := true },
    { name := "tag", targets := DirectiveTarget.anywhere, needsVersion2 := false },
    { name := "link", targets := [.schema], needsVersion2 := false },
    { name := "composeDirective", targets := [.schema], needsVersion2 := true },
    { name := "interfaceObject", targets := [.type .object], needsVersion2 := true,
      supported := false },
    { name := "context", targets := [.type .object, .type .interface, .type .union],
      needsVersion2 := true, supported := false },
    { name := "fromContext", targets := [.argument], needsVersion2 := true, supported := false }]

/-- The rule of an applied directive, if federation defines it. -/
def of? (d : Directive) : Option DirectiveRule := all.find? fun r => r.name == canonicalName d.name

end DirectiveRule

/-- Whether some applied directives include one that makes a subgraph a Federation 2 subgraph. -/
def needVersion2 (ds : List Directive) : Bool :=
  ds.any fun d => (DirectiveRule.of? d).any DirectiveRule.needsVersion2

end Federation
