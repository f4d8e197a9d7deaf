import Federation.Document.TypeRef
import Federation.Document.Value
import Federation.TypeKind

/-!
# Documents

A document is a list of definitions: the type definitions and extensions that composition works
on, schema blocks, directive definitions, and executable definitions, which a field set is made
of and a subgraph must not hold.

What a type of each kind can declare is its `TypeBody`; the same body stands in a definition and
in an extension, so a `TypeBlock` is either.
-/

namespace Federation

/-! ### Parts of type definitions -/

/-- An argument of a field or directive, or a field of an input object, without its name. -/
structure InputValue where
  description : Option String
  type : TypeRef
  default : Option Value
  directives : List Directive
deriving DecidableEq

/-- A field of an object or interface type, without its name. -/
structure FieldDefinition where
  description : Option String
  arguments : List (Name × InputValue)
  type : TypeRef
  directives : List Directive
deriving DecidableEq

/-- A value of an enum type, without its name. -/
structure EnumValueDefinition where
  description : Option String
  directives : List Directive
deriving DecidableEq

/-- What a block of each kind of type declares. -/
inductive TypeBody where
  | object (interfaces : List Name) (fields : List (Name × FieldDefinition))
  | interface (interfaces : List Name) (fields : List (Name × FieldDefinition))
  | union (members : List Name)
  | scalar
  | enum (values : List (Name × EnumValueDefinition))
  | inputObject (fields : List (Name × InputValue))
deriving DecidableEq

namespace TypeBody

/-- The kind of type that a body belongs to. -/
def kind : TypeBody → TypeKind
  | object .. => .object
  | interface .. => .interface
  | union .. => .union
  | scalar => .scalar
  | enum .. => .enum
  | inputObject .. => .inputObject

/-- The interfaces that a body says it implements. -/
def interfaces : TypeBody → List Name
  | object is _ | interface is _ => is
  | _ => []

/-- The fields that a body declares. -/
def fields : TypeBody → List (Name × FieldDefinition)
  | object _ fs | interface _ fs => fs
  | _ => []

/-- The members that a body gives its union. -/
def members : TypeBody → List Name
  | union ms => ms
  | _ => []

/-- The values that a body gives its enum. -/
def values : TypeBody → List (Name × EnumValueDefinition)
  | enum vs => vs
  | _ => []

/-- The fields that a body gives its input object. -/
def inputs : TypeBody → List (Name × InputValue)
  | inputObject fs => fs
  | _ => []

end TypeBody

/-- A type definition or extension; the two are told apart by what holds them. -/
structure TypeBlock where
  name : Name
  directives : List Directive
  body : TypeBody
deriving DecidableEq

/-- A whole type definition. -/
structure TypeDefinition where
  description : Option String
  block : TypeBlock
deriving DecidableEq

/-! ### Directive definitions -/

/-- The places where the language lets a directive stand. -/
inductive DirectiveLocation where
  | query | mutation | subscription | field | fragmentDefinition | fragmentSpread
  | inlineFragment | variableDefinition
  | schema | scalar | object | fieldDefinition | argumentDefinition | interface | union | enum
  | enumValue | inputObject | inputFieldDefinition
deriving DecidableEq

namespace DirectiveLocation

/-- The location as it is written. -/
def text : DirectiveLocation → String
  | query => "QUERY"
  | mutation => "MUTATION"
  | subscription => "SUBSCRIPTION"
  | field => "FIELD"
  | fragmentDefinition => "FRAGMENT_DEFINITION"
  | fragmentSpread => "FRAGMENT_SPREAD"
  | inlineFragment => "INLINE_FRAGMENT"
  | variableDefinition => "VARIABLE_DEFINITION"
  | schema => "SCHEMA"
  | scalar => "SCALAR"
  | object => "OBJECT"
  | fieldDefinition => "FIELD_DEFINITION"
  | argumentDefinition => "ARGUMENT_DEFINITION"
  | interface => "INTERFACE"
  | union => "UNION"
  | enum => "ENUM"
  | enumValue => "ENUM_VALUE"
  | inputObject => "INPUT_OBJECT"
  | inputFieldDefinition => "INPUT_FIELD_DEFINITION"

/-- Every location. -/
def all : List DirectiveLocation :=
  [query, mutation, subscription, field, fragmentDefinition, fragmentSpread, inlineFragment,
    variableDefinition, schema, scalar, object, fieldDefinition, argumentDefinition, interface,
    union, enum, enumValue, inputObject, inputFieldDefinition]

/-- The location that a text names. -/
def ofText? (s : String) : Option DirectiveLocation := all.find? fun l => l.text == s

theorem mem_all (l : DirectiveLocation) : l ∈ all := by cases l <;> decide

end DirectiveLocation

/-- The definition of a directive. -/
structure DirectiveDefinition where
  description : Option String
  name : Name
  arguments : List (Name × InputValue)
  repeatable : Bool
  locations : List DirectiveLocation
deriving DecidableEq

/-! ### Executable definitions -/

/-- The three kinds of operation. -/
inductive OperationType where
  | query | mutation | subscription
deriving DecidableEq

namespace OperationType

/-- Every kind of operation, queries first. -/
def all : List OperationType := [query, mutation, subscription]

/-- The keyword of an operation. -/
def keyword : OperationType → String
  | query => "query"
  | mutation => "mutation"
  | subscription => "subscription"

/-- The operation that a keyword names. -/
def ofKeyword? (s : String) : Option OperationType := all.find? fun o => o.keyword == s

end OperationType

/-- The selections between two braces, each constructor holding one selection and those after
it. -/
inductive SelectionSet where
  /-- No further selection. -/
  | empty
  /-- A field, with the selections below it; a leaf has none. -/
  | field (label : Option Name) (name : Name) (arguments : List (Name × Value))
      (directives : List Directive) (sub rest : SelectionSet)
  /-- A named fragment in use. -/
  | spread (name : Name) (directives : List Directive) (rest : SelectionSet)
  /-- An inline fragment, with the selections in it. -/
  | inline (condition : Option Name) (directives : List Directive) (sub rest : SelectionSet)
deriving DecidableEq

/-- A variable that an operation takes. -/
structure VariableDefinition where
  name : Name
  type : TypeRef
  default : Option Value
  directives : List Directive
deriving DecidableEq

/-! ### Documents -/

/-- A definition of a document. -/
inductive Definition where
  /-- A schema block or its extension, with the object types that it names for operations. -/
  | schema (directives : List Directive) (roots : List (OperationType × Name))
  /-- A type definition. -/
  | type (definition : TypeDefinition)
  /-- A type extension. -/
  | typeExtension (block : TypeBlock)
  /-- A directive definition. -/
  | directive (definition : DirectiveDefinition)
  /-- An operation. -/
  | operation (type : OperationType) (name : Option Name) (parameters : List VariableDefinition)
      (directives : List Directive) (selections : SelectionSet)
  /-- A named fragment. -/
  | fragment (name condition : Name) (directives : List Directive) (selections : SelectionSet)
deriving DecidableEq

/-- A parsed text of the GraphQL language. -/
abbrev Document := List Definition

end Federation
