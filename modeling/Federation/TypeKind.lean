/-!
# Kinds of type

The six kinds of named type that a subgraph or the merged graph can define.
-/

namespace Federation

/-- A kind of named type. -/
inductive TypeKind where
  | object | interface | union | scalar | enum | inputObject
deriving DecidableEq

namespace TypeKind

/-- Every kind. -/
def all : List TypeKind := [object, interface, union, scalar, enum, inputObject]

/-- The kind in words. -/
def text : TypeKind → String
  | object => "object"
  | interface => "interface"
  | union => "union"
  | scalar => "scalar"
  | enum => "enum"
  | inputObject => "input object"

/-- The keyword that defines a type of this kind. -/
def keyword : TypeKind → String
  | object => "type"
  | interface => "interface"
  | union => "union"
  | scalar => "scalar"
  | enum => "enum"
  | inputObject => "input"

/-- The kind of type that a keyword defines. -/
def ofKeyword? (s : String) : Option TypeKind := all.find? fun k => k.keyword == s

/-- Whether a field of this kind of type needs a selection of subfields. -/
def isComposite : TypeKind → Bool
  | object | interface | union => true
  | _ => false

/-- Whether a value of this kind of type is an object of another type. -/
def isAbstract : TypeKind → Bool
  | interface | union => true
  | _ => false

/-- Whether arguments and input fields can have this kind of type. -/
def isInput : TypeKind → Bool
  | scalar | enum | inputObject => true
  | _ => false

/-- Whether this kind of type declares fields. -/
def hasFields : TypeKind → Bool
  | object | interface => true
  | _ => false

/-- A kind is composite exactly when it is no input kind. -/
theorem isComposite_eq_not_isInput (k : TypeKind) : k.isComposite = !k.isInput := by
  cases k <;> rfl

end TypeKind

end Federation
