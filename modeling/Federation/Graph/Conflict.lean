import Federation.Coordinate
import Federation.Document.TypeRef
import Federation.TypeKind
import Federation.Wording

/-!
# Conflicts

What can be wrong between subgraphs that are each right: they disagree about a kind or a type,
nobody resolves a field or too many do, or the merged types do not implement their interfaces.
Every conflict is kept as its cause, and `Conflict.message` puts it into words.
-/

namespace Federation

/-- The four kinds of conflict. -/
inductive ConflictKind where
  | typeMismatch | noBase | notShareable | invalidImplementation
deriving DecidableEq

/-- The stable code of a kind of conflict. -/
def ConflictKind.code : ConflictKind → String
  | typeMismatch => "TYPE_MISMATCH"
  | noBase => "EXTERNAL_MISSING_ON_BASE"
  | notShareable => "SHAREABLE_CONFLICT"
  | invalidImplementation => "INVALID_INTERFACE_IMPLEMENTATION"

/-- Something wrong between subgraphs. -/
inductive Conflict where
  /-- A type has one kind in a subgraph and another kind in another one. -/
  | kinds (type : Name) (kind : TypeKind) (subgraph : String) (otherKind : TypeKind)
      (other : String)
  /-- An input field has one type in some subgraphs and another type in another one. -/
  | inputTypes (type field : Name) (ref : TypeRef) (subgraphs : List String) (otherRef : TypeRef)
      (other : String)
  /-- A field has one type in a subgraph and another type in another one. -/
  | fieldTypes (type field : Name) (ref : TypeRef) (subgraph : String) (otherRef : TypeRef)
      (other : String)
  /-- A field has one type in a subgraph and another type where it is external. -/
  | externalTypes (type field : Name) (ref : TypeRef) (subgraph : String) (otherRef : TypeRef)
      (other : String)
  /-- An argument has one type in a subgraph and another type in another one. -/
  | argumentTypes (type field argument : Name) (ref : TypeRef) (subgraph : String)
      (otherRef : TypeRef) (other : String)
  /-- A field is declared, and resolved by no subgraph. -/
  | noBase (type field : Name) (declarers : List String)
  /-- A field is resolved by several subgraphs, and not shareable in all of them. -/
  | notShareable (type field : Name) (resolvers nonShareable : List String)
  /-- A type implements something that is no interface. -/
  | notInterface (type implemented : Name)
  /-- A type lacks a field of an interface that it implements. -/
  | missingField (type interface field : Name)
  /-- A field has a type that the field of the interface does not admit. -/
  | invalidFieldType (type interface field : Name) (ref interfaceRef : TypeRef)
  /-- A field lacks an argument of the field of the interface. -/
  | missingArgument (type interface field argument : Name)
  /-- An argument has another type than in the field of the interface. -/
  | invalidArgumentType (type interface field argument : Name) (ref interfaceRef : TypeRef)
deriving DecidableEq

namespace Conflict

/-- Which kind of conflict it is. -/
def kind : Conflict → ConflictKind
  | kinds .. | inputTypes .. | fieldTypes .. | externalTypes .. | argumentTypes .. => .typeMismatch
  | noBase .. => .noBase
  | notShareable .. => .notShareable
  | notInterface .. | missingField .. | invalidFieldType .. => .invalidImplementation
  | missingArgument .. | invalidArgumentType .. => .invalidImplementation

/-- The type that the conflict is about. -/
def type : Conflict → Name
  | kinds t .. | inputTypes t .. | fieldTypes t .. | externalTypes t .. | argumentTypes t .. => t
  | noBase t .. | notShareable t .. => t
  | notInterface t _ | missingField t .. | invalidFieldType t .. | missingArgument t .. => t
  | invalidArgumentType t .. => t

/-- The field that a conflict about resolving a field is about. -/
def resolvedField? : Conflict → Option Name
  | noBase _ f _ | notShareable _ f .. => some f
  | _ => none

/-- The conflict in words. -/
def message : Conflict → String
  | kinds t k s l u =>
    s!"Type \"{t.text}\" is defined as {k.text} type in subgraph \"{s}\" " ++
      s!"but as {l.text} type in subgraph \"{u}\""
  | inputTypes t f r ss q u =>
    s!"Input field \"{t.text}.{f.text}\" has type \"{r.render}\" in {Wording.subgraphs ss} " ++
      s!"but type \"{q.render}\" in subgraph \"{u}\""
  | fieldTypes t f r s q u =>
    s!"Field \"{t.text}.{f.text}\" has type \"{r.render}\" in subgraph \"{s}\" " ++
      s!"but type \"{q.render}\" in subgraph \"{u}\""
  | externalTypes t f r s q u =>
    s!"Field \"{t.text}.{f.text}\" has type \"{r.render}\" in subgraph \"{s}\" " ++
      s!"but type \"{q.render}\" in subgraph \"{u}\", where it is marked @external"
  | argumentTypes t f a r s q u =>
    s!"Argument \"{t.text}.{f.text}({a.text}:)\" has type \"{r.render}\" in subgraph \"{s}\" " ++
      s!"but type \"{q.render}\" in subgraph \"{u}\""
  | noBase t f ss =>
    s!"Field \"{t.text}.{f.text}\" is marked @external in {Wording.subgraphs ss} " ++
      "but is not defined by any subgraph"
  | notShareable t f ss us =>
    s!"Non-shareable field \"{t.text}.{f.text}\" is resolved from multiple subgraphs: " ++
      s!"it is resolved from {Wording.subgraphs ss} " ++
      s!"and defined as non-shareable in {Wording.subgraphs us}"
  | notInterface t i =>
    s!"Type \"{t.text}\" implements \"{i.text}\", which is not an interface type"
  | missingField t i f =>
    s!"Type \"{t.text}\" implements interface \"{i.text}\" " ++
      s!"but does not define field \"{i.text}.{f.text}\""
  | invalidFieldType t i f r q =>
    s!"Field \"{t.text}.{f.text}\" of type \"{r.render}\" is not a valid implementation " ++
      s!"of field \"{i.text}.{f.text}\" of type \"{q.render}\""
  | missingArgument t i f a =>
    s!"Field \"{t.text}.{f.text}\" does not define argument \"{a.text}\" " ++
      s!"required by interface field \"{i.text}.{f.text}\""
  | invalidArgumentType t i f a r q =>
    s!"Argument \"{t.text}.{f.text}({a.text}:)\" has type \"{r.render}\" " ++
      s!"but interface field \"{i.text}.{f.text}\" declares it as \"{q.render}\""

end Conflict

end Federation
