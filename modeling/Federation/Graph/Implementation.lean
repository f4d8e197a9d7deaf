import Federation.Graph.Conflict
import Federation.Graph

/-!
# Implementations of interfaces

A type of the graph has to have every field of each interface that it implements, in whichever
subgraphs they were declared.  The type of a field may be narrower than in the interface
(`admitsType`): required where the interface leaves it open, or a possible type of the type that
the interface names.  Arguments have to be there with equal types.
-/

namespace Federation.Graph

/-- Whether a named type can stand where another one is asked for. -/
def isSubtype (g : Graph) (n super : Name) : Bool :=
  n = super ||
    match g.types.get? n, g.types.get? super with
    | some node, some superNode =>
      match superNode.kind with
      | .union => superNode.members.contains n
      | .interface => node.interfaces.contains super
      | _ => false
    | _, _ => false

/-- Whether a field of an interface with type `asked` admits the type `ref`. -/
def admitsType (g : Graph) : (ref asked : TypeRef) → Bool
  | .named n r, .named m s => (r || !s) && g.isSubtype n m
  | .list t r, .list u s => (r || !s) && g.admitsType t u
  | _, _ => false

/-- What is wrong with the arguments of a field that implements a field of an interface. -/
def argumentConflicts (type interface name : Name) (f asked : FieldDefinition) : List Conflict :=
  asked.arguments.filterMap fun a =>
    match f.arguments.find? fun b => b.1 = a.1 with
    | none => some (.missingArgument type interface name a.1)
    | some b =>
      if b.2.type = a.2.type then none
      else some (.invalidArgumentType type interface name a.1 b.2.type a.2.type)

/-- What is wrong with a type as an implementation of a field of an interface. -/
def fieldConflicts (g : Graph) (type : Name) (t : TypeNode) (interface name : Name)
    (asked : FieldDefinition) : List Conflict :=
  match t.fields.get? name with
  | none => [.missingField type interface name]
  | some f =>
    (if g.admitsType f.definition.type asked.type then []
      else [.invalidFieldType type interface name f.definition.type asked.type]) ++
      argumentConflicts type interface name f.definition asked

/-- What is wrong with a type as an implementation of an interface. -/
def interfaceConflicts (g : Graph) (type : Name) (t : TypeNode) (interface : Name) :
    List Conflict :=
  match g.types.get? interface with
  | none => [.notInterface type interface]
  | some i =>
    if i.kind = .interface then
      i.fields.entries.flatMap fun f => g.fieldConflicts type t interface f.1 f.2.definition
    else [.notInterface type interface]

/-- What is wrong with the implementations of interfaces in a graph. -/
def implementationConflicts (g : Graph) : List Conflict :=
  g.types.entries.flatMap fun t =>
    if t.2.kind.hasFields then t.2.interfaces.names.flatMap (g.interfaceConflicts t.1 t.2) else []

end Federation.Graph
