import Federation.Subgraph.Fault
import Federation.Table

/-!
# The type blocks of a document

A document may name object types of its own for the operations; they are composed under the
canonical names `Query`, `Mutation` and `Subscription`.  `Document.rootRenames` collects these
renamings, and `Definition.block?` reads the blocks that are left to compose: root types renamed,
plumbing left out, and no other type under a canonical name that a root type has taken.
-/

namespace Federation

/-- The canonical names of the types that a document names for operations, where they differ
from their own. -/
abbrev RootRenames := Table Name

/-- A type definition or extension that is left to compose. -/
structure Block where
  /-- Whether the block extends a type that is defined elsewhere. -/
  isExtension : Bool
  description : Option String
  name : Name
  directives : List Directive
  body : TypeBody
deriving DecidableEq

/-! ### Root operation types -/

/-- The object types that a definition names for operations. -/
def Definition.rootOperations : Definition → List (OperationType × Name)
  | schema _ roots => roots
  | _ => []

/-- The directives that a definition applies to the schema. -/
def Definition.schemaDirectives : Definition → List Directive
  | schema directives _ => directives
  | _ => []

/-- The renamings with one more root operation type; a type keeps the last operation that it is
named for. -/
def addRoot (renames : RootRenames) (root : OperationType × Name) : RootRenames :=
  if root.2 = root.1.rootName then renames else renames.alter root.2 fun _ => root.1.rootName

/-- The renamings that a document asks for. -/
def Document.rootRenames (d : Document) : RootRenames :=
  (d.flatMap Definition.rootOperations).foldl addRoot ∅

namespace RootRenames

/-- The name under which a type is composed. -/
def apply (renames : RootRenames) (n : Name) : Name := (renames.get? n).getD n

/-- The root type that is composed under a name, if a type was renamed to it. -/
def source? (renames : RootRenames) (n : Name) : Option Name :=
  (renames.entries.find? fun e => e.2 = n).map Prod.fst

end RootRenames

/-! ### Blocks -/

/-- A field whose type is renamed. -/
def FieldDefinition.renameType (renames : RootRenames) (f : FieldDefinition) : FieldDefinition :=
  { f with type := f.type.mapName renames.apply }

/-- A body in which field types and union members are renamed, and of which some fields are
kept. -/
def TypeBody.rename (renames : RootRenames) (keepsField : Name → Bool) : TypeBody → TypeBody
  | object is fs =>
    object is ((fs.filter fun f => keepsField f.1).map fun f => (f.1, f.2.renameType renames))
  | interface is fs =>
    interface is ((fs.filter fun f => keepsField f.1).map fun f => (f.1, f.2.renameType renames))
  | union ms => union (ms.map renames.apply)
  | scalar => scalar
  | enum vs => enum vs
  | inputObject fs => inputObject fs

/-- The block that is left of a type definition or extension, if it is not plumbing. -/
def composedBlock? (renames : RootRenames) (isExtension : Bool) (description : Option String)
    (b : TypeBlock) : Option (Except Fault Block) :=
  if isPlumbingType b.name then none
  else
    let name := renames.apply b.name
    let keepsField := fun f => !(name = OperationType.query.rootName && isPlumbingField f)
    match renames.get? b.name, renames.source? b.name with
    -- A type that is itself renamed makes room for another one under its name.
    | none, some renamed => some (.error (.rootConflict b.name renamed))
    | _, _ =>
      some (.ok ⟨isExtension, description, name, b.directives, b.body.rename renames keepsField⟩)

/-- The block that a definition leaves to compose, or the fault in it. -/
def Definition.block? (renames : RootRenames) : Definition → Option (Except Fault Block)
  | type d => composedBlock? renames false d.description d.block
  | typeExtension b => composedBlock? renames true none b
  | operation .. | fragment .. => some (.error .executableDefinition)
  | schema .. | directive _ => none

end Federation
