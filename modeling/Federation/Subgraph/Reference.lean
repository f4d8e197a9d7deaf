import Federation.Subgraph.Declaration
import Federation.Subgraph.Fault

/-!
# References between declarations

Every type that a field, an argument or an input field refers to has to be defined in the
subgraph and to be of a kind that fits; an implemented interface has to be an interface, and a
union member an object type.  `referenceFaults` lists what is wrong, type by type.
-/

namespace Federation

variable (types : Table TypeDeclaration)

/-- The kind under which a name is declared. -/
def kindOf? (n : Name) : Option TypeKind := (types.get? n).map (·.kind)

/-- Whether a name is declared as a composite type. -/
def isCompositeType (n : Name) : Bool := (kindOf? types n).any TypeKind.isComposite

/-- What is wrong with the type of a field. -/
def outputFaults (part : Coordinate) (type : Name) : List Fault :=
  if isBuiltInScalar type then []
  else match kindOf? types type with
    | none => [.undefinedReference part type]
    | some .inputObject => [.inputAsOutput part type]
    | some _ => []

/-- What is wrong with the type of an argument or an input field. -/
def inputFaults (part : Coordinate) (type : Name) : List Fault :=
  if isBuiltInScalar type then []
  else match kindOf? types type with
    | none => [.undefinedReference part type]
    | some kind => if kind.isInput then [] else [.outputAsInput part kind type]

/-- What is wrong with the references of a field. -/
def fieldReferenceFaults (type field : Name) (f : FieldDefinition) : List Fault :=
  outputFaults types (.field type field) f.type.innerName ++
    f.arguments.flatMap fun a => inputFaults types (.argument type field a.1) a.2.type.innerName

/-- What is wrong with the references of a type. -/
def typeReferenceFaults (name : Name) (t : TypeDeclaration) : List Fault :=
  match t.kind with
  | .object | .interface =>
    (if t.fields.isEmpty then [.noFields name] else []) ++
      t.fields.entries.flatMap (fun f => fieldReferenceFaults types name f.1 f.2.definition) ++
      (t.interfaces.filter fun i => kindOf? types i ≠ some .interface).map (.notInterface name)
  | .union => (t.members.filter fun m => kindOf? types m ≠ some .object).map (.notObject name)
  | .inputObject =>
    t.inputs.entries.flatMap fun f =>
      inputFaults types (.inputField name f.1) f.2.type.innerName
  | .scalar | .enum => []

/-- What is wrong with the references of a subgraph. -/
def referenceFaults : List Fault :=
  types.entries.flatMap fun e => typeReferenceFaults types e.1 e.2

end Federation
