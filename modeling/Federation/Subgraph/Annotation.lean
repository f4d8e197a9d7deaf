import Federation.Results
import Federation.Subgraph.Reference

/-!
# Federation directives on declarations

Checks where federation directives are applied, and reads the keys, `@provides`, `@requires` and
`@override` that they declare.

A directive that carries a field set is read by `fieldSetOf`: its source has to be a field set,
and the field set has to fit the types it selects from.  Reading is a pure function of the
directive, so what a declaration is annotated with and what is wrong with the annotations are
both read off it.
-/

namespace Federation

/-! ### Placement -/

/-- What is wrong with the places and the number of some applied directives; `applied` are the
federation directives that were applied before them. -/
def placementFaults (target : DirectiveTarget) (part : Coordinate) (applied : List String) :
    List Directive → List Fault
  | [] => []
  | d :: ds =>
    match DirectiveRule.of? d with
    | none => placementFaults target part applied ds
    | some r =>
      (if !r.supported then [.unsupportedDirective r.name target part]
        else if !r.targets.contains target then [.misplacedDirective r.name target part]
        else []) ++
      (if !r.repeatable && applied.contains r.name then [.repeatedDirective r.name target part]
        else []) ++
      placementFaults target part (r.name :: applied) ds

section Reading

variable (types : Table TypeDeclaration)

/-! ### Field sets against types -/

/-- The first thing about a field set that does not fit a type that it selects from. -/
def misfit? (parent : Name) : FieldSet → Option SelectionFault
  | .empty => none
  | .field n sub rest =>
    match (types.get? parent).bind fun p => p.fields.get? n with
    | none => some (.noField parent n)
    | some f =>
      let child := f.definition.type.innerName
      match isCompositeType types child, sub.isEmpty with
      | true, true => some (.missingSelection parent n child)
      | false, false => some (.leafSelection parent n child)
      | true, false => (misfit? child sub).or (misfit? parent rest)
      | false, true => misfit? parent rest
  | .fragment c sub rest =>
    let target := c.getD parent
    if isCompositeType types target then (misfit? target sub).or (misfit? parent rest)
    else some (.leafCondition target)

/-- The first thing about a field set that does not fit the type that it is to select from, the
type itself included. -/
def selectionFault? (parent : Name) (fields : FieldSet) : Option SelectionFault :=
  if types.contains parent then misfit? types parent fields else some (.undefinedType parent)

/-- The field set that a directive carries for a type, or what is wrong with it. -/
def fieldSetOf (part : Coordinate) (target : Name) (d : Directive) : Except Fault FieldSet :=
  let directive := canonicalName d.name
  match (d.argument? "fields").bind Value.text? with
  | none => .error (.noFieldSet directive part)
  | some source =>
    match FieldSet.ofText? source with
    | .error fault => .error (.unreadableFieldSet directive part fault)
    | .ok fields =>
      match selectionFault? types target fields with
      | some fault => .error (.unfitFieldSet directive part fault)
      | none => .ok fields

/-! ### Keys -/

/-- The key that a `@key` declares on a type, or what is wrong with it. -/
def keyOf (type : Name) (d : Directive) : Except Fault EntityKey :=
  match fieldSetOf types (.type type) type d with
  | .error fault => .error fault
  | .ok fields =>
    match d.argument? "resolvable" with
    | none => .ok ⟨fields, true⟩
    | some (.boolean resolvable) => .ok ⟨fields, resolvable⟩
    | some _ => .error (.resolvableNotBoolean type)

/-- The keys of a type, and what is wrong with them. -/
def keysOf (type : Name) (t : TypeDeclaration) : List (Except Fault EntityKey) :=
  if t.kind.hasFields then
    (t.directives.filter fun d => canonicalName d.name == "key").map (keyOf types type)
  else []

/-! ### Fields -/

/-- What a `@provides` provides below a field, or what is wrong with it. -/
def providesOf (part : Coordinate) (returns : Name) (d : Directive) : Except Fault FieldSet :=
  if isCompositeType types returns then fieldSetOf types part returns d
  else .error (.leafProvides part returns)

/-- The subgraph that an `@override` names, or what is wrong with it. -/
def overrideOf (subgraph : String) (part : Coordinate) (d : Directive) : Except Fault String :=
  match (d.argument? "from").bind Value.text? with
  | none => .error (.noOverride part)
  | some source =>
    if source = subgraph then .error (.selfOverride part source) else .ok source

/-- What is wrong with an applied directive as an annotation of a field. -/
def annotationFaults (subgraph : String) (type field : Name) (f : FieldDefinition)
    (d : Directive) : List Fault :=
  let part := Coordinate.field type field
  let faults {α : Type} (r : Except Fault α) : List Fault := errors [r]
  match canonicalName d.name with
  | "provides" => faults (providesOf types part f.type.innerName d)
  | "requires" => faults (fieldSetOf types part type d)
  | "override" => faults (overrideOf subgraph part d)
  | _ => []

/-- What the first directive of a given name that can be read declares. -/
def firstRead? {α : Type} (name : String) (read : Directive → Except Fault α)
    (ds : List Directive) : Option α :=
  ds.findSome? fun d => if canonicalName d.name == name then (read d).toOption else none

/-- A field with the annotations that its directives declare.  Only fields of object types are
annotated. -/
def annotateField (subgraph : String) (kind : TypeKind) (type field : Name)
    (f : FieldDeclaration) : FieldDeclaration :=
  if kind = .object then
    let part := Coordinate.field type field
    let ds := f.definition.directives
    { f with
      provides := firstRead? "provides"
        (providesOf types part f.definition.type.innerName) ds
      requires := firstRead? "requires" (fieldSetOf types part type) ds
      overrides := firstRead? "override" (overrideOf subgraph part) ds }
  else f

/-- What is wrong with the directives of a field. -/
def fieldDirectiveFaults (subgraph : String) (kind : TypeKind) (type field : Name)
    (f : FieldDefinition) : List Fault :=
  placementFaults (.ofFieldOf kind) (.field type field) [] f.directives ++
    f.arguments.flatMap (fun a =>
      placementFaults .argument (.argument type field a.1) [] a.2.directives) ++
    if kind = .object then f.directives.flatMap (annotationFaults types subgraph type field f)
    else []

/-! ### Types -/

/-- A type with the keys that its directives declare and with its fields annotated. -/
def annotateType (subgraph : String) (name : Name) (t : TypeDeclaration) : TypeDeclaration :=
  { t with
    keys := oks (keysOf types name t)
    fields := t.fields.mapEntries (annotateField types subgraph t.kind name) }

/-- What is wrong with the directives of a type. -/
def typeDirectiveFaults (subgraph : String) (name : Name) (t : TypeDeclaration) : List Fault :=
  placementFaults (.type t.kind) (.type name) [] t.directives ++
    errors (keysOf types name t) ++
    t.fields.entries.flatMap (fun f =>
      fieldDirectiveFaults types subgraph t.kind name f.1 f.2.definition) ++
    t.values.entries.flatMap (fun v =>
      placementFaults .enumValue (.enumValue name v.1) [] v.2.directives) ++
    t.inputs.entries.flatMap (fun f =>
      placementFaults .inputField (.inputField name f.1) [] f.2.directives)

/-- Declarations with their annotations. -/
def annotate (subgraph : String) : Table TypeDeclaration :=
  types.mapEntries (annotateType types subgraph)

/-- What is wrong with the directives of a subgraph's declarations. -/
def directiveFaults (subgraph : String) : List Fault :=
  types.entries.flatMap fun e => typeDirectiveFaults types subgraph e.1 e.2

end Reading

end Federation
