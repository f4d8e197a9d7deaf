import Federation.Blank
import Federation.FirstSeen
import Federation.Graph
import Federation.Graph.Conflict
import Federation.Subgraph.Contribution

/-!
# Merging contributions

The contributions of a batch are folded into one graph, subgraph by subgraph and type by type.
A type has the kind that its first subgraph gives it; a subgraph that gives it another kind adds
nothing to it.  The definition of a field is that of its first subgraph in which it is not
external; later subgraphs add arguments, and fill in what is missing elsewhere.

Conflicts never stop the merge.  What a contribution adds (`absorb`) and what it disagrees about
(`conflicts`) are separate functions of the graph so far, so the graph does not depend on the
conflicts.
-/

namespace Federation

/-! ### Descriptions, directives, arguments -/

/-- The first description that is not blank; a blank one is kept as long as no better comes. -/
def mergeDescription (merged new : Option String) : Option String :=
  if new.any (fun d => !isBlankText d) && merged.all isBlankText then new else merged

/-- The arguments with those appended whose names are not among them. -/
def mergeArguments (merged new : List (Name × InputValue)) : List (Name × InputValue) :=
  merged ++ new.filter fun a => !merged.any fun b => b.1 = a.1

/-- A definition that is filled in from a later one of another subgraph. -/
def FieldDefinition.fillIn (merged new : FieldDefinition) : FieldDefinition :=
  { merged with
    description := mergeDescription merged.description new.description
    arguments := mergeArguments merged.arguments new.arguments
    directives := appendNew merged.directives new.directives }

/-! ### Fields -/

namespace FieldNode

/-- The definition and the authority of a field after one more declaration.  The first
declaration that is not external takes over, and keeps the arguments seen before. -/
def settle (node : FieldNode) (i : SubgraphId) (d : FieldDeclaration) :
    FieldDefinition × Authority :=
  match node.authority, d.external with
  | .awaited _, false =>
    -- Nothing but the arguments of the external declarations before this one remains.
    ({ d.definition with
        arguments := mergeArguments d.definition.arguments node.definition.arguments },
      .settled i)
  | .awaited externals, true =>
    (node.definition, .awaited (externals ++ [(i, d.definition.type)]))
  | .settled j, true => (node.definition, .settled j)
  | .settled j, false => (node.definition.fillIn d.definition, .settled j)

/-- The field before any declaration of it has been merged, where `d` is to be the first. -/
def start (d : FieldDeclaration) : FieldNode := ⟨d.definition, .awaited [], ∅, ∅, ∅, ∅, ∅, ∅⟩

/-- The field with one more declaration; `names` are the names of all subgraphs. -/
def absorb (names : List String) (i : SubgraphId) (d : FieldDeclaration)
    (node : FieldNode) : FieldNode where
  definition := (node.settle i d).1
  authority := (node.settle i d).2
  declaredIn := node.declaredIn.insert i
  shareableIn := if d.shareable then node.shareableIn.insert i else node.shareableIn
  externalIn := if d.external then node.externalIn.insert i else node.externalIn
  provides := node.provides.insert? i d.provides
  requires := node.requires.insert? i d.requires
  overrides := node.overrides.insert? i (d.overrides.map fun s => ⟨s, names.idxOf? s⟩)

/-- What a declaration disagrees about with the field as merged so far. -/
def conflicts (nameOf : SubgraphId → String) (type name : Name) (i : SubgraphId)
    (d : FieldDeclaration) (node : FieldNode) : List Conflict :=
  let merged := node.definition
  let new := d.definition
  match node.authority, d.external with
  | .awaited externals, false =>
    (externals.filter fun e => e.2 ≠ new.type).map fun e =>
      .externalTypes type name new.type (nameOf i) e.2 (nameOf e.1)
  | .awaited _, true => []
  | .settled j, true =>
    if merged.type = new.type then []
    else [.externalTypes type name merged.type (nameOf j) new.type (nameOf i)]
  | .settled j, false =>
    (if merged.type = new.type then []
      else [.fieldTypes type name merged.type (nameOf j) new.type (nameOf i)]) ++
    new.arguments.filterMap fun a =>
      ((merged.arguments.find? fun b => b.1 = a.1).filter fun b => b.2.type ≠ a.2.type).map
        fun b => .argumentTypes type name a.1 b.2.type (nameOf j) a.2.type (nameOf i)

end FieldNode

/-! ### Other parts of types -/

/-- An enum value with one more declaration. -/
def EnumValueDefinition.absorb (new : EnumValueDefinition) :
    Option EnumValueDefinition → EnumValueDefinition
  | none => new
  | some merged =>
    ⟨mergeDescription merged.description new.description,
      appendNew merged.directives new.directives⟩

namespace InputNode

/-- An input field with one more declaration; the first fixes its type and default. -/
def absorb (i : SubgraphId) (new : InputValue) : Option InputNode → InputNode
  | none => ⟨new, .singleton i⟩
  | some node =>
    ⟨{ node.definition with
        description := mergeDescription node.definition.description new.description
        directives := appendNew node.definition.directives new.directives },
      node.subgraphs.insert i⟩

/-- What a declaration disagrees about with the input field as merged so far. -/
def conflicts (nameOf : SubgraphId → String) (type name : Name) (i : SubgraphId)
    (new : InputValue) (node : InputNode) : List Conflict :=
  if node.definition.type = new.type then []
  else [.inputTypes type name node.definition.type (node.subgraphs.ids.map nameOf) new.type
    (nameOf i)]

end InputNode

/-- A table of memberships with a subgraph added to some names. -/
def addMemberships (i : SubgraphId) (ns : List Name) (t : Table SubgraphSet) : Table SubgraphSet :=
  ns.foldl (fun t n => t.alter n fun s => (s.getD ∅).insert i) t

/-- A table with every entry of another one merged in by `f`. -/
def Table.mergeIn {α β : Type} (f : α → Option β → β) (new : Table α) (t : Table β) : Table β :=
  new.entries.foldl (fun t e => t.alter e.1 (f e.2)) t

/-! ### Types -/

namespace TypeNode

/-- The type with the declaration of one more subgraph, which is of the same kind. -/
def absorb (names : List String) (i : SubgraphId) (d : TypeDeclaration)
    (node : TypeNode) : TypeNode where
  kind := node.kind
  description := mergeDescription node.description d.description
  directives := appendNew node.directives d.directives
  fields := d.fields.mergeIn
    (fun f node? => (node?.getD (FieldNode.start f)).absorb names i f) node.fields
  interfaces := addMemberships i d.interfaces node.interfaces
  members := addMemberships i d.members node.members
  values := d.values.mergeIn EnumValueDefinition.absorb node.values
  inputs := d.inputs.mergeIn (InputNode.absorb i) node.inputs
  subgraphs := node.subgraphs.insert i
  keys := if d.keys.isEmpty then node.keys else node.keys.insert i d.keys

/-- What a declaration of the same kind disagrees about with the type as merged so far. -/
def conflicts (nameOf : SubgraphId → String) (name : Name) (i : SubgraphId) (d : TypeDeclaration)
    (node : TypeNode) : List Conflict :=
  d.inputs.entries.flatMap (fun e =>
    (node.inputs.get? e.1).elim [] (InputNode.conflicts nameOf name e.1 i e.2)) ++
  d.fields.entries.flatMap (fun e =>
    (node.fields.get? e.1).elim [] (FieldNode.conflicts nameOf name e.1 i e.2))

end TypeNode

/-! ### The fold -/

/-- A declaration of a type by a subgraph of the batch. -/
structure Contributed where
  subgraph : SubgraphId
  name : Name
  declaration : TypeDeclaration

/-- Everything that a batch of schemas contributes, in the order of the batch. -/
def contributed (schemas : List Schema) : List Contributed :=
  schemas.zipIdx.flatMap fun s => s.1.types.entries.map fun t => ⟨s.2, t.1, t.2⟩

/-- The types with one more declaration; one of another kind is left out. -/
def mergeType (names : List String) (types : Table TypeNode) (c : Contributed) : Table TypeNode :=
  types.alter c.name fun node? =>
    let node := node?.getD { kind := c.declaration.kind }
    if node.kind = c.declaration.kind then node.absorb names c.subgraph c.declaration else node

/-- What a declaration disagrees about with the types as merged so far. -/
def typeConflicts (nameOf : SubgraphId → String) (types : Table TypeNode) (c : Contributed) :
    List Conflict :=
  match types.get? c.name with
  | none => []
  | some node =>
    if node.kind = c.declaration.kind then
      node.conflicts nameOf c.name c.subgraph c.declaration
    else
      let first := (node.subgraphs.first?).getD c.subgraph
      [.kinds c.name node.kind (nameOf first) c.declaration.kind (nameOf c.subgraph)]

/-- What declarations disagree about with what was merged before them. -/
def mergeConflicts (names : List String) (nameOf : SubgraphId → String) :
    Table TypeNode → List Contributed → List Conflict
  | _, [] => []
  | types, c :: cs =>
    typeConflicts nameOf types c ++ mergeConflicts names nameOf (mergeType names types c) cs

namespace Graph

/-- The graph that a batch of contributions makes up. -/
def ofSchemas (schemas : List Schema) : Graph where
  subgraphs := schemas.map fun s => ⟨s.name, s.url, s.version⟩
  types := (contributed schemas).foldl (mergeType (schemas.map (·.name))) ∅

/-! ### Conflicts in the merged graph -/

/-- The fields of object types that no subgraph resolves. -/
def baseConflicts (g : Graph) : List Conflict :=
  g.types.entries.flatMap fun t =>
    t.2.fields.entries.filterMap fun f =>
      if t.2.kind = .object && f.2.resolvers.isEmpty then
        some (.noBase t.1 f.1 (g.namesOf f.2.declaredIn))
      else none

/-- The fields of object types that several subgraphs resolve and some of them do not share. -/
def sharingConflicts (g : Graph) : List Conflict :=
  g.types.entries.flatMap fun t =>
    t.2.fields.entries.filterMap fun f =>
      let unshared := f.2.resolvers.filter fun i => i ∉ f.2.shareableIn
      if t.2.kind = .object && 2 ≤ f.2.resolvers.size && !unshared.isEmpty then
        some (.notShareable t.1 f.1 (g.namesOf f.2.resolvers) (g.namesOf unshared))
      else none

end Graph

end Federation
