import Federation.FirstSeen
import Federation.Resolvability.Walk
import Federation.Wording

/-!
# Unresolvable fields

A finding of the walk as it is reported: with the root field that the walk started from, and with
names in the place of positions in the batch.
-/

namespace Federation

/-- The root field from which an unresolvable field was found. -/
structure RootOrigin where
  type : Name
  field : Name
  /-- The type of the field, as it is written. -/
  fieldType : String
  /-- The way to the field, as it is written. -/
  path : String
  /-- The subgraphs that resolve the root field, each once. -/
  subgraphs : List String
  distinct : subgraphs.Nodup
deriving DecidableEq

/-- The origin of a walk, where subgraphs named again are passed over. -/
def RootOrigin.ofNames (type field : Name) (fieldType path : String) (subgraphs : List String) :
    RootOrigin :=
  ⟨type, field, fieldType, path, appendNew [] subgraphs, nodup_appendNew List.nodup_nil⟩

/-- A field that is reached from a root field, and resolved by no subgraph in reach. -/
structure Unresolvable where
  root : RootOrigin
  type : Name
  field : Name
  /-- The way to the field, as it is written. -/
  path : String
  /-- The subgraphs that resolve the field. -/
  culprits : List String
deriving DecidableEq

/-- The report in words. -/
def Unresolvable.message (u : Unresolvable) : String :=
  let coordinate := u.type.text ++ "." ++ u.field.text
  s!"The path \"{u.path}\" cannot be resolved: the root field \"{u.root.path}\" is resolved by " ++
    s!"{Wording.subgraphs u.root.subgraphs}, but \"{coordinate}\" is only defined in " ++
    s!"{Wording.subgraphs u.culprits}, which cannot be reached from there. " ++
    s!"Either make \"{u.type.text}\" an entity whose key is resolvable from the root field " ++
    s!"subgraphs, or define \"{coordinate}\" in a subgraph reachable on this path."

namespace Graph

/-- A root field as the origin of findings. -/
def origin (g : Graph) (r : RootField) : RootOrigin :=
  .ofNames r.type r.name r.node.definition.type.render (Path.root r.type r.name).render
    (g.namesOf r.node.resolvers)

/-- A finding as it is reported. -/
def unresolvable (g : Graph) (origin : RootOrigin) (f : Finding) : Unresolvable where
  root := origin
  type := f.type
  field := f.field
  path := f.path.render
  culprits := g.namesOf f.culprits

/-- All fields of a graph that cannot be resolved, in the order of the walk. -/
def unresolvables (g : Graph) : List Unresolvable :=
  g.rootFields.flatMap fun r => (g.findings r).map (g.unresolvable (g.origin r))

end Graph

end Federation
