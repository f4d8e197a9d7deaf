import Federation.FieldSet
import Federation.SubgraphSet
import Federation.Table
import Federation.Version

/-!
# The federated graph

The graph holds every type that some subgraph of a batch declares, and for each of its parts the
subgraphs that have a share in it.  Types, fields, interfaces, members and values stand in
first-seen order; sets of subgraphs stand in batch order.

Which subgraphs resolve a field follows from who declares it and how (`FieldNode.resolvers`): a
declaration counts unless it is external or another subgraph overrides it.
-/

namespace Federation

/-- What the graph knows of a subgraph as a whole. -/
structure SubgraphInfo where
  name : String
  url : String
  version : FederationVersion
deriving DecidableEq

/-! ### Fields -/

/-- Which declaration of a field fixes its type: the first that is not external. -/
inductive Authority where
  /-- None yet; these external declarations came first, with these types. -/
  | awaited (externals : List (SubgraphId × TypeRef))
  /-- The declaration of this subgraph. -/
  | settled (subgraph : SubgraphId)
deriving DecidableEq

/-- A field that is taken over from another subgraph. -/
structure Override where
  /-- The name of the subgraph that the field is taken from. -/
  source : String
  /-- The subgraph of that name, if the batch has one. -/
  target : Option SubgraphId
deriving DecidableEq

/-- A field of an object or interface type of the graph. -/
structure FieldNode where
  /-- The merged definition. -/
  definition : FieldDefinition
  authority : Authority
  /-- The subgraphs that declare the field, externally or not. -/
  declaredIn : SubgraphSet := ∅
  /-- The subgraphs in which the field is shareable. -/
  shareableIn : SubgraphSet := ∅
  /-- The subgraphs in which the field is external. -/
  externalIn : SubgraphSet := ∅
  /-- What subgraphs resolve along with the field below it. -/
  provides : SubgraphMap FieldSet := ∅
  /-- What subgraphs need before they resolve the field. -/
  requires : SubgraphMap FieldSet := ∅
  /-- The subgraphs that take the field over, with whom they take it from. -/
  overrides : SubgraphMap Override := ∅
deriving DecidableEq

namespace FieldNode

/-- The subgraphs whose declaration of the field another subgraph takes over. -/
def overriddenIn (f : FieldNode) : SubgraphSet :=
  f.declaredIn.filter fun i => f.overrides.entries.any fun e => e.2.target = some i && e.1 ≠ i

/-- The subgraphs that resolve the field: those that declare it, not externally and without being
overridden. -/
def resolvers (f : FieldNode) : SubgraphSet :=
  f.declaredIn.filter fun i => i ∉ f.externalIn && i ∉ f.overriddenIn

theorem mem_resolvers_iff {f : FieldNode} {i : SubgraphId} :
    i ∈ f.resolvers ↔ i ∈ f.declaredIn ∧ i ∉ f.externalIn ∧ i ∉ f.overriddenIn := by
  simp [resolvers]

/-- The named type that the field returns. -/
def returns (f : FieldNode) : Name := f.definition.type.innerName

end FieldNode

/-! ### Types -/

/-- A field of an input object type of the graph. -/
structure InputNode where
  definition : InputValue
  /-- The subgraphs that declare the field. -/
  subgraphs : SubgraphSet
deriving DecidableEq

/-- A named type of the graph. -/
structure TypeNode where
  kind : TypeKind
  description : Option String := none
  directives : List Directive := []
  fields : Table FieldNode := ∅
  /-- The implemented interfaces, with the subgraphs that declare the implementation. -/
  interfaces : Table SubgraphSet := ∅
  /-- The union members, with the subgraphs that declare the membership. -/
  members : Table SubgraphSet := ∅
  values : Table EnumValueDefinition := ∅
  inputs : Table InputNode := ∅
  /-- The subgraphs that declare the type. -/
  subgraphs : SubgraphSet := ∅
  /-- The keys that subgraphs declare. -/
  keys : SubgraphMap (List EntityKey) := ∅
deriving DecidableEq

namespace TypeNode

/-- The resolvable keys of the type, each with the subgraph that declares it. -/
def resolvableKeys (t : TypeNode) : List (SubgraphId × EntityKey) :=
  t.keys.entries.flatMap fun e => (e.2.filter (·.resolvable)).map (e.1, ·)

theorem mem_resolvableKeys_iff_get? {t : TypeNode} {i : SubgraphId} {k : EntityKey} :
    (i, k) ∈ t.resolvableKeys ↔ ∃ ks, t.keys.get? i = some ks ∧ k ∈ ks ∧ k.resolvable = true := by
  simp only [resolvableKeys, List.mem_flatMap, List.mem_map, List.mem_filter, Prod.mk.injEq,
    Prod.exists, SubgraphMap.get?_eq_some_iff]
  constructor
  · rintro ⟨j, ks, hks, _, hk, rfl, rfl⟩
    exact ⟨ks, hks, hk⟩
  · rintro ⟨ks, hks, hk⟩
    exact ⟨i, ks, hks, k, hk, rfl, rfl⟩

/-- Whether some subgraph can resolve the type on its own. -/
def isEntity (t : TypeNode) : Bool := !t.resolvableKeys.isEmpty

end TypeNode

/-! ### The graph -/

/-- All subgraphs of a batch as one graph of types. -/
structure Graph where
  /-- The subgraphs in batch order. -/
  subgraphs : List SubgraphInfo
  types : Table TypeNode
deriving DecidableEq

namespace Graph

/-- The version of the graph: the highest of its subgraphs. -/
def version (g : Graph) : FederationVersion := .highest (g.subgraphs.map (·.version))

/-- The name of a subgraph. -/
def nameOf (g : Graph) (i : SubgraphId) : String := (g.subgraphs[i]?.map (·.name)).getD ""

/-- The names of some subgraphs, in batch order. -/
def namesOf (g : Graph) (s : SubgraphSet) : List String := s.ids.map g.nameOf

/-- The first subgraph of a given name. -/
def subgraph? (g : Graph) (name : String) : Option SubgraphId :=
  (g.subgraphs.map (·.name)).idxOf? name

/-- A type, if it is an object type. -/
def object? (g : Graph) (n : Name) : Option TypeNode :=
  (g.types.get? n).filter fun t => t.kind = .object

/-- The root operation types of the graph, the query type first. -/
def rootTypes (g : Graph) : List (Name × TypeNode) :=
  rootTypeNames.filterMap fun n => (g.object? n).map (n, ·)

/-- The subgraphs that declare an object type to be a possible type of an abstract one. -/
def membership? (name : Name) (t : TypeNode) (object : Name × TypeNode) : Option SubgraphSet :=
  match t.kind with
  | .union => t.members.get? object.1
  | .interface => object.2.interfaces.get? name
  | _ => none

/-- The object types that a value of an abstract type can have, in graph order, each with the
subgraphs that declare it to be one. -/
def possibleTypes (g : Graph) (name : Name) (t : TypeNode) : List (Name × SubgraphSet) :=
  (g.types.entries.filter fun e => e.2.kind = .object).filterMap fun e =>
    (membership? name t e).map (e.1, ·)

theorem mem_possibleTypes_iff {g : Graph} {name : Name} {t : TypeNode} {o : Name}
    {s : SubgraphSet} : (o, s) ∈ g.possibleTypes name t ↔ ∃ node, g.types.get? o = some node ∧
      node.kind = .object ∧ membership? name t (o, node) = some s := by
  simp only [possibleTypes, List.mem_filterMap, List.mem_filter, decide_eq_true_eq,
    Option.map_eq_some_iff, Table.get?_eq_some_iff]
  constructor
  · rintro ⟨⟨n, node⟩, ⟨he, hkind⟩, _, hs, h⟩
    cases h
    exact ⟨node, he, hkind, hs⟩
  · rintro ⟨node, he, hkind, hs⟩
    exact ⟨(o, node), ⟨he, hkind⟩, s, hs, rfl⟩

/-- The subgraphs of a set between brackets. -/
def renderSubgraphs (g : Graph) (s : SubgraphSet) : String :=
  " [" ++ ", ".intercalate (g.namesOf s) ++ "]\n"

/-- A compact overview of the graph: a line for each type with the subgraphs that declare it, and
for each field with the subgraphs that resolve it. -/
def render (g : Graph) : String :=
  String.join (g.types.entries.map fun t =>
    t.2.kind.text ++ " " ++ t.1.text ++ g.renderSubgraphs t.2.subgraphs ++
      String.join (t.2.fields.entries.map fun f =>
        "  " ++ f.1.text ++ ": " ++ f.2.definition.type.render ++
          g.renderSubgraphs f.2.resolvers))

end Graph

end Federation
