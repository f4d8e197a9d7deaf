import Federation.Document.Definition

/-!
# Names with a meaning

The names that federation and the language itself give a meaning to: root operation types,
built-in scalars, the plumbing that federation-aware servers add to their schemas, and the
directives that a supergraph keeps.

Servers may write a federation directive with the namespace `federation__`; `canonicalName` takes
it off, once.
-/

namespace Federation

/-- The namespace that federation directives may be written with. -/
def directiveNamespace : List Char := "federation__".toList

/-- The name of a directive without the federation namespace. -/
def canonicalName (n : Name) : String :=
  let cs := n.text.toList
  if directiveNamespace.isPrefixOf cs then String.ofList (cs.drop directiveNamespace.length)
  else n.text

/-- Whether some applied directives include one with a given canonical name. -/
def hasDirective (ds : List Directive) (name : String) : Bool :=
  ds.any fun d => canonicalName d.name == name

/-! ### Root operation types -/

/-- The name under which the object type of an operation is composed. -/
def OperationType.rootName : OperationType → Name
  | query => ⟨"Query", by decide⟩
  | mutation => ⟨"Mutation", by decide⟩
  | subscription => ⟨"Subscription", by decide⟩

/-- The names of the root operation types, the query type first. -/
def rootTypeNames : List Name := OperationType.all.map OperationType.rootName

/-! ### Built-in scalars and plumbing -/

/-- The scalars that every schema has. -/
def builtInScalarNames : List String := ["Int", "Float", "String", "Boolean", "ID"]

/-- Whether a name is that of a built-in scalar. -/
def isBuiltInScalar (n : Name) : Bool := builtInScalarNames.contains n.text

/-- The types that federation-aware servers add. -/
def plumbingTypeNames : List String :=
  ["_Service", "_Entity", "_Any", "_FieldSet", "FieldSet", "openfed__FieldSet"]

/-- The namespaces of the types that federation-aware servers add. -/
def plumbingNamespaces : List (List Char) := ["link__".toList, directiveNamespace]

/-- Whether a name is that of a type which is there for the servers and never composed. -/
def isPlumbingType (n : Name) : Bool :=
  plumbingTypeNames.contains n.text ||
    plumbingNamespaces.any fun p => p.isPrefixOf n.text.toList

/-- The fields that federation-aware servers add to the query type. -/
def plumbingFieldNames : List String := ["_service", "_entities"]

/-- Whether a field of the query type is there for the servers and never composed. -/
def isPlumbingField (n : Name) : Bool := plumbingFieldNames.contains n.text

/-! ### Directives that a supergraph keeps -/

/-- The name of the directive that labels parts of a schema. -/
def tagName : Name := ⟨"tag", by decide⟩

/-- The name of the directive that hides parts of a schema. -/
def inaccessibleName : Name := ⟨"inaccessible", by decide⟩

/-- The directives that are carried over from subgraphs into the supergraph. -/
def persistedNames : List Name :=
  [⟨"deprecated", by decide⟩, ⟨"specifiedBy", by decide⟩, tagName, inaccessibleName]

/-- An applied directive as the supergraph keeps it, under its canonical name; nothing for a
directive that it does not keep. -/
def Directive.persisted? (d : Directive) : Option Directive :=
  (persistedNames.find? fun n => n.text == canonicalName d.name).map fun n => { d with name := n }

/-- The applied directives that the supergraph keeps, as it keeps them. -/
def persistedDirectives (ds : List Directive) : List Directive := ds.filterMap Directive.persisted?

theorem name_mem_of_mem_persistedDirectives {d : Directive} {ds : List Directive}
    (h : d ∈ persistedDirectives ds) : d.name ∈ persistedNames := by
  obtain ⟨e, _, he⟩ := List.mem_filterMap.1 h
  obtain ⟨n, hn, rfl⟩ := Option.map_eq_some_iff.1 he
  exact List.mem_of_find?_eq_some hn

end Federation
