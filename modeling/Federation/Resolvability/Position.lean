import Federation.Resolvability.Reach

/-!
# Positions and steps

A position of the walk is an object type with the subgraphs that resolve it there and the
selections that they provide there.  `Graph.steps` answers what lies directly below a position:
a field that nobody in reach resolves, or another position, reached through a field and, where
the field returns an abstract type, through one of its possible types.

A step looks at the graph and its position only.
-/

namespace Federation

/-- An object type, the subgraphs that resolve it, and what they provide below it. -/
structure Position where
  type : Name
  resolving : SubgraphSet
  provided : SubgraphMap FieldSet
deriving DecidableEq

/-- What lies directly below a position. -/
inductive Step where
  /-- A field that is resolved by some subgraphs, none of them in reach. -/
  | stuck (field : Name) (resolvers : SubgraphSet)
  /-- A position below a field, and in one of its possible types if it returns an abstract
  type. -/
  | descend (field : Name) (possibleType : Option Name) (next : Position)

namespace Graph

/-- The possible types of an abstract type that some subgraph in reach declares, each as a position
with what those subgraphs provide there. -/
def possibleArrivals (g : Graph) (returns : Name) (t : TypeNode) (resolving : SubgraphSet)
    (provided : SubgraphMap FieldSet) : List (Option Name × Position) :=
  let reached := g.reach t resolving
  (g.possibleTypes returns t).filterMap fun o =>
    let narrowed := reached.inter o.2
    if narrowed.isEmpty then none
    else some (some o.1, ⟨o.1, narrowed,
      (provided.filter (· ∈ narrowed)).map (FieldSet.forPossibleType returns o.1)⟩)

theorem mem_possibleArrivals_iff {g : Graph} {returns : Name} {t : TypeNode}
    {resolving : SubgraphSet} {provided : SubgraphMap FieldSet} {a : Option Name × Position} :
    a ∈ g.possibleArrivals returns t resolving provided ↔
      ∃ o s, (o, s) ∈ g.possibleTypes returns t ∧
        ((g.reach t resolving).inter s).isEmpty = false ∧
        a = (some o, ⟨o, (g.reach t resolving).inter s,
          (provided.filter (· ∈ (g.reach t resolving).inter s)).map
            (FieldSet.forPossibleType returns o)⟩) := by
  simp only [possibleArrivals, List.mem_filterMap, Prod.exists]
  constructor
  · rintro ⟨o, s, ho, h⟩
    split at h
    · cases h
    · rename_i hne
      cases h
      exact ⟨o, s, ho, by simpa using hne, rfl⟩
  · rintro ⟨o, s, ho, hne, rfl⟩
    exact ⟨o, s, ho, by simp [hne]⟩

/-- The positions at which a value of a type arrives: itself if it is an object type, and its
possible types that some subgraph in reach declares if it is abstract. -/
def arrivals (g : Graph) (returns : Name) (resolving : SubgraphSet)
    (provided : SubgraphMap FieldSet) : List (Option Name × Position) :=
  match g.types.get? returns with
  | none => []
  | some t =>
    match t.kind with
    | .object => [(none, ⟨returns, resolving, provided⟩)]
    | .interface | .union => g.possibleArrivals returns t resolving provided
    -- A leaf has no fields to go on with.
    | .scalar | .enum | .inputObject => []

theorem mem_arrivals_iff {g : Graph} {returns : Name} {resolving : SubgraphSet}
    {provided : SubgraphMap FieldSet} {a : Option Name × Position} :
    a ∈ g.arrivals returns resolving provided ↔ ∃ t, g.types.get? returns = some t ∧
      (t.kind = .object ∧ a = (none, ⟨returns, resolving, provided⟩) ∨
        t.kind.isAbstract = true ∧ a ∈ g.possibleArrivals returns t resolving provided) := by
  unfold arrivals
  cases g.types.get? returns with
  | none => simp
  | some t => cases hk : t.kind <;> simp [hk, TypeKind.isAbstract]

/-- The subgraphs in reach that resolve a field at a position: because they resolve it in general
and what they require can be resolved, or because they declare it and provide it there. -/
def resolversAt (g : Graph) (node : TypeNode) (reached : SubgraphSet)
    (provided : SubgraphMap FieldSet) (name : Name) (f : FieldNode) : SubgraphSet :=
  reached.filter fun i =>
    (i ∈ f.resolvers && (f.requires.get? i).all (g.canResolve reached node)) ||
      (i ∈ f.declaredIn && (provided.get? i).any fun F => F.fieldNames.contains name)

/-- What a subgraph provides below a field: what it already provided there, and what it provides
with the field. -/
def providedAt (provided : SubgraphMap FieldSet) (name : Name) (f : FieldNode)
    (i : SubgraphId) : Option FieldSet :=
  FieldSet.merge?
    (((provided.get? i).bind (FieldSet.selectionOf? name)).filter fun F => !F.isEmpty)
    (f.provides.get? i)

/-- What some subgraphs provide below a field. -/
def providedBelow (provided : SubgraphMap FieldSet) (name : Name) (f : FieldNode)
    (next : SubgraphSet) : SubgraphMap FieldSet := .ofSet next (providedAt provided name f)

/-- What lies directly below a field of a position; `reached` are the subgraphs in reach
there. -/
def fieldSteps (g : Graph) (node : TypeNode) (reached : SubgraphSet)
    (provided : SubgraphMap FieldSet) (name : Name) (f : FieldNode) : List Step :=
  let next := g.resolversAt node reached provided name f
  if next.isEmpty then
    -- A field that nobody resolves anywhere is a conflict of the merge, and not reported again.
    if f.resolvers.isEmpty then [] else [.stuck name f.resolvers]
  else
    (g.arrivals f.returns next (providedBelow provided name f next)).map fun a =>
      .descend name a.1 a.2

/-- What lies directly below a position, in the order of its fields. -/
def steps (g : Graph) (p : Position) : List Step :=
  match g.types.get? p.type with
  | none => []
  | some node =>
    let reached := g.reach node p.resolving
    node.fields.entries.flatMap fun f =>
      g.fieldSteps node reached p.provided f.1 f.2

end Graph

end Federation
