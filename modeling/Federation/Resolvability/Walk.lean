import Federation.Resolvability.Extent
import Federation.Resolvability.Path

/-!
# The walk

The walk proves that every field below a root field can be resolved: it goes down every step from
position to position, depth first, and reports the fields at which it is stuck.  It stops at a
position that is on its own path already, so that cycles end while every other path through a
type is walked on its own.

Every step leaves fewer positions ahead (`Graph.unvisited_lt`), so the walk ends; `Graph.walk_eq`
is its equation.
-/

namespace Federation

/-- A field that cannot be resolved where a walk came to it. -/
structure Finding where
  /-- The way to the field, the field included. -/
  path : Path
  type : Name
  field : Name
  /-- The subgraphs that resolve the field, none of them in reach. -/
  culprits : SubgraphSet
deriving DecidableEq

namespace Graph

/-- The fields that cannot be resolved at a position and below it, where `ancestors` are the
positions on the way to it. -/
def walk (g : Graph) (ancestors : List Position) (path : Path) (p : Position) : List Finding :=
  if p ∈ ancestors then []
  else (g.steps p).attach.flatMap fun ⟨step, _⟩ =>
    match step with
    | .stuck f resolvers => [⟨path.field f, p.type, f, resolvers⟩]
    | .descend f possible next =>
      g.walk (p :: ancestors) ((path.field f).into possible) next
termination_by g.unvisited ancestors p
decreasing_by
  rename_i hp _ hstep
  exact unvisited_lt hp hstep

/-- What a walk reports for a step, given what it reports for the positions below. -/
def report (path : Path) (type : Name) (below : Path → Position → List Finding) :
    Step → List Finding
  | .stuck f resolvers => [⟨path.field f, type, f, resolvers⟩]
  | .descend f possible next => below ((path.field f).into possible) next

/-- The walk reports nothing at a position on its own path, and else goes down every step. -/
theorem walk_eq (g : Graph) (ancestors : List Position) (path : Path) (p : Position) :
    g.walk ancestors path p =
      if p ∈ ancestors then []
      else (g.steps p).flatMap (report path p.type (g.walk (p :: ancestors))) := by
  rw [walk]
  split
  · rfl
  · -- The proofs that the steps come with make no difference.
    conv => rhs; rw [← List.attach_map_subtype_val (g.steps p), List.flatMap_map]
    congr 1
    funext ⟨step, _⟩
    cases step <;> rfl

/-! ### From root fields -/

/-- A root field that some subgraph resolves. -/
structure RootField where
  type : Name
  name : Name
  node : FieldNode

/-- The root fields of a graph that some subgraph resolves, in the order of the graph. -/
def rootFields (g : Graph) : List RootField :=
  g.rootTypes.flatMap fun t =>
    (t.2.fields.entries.filter fun f => !f.2.resolvers.isEmpty).map fun f => ⟨t.1, f.1, f.2⟩

theorem mem_rootFields_iff {g : Graph} {r : RootField} :
    r ∈ g.rootFields ↔ r.type ∈ rootTypeNames ∧ ∃ t, g.types.get? r.type = some t ∧
      t.kind = .object ∧ t.fields.get? r.name = some r.node ∧
      r.node.resolvers.isEmpty = false := by
  simp only [rootFields, rootTypes, object?, List.mem_flatMap, List.mem_filterMap, List.mem_map,
    List.mem_filter, Option.map_eq_some_iff, Option.filter_eq_some_iff, decide_eq_true_eq,
    Bool.not_eq_true', ← Table.get?_eq_some_iff, Prod.exists]
  constructor
  · rintro ⟨_, _, ⟨n, hn, t, ⟨ht, hkind⟩, h⟩, m, f, ⟨hf, hres⟩, rfl⟩
    cases h
    exact ⟨hn, _, ht, hkind, hf, hres⟩
  · rintro ⟨hn, t, ht, hkind, hf, hres⟩
    exact ⟨r.type, t, ⟨r.type, hn, t, ⟨ht, hkind⟩, rfl⟩, r.name, r.node, ⟨hf, hres⟩, rfl⟩

/-- The positions at which the walk of a root field starts, each with the way to it. -/
def starts (g : Graph) (r : RootField) : List (Path × Position) :=
  (g.arrivals r.node.returns r.node.resolvers r.node.provides).map fun a =>
    ((Path.root r.type r.name).into a.1, a.2)

/-- The fields that cannot be resolved below a root field. -/
def findings (g : Graph) (r : RootField) : List Finding :=
  (g.starts r).flatMap fun s => g.walk [] s.1 s.2

end Graph

end Federation
