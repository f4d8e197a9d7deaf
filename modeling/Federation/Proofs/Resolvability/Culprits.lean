import Federation.Composition
import Federation.Proofs.Resolvability.Above
import Federation.Proofs.Resolvability.Termination

/-!
# Culprits in reach

A report names as its culprits the subgraphs that resolve the field in general, whatever it is that
keeps each of them from it.  The way that a report is written with leads to one position only
(`RaisedAt.unique`), and there a culprit is either out of reach, or in reach but without what it
requires for the field (`mem_reach_iff_starved`, `culprits_out_of_reach_iff`).
-/

namespace Federation

namespace Graph

variable {g : Graph}

theorem rootField_unique {r r' : RootField} (hr : r ∈ g.rootFields) (hr' : r' ∈ g.rootFields)
    (htype : r.type = r'.type) (hname : r.name = r'.name) : r = r' := by
  obtain ⟨_, t, ht, _, hf, _⟩ := mem_rootFields_iff.1 hr
  obtain ⟨_, t', ht', _, hf', _⟩ := mem_rootFields_iff.1 hr'
  rw [htype, ht', Option.some.injEq] at ht
  rw [← ht, hname, hf', Option.some.injEq] at hf
  cases r
  cases r'
  simp_all

/-! ### Where a report is raised -/

/-- A report is raised at a position of a type, for a field of the type: the way that the report is
written with leads there, and the field is stuck. -/
structure RaisedAt (g : Graph) (u : Unresolvable) (p : Position) (node : TypeNode)
    (f : FieldNode) : Prop where
  descent : ∃ r ∈ g.rootFields, ∃ path, g.Descent r path p ∧
    u.path = (path.field u.field).render
  type : g.types.get? p.type = some node
  field : node.fields.get? u.field = some f
  stuck : (g.nextAt p node u.field f).isEmpty = true
  resolved : f.resolvers.isEmpty = false

/-- A report is raised at one position only, for one field of its type. -/
theorem RaisedAt.unique {u : Unresolvable} {p q : Position} {node node' : TypeNode}
    {f f' : FieldNode} (h : g.RaisedAt u p node f) (h' : g.RaisedAt u q node' f') :
    q = p ∧ node' = node ∧ f' = f := by
  obtain ⟨r, hr, path, hp, hpath⟩ := h.descent
  obtain ⟨r', hr', path', hq, hpath'⟩ := h'.descent
  have hways := Path.eq_of_render_eq (hpath.symm.trans hpath')
  rw [Path.field.injEq] at hways
  have hposition : q = p := hq.position_eq (rootField_unique hr' hr) (hways.1 ▸ hp)
  subst hposition
  have hnode : node' = node := Option.some.inj (h'.type.symm.trans h.type)
  subst hnode
  exact ⟨rfl, rfl, Option.some.inj (h'.field.symm.trans h.field)⟩

/-- Every report is raised somewhere, and its culprits are the subgraphs that resolve the field. -/
theorem exists_raisedAt {u : Unresolvable} (hu : u ∈ g.unresolvables) :
    ∃ p node f, g.RaisedAt u p node f ∧ u.culprits = g.namesOf f.resolvers := by
  obtain ⟨r, hr, s, hs, x, hx, rfl⟩ := mem_unresolvables_iff.1 hu
  obtain ⟨path, p, hp, _, hstep, hpath⟩ :=
    exists_descent_of_mem_walk [] s.1 s.2 (.start hs) hx
  obtain ⟨node, f, hnode, hf, hstuck, hresolved, hculprits⟩ := stuck_mem_steps_iff.1 hstep
  have hraised : g.RaisedAt (g.unresolvable (g.origin r) x) p node f :=
    ⟨⟨r, hr, path, hp, congrArg Path.render hpath⟩, hnode, hf, hstuck, hresolved⟩
  exact ⟨p, node, f, hraised, congrArg g.namesOf hculprits⟩

/-- At every position of a descent where a field is stuck a report is raised. -/
theorem exists_mem_unresolvables_raisedAt {p : Position} (hp : p ∈ g.visited) {node : TypeNode}
    {n : Name} {f : FieldNode} (hnode : g.types.get? p.type = some node)
    (hf : node.fields.get? n = some f) (hstuck : (g.nextAt p node n f).isEmpty = true)
    (hresolved : f.resolvers.isEmpty = false) :
    ∃ u ∈ g.unresolvables, u.field = n ∧ g.RaisedAt u p node f := by
  obtain ⟨r, hr, path, hp⟩ := hp
  obtain ⟨s, hs, hsp⟩ := hp.exists_start
  have hstep : .stuck n f.resolvers ∈ g.steps p :=
    stuck_mem_steps_iff.2 ⟨node, f, hnode, hf, hstuck, hresolved, rfl⟩
  obtain ⟨path', hp', hx⟩ := exists_mem_walk hstep [] s.1 s.2 List.not_mem_nil (.start hs) hsp
  refine ⟨_, mem_unresolvables_iff.2 ⟨r, hr, s, hs, _, hx, rfl⟩, rfl, ?_⟩
  exact ⟨⟨r, hr, path', hp', rfl⟩, hnode, hf, hstuck, hresolved⟩

/-! ### Culprits that lack something -/

/-- A subgraph resolves a field and is in reach at a position, but what it requires for the field
cannot be resolved there. -/
def Starved (g : Graph) (p : Position) (node : TypeNode) (f : FieldNode) (i : SubgraphId) : Prop :=
  i ∈ f.resolvers ∧ i ∈ g.reach node p.resolving ∧ ∃ F, f.requires.get? i = some F ∧
    g.canResolve (g.reach node p.resolving) node F = false

/-- Where a field is stuck, those who resolve it are in reach only if they lack what they require
for it. -/
theorem mem_reach_iff_starved {p : Position} {node : TypeNode} {n : Name} {f : FieldNode}
    (hstuck : (g.nextAt p node n f).isEmpty = true) {i : SubgraphId} (hi : i ∈ f.resolvers) :
    i ∈ g.reach node p.resolving ↔ g.Starved p node f i := by
  constructor
  · intro hreach
    have hnot : i ∉ g.nextAt p node n f := SubgraphSet.isEmpty_iff.1 hstuck i
    have hrequired : (f.requires.get? i).all (g.canResolve (g.reach node p.resolving) node) =
        false := by
      by_contra hall
      apply hnot
      rw [Bool.not_eq_false] at hall
      exact SubgraphSet.mem_filter.2 ⟨hreach, by simp [hi, hall]⟩
    cases hF : f.requires.get? i with
    | none => simp [hF] at hrequired
    | some F =>
      rw [hF, Option.all_some] at hrequired
      exact ⟨hi, hreach, F, hF, hrequired⟩
  · exact fun h => h.2.1

/-- Somewhere a field is stuck although a subgraph that resolves it is in reach. -/
def HasStarved (g : Graph) : Prop :=
  ∃ p ∈ g.visited, ∃ node n f, g.types.get? p.type = some node ∧ node.fields.get? n = some f ∧
    (g.nextAt p node n f).isEmpty = true ∧ ∃ i, g.Starved p node f i

/-- **Which culprits are in reach**: each report is raised at one position, its culprits are those
who resolve the field, and one of them is in reach there exactly if it requires something for the
field that cannot be resolved there.  So all culprits of all reports are out of reach exactly if no
field is stuck at a visited position for want of what a subgraph in reach requires for it. -/
theorem culprits_out_of_reach_iff (g : Graph) :
    (∀ u ∈ g.unresolvables, ∃ p node f, g.RaisedAt u p node f ∧
      (∀ q node' f', g.RaisedAt u q node' f' → q = p ∧ node' = node ∧ f' = f) ∧
      u.culprits = g.namesOf f.resolvers ∧
      ∀ i ∈ f.resolvers, i ∈ g.reach node p.resolving ↔ g.Starved p node f i) ∧
    ((∀ u ∈ g.unresolvables, ∀ p node f, g.RaisedAt u p node f →
      ∀ i ∈ f.resolvers, i ∉ g.reach node p.resolving) ↔ ¬ g.HasStarved) := by
  refine ⟨?_, ?_, ?_⟩
  · intro u hu
    obtain ⟨p, node, f, hraised, hculprits⟩ := exists_raisedAt hu
    exact ⟨p, node, f, hraised, fun q node' f' h => hraised.unique h, hculprits,
      fun i hi => mem_reach_iff_starved hraised.stuck hi⟩
  · rintro hout ⟨p, hp, node, n, f, hnode, hf, hstuck, i, hi⟩
    have hresolved : f.resolvers.isEmpty = false := SubgraphSet.isEmpty_eq_false_iff.2 ⟨i, hi.1⟩
    obtain ⟨u, hu, rfl, hraised⟩ :=
      exists_mem_unresolvables_raisedAt hp hnode hf hstuck hresolved
    exact hout u hu p node f hraised i hi.1 hi.2.1
  · intro hno u _ p node f hraised i hi hreach
    obtain ⟨r, hr, path, hp, _⟩ := hraised.descent
    exact hno ⟨p, ⟨r, hr, path, hp⟩, node, u.field, f, hraised.type, hraised.field, hraised.stuck,
      i, (mem_reach_iff_starved hraised.stuck hi).1 hreach⟩

/-! ### A culprit that is in reach -/

/-- A field that two subgraphs resolve: the second one, which is entered through its key, requires
for it what only the third one knows, and the third one cannot be entered. -/
def starvedBatch : List Subgraph := Subgraph.batchOfTexts
  [("a", "type Query \x7b p: P \x7d type P \x7b upc: ID! \x7d"),
    ("b", "type P @key(fields: \"upc\") \x7b upc: ID! weight: Int @external " ++
      "shipping: Int @requires(fields: \"weight\") \x7d"),
    ("c", "type P \x7b weight: Int shipping: Int \x7d")]

/-- What the three subgraphs contribute. -/
def starvedContributions : List Schema :=
  ((schemas? starvedBatch).toOption.getD []).map Schema.contribution

/-- Their graph. -/
def starvedGraph : Graph := ofSchemas starvedContributions

/-- What there is to read off the graph: nothing is wrong with the batch, and where the root field
arrives some field is stuck that the second subgraph, which is in reach, resolves. -/
theorem starvedGraph_read :
    ((schemas? starvedBatch).isOk = true ∧ conflicts starvedContributions = []) ∧
    ∃ r ∈ starvedGraph.rootFields, ∃ s ∈ starvedGraph.starts r,
      ∃ node ∈ starvedGraph.types.get? s.2.type, ∃ e ∈ node.fields.entries,
        (∃ u ∈ starvedGraph.unresolvables, u.field = e.1 ∧ u.path = (s.1.field e.1).render ∧
          u.culprits = ["b", "c"]) ∧
        (starvedGraph.nextAt s.2 node e.1 e.2).isEmpty = true ∧
        1 ∈ e.2.resolvers ∧ 1 ∈ starvedGraph.reach node s.2.resolving := by decide +kernel

/-- A subgraph that is in reach is reported as a culprit. -/
theorem not_culprits_out_of_reach :
    ((schemas? starvedBatch).isOk = true ∧ conflicts starvedContributions = []) ∧
    ∃ u ∈ starvedGraph.unresolvables, ∃ p node f, starvedGraph.RaisedAt u p node f ∧
      u.culprits = ["b", "c"] ∧ ∃ i ∈ f.resolvers, starvedGraph.nameOf i = "b" ∧
        i ∈ starvedGraph.reach node p.resolving := by
  obtain ⟨hok, r, hr, s, hs, node, hnode, ⟨n, f⟩, hf, ⟨u, hu, hfield, hpath, hculprits⟩, hstuck,
    hres, hreach⟩ := starvedGraph_read
  obtain rfl : u.field = n := hfield
  have hraised : starvedGraph.RaisedAt u s.2 node f :=
    ⟨⟨r, hr, s.1, .start hs, hpath⟩, hnode, Table.get?_eq_some_iff.2 hf, hstuck,
      SubgraphSet.isEmpty_eq_false_iff.2 ⟨1, hres⟩⟩
  have hname : starvedGraph.nameOf 1 = "b" := by decide +kernel
  exact ⟨hok, u, hu, s.2, node, f, hraised, hculprits, 1, hres, hname, hreach⟩

end Graph

end Federation
