import Federation.Composition
import Federation.Proofs.Resolvability.Hops
import Federation.Proofs.Resolvability.Termination

/-!
# Overridden fields in the walk

A subgraph whose field another one takes over does not resolve the field.  The walk has a second
source of resolvers, though: whoever declares a field and provides it at a position is asked for it
there, and nobody looks at overrides again.

So whether an override is honoured depends on what is carried.  `Carries` says where the selections
of a subgraph at a position come from: each was provided with a field on the way, and cut down hop
by hop by the subgraph that provides it (`any_selects_iff_carries`).  An overridden subgraph is
asked for the field exactly if it is in reach and carries a selection of it
(`mem_nextAt_iff_carries`), and overrides are honoured throughout exactly if that happens nowhere
(`overrides_honoured_iff`).  It can happen (`not_overrides_honoured_staleProvision`).
-/

namespace Federation

/-- A subgraph whose declaration is taken over does not resolve the field. -/
theorem FieldNode.not_mem_resolvers_of_overridden {f : FieldNode} {i : SubgraphId}
    (hi : i ∈ f.overriddenIn) : i ∉ f.resolvers :=
  fun hres => (mem_resolvers_iff.1 hres).2.2 hi

theorem FieldNode.mem_declaredIn_of_overridden {f : FieldNode} {i : SubgraphId}
    (hi : i ∈ f.overriddenIn) : i ∈ f.declaredIn :=
  (SubgraphSet.mem_filter.1 hi).1

namespace Graph

variable {g : Graph} {i : SubgraphId}

/-! ### Where carried selections come from -/

/-- A subgraph is asked for a field on the way from one position to the next, and goes along. -/
structure Follows (g : Graph) (i : SubgraphId) (p : Position) (name : Name) (f : FieldNode)
    (possible : Option Name) (q : Position) : Prop where
  field : ∃ node, g.types.get? p.type = some node ∧ node.fields.get? name = some f ∧
    i ∈ g.nextAt p node name f ∧ (possible, q) ∈ g.arrivals f.returns (g.nextAt p node name f)
      (providedBelow p.provided name f (g.nextAt p node name f))
  /-- Into a possible type only those go along who declare it. -/
  possible : possible = none ∨ i ∈ q.resolving

/-- The selections that a subgraph carries to a position, in the parts in which they were
provided. -/
inductive Carries (g : Graph) (i : SubgraphId) : Position → FieldSet → Prop
  /-- What comes with a root field. -/
  | root {r : RootField} {possible : Option Name} {q : Position} {F : FieldSet}
      (hr : r ∈ g.rootFields)
      (hq : (possible, q) ∈ g.arrivals r.node.returns r.node.resolvers r.node.provides)
      (hpossible : possible = none ∨ i ∈ q.resolving) (hF : r.node.provides.get? i = some F) :
      Carries g i q (F.arriving r.node.returns possible)
  /-- What comes with a field that the subgraph is asked for at a visited position. -/
  | field {p q : Position} {name : Name} {f : FieldNode} {possible : Option Name} {F : FieldSet}
      (hp : p ∈ g.visited) (hq : g.Follows i p name f possible q)
      (hF : f.provides.get? i = some F) : Carries g i q (F.arriving f.returns possible)
  /-- What is selected below a field in a selection that was carried there. -/
  | inherited {p q : Position} {name : Name} {f : FieldNode} {possible : Option Name}
      {F S : FieldSet} (hF : Carries g i p F) (hq : g.Follows i p name f possible q)
      (hS : F.selectionOf? name = some S) : Carries g i q (S.arriving f.returns possible)

/-- What a subgraph selects where it follows to: what it selected before, one hop earlier, and what
it selects with the field. -/
theorem Follows.any_selects_iff {p q : Position} {name : Name} {f : FieldNode}
    {possible : Option Name} (h : g.Follows i p name f possible q) (n : Name) (hops : List Hop) :
    (q.provided.get? i).any (FieldSet.selects n hops) = true ↔
      (p.provided.get? i).any (FieldSet.selects n (⟨name, f.returns, possible⟩ :: hops)) = true ∨
        (f.provides.get? i).any
          (fun F => (F.arriving f.returns possible).selects n hops) = true := by
  obtain ⟨node, _, _, hi, hq⟩ := h.field
  rw [any_selects_of_mem_arrivals hq]
  simp only [hi, h.possible, true_and]

/-- **Soundness**: a carried selection is one of those that are provided at the position. -/
theorem Carries.any_selects {p : Position} {F : FieldSet} (h : g.Carries i p F) {n : Name}
    {hops : List Hop} (hF : F.selects n hops = true) :
    (p.provided.get? i).any (FieldSet.selects n hops) = true := by
  induction h generalizing hops with
  | root _ hq hpossible hG =>
    rw [get?_provided_of_mem_arrivals hq, if_pos hpossible, hG]
    exact hF
  | field _ hq hG =>
    rw [hq.any_selects_iff, hG]
    exact .inr hF
  | @inherited p q name f possible G S _ hq hS ih =>
    rw [hq.any_selects_iff]
    refine .inl (ih ?_)
    rw [FieldSet.selects, hS]
    exact hF

/-- **Completeness**: what is provided at the end of a descent is carried there in some part. -/
theorem Descent.exists_carries {r : RootField} (hr : r ∈ g.rootFields) {path : Path} {p : Position}
    (hp : g.Descent r path p) {n : Name} {hops : List Hop}
    (h : (p.provided.get? i).any (FieldSet.selects n hops) = true) :
    ∃ F, g.Carries i p F ∧ F.selects n hops = true := by
  induction hp generalizing hops with
  | start hs =>
    obtain ⟨⟨possible, q⟩, hq, rfl⟩ := List.mem_map.1 hs
    rw [get?_provided_of_mem_arrivals hq] at h
    by_cases hpossible : possible = none ∨ i ∈ q.resolving
    · rw [if_pos hpossible, Option.any_map, Option.any_eq_true] at h
      obtain ⟨F, hF, hselects⟩ := h
      exact ⟨_, .root hr hq hpossible hF, hselects⟩
    · rw [if_neg hpossible] at h
      cases h
  | @through path p q node name f possible hp hnode hf hnext hq ih =>
    obtain ⟨hi, hpossible, h⟩ := (any_selects_of_mem_arrivals hq i n hops).1 h
    have hfollows : g.Follows i p name f possible q := ⟨⟨node, hnode, hf, hi, hq⟩, hpossible⟩
    rcases h with h | h
    · -- Provided further up: the part is cut down once more.
      obtain ⟨F, hcarries, hF⟩ := ih h
      obtain ⟨S, hS, hselects⟩ := (Option.any_eq_true _ _).1 hF
      exact ⟨_, .inherited hcarries hfollows hS, hselects⟩
    · obtain ⟨F, hF, hselects⟩ := (Option.any_eq_true _ _).1 h
      exact ⟨_, .field ⟨r, hr, path, hp⟩ hfollows hF, hselects⟩

/-- What a subgraph provides at a visited position is what it carries there. -/
theorem any_selects_iff_carries {p : Position} (hp : p ∈ g.visited) (n : Name)
    (hops : List Hop) : (p.provided.get? i).any (FieldSet.selects n hops) = true ↔
      ∃ F, g.Carries i p F ∧ F.selects n hops = true := by
  obtain ⟨r, hr, path, hp⟩ := hp
  constructor
  · exact hp.exists_carries hr
  · rintro ⟨F, hcarries, hF⟩
    exact hcarries.any_selects hF

/-! ### Who is asked for an overridden field -/

/-- **When an override is passed over**: a subgraph whose field is taken over is asked for it at a
position exactly if it is in reach and carries a selection of the field there. -/
theorem mem_nextAt_iff_carries {p : Position} (hp : p ∈ g.visited) {node : TypeNode} {n : Name}
    {f : FieldNode} (hi : i ∈ f.overriddenIn) : i ∈ g.nextAt p node n f ↔
      i ∈ g.reach node p.resolving ∧ ∃ F, g.Carries i p F ∧ n ∈ F.fieldNames := by
  have hcarries := any_selects_iff_carries (i := i) hp n []
  simp only [FieldSet.selects, List.contains_iff_mem] at hcarries
  rw [nextAt, resolversAt, SubgraphSet.mem_filter, ← hcarries]
  simp [FieldNode.not_mem_resolvers_of_overridden hi, FieldNode.mem_declaredIn_of_overridden hi]

/-- Overrides are honoured: no subgraph is asked anywhere for a field that another one takes over
from it. -/
def HonoursOverrides (g : Graph) : Prop :=
  ∀ p ∈ g.visited, ∀ node n f, g.types.get? p.type = some node → node.fields.get? n = some f →
    ∀ i ∈ f.overriddenIn, i ∉ g.nextAt p node n f

/-- At some visited position, a subgraph in reach carries a selection of a field that another one
takes over from it. -/
def HasStaleProvision (g : Graph) : Prop :=
  ∃ p ∈ g.visited, ∃ node n f, g.types.get? p.type = some node ∧ node.fields.get? n = some f ∧
    ∃ i ∈ f.overriddenIn, i ∈ g.reach node p.resolving ∧
      ∃ F, g.Carries i p F ∧ n ∈ F.fieldNames

/-- A subgraph names a field in what it provides somewhere. -/
def Mentions (g : Graph) (i : SubgraphId) (n : Name) : Prop :=
  ∃ type node name f F, g.types.get? type = some node ∧ node.fields.get? name = some f ∧
    f.provides.get? i = some F ∧ n ∈ F.allNames

/-- What is carried is made of names that the subgraph mentions. -/
theorem Carries.mentions {p : Position} {F : FieldSet} (h : g.Carries i p F) {n : Name}
    (hn : n ∈ F.allNames) : g.Mentions i n := by
  induction h with
  | root hr _ _ hF =>
    obtain ⟨_, t, ht, _, hf, _⟩ := mem_rootFields_iff.1 hr
    exact ⟨_, t, _, _, _, ht, hf, hF, FieldSet.mem_allNames_of_mem_arriving hn⟩
  | field _ hq hF =>
    obtain ⟨node, hnode, hf, _⟩ := hq.field
    exact ⟨_, node, _, _, _, hnode, hf, hF, FieldSet.mem_allNames_of_mem_arriving hn⟩
  | inherited _ _ hS ih =>
    exact ih (FieldSet.mem_allNames_of_selectionOf? hS
      (FieldSet.mem_allNames_of_mem_arriving hn))

/-- **When overrides are honoured**: at a visited position, a subgraph whose field is taken over is
asked for the field exactly if it is in reach and carries a selection of the field there, provided
with a field on the way; so overrides are honoured throughout exactly if no position has such a
selection, and they are if no subgraph provides a field that has the name of one which is taken over
from it. -/
theorem overrides_honoured_iff (g : Graph) :
    (∀ p ∈ g.visited, ∀ node n f, g.types.get? p.type = some node → node.fields.get? n = some f →
      ∀ i ∈ f.overriddenIn, i ∈ g.nextAt p node n f ↔
        i ∈ g.reach node p.resolving ∧ ∃ F, g.Carries i p F ∧ n ∈ F.fieldNames) ∧
    (g.HonoursOverrides ↔ ¬ g.HasStaleProvision) ∧
    ((∀ type node n f i, g.types.get? type = some node → node.fields.get? n = some f →
      i ∈ f.overriddenIn → ¬ g.Mentions i n) → g.HonoursOverrides) := by
  have hiff : g.HonoursOverrides ↔ ¬ g.HasStaleProvision := by
    constructor
    · rintro h ⟨p, hp, node, n, f, hnode, hf, i, hi, hstale⟩
      exact h p hp node n f hnode hf i hi ((mem_nextAt_iff_carries hp hi).2 hstale)
    · intro h p hp node n f hnode hf i hi hnext
      exact h ⟨p, hp, node, n, f, hnode, hf, i, hi, (mem_nextAt_iff_carries hp hi).1 hnext⟩
  refine ⟨fun p hp node n f _ _ i hi => mem_nextAt_iff_carries hp hi, hiff, fun h => ?_⟩
  rw [hiff]
  rintro ⟨p, _, node, n, f, hnode, hf, i, hi, _, F, hcarries, hn⟩
  exact h _ node n f i hnode hf hi (hcarries.mentions (FieldSet.mem_allNames_of_mem_fieldNames hn))

/-! ### An override that is passed over -/

/-- A field that the second subgraph takes over from the first one, which provides it below a root
field all the same. -/
def staleProvisionBatch : List Subgraph := Subgraph.batchOfTexts
  [("a", "type Query \x7b t: T @provides(fields: \"x\") \x7d type T \x7b x: Int y: Int \x7d"),
    ("b", "type T \x7b x: Int @override(from: \"a\") \x7d")]

/-- What the two subgraphs contribute. -/
def staleProvisionContributions : List Schema :=
  ((schemas? staleProvisionBatch).toOption.getD []).map Schema.contribution

/-- Their graph. -/
def staleProvisionGraph : Graph := ofSchemas staleProvisionContributions

/-- What there is to read off the graph: nothing is wrong with the batch, nothing is reported, and
where the root field arrives the first subgraph is asked for a field that is taken over from it,
which only the second one resolves, out of reach there. -/
theorem staleProvisionGraph_read :
    ((schemas? staleProvisionBatch).isOk = true ∧ conflicts staleProvisionContributions = []) ∧
    staleProvisionGraph.unresolvables = [] ∧
    ∃ r ∈ staleProvisionGraph.rootFields, ∃ s ∈ staleProvisionGraph.starts r,
      ∃ node ∈ staleProvisionGraph.types.get? s.2.type, ∃ e ∈ node.fields.entries,
        0 ∈ e.2.overriddenIn ∧ 0 ∈ staleProvisionGraph.nextAt s.2 node e.1 e.2 ∧
        e.2.resolvers = .singleton 1 ∧ 1 ∉ staleProvisionGraph.reach node s.2.resolving := by
  decide +kernel

/-- The first subgraph is asked for the field, as if it had not been taken over: the subgraph that
resolves it cannot be reached, and nothing is reported. -/
theorem not_overrides_honoured_staleProvision :
    ((schemas? staleProvisionBatch).isOk = true ∧ conflicts staleProvisionContributions = []) ∧
    staleProvisionGraph.unresolvables = [] ∧
    (∃ p ∈ staleProvisionGraph.visited, ∃ node n f,
      staleProvisionGraph.types.get? p.type = some node ∧ node.fields.get? n = some f ∧
        0 ∈ f.overriddenIn ∧ 0 ∈ staleProvisionGraph.nextAt p node n f ∧
        ∀ i ∈ f.resolvers, i ∉ staleProvisionGraph.reach node p.resolving) ∧
    ¬ staleProvisionGraph.HonoursOverrides := by
  obtain ⟨hok, hnil, r, hr, s, hs, node, hnode, e, he, hoverridden, hnext, hres, hreach⟩ :=
    staleProvisionGraph_read
  have hp : s.2 ∈ staleProvisionGraph.visited := ⟨r, hr, s.1, .start hs⟩
  have hf := Table.get?_eq_some_iff.2 he
  refine ⟨hok, hnil, ⟨s.2, hp, node, e.1, e.2, hnode, hf, hoverridden, hnext, ?_⟩, fun h => ?_⟩
  · intro i hi
    rw [hres, SubgraphSet.mem_singleton] at hi
    exact hi ▸ hreach
  · exact h s.2 hp node e.1 e.2 hnode hf 0 hoverridden hnext

end Graph

end Federation
