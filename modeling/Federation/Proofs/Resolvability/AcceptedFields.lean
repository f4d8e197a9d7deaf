import Federation.Composition
import Federation.Proofs.Resolvability.KeyJumps
import Federation.Proofs.Resolvability.Termination

/-!
# Accepted fields in keys and requirements

Two checks say whether a field is there at a position.  `Graph.resolversAt` decides what becomes of
the field itself, and counts the subgraphs that provide it there; `Graph.canResolve` decides about
keys and `@requires` that select the field, and does not see what is provided.

For leaf fields they differ in nothing else (`canResolve_iff_not_overlooked`): a selection of
accepted fields can be resolved unless it has a field that is there only because it is provided, or
selects a field in a fragment on an interface whose own field nobody in reach resolves.  So an
accepted field counts for every key and every `@requires` exactly if no position has a selection
with such a field (`countsAccepted_iff`), and there are schemas that have one
(`not_countsAccepted_providedKey`).
-/

namespace Federation

/-- No field of a selection has a selection below it. -/
def FieldSet.IsFlat : FieldSet → Prop
  | empty => True
  | field _ sub rest => sub = empty ∧ rest.IsFlat
  | fragment _ sub rest => sub.IsFlat ∧ rest.IsFlat

namespace Graph

variable {g : Graph} {p : Position} {node : TypeNode} {s : SubgraphSet} {F : FieldSet}

/-! ### The fields that a selection reads -/

/-- The type on which a fragment selects: its condition, if the graph has such a type. -/
def target (g : Graph) (type : Name) (condition : Option Name) : Name :=
  (condition.filter fun n => (g.types.get? n).isSome).getD type

theorem get?_target {type : Name} (hnode : g.types.get? type = some node) (c : Option Name) :
    g.types.get? (g.target type c) = some ((c.bind g.types.get?).getD node) := by
  cases c with
  | none => exact hnode
  | some n => cases hn : g.types.get? n <;> simp [target, Option.filter_some, hn, hnode]

/-- The fields that a selection on a type makes, each with the type on which it is selected. -/
def reads (g : Graph) : Name → FieldSet → List (Name × Name)
  | _, .empty => []
  | type, .field n _ rest => (type, n) :: g.reads type rest
  | type, .fragment c sub rest => g.reads (g.target type c) sub ++ g.reads type rest

/-- Some of the subgraphs resolve a field of a type. -/
def Resolved (g : Graph) (s : SubgraphSet) (r : Name × Name) : Prop :=
  ∃ node f, g.types.get? r.1 = some node ∧ node.fields.get? r.2 = some f ∧ ∃ i ∈ f.resolvers, i ∈ s

/-- Without selections below them, the fields of a selection are looked at one by one. -/
theorem canResolve_field_iff {type n : Name} (hnode : g.types.get? type = some node) :
    g.canResolve s node (.field n .empty F) = true ↔
      g.Resolved s (type, n) ∧ g.canResolve s node F = true := by
  rw [canResolve, Bool.and_eq_true]
  apply and_congr_left
  intro _
  cases hf : node.fields.get? n with
  | none => simp [Resolved, hnode, hf]
  | some f =>
    have hresolver : (f.resolvers.inter s).isEmpty = false ↔ ∃ i ∈ f.resolvers, i ∈ s := by
      rw [SubgraphSet.isEmpty_eq_false_iff]
      simp only [SubgraphSet.mem_inter]
    simp [Resolved, hnode, hf, FieldSet.isEmpty, hresolver]

/-- A selection without selections below its fields can be resolved if each field has a resolver. -/
theorem canResolve_iff_resolved {type : Name} (hnode : g.types.get? type = some node)
    (hF : F.IsFlat) : g.canResolve s node F = true ↔ ∀ r ∈ g.reads type F, g.Resolved s r := by
  induction F generalizing type node with
  | empty => simp [canResolve, reads]
  | field n sub rest _ ih =>
    obtain ⟨rfl, hrest⟩ := hF
    rw [canResolve_field_iff hnode, reads, List.forall_mem_cons, ih hnode hrest]
  | fragment c sub rest ihs ihr =>
    rw [canResolve, reads, List.forall_mem_append, Bool.and_eq_true,
      ihs (get?_target hnode c) hF.1, ihr hnode hF.2]

/-! ### Accepted fields -/

/-- A leaf field of the type of a position that some subgraph in reach resolves or provides there.
-/
def Accepts (g : Graph) (p : Position) (node : TypeNode) (n : Name) : Prop :=
  ∃ f, node.fields.get? n = some f ∧ (g.nextAt p node n f).isEmpty = false ∧
    ∀ t, g.types.get? f.returns = some t → t.kind.isComposite = false

/-- A field that is selected for the objects of a position: on their type, or on an interface of
theirs that has the field. -/
def Concerns (g : Graph) (p : Position) (r : Name × Name) : Prop :=
  r.1 = p.type ∨ ∃ t f members, g.types.get? r.1 = some t ∧ t.fields.get? r.2 = some f ∧
    (p.type, members) ∈ g.possibleTypes r.1 t

/-- A selection on the type of a position that selects accepted leaf fields only. -/
structure SelectsAccepted (g : Graph) (p : Position) (node : TypeNode) (F : FieldSet) : Prop where
  flat : F.IsFlat
  concerns : ∀ r ∈ g.reads p.type F, g.Concerns p r
  accepts : ∀ r ∈ g.reads p.type F, g.Accepts p node r.2

/-- A field that is accepted although nobody in reach resolves it. -/
def OnlyProvided (g : Graph) (p : Position) (node : TypeNode) (n : Name) : Prop :=
  ∃ f, node.fields.get? n = some f ∧ (g.nextAt p node n f).isEmpty = false ∧
    ∀ i ∈ f.resolvers, i ∉ g.reach node p.resolving

/-- Whoever is asked for such a field provides it at the position. -/
theorem provided_of_not_resolved {n : Name} {f : FieldNode}
    (hnone : ∀ i ∈ f.resolvers, i ∉ g.reach node p.resolving) {i : SubgraphId}
    (hi : i ∈ g.nextAt p node n f) :
    i ∈ f.declaredIn ∧ ∃ F, p.provided.get? i = some F ∧ n ∈ F.fieldNames := by
  rw [nextAt, resolversAt, SubgraphSet.mem_filter] at hi
  obtain ⟨hreach, hi⟩ := hi
  have hnot : i ∉ f.resolvers := fun hres => hnone i hres hreach
  simpa [hnot, Option.any_eq_true] using hi

/-- A selected field that the check of keys and `@requires` misses: it is there only because it is
provided, or it is selected on an interface whose own field nobody in reach resolves. -/
def Overlooked (g : Graph) (p : Position) (node : TypeNode) (r : Name × Name) : Prop :=
  (r.1 = p.type ∧ g.OnlyProvided p node r.2) ∨
    (r.1 ≠ p.type ∧ ¬ g.Resolved (g.reach node p.resolving) r)

theorem resolved_iff_not_overlooked (hnode : g.types.get? p.type = some node) {r : Name × Name}
    (hr : g.Accepts p node r.2) :
    g.Resolved (g.reach node p.resolving) r ↔ ¬ g.Overlooked p node r := by
  by_cases htype : r.1 = p.type
  · obtain ⟨f, hf, hnext, _⟩ := hr
    have honly : g.OnlyProvided p node r.2 ↔ ∀ i ∈ f.resolvers, i ∉ g.reach node p.resolving := by
      simp [OnlyProvided, hf, hnext]
    have hresolved : g.Resolved (g.reach node p.resolving) r ↔
        ∃ i ∈ f.resolvers, i ∈ g.reach node p.resolving := by
      simp [Resolved, htype, hnode, hf]
    rw [hresolved, Overlooked, honly]
    simp [htype]
  · simp [Overlooked, htype]

/-- A selection of accepted fields can be resolved unless one of its fields is overlooked. -/
theorem canResolve_iff_not_overlooked (hnode : g.types.get? p.type = some node)
    (hF : g.SelectsAccepted p node F) : g.canResolve (g.reach node p.resolving) node F = true ↔
      ∀ r ∈ g.reads p.type F, ¬ g.Overlooked p node r := by
  rw [canResolve_iff_resolved hnode hF.flat]
  apply forall₂_congr
  intro r hr
  exact resolved_iff_not_overlooked hnode (hF.accepts r hr)

/-! ### Keys and requirements -/

/-- At a position, every resolvable key and every `@requires` that selects accepted fields only can
be resolved: the subgraph of the key is entered, and the one that requires something is asked for
its field if it resolves the field and is in reach. -/
structure CountsAccepted (g : Graph) (p : Position) (node : TypeNode) : Prop where
  key : ∀ e ∈ node.resolvableKeys, g.SelectsAccepted p node e.2.fields →
    g.canResolve (g.reach node p.resolving) node e.2.fields = true ∧
      e.1 ∈ g.reach node p.resolving
  required : ∀ n f i F, node.fields.get? n = some f → f.requires.get? i = some F →
    g.SelectsAccepted p node F →
    g.canResolve (g.reach node p.resolving) node F = true ∧
      (i ∈ f.resolvers → i ∈ g.reach node p.resolving → i ∈ g.nextAt p node n f)

/-- A selection that some resolvable key of a type or some `@requires` on it makes. -/
def Asked (node : TypeNode) (F : FieldSet) : Prop :=
  (∃ e ∈ node.resolvableKeys, e.2.fields = F) ∨
    ∃ n f i, node.fields.get? n = some f ∧ f.requires.get? i = some F

/-- Accepted fields count at a position if the selections that are made of them can be resolved. -/
theorem countsAccepted_iff_canResolve : g.CountsAccepted p node ↔ ∀ F, Asked node F →
    g.SelectsAccepted p node F → g.canResolve (g.reach node p.resolving) node F = true := by
  constructor
  · rintro h F (⟨e, he, rfl⟩ | ⟨n, f, i, hf, hreq⟩) hF
    · exact (h.key e he hF).1
    · exact (h.required n f i F hf hreq hF).1
  · intro h
    constructor
    · intro e he hF
      have hcan := h e.2.fields (.inl ⟨e, he, rfl⟩) hF
      -- Nobody is left outside whose key can be resolved in the end.
      exact ⟨hcan, closed_reach g node p.resolving e he hcan⟩
    · intro n f i F hf hreq hF
      have hcan := h F (.inr ⟨n, f, i, hf, hreq⟩) hF
      refine ⟨hcan, fun hres hreach => ?_⟩
      rw [nextAt, resolversAt, SubgraphSet.mem_filter]
      exact ⟨hreach, by simp [hres, hreq, hcan]⟩

/-- At some visited position, a key or a `@requires` that selects accepted fields only has an
overlooked field. -/
def HasOverlooked (g : Graph) : Prop :=
  ∃ p ∈ g.visited, ∃ node F r, g.types.get? p.type = some node ∧ Asked node F ∧
    g.SelectsAccepted p node F ∧ r ∈ g.reads p.type F ∧ g.Overlooked p node r

/-- **When accepted fields count**: at a position, a selection of accepted fields can be resolved
exactly if none of them is overlooked, and a field that is accepted although nobody in reach
resolves it is provided by everyone who is asked for it.  So what is accepted at the visited
positions counts there for every key and every `@requires` exactly if no such selection has an
overlooked field. -/
theorem countsAccepted_iff (g : Graph) :
    (∀ p node, g.types.get? p.type = some node →
      (∀ F, g.SelectsAccepted p node F →
        (g.canResolve (g.reach node p.resolving) node F = true ↔
          ∀ r ∈ g.reads p.type F, ¬ g.Overlooked p node r)) ∧
      ∀ n f, (∀ i ∈ f.resolvers, i ∉ g.reach node p.resolving) → ∀ i ∈ g.nextAt p node n f,
        i ∈ f.declaredIn ∧ ∃ F, p.provided.get? i = some F ∧ n ∈ F.fieldNames) ∧
    ((∀ p ∈ g.visited, ∀ node, g.types.get? p.type = some node → g.CountsAccepted p node) ↔
      ¬ g.HasOverlooked) := by
  refine ⟨?_, ?_, ?_⟩
  · intro p node hnode
    exact ⟨fun F hF => canResolve_iff_not_overlooked hnode hF,
      fun n f hnone i hi => provided_of_not_resolved hnone hi⟩
  · rintro h ⟨p, hp, node, F, r, hnode, hasked, hF, hr, hover⟩
    have hcan := countsAccepted_iff_canResolve.1 (h p hp node hnode) F hasked hF
    exact (canResolve_iff_not_overlooked hnode hF).1 hcan r hr hover
  · intro hno p hp node hnode
    apply countsAccepted_iff_canResolve.2
    intro F hasked hF
    rw [canResolve_iff_not_overlooked hnode hF]
    intro r hr hover
    exact hno ⟨p, hp, node, F, r, hnode, hasked, hF, hr, hover⟩

/-! ### A provided field that counts for nothing -/

/-- A field that is stuck where a root field arrives is reported with the way that leads there. -/
theorem exists_mem_unresolvables_of_mem_starts {r : RootField} (hr : r ∈ g.rootFields)
    {s : Path × Position} (hs : s ∈ g.starts r) {n : Name} {f : FieldNode}
    (hnode : g.types.get? s.2.type = some node) (hf : node.fields.get? n = some f)
    (hstuck : (g.nextAt s.2 node n f).isEmpty = true) (hresolved : f.resolvers.isEmpty = false) :
    ∃ u ∈ g.unresolvables, u.path = (s.1.field n).render := by
  have hstep : .stuck n f.resolvers ∈ g.steps s.2 :=
    stuck_mem_steps_iff.2 ⟨node, f, hnode, hf, hstuck, hresolved, rfl⟩
  have hx : ⟨s.1.field n, s.2.type, n, f.resolvers⟩ ∈ g.walk [] s.1 s.2 :=
    mem_walk_iff.2 ⟨List.not_mem_nil, _, hstep, by simp [report]⟩
  exact ⟨_, mem_unresolvables_iff.2 ⟨r, hr, s, hs, _, hx, rfl⟩, rfl⟩

/-- A root field whose subgraph provides a field below it, requires the same field there for another
one, and could enter the second subgraph with it. -/
def providedKeyBatch : List Subgraph := Subgraph.batchOfTexts
  [("a", "type Query \x7b t: T @provides(fields: \"x\") \x7d " ++
      "type T \x7b x: Int @external w: Int @requires(fields: \"x\") \x7d"),
    ("b", "type T @key(fields: \"x\") \x7b x: Int z: Int \x7d")]

/-- What the two subgraphs contribute. -/
def providedKeyContributions : List Schema :=
  ((schemas? providedKeyBatch).toOption.getD []).map Schema.contribution

/-- Their graph. -/
def providedKeyGraph : Graph := ofSchemas providedKeyContributions

/-- What there is to read off the graph: nothing is wrong with the batch; where the root field
arrives, the first subgraph is asked for the provided leaf field; the second one, which has a key
of that field, is out of reach; and nobody is asked for the field that requires the provided one,
nor for the other field of the second subgraph. -/
theorem providedKeyGraph_read :
    ((schemas? providedKeyBatch).isOk = true ∧ conflicts providedKeyContributions = []) ∧
    ∃ r ∈ providedKeyGraph.rootFields, ∃ s ∈ providedKeyGraph.starts r,
      ∃ node ∈ providedKeyGraph.types.get? s.2.type,
      ∃ x ∈ node.fields.entries,
        ((providedKeyGraph.nextAt s.2 node x.1 x.2).isEmpty = false ∧
          providedKeyGraph.types.get? x.2.returns = none) ∧
        (∃ e ∈ node.resolvableKeys, e.1 ∉ providedKeyGraph.reach node s.2.resolving ∧
          e.2.fields = .field x.1 .empty .empty) ∧
        (∃ w ∈ node.fields.entries, (s.1.field w.1).render = "Query.t.w" ∧
          (providedKeyGraph.nextAt s.2 node w.1 w.2).isEmpty = true ∧ 0 ∈ w.2.resolvers ∧
          w.2.requires.get? 0 = some (.field x.1 .empty .empty) ∧
          0 ∈ providedKeyGraph.reach node s.2.resolving) ∧
        ∃ z ∈ node.fields.entries, (s.1.field z.1).render = "Query.t.z" ∧
          (providedKeyGraph.nextAt s.2 node z.1 z.2).isEmpty = true ∧
          z.2.resolvers.isEmpty = false := by decide +kernel

/-- The provided field is accepted, and still the key that selects it is not entered, and the
subgraph that requires it is not asked. -/
theorem not_countsAccepted_providedKey :
    ((schemas? providedKeyBatch).isOk = true ∧ conflicts providedKeyContributions = []) ∧
    (∃ p ∈ providedKeyGraph.visited, ∃ node, providedKeyGraph.types.get? p.type = some node ∧
      (∃ e ∈ node.resolvableKeys, providedKeyGraph.SelectsAccepted p node e.2.fields ∧
        e.1 ∉ providedKeyGraph.reach node p.resolving) ∧
      (∃ n f i F, node.fields.get? n = some f ∧ f.requires.get? i = some F ∧
        providedKeyGraph.SelectsAccepted p node F ∧ i ∈ f.resolvers ∧
        i ∈ providedKeyGraph.reach node p.resolving ∧ i ∉ providedKeyGraph.nextAt p node n f) ∧
      ¬ providedKeyGraph.CountsAccepted p node) ∧
    (∃ u ∈ providedKeyGraph.unresolvables, u.path = "Query.t.w") ∧
    ∃ u ∈ providedKeyGraph.unresolvables, u.path = "Query.t.z" := by
  obtain ⟨hok, r, hr, s, hs, node, hnode, x, hx, ⟨hnext, hleaf⟩, ⟨e, he, hout, hkey⟩,
    ⟨w, hw, hwpath, hwstuck, hres, hreq, hreach⟩, z, hz, hzpath, hzstuck, hzres⟩ :=
      providedKeyGraph_read
  have haccepts : providedKeyGraph.Accepts s.2 node x.1 :=
    ⟨x.2, Table.get?_eq_some_iff.2 hx, hnext, by simp [hleaf]⟩
  have hselects : providedKeyGraph.SelectsAccepted s.2 node (.field x.1 .empty .empty) :=
    ⟨⟨rfl, trivial⟩, by simp [reads, Concerns], by simpa [reads] using haccepts⟩
  have hkeyselects : providedKeyGraph.SelectsAccepted s.2 node e.2.fields := by rwa [hkey]
  have hwf := Table.get?_eq_some_iff.2 hw
  have hnot : 0 ∉ providedKeyGraph.nextAt s.2 node w.1 w.2 := SubgraphSet.isEmpty_iff.1 hwstuck 0
  have hwres : w.2.resolvers.isEmpty = false := SubgraphSet.isEmpty_eq_false_iff.2 ⟨0, hres⟩
  refine ⟨hok, ⟨s.2, ⟨r, hr, s.1, .start hs⟩, node, hnode, ?_, ?_, ?_⟩, ?_, ?_⟩
  · exact ⟨e, he, hkeyselects, hout⟩
  · exact ⟨w.1, w.2, 0, _, hwf, hreq, hselects, hres, hreach, hnot⟩
  · intro hcounts
    exact hout (hcounts.key e he hkeyselects).2
  · exact hwpath ▸ exists_mem_unresolvables_of_mem_starts hr hs hnode hwf hwstuck hwres
  · exact hzpath ▸ exists_mem_unresolvables_of_mem_starts hr hs hnode
      (Table.get?_eq_some_iff.2 hz) hzstuck hzres

end Graph

end Federation
